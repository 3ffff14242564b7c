import Ovni.Patch.Rows
import Ovni.System.Invariant

/-!
# Runs of the emulator

The threads and CPUs with a bay of any modules.  A step runs some events, with
the writes of the models among them, and then propagates the bay; the modules
only write channels of their own.
-/

namespace Ovni

open Ovni.Lib

/-! ## Steps -/

/-- The emulator over a bay with muxes, sort modules and traces. -/
abbrev PatchEmu (θ γ ξ μ ς ρ φ : Type) := Emu θ γ ξ μ (Hook ς ρ) (Sinks ς ρ φ)

/-- What an event does before the bay propagates: thread and affinity events, the mark
of a thread out of its CPU, and the writes of the models. -/
inductive EmuAct (θ γ ξ : Type) where
  | event (ev : SysEvent θ)
  | outOfCpu (t : θ) (out : Bool)
  | write (op : ChanOp (EmuChan θ γ ξ))

/-- The channels when they are registered; those of the models are given. -/
def emuChanInit {θ γ ξ : Type} (model : ξ → Chan) : EmuChan θ γ ξ → Chan
  | .thread _ k => threadChanInit k
  | .cpu _ k => cpuChanInit k
  | .model x => model x

theorem emuChanInit_unregistered {θ γ ξ : Type} {model : ξ → Chan}
    (h : ∀ x, Unregistered (model x)) (c : EmuChan θ γ ξ) :
    Unregistered (emuChanInit model c) := by
  cases c with
  | thread t k =>
      cases k with
      | cpu => exact .init .single
      | tid => exact .prop false false true (.init .single)
      | state => exact .init .single
  | cpu c k => exact .prop false false true (.init .single)
  | model x => exact h x

/-- The channels of the system are null at the start. -/
theorem emuChanInit_sys {θ γ ξ : Type} (model : ξ → Chan) {c : EmuChan θ γ ξ} (h : c.IsSys) :
    chanRead (emuChanInit model c) = .null := by
  cases c with
  | thread t k => cases k <;> rfl
  | cpu c k => rfl
  | model x => exact h.elim

theorem emuChanInit_clean {θ γ ξ : Type} {model : ξ → Chan}
    (h : ∀ x, (model x).isDirty = false) (c : EmuChan θ γ ξ) :
    (emuChanInit model c).isDirty = false := by
  cases c with
  | thread t k => cases k <;> rfl
  | cpu c k => rfl
  | model x => exact h x

/-- The emulator before the first event. -/
def emuInit {θ γ ξ μ ν τ : Type} (world : MuxWorld (EmuChan θ γ ξ) μ ν τ) : Emu θ γ ξ μ ν τ :=
  { th := fun _ => threadInit, cpu := fun _ => cpuInit, world }

section

variable {θ γ π ℓ ξ μ ς ρ φ : Type} [DecidableEq θ] [DecidableEq γ] [DecidableEq ξ]

/-- One action. -/
def EmuAct.run {ν τ : Type} (sys : System θ γ π ℓ) (act : EmuAct θ γ ξ) (e : Emu θ γ ξ μ ν τ) :
    Except EmuFault (Emu θ γ ξ μ ν τ) :=
  match act with
  | .event ev => modelOvniEvent sys e ev
  | .outOfCpu t out => .ok (e.setTh t { e.th t with isOutOfCpu := out })
  | .write op => do return { e with world := { e.world with bay := ← op.run e.world.bay } }

/-- The actions of a step. -/
def runActs {ν τ : Type} (sys : System θ γ π ℓ) :
    List (EmuAct θ γ ξ) → Emu θ γ ξ μ ν τ → Except EmuFault (Emu θ γ ξ μ ν τ)
  | [], e => .ok e
  | act :: acts, e => do runActs sys acts (← act.run sys e)

variable [DecidableEq μ] [DecidableEq ς] [DecidableEq ρ] [DecidableEq φ]

/-- The runs of the emulator: `emu_connect`, and then any steps.  The models write
channels of their own. -/
inductive EmuRun (sys : System θ γ π ℓ) (p : Patch (EmuChan θ γ ξ) μ ς ρ φ)
    (parts : List (Part μ ς ρ)) (model : ξ → Chan) : PatchEmu θ γ ξ μ ς ρ φ → Prop where
  | connect {w : PatchWorld (EmuChan θ γ ξ) μ ς ρ φ} (hchan : ∀ x, Unregistered (model x))
      (hclean : ∀ x, (model x).isDirty = false) (honce : parts.Nodup)
      (hrun : connectParts p parts (patchInit (emuChanInit model)) = .ok w) :
      EmuRun sys p parts model (emuInit w)
  | step {e e1 : PatchEmu θ γ ξ μ ς ρ φ} {acts : List (EmuAct θ γ ξ)}
      {w : PatchWorld (EmuChan θ γ ξ) μ ς ρ φ} {fuel : Nat} (h : EmuRun sys p parts model e)
      (hsource : ∀ op, .write op ∈ acts →
        (∃ x, op.chan = .model x) ∧ ∀ part ∈ parts, op.chan ∉ p.partOuts part)
      (hacts : runActs sys acts e = .ok e1)
      (hrun : bayPropagate p.net.call fuel e1.world = .ok w) :
      EmuRun sys p parts model { e1 with world := w }

/-! ## The channels of the system -/

variable {sys : System θ γ π ℓ} {p : Patch (EmuChan θ γ ξ) μ ς ρ φ} {parts : List (Part μ ς ρ)}
  {model : ξ → Chan} {e e' : PatchEmu θ γ ξ μ ς ρ φ} {w w' : PatchWorld (EmuChan θ γ ξ) μ ς ρ φ}
  {c : EmuChan θ γ ξ}

omit [DecidableEq θ] [DecidableEq γ] [DecidableEq ξ] in
/-- The modules leave the channels that they do not write as they were registered. -/
theorem connect_chan {χ : Type} [DecidableEq χ] {p : Patch χ μ ς ρ φ} {chan : χ → Chan}
    {w : PatchWorld χ μ ς ρ φ} {c : χ} (hclean : ∀ c, (chan c).isDirty = false)
    (honce : parts.Nodup) (hout : ∀ part ∈ parts, c ∉ p.partOuts part)
    (hrun : connectParts p parts (patchInit chan) = .ok w) : w.bay.chan c = chan c := by
  obtain ⟨hinit, hreg⟩ := patchInit_connected (p := p) hclean
  obtain ⟨-, -, hsame⟩ := connectParts_inv
    (fun done w => (∀ part ∈ done, part ∈ parts) → w.bay.chan c = chan c)
    (fun done part w w' _ _ hsame hpart hall => by
      rw [connectPart_other (hout part (hall part (by simp))) hpart]
      exact hsame fun part hmem => hall part (List.mem_append_left _ hmem))
    hinit hreg (fun _ => rfl) (by simpa using honce) hrun
  exact hsame (by simp)

/-- The bay of the emulator once it is connected. -/
theorem SysBay.connect (hsys : ∀ part ∈ parts, ∀ c ∈ p.partOuts part, ¬ c.IsSys)
    (hchan : ∀ x, Unregistered (model x)) (hclean : ∀ x, (model x).isDirty = false)
    (honce : parts.Nodup) (hrun : connectParts p parts (patchInit (emuChanInit model)) = .ok w) :
    PatchReady p parts w ∧ SysBay w.bay ∧
      ∀ c : EmuChan θ γ ξ, c.IsSys → w.bay.chan c = emuChanInit model c := by
  have hready := PatchReady.connect (emuChanInit_unregistered hchan) (emuChanInit_clean hclean)
    honce hrun
  have hsame' : ∀ c : EmuChan θ γ ξ, c.IsSys → w.bay.chan c = emuChanInit model c := fun c hc =>
    connect_chan (emuChanInit_clean hclean) honce (fun part hpart hmem => hsys part hpart c hmem hc)
      hrun
  have hflags : ∀ c : EmuChan θ γ ξ, c.IsSys → (w.bay.chan c).type = .single ∧
      (w.bay.chan c).dirtyWrite = false ∧ (w.bay.chan c).allowDup = false ∧
      (w.bay.chan c).isDirty = false := by
    intro c hc
    rw [hsame' c hc]
    cases c with
    | thread t k => cases k <;> exact ⟨rfl, rfl, rfl, rfl⟩
    | cpu c k => exact ⟨rfl, rfl, rfl, rfl⟩
    | model x => exact absurd hc id
  refine ⟨hready, ⟨fun c hc => (hflags c hc).1, fun c hc => (hflags c hc).2.1,
    fun c hc => (hflags c hc).2.2.1, hready.flushed, fun c hc hd => ?_⟩, hsame'⟩
  rw [(hflags c hc).2.2.2] at hd
  cases hd

omit [DecidableEq θ] [DecidableEq γ] [DecidableEq ξ] in
/-- A propagation does not write the channels that are no outputs. -/
theorem PatchReady.propagate_read {χ : Type} [DecidableEq χ] {p : Patch χ μ ς ρ φ}
    {w w' : PatchWorld χ μ ς ρ φ} {fuel : Nat} (h : PatchReady p parts w)
    (hrun : bayPropagate p.net.call fuel w = .ok w') (c : χ) :
    (w'.bay.chan c).type = (w.bay.chan c).type ∧
      (w'.bay.chan c).dirtyWrite = (w.bay.chan c).dirtyWrite ∧
      (w'.bay.chan c).allowDup = (w.bay.chan c).allowDup ∧
      (¬ p.Out parts c → w'.bay.read c = w.bay.read c) := by
  obtain ⟨w1, w2, -, -, -, hg, -, hsame, rfl⟩ := h.phases hrun
  have hchan : w2.bay.chan = w1.bay.chan := by
    rw [hsame]
    rfl
  have hlike := hg.like c
  refine ⟨?_, ?_, ?_, fun hout => ?_⟩
  · simp only [hchan]
    split
    · exact hlike.type
    · exact hlike.type
  · simp only [hchan]
    split
    · exact hlike.dirtyWrite
    · exact hlike.dirtyWrite
  · simp only [hchan]
    split
    · exact hlike.allowDup
    · exact hlike.allowDup
  · have hread : w1.bay.read c = w.bay.read c := hg.read_of_not_src hout
    rw [← hread]
    unfold Bay.read
    simp only [hchan]
    split
    · rfl
    · rfl

/-! ## Steps keep the system in order -/

omit [DecidableEq θ] [DecidableEq γ] [DecidableEq ξ] [DecidableEq μ] [DecidableEq ς]
  [DecidableEq ρ] [DecidableEq φ] in
/-- What is not seen of a thread: whether it is out of its CPU. -/
theorem SysOk.frame (h : SysOk sys e) (hb : SysBay e'.world.bay)
    (hth : ∀ t, ∃ out, e'.th t = { e.th t with isOutOfCpu := out })
    (hcpu : e'.cpu = e.cpu) (hread : ∀ c : EmuChan θ γ ξ, c.IsSys → e'.read c = e.read c) :
    SysOk sys e' := by
  have hfields : ∀ t, (e'.th t).state = (e.th t).state ∧ (e'.th t).cpu = (e.th t).cpu ∧
      (e'.th t).isActive = (e.th t).isActive ∧ (e'.th t).isRunning = (e.th t).isRunning := by
    intro t
    obtain ⟨out, heq⟩ := hth t
    rw [heq]
    exact ⟨rfl, rfl, rfl, rfl⟩
  have hstate := fun t => (hfields t).1
  have hcpus := fun t => (hfields t).2.1
  have hactive := fun t => (hfields t).2.2.1
  refine ⟨hb, fun t => ⟨?_, ?_, ?_, ?_, ?_⟩, fun t => ?_, fun t c => ?_, fun c => ?_, fun c => ?_⟩
  · rw [hstate]
    exact (hfields t).2.2.2.trans (h.thread t).running
  · rw [hstate, hactive]
    exact (h.thread t).active
  · rw [hread (.thread t .state) trivial, hstate]
    exact (h.thread t).stateChan
  · rw [hread (.thread t .tid) trivial, hactive]
    exact (h.thread t).tidChan
  · rw [hread (.thread t .cpu) trivial, hcpus]
    exact (h.thread t).cpuChan
  · rw [hcpus, hstate]
    exact h.idle t
  · rw [hcpu, hcpus]
    exact h.mem t c
  · rw [hcpu]
    exact h.nodup c
  · exact (h.cpu c).congr (by rw [hcpu]) (fun t _ => hstate t) fun k => hread _ trivial

/-- What is kept by the actions of a step. -/
structure EmuOk (sys : System θ γ π ℓ) (p : Patch (EmuChan θ γ ξ) μ ς ρ φ)
    (parts : List (Part μ ς ρ)) (e : PatchEmu θ γ ξ μ ς ρ φ) : Prop where
  ready : PatchReady p parts e.world
  sys : SysOk sys e

theorem EmuOk.act {act : EmuAct θ γ ξ} (h : EmuOk sys p parts e)
    (hsource : ∀ op, act = .write op → ∃ x, op.chan = .model x) (hrun : act.run sys e = .ok e') :
    EmuOk sys p parts e' := by
  cases act with
  | event ev =>
      obtain ⟨heff, hok⟩ := h.sys.event hrun
      obtain ⟨ops, -, hops⟩ := heff.ops
      refine ⟨?_, hok⟩
      have hready := h.ready.writeAll hops
      rw [← heff.mod] at hready
      exact hready
  | outOfCpu t out =>
      rw [← Except.ok.inj hrun]
      refine ⟨h.ready, h.sys.frame h.sys.bay (fun t' => ?_) rfl fun _ _ => rfl⟩
      by_cases htt : t' = t
      · exact ⟨out, by simp [Emu.setTh, htt]⟩
      · exact ⟨(e.th t').isOutOfCpu, by simp [Emu.setTh, Function.update_of_ne htt]⟩
  | write op =>
      obtain ⟨b, hop, hrun⟩ := bind_ok hrun
      rw [← Except.ok.inj hrun]
      obtain ⟨x, hx⟩ := hsource op rfl
      have hready := h.ready.write (show (BayOp.write op).run e.world.bay = .ok b from hop)
      refine ⟨hready, h.sys.frame (h.sys.bay.op hop) (fun _ => ⟨_, rfl⟩) rfl fun c hc => ?_⟩
      rcases op.run_ok hop with rfl | ⟨chan, -, rfl⟩
      · rfl
      · apply Bay.touch_read_of_ne _
        rintro rfl
        rw [hx] at hc
        exact hc

theorem EmuOk.acts {acts : List (EmuAct θ γ ξ)} (h : EmuOk sys p parts e)
    (hsource : ∀ op, .write op ∈ acts → ∃ x, op.chan = .model x)
    (hrun : runActs sys acts e = .ok e') : EmuOk sys p parts e' := by
  induction acts generalizing e with
  | nil =>
      rw [runActs] at hrun
      rw [← Except.ok.inj hrun]
      exact h
  | cons act acts ih =>
      rw [runActs] at hrun
      obtain ⟨e1, h1, hrun⟩ := bind_ok hrun
      refine ih (h.act (fun op hact => hsource op (by simp [hact])) h1)
        (fun op hop => hsource op (List.mem_cons_of_mem _ hop)) hrun

theorem EmuOk.propagate (hsys : ∀ part ∈ parts, ∀ c ∈ p.partOuts part, ¬ c.IsSys) {fuel : Nat}
    (h : EmuOk sys p parts e) (hrun : bayPropagate p.net.call fuel e.world = .ok w) :
    EmuOk sys p parts { e with world := w } := by
  obtain ⟨hready, -, hclean⟩ := h.ready.propagate hrun
  have hout : ∀ c : EmuChan θ γ ξ, c.IsSys → ¬ p.Out parts c := fun c hc =>
    not_out_of_partOuts fun part hpart hmem => hsys part hpart c hmem hc
  have hread := h.ready.propagate_read hrun
  refine ⟨hready, h.sys.frame ⟨fun c hc => ?_, fun c hc => ?_, fun c hc => ?_, hready.flushed,
    fun c _ hd => ?_⟩ (fun _ => ⟨_, rfl⟩) rfl fun c hc => (hread c).2.2.2 (hout c hc)⟩
  · exact (hread c).1.trans (h.sys.bay.type c hc)
  · exact (hread c).2.1.trans (h.sys.bay.once c hc)
  · exact (hread c).2.2.1.trans (h.sys.bay.distinct c hc)
  · rw [hclean c] at hd
    cases hd

omit [DecidableEq θ] [DecidableEq γ] [DecidableEq ξ] [DecidableEq μ] [DecidableEq ς]
  [DecidableEq ρ] [DecidableEq φ] in
/-- The system before the first event. -/
theorem SysOk.init (hb : SysBay w.bay)
    (hchan : ∀ c : EmuChan θ γ ξ, c.IsSys → w.bay.chan c = emuChanInit model c) :
    SysOk sys (emuInit w : PatchEmu θ γ ξ μ ς ρ φ) := by
  have hread : ∀ c : EmuChan θ γ ξ, c.IsSys → w.bay.read c = .null := by
    intro c hc
    unfold Bay.read
    rw [hchan c hc]
    exact emuChanInit_sys model hc
  refine ⟨hb, fun t => ⟨rfl, rfl, ?_, ?_, ?_⟩, fun t => ?_, fun t c => ?_, fun c => ?_, fun c => ?_⟩
  · exact hread _ trivial
  · exact hread _ trivial
  · exact hread _ trivial
  · simp [emuInit, threadInit]
  · simp [emuInit, threadInit, cpuInit]
  · exact List.nodup_nil
  · refine ⟨rfl, fun _ => by simp [emuInit, cpuInit, runningIn], fun hup => ?_,
      fun _ => ⟨rfl, fun k => hread _ trivial⟩⟩
    cases hup

theorem EmuRun.ok (hsys : ∀ part ∈ parts, ∀ c ∈ p.partOuts part, ¬ c.IsSys)
    (h : EmuRun sys p parts model e) : EmuOk sys p parts e := by
  induction h with
  | connect hchan hclean honce hrun =>
      obtain ⟨hready, hb, hinit⟩ := SysBay.connect hsys hchan hclean honce hrun
      exact ⟨hready, SysOk.init hb hinit⟩
  | step _ hsource hacts hrun ih =>
      exact (ih.acts (fun op hop => (hsource op hop).1) hacts).propagate hsys hrun

/-- In every run the threads and the CPUs agree: a thread is in the list of its CPU,
once, and in no other; only the threads that never ran or are dead have no CPU; the
flags and channels of a thread follow its state and CPU; the fields of a CPU, and its
channels once it was updated, are computed from its list; and a physical CPU has at
most one running thread. -/
theorem threads_cpus_agree (hsys : ∀ part ∈ parts, ∀ c ∈ p.partOuts part, ¬ c.IsSys)
    (h : EmuRun sys p parts model e) :
    (∀ t c, (e.th t).cpu = some c ↔ t ∈ (e.cpu c).threads) ∧
      (∀ c, (e.cpu c).threads.Nodup) ∧
      (∀ t, (e.th t).cpu = none ↔ (e.th t).state = .unknown ∨ (e.th t).state = .dead) ∧
      (∀ t, ThreadOk sys e t) ∧ ∀ c, CpuOk sys e c := by
  have hok := (h.ok hsys).sys
  exact ⟨fun t c => (hok.mem t c).symm, hok.nodup, hok.idle, hok.thread, hok.cpu⟩

end

/-! ## Two threads and two CPUs -/

/-- Two threads of a process, and a loom with a physical CPU and its virtual CPU `true`. -/
def demoSystem : System Bool Bool Unit Unit where
  threads := [false, true]
  gindex t := t.toNat
  gindex_spec t := by cases t <;> rfl
  tid t := 100 + t.toNat
  proc _ := ()
  pid _ := 100
  loom _ := ()
  procThreads _ := [false, true]
  loomProcs _ := [()]
  cpuGindex c := c.toNat
  isVirtual c := c
  vcpu _ := true
  cpusArray _ := [false]

/-- An event with its words in the payload. -/
def demoEvent (t : Bool) (c v : Char) (words : List Int) : SysEvent Bool :=
  { thread := t, c, v, payloadSize := 4 * words.length, i32 := fun i => words.getD i 0 }

section

variable {ξ μ ς ρ φ : Type} [DecidableEq ξ] [DecidableEq μ] [DecidableEq ς] [DecidableEq ρ]
  [DecidableEq φ] (p : Patch (EmuChan Bool Bool ξ) μ ς ρ φ)

/-- The emulator after some actions, before the bay propagates. -/
def demoActed (e : PatchEmu Bool Bool ξ μ ς ρ φ) (acts : List (EmuAct Bool Bool ξ)) :
    PatchEmu Bool Bool ξ μ ς ρ φ :=
  okOr e (runActs demoSystem acts e)

/-- A step with these actions. -/
def demoStep (e : PatchEmu Bool Bool ξ μ ς ρ φ) (acts : List (EmuAct Bool Bool ξ)) :
    PatchEmu Bool Bool ξ μ ς ρ φ :=
  { demoActed e acts with
    world := okOr (demoActed e acts).world (bayPropagate p.net.call 20 (demoActed e acts).world) }

/-- Steps that all succeed. -/
def demoStepsOk (e : PatchEmu Bool Bool ξ μ ς ρ φ) : List (List (EmuAct Bool Bool ξ)) → Bool
  | [] => true
  | acts :: steps =>
      (runActs demoSystem acts e).isOk &&
      (bayPropagate p.net.call 20 (demoActed e acts).world).isOk &&
      demoStepsOk (demoStep p e acts) steps

variable {p} {parts : List (Part μ ς ρ)} {model : ξ → Chan}

/-- Steps that succeed continue a run. -/
theorem demoSteps_run {steps : List (List (EmuAct Bool Bool ξ))} {e : PatchEmu Bool Bool ξ μ ς ρ φ}
    (h : EmuRun demoSystem p parts model e)
    (hsource : ∀ acts ∈ steps, ∀ op, .write op ∈ acts →
      (∃ x, op.chan = .model x) ∧ ∀ part ∈ parts, op.chan ∉ p.partOuts part)
    (hok : demoStepsOk p e steps = true) :
    EmuRun demoSystem p parts model (steps.foldl (demoStep p) e) := by
  induction steps generalizing e with
  | nil => exact h
  | cons acts steps ih =>
      simp only [demoStepsOk, Bool.and_eq_true] at hok
      obtain ⟨⟨hact, hprop⟩, hrest⟩ := hok
      rw [List.forall_mem_cons] at hsource
      have hstep := h.step hsource.1 (eq_okOr e hact) (eq_okOr (demoActed e acts).world hprop)
      exact ih hstep hsource.2 hrest

end

/-- A bay without modules. -/
def bareBay : Patch (EmuChan Bool Bool Empty) Empty Empty Empty Empty :=
  { mux := Empty.elim, sort := Empty.elim, rchan := Empty.elim, nrows := Empty.elim }

/-- The two threads before any event. -/
def bareInit : PatchEmu Bool Bool Empty Empty Empty Empty Empty :=
  emuInit (patchInit (emuChanInit Empty.elim))

theorem bareInit_run : EmuRun demoSystem bareBay [] Empty.elim bareInit :=
  .connect Empty.rec Empty.rec List.nodup_nil rfl

/-- A bay with a mux that follows the thread that runs on the physical CPU. -/
def followBay : Patch (EmuChan Bool Bool (Option Bool)) Unit Empty Empty Empty where
  mux _ :=
    { select := .cpu false .thrun, output := .model none,
      inputs := [some (.model (some false)), some (.model (some true))], selectFunc := none,
      def_ := .null }
  sort := Empty.elim
  rchan := Empty.elim
  nrows := Empty.elim

/-- The emulator with that bay, connected. -/
def followInit : PatchEmu Bool Bool (Option Bool) Unit Empty Empty Empty :=
  emuInit (okOr (patchInit (emuChanInit fun _ => chanInit .single))
    (connectParts followBay [.mux ()] (patchInit (emuChanInit fun _ => chanInit .single))))

/-- Both threads execute, the first one on the physical CPU and the second one on the virtual
CPU.  The first one is paused, and the second one moves to the physical CPU. -/
def followSteps : List (List (EmuAct Bool Bool (Option Bool))) :=
  [[.event (demoEvent false 'H' 'x' [0])], [.event (demoEvent true 'H' 'x' [-1])],
    [.event (demoEvent false 'H' 'p' [])], [.event (demoEvent true 'A' 's' [0])]]

/-- The emulator after these steps. -/
def followEnd : PatchEmu Bool Bool (Option Bool) Unit Empty Empty Empty :=
  followSteps.foldl (demoStep followBay) followInit

/-- Both threads are in the list of the physical CPU, where the second one runs. -/
theorem threads_cpus_agree_demo :
    (followEnd.cpu false).threads = [false, true] ∧ (followEnd.th false).cpu = some false ∧
      (followEnd.th true).cpu = some false ∧ (followEnd.cpu false).threads.Nodup ∧
      (∀ t, ThreadOk demoSystem followEnd t) ∧ (∀ c, CpuOk demoSystem followEnd c) ∧
      followEnd.read (.cpu false .tid) = .int64 101 ∧
      followEnd.read (.cpu true .nrun) = .int64 0 := by
  have hinit : EmuRun demoSystem followBay [.mux ()] (fun _ => chanInit .single) followInit :=
    .connect (fun _ => .init _) (fun _ => rfl) (by decide) (eq_okOr _ (by decide +kernel))
  have hrun : EmuRun demoSystem followBay [.mux ()] (fun _ => chanInit .single) followEnd :=
    demoSteps_run hinit (by simp [followSteps]) (by decide +kernel)
  have hsys : ∀ part ∈ ([.mux ()] : List (Part Unit Empty Empty)),
      ∀ c ∈ followBay.partOuts part, ¬ c.IsSys := by
    intro part hpart c hc
    rw [List.mem_singleton.mp hpart] at hc
    rw [List.mem_singleton.mp hc]
    exact id
  have hlist : (followEnd.cpu false).threads = [false, true] := by decide +kernel
  obtain ⟨hmem, hnodup, -, hthread, hcpu⟩ := threads_cpus_agree hsys hrun
  refine ⟨hlist, (hmem false false).mpr ?_, (hmem true false).mpr ?_, hnodup false, hthread, hcpu,
    by decide +kernel, by decide +kernel⟩
  · rw [hlist]
    exact List.mem_cons_self
  · rw [hlist]
    exact List.mem_cons_of_mem _ List.mem_cons_self

end Ovni
