import Ovni.Patch.Settle
import Ovni.System.Run

/-!
# Tracks

`emu/track.c` and the connections of `emu/model_thread.c` and `emu/model_cpu.c`: the
muxes that show a channel of a thread only while the thread is running, or active,
and those that show in each CPU the channel of its running thread.  The select
channels belong to the threads and CPUs, and may change in the same step as the
channels that are followed.
-/

namespace Ovni

open Ovni.Lib

/-! ## The muxes of the tracks -/

/-- The select function of a thread track that shows its input in some states. -/
def threadSelect {χ : Type} (states : List ThreadState) : SelectFunc χ := fun ninputs _ value =>
  match value with
  | .null => .ok none
  | .double _ => .error "expecting NULL or INT64 channel value"
  | .int64 i =>
      if ninputs ≠ 1 then .error "mux doesn't have one input"
      else if states.any fun state => state.toInt = i then .ok (some 0)
      else .ok none

/-- `thread_select_active`. -/
def threadSelectActive {χ : Type} : SelectFunc χ := threadSelect [.running, .cooling, .warming]

/-- `thread_select_running`. -/
def threadSelectRunning {χ : Type} : SelectFunc χ := threadSelect [.running]

/-- The modes of `enum track_th` that make a mux. -/
inductive TrackTh where
  | run
  | act
  deriving DecidableEq

/-- The select function that `track_th_input_chan` takes for a mode. -/
def TrackTh.select {χ : Type} : TrackTh → SelectFunc χ
  | .run => threadSelectRunning
  | .act => threadSelectActive

/-- A track, with the channels of the models that it follows and its output. -/
inductive Track (θ γ ξ : Type) where
  | thread (mode : TrackTh) (t : θ) (inp out : ξ)
  | cpu (c : γ) (inp : θ → ξ) (out : ξ) (def_ : Value)

section

variable {θ γ π ℓ ξ μ ς ρ φ : Type}

/-- The output of a track. -/
def Track.out : Track θ γ ξ → ξ
  | .thread _ _ _ out => out
  | .cpu _ _ out _ => out

/-- The channels of the models that a track follows. -/
def Track.Follows : Track θ γ ξ → ξ → Prop
  | .thread _ _ inp _ => fun x => x = inp
  | .cpu _ inp _ _ => fun x => ∃ t, x = inp t

/-- The mux of a track: `track_th_input_chan` for a thread and `connect_cpu` for a CPU,
where each thread is the input of its global index. -/
def Track.mux (sys : System θ γ π ℓ) : Track θ γ ξ → Mux (EmuChan θ γ ξ)
  | .thread mode t inp out =>
      { select := .thread t .state, output := .model out, inputs := [some (.model inp)],
        selectFunc := some mode.select, def_ := .null }
  | .cpu c inp out def_ =>
      { select := .cpu c .thrun, output := .model out,
        inputs := sys.threads.map fun t => some (.model (inp t)), selectFunc := none, def_ }

/-- Whether the mode shows the channel of a thread in a state. -/
def TrackTh.shows : TrackTh → ThreadState → Bool
  | .run, state => state = .running
  | .act, state => state.isActive

/-- What a track shows: the channel of a running or active thread, or that of the only
running thread of a CPU. -/
def Track.value {ν τ : Type} (e : Emu θ γ ξ μ ν τ) : Track θ γ ξ → Value
  | .thread mode t inp _ => if mode.shows (e.th t).state then e.read (.model inp) else .null
  | .cpu c inp _ def_ =>
      match sole (runningIn e.state (e.cpu c).threads) with
      | some t => e.read (.model (inp t))
      | none => def_

/-! ## What the select functions choose -/

variable {sys : System θ γ π ℓ}

theorem threadSelect_state {χ : Type} (states : List ThreadState) (read : χ → Value)
    (state : ThreadState) :
    threadSelect states 1 read (.int64 state.toInt) =
      .ok (if state ∈ states then some 0 else none) := by
  have hany : (states.any fun s => s.toInt = state.toInt) = decide (state ∈ states) := by
    rw [Bool.eq_iff_iff, List.any_eq_true, decide_eq_true_eq]
    constructor
    · rintro ⟨s, hs, heq⟩
      have : s = state := by
        revert heq
        cases s <;> cases state <;> simp [ThreadState.toInt]
      exact this ▸ hs
    · intro hs
      exact ⟨state, hs, by simp⟩
  unfold threadSelect
  simp only [hany, ne_eq, not_true_eq_false, if_false]
  by_cases hs : state ∈ states
  · simp [hs]
  · simp [hs]

theorem TrackTh.select_state {χ : Type} (mode : TrackTh) (read : χ → Value)
    (state : ThreadState) :
    mode.select 1 read (.int64 state.toInt) =
      .ok (if mode.shows state then some 0 else none) := by
  cases mode with
  | run =>
      apply (threadSelect_state _ read state).trans
      cases state <;> rfl
  | act =>
      apply (threadSelect_state _ read state).trans
      cases state <;> rfl

/-- The select functions of the tracks only look at the value. -/
theorem Track.pure (tr : Track θ γ ξ) (read : EmuChan θ γ ξ → Value) (v : Value) :
    selectInput (tr.mux sys) read v = selectInput (tr.mux sys) (fun _ => .null) v := by
  cases tr with
  | thread mode t inp out =>
      cases mode <;> cases v <;> rfl
  | cpu c inp out def_ => cases v <;> rfl

theorem Track.output (tr : Track θ γ ξ) : (tr.mux sys).output = .model tr.out := by
  cases tr <;> rfl

variable (sys) in
theorem Track.isSys_select (tr : Track θ γ ξ) : (tr.mux sys).select.IsSys := by
  cases tr <;> trivial

/-- The inputs of a track. -/
theorem Track.input (tr : Track θ γ ξ) {i : Nat} {c : EmuChan θ γ ξ}
    (h : (tr.mux sys).input i = some c) : ∃ x, tr.Follows x ∧ c = .model x := by
  have hmem := Mux.mem_inputs_of_input h
  cases tr with
  | thread mode t inp out =>
      rw [Track.mux, List.mem_singleton, Option.some.injEq] at hmem
      exact ⟨inp, rfl, hmem⟩
  | cpu c' inp out def_ =>
      rw [Track.mux, List.mem_map] at hmem
      obtain ⟨t, -, heq⟩ := hmem
      exact ⟨inp t, ⟨t, rfl⟩, (Option.some.inj heq).symm⟩

/-! ## Settled tracks -/

variable {p : Patch (EmuChan θ γ ξ) μ ς ρ φ} {parts : List (Part μ ς ρ)} {model : ξ → Chan}
  {e : PatchEmu θ γ ξ μ ς ρ φ} {m : μ} {tr : Track θ γ ξ} {c : γ}

/-- The channel that selects the thread of a CPU. -/
theorem CpuOk.thrun (h : CpuOk sys e c) :
    e.read (.cpu c .thrun) =
      threadValue (fun t => sys.gindex t) (sole (runningIn e.state (e.cpu c).threads)) := by
  cases hup : (e.cpu c).updated with
  | true => exact h.chans hup .thrun
  | false =>
      rw [(h.fresh hup).1]
      exact (h.fresh hup).2 .thrun

/-- A track whose select channel is null shows nothing. -/
theorem Track.unselected (hok : SysOk sys e) (hnull : e.read (tr.mux sys).select = .null) :
    tr.value e = (tr.mux sys).def_ := by
  cases tr with
  | thread mode t inp out =>
      have hstate : e.read (.thread t .state) = _ := (hok.thread t).stateChan
      simp only [Track.mux] at hnull
      rw [hstate] at hnull
      split at hnull
      · rename_i hun
        simp only [Track.value, hun]
        cases mode <;> rfl
      · cases hnull
  | cpu c inp out def_ =>
      have hthrun : e.read (.cpu c .thrun) = _ := (hok.cpu c).thrun
      simp only [Track.mux] at hnull
      rw [hthrun] at hnull
      simp only [Track.value]
      cases hsole : sole (runningIn e.state (e.cpu c).threads) with
      | none => rfl
      | some t =>
          rw [hsole] at hnull
          cases hnull

variable [DecidableEq θ] [DecidableEq γ] [DecidableEq ξ] [DecidableEq μ] [DecidableEq ς]
  [DecidableEq ρ] [DecidableEq φ]

omit [DecidableEq μ] in
/-- A settled track shows its value. -/
theorem Track.settled (hmux : p.mux m = tr.mux sys) (hok : SysOk sys e)
    (hsel : Selected p.net e.world m) (hcopied : Copied p.net e.world m) :
    e.read (.model tr.out) = tr.value e := by
  have hchoice := hsel.choice
  unfold Copied at hcopied
  have hnet : p.net.mux m = tr.mux sys := hmux
  rw [hnet] at hchoice hcopied
  rw [Track.output] at hcopied
  apply hcopied.trans
  cases tr with
  | thread mode t inp out =>
      have hstate : e.world.bay.read (.thread t .state) = _ := (hok.thread t).stateChan
      simp only [Track.mux, selectInput, hstate, List.length_singleton] at hchoice
      by_cases hun : (e.th t).state = .unknown
      · rw [if_pos hun] at hchoice
        have hnone : e.world.choice m = none := by
          cases mode <;> exact (Except.ok.inj hchoice).symm
        rw [hnone]
        simp only [Track.value, hun]
        cases mode <;> rfl
      · rw [if_neg hun, mode.select_state] at hchoice
        have hsome := (Except.ok.inj hchoice).symm
        rw [hsome]
        simp only [Track.value]
        split
        · rfl
        · rfl
  | cpu c inp out def_ =>
      have hthrun : e.world.bay.read (.cpu c .thrun) = _ := (hok.cpu c).thrun
      simp only [Track.mux, selectInput, hthrun, List.length_map] at hchoice
      simp only [Track.value]
      cases hsole : sole (runningIn e.state (e.cpu c).threads) with
      | none =>
          rw [hsole] at hchoice
          rw [← Except.ok.inj hchoice]
          rfl
      | some t =>
          rw [hsole] at hchoice
          have hget := sys.gindex_spec t
          obtain ⟨hlt, -⟩ := List.getElem?_eq_some_iff.mp hget
          simp only [threadValue, defaultSelect] at hchoice
          rw [if_neg (by omega)] at hchoice
          rw [← Except.ok.inj hchoice]
          simp [Mux.choose, Mux.input, Track.mux, hget]
          rfl

/-! ## Runs -/

omit [DecidableEq θ] [DecidableEq γ] [DecidableEq ξ] [DecidableEq μ] [DecidableEq ς]
  [DecidableEq ρ] [DecidableEq φ] in
/-- The modules of the bay write channels of their own. -/
structure EmuBay (p : Patch (EmuChan θ γ ξ) μ ς ρ φ) (parts : List (Part μ ς ρ)) : Prop where
  sys : ∀ part ∈ parts, ∀ c ∈ p.partOuts part, ¬ c.IsSys
  mux : ∀ m ∈ partMuxes parts, ∀ m' ∈ partMuxes parts,
    (p.mux m').output = (p.mux m).output → m' = m
  sort : ∀ c, p.sortOut c → ¬ c.IsSys ∧ ∀ m ∈ partMuxes parts, c ≠ (p.mux m).output

/-- A mux of the bay is a track, and the channels that it follows are written by the
models only. -/
structure TrackSetup (sys : System θ γ π ℓ) (p : Patch (EmuChan θ γ ξ) μ ς ρ φ)
    (parts : List (Part μ ς ρ)) (m : μ) (tr : Track θ γ ξ) : Prop where
  mem : m ∈ partMuxes parts
  mux : p.mux m = tr.mux sys
  source : ∀ x, tr.Follows x →
    (∀ part ∈ parts, .model x ∉ p.partOuts part) ∧ ¬ p.sortOut (.model x)

/-- The states of the emulator in a run, the last one first. -/
inductive EmuTrace (sys : System θ γ π ℓ) (p : Patch (EmuChan θ γ ξ) μ ς ρ φ)
    (parts : List (Part μ ς ρ)) (model : ξ → Chan) : List (PatchEmu θ γ ξ μ ς ρ φ) → Prop where
  | connect {w : PatchWorld (EmuChan θ γ ξ) μ ς ρ φ} (hchan : ∀ x, Unregistered (model x))
      (hclean : ∀ x, (model x).isDirty = false) (honce : parts.Nodup)
      (hrun : connectParts p parts (patchInit (emuChanInit model)) = .ok w) :
      EmuTrace sys p parts model [emuInit w]
  | step {e e1 : PatchEmu θ γ ξ μ ς ρ φ} {es : List (PatchEmu θ γ ξ μ ς ρ φ)}
      {acts : List (EmuAct θ γ ξ)} {w : PatchWorld (EmuChan θ γ ξ) μ ς ρ φ} {fuel : Nat}
      (h : EmuTrace sys p parts model (e :: es))
      (hsource : ∀ op, .write op ∈ acts →
        (∃ x, op.chan = .model x) ∧ ∀ part ∈ parts, op.chan ∉ p.partOuts part)
      (hacts : runActs sys acts e = .ok e1)
      (hrun : bayPropagate p.net.call fuel e1.world = .ok w) :
      EmuTrace sys p parts model ({ e1 with world := w } :: e :: es)

variable {es : List (PatchEmu θ γ ξ μ ς ρ φ)} {e1 : PatchEmu θ γ ξ μ ς ρ φ}

/-- All states of a trace are reached by runs. -/
theorem EmuTrace.runs (h : EmuTrace sys p parts model es) :
    ∀ e ∈ es, EmuRun sys p parts model e := by
  induction h with
  | connect hchan hclean honce hrun =>
      intro e he
      rw [List.mem_singleton.mp he]
      exact .connect hchan hclean honce hrun
  | step _ hsource hacts hrun ih =>
      intro e he
      rcases List.mem_cons.mp he with rfl | he
      · exact .step (ih _ List.mem_cons_self) hsource hacts hrun
      · exact ih e he

theorem EmuTrace.run (h : EmuTrace sys p parts model (e :: es)) : EmuRun sys p parts model e :=
  h.runs e List.mem_cons_self

theorem EmuRun.trace (h : EmuRun sys p parts model e) :
    ∃ es, EmuTrace sys p parts model (e :: es) := by
  induction h with
  | connect hchan hclean honce hrun => exact ⟨[], .connect hchan hclean honce hrun⟩
  | step _ hsource hacts hrun ih =>
      obtain ⟨es, h⟩ := ih
      exact ⟨_, .step h hsource hacts hrun⟩

/-- The actions of a step are writes of channels of the system and of the models. -/
theorem EmuOk.writes {acts : List (EmuAct θ γ ξ)} (h : EmuOk sys p parts e)
    (hsource : ∀ op, .write op ∈ acts → ∃ x, op.chan = .model x)
    (hrun : runActs sys acts e = .ok e1) :
    ∃ ops : List (ChanOp (EmuChan θ γ ξ)), (∀ op ∈ ops, op.chan.IsSys ∨ .write op ∈ acts) ∧
      writeAll ops e.world.bay = .ok e1.world.bay ∧ e1.world.mod = e.world.mod := by
  induction acts generalizing e with
  | nil =>
      rw [runActs] at hrun
      rw [← Except.ok.inj hrun]
      exact ⟨[], by simp, rfl, rfl⟩
  | cons act acts ih =>
      rw [runActs] at hrun
      obtain ⟨e2, h2, hrun⟩ := bind_ok hrun
      have hok := h.act (fun op hact => hsource op (by simp [hact])) h2
      obtain ⟨ops, hops, hwrites, hmod⟩ :=
        ih hok (fun op hop => hsource op (List.mem_cons_of_mem _ hop)) hrun
      have hfirst : ∃ ops1 : List (ChanOp (EmuChan θ γ ξ)),
          (∀ op ∈ ops1, op.chan.IsSys ∨ .write op ∈ act :: acts) ∧
          writeAll ops1 e.world.bay = .ok e2.world.bay ∧ e2.world.mod = e.world.mod := by
        cases act with
        | event ev =>
            obtain ⟨heff, -⟩ := h.sys.event h2
            obtain ⟨ops1, hsys, hrun1⟩ := heff.ops
            exact ⟨ops1, fun op hop => Or.inl (hsys op hop), hrun1, heff.mod⟩
        | outOfCpu t out =>
            rw [← Except.ok.inj h2]
            exact ⟨[], by simp, rfl, rfl⟩
        | write op =>
            obtain ⟨b, hop, h2⟩ := bind_ok h2
            rw [← Except.ok.inj h2]
            refine ⟨[op], by simp, ?_, rfl⟩
            simp only [writeAll]
            rw [hop]
            rfl
      obtain ⟨ops1, hops1, hwrites1, hmod1⟩ := hfirst
      refine ⟨ops1 ++ ops, fun op hop => ?_, (writeAll_append hwrites1).trans hwrites,
        hmod.trans hmod1⟩
      rcases List.mem_append.mp hop with hop | hop
      · exact hops1 op hop
      · exact (hops op hop).imp_right (List.mem_cons_of_mem _)

/-- No mux of a bay that was connected feeds itself. -/
theorem EmuRun.loopless (h : EmuRun sys p parts model e) :
    ∀ m ∈ partMuxes parts, ¬ (p.net.mux m).HasPort (p.net.mux m).output := by
  induction h with
  | connect hchan hclean honce hrun =>
      obtain ⟨hinit, hreg⟩ := patchInit_connected (p := p) (emuChanInit_clean hclean)
      obtain ⟨hconn, -, -⟩ := connectParts_inv (fun _ _ => True) (fun _ _ _ _ _ _ _ _ => trivial)
        hinit hreg trivial (by simpa using honce) hrun
      exact hconn.connected.loopless
  | step _ _ _ _ ih => exact ih

/-- A step of the emulator from a bay at rest. -/
theorem PatchRest.step (hbay : EmuBay p parts) {tracked : μ → Prop}
    {rel reach ever : EmuChan θ γ ξ → Prop} {lev : EmuChan θ γ ξ → Nat}
    (hl : Layers p.net (partMuxes parts) tracked rel reach lev p.sortOut)
    (hlev : ∀ c, ¬ p.Out parts c → rel c → reach c ∧ lev c = 0) (hok : EmuOk sys p parts e)
    (h : PatchRest p parts tracked (emuChanInit model) ever e.world)
    {acts : List (EmuAct θ γ ξ)} {w : PatchWorld (EmuChan θ γ ξ) μ ς ρ φ} {fuel : Nat}
    (hsource : ∀ op, .write op ∈ acts →
      (∃ x, op.chan = .model x) ∧ ∀ part ∈ parts, op.chan ∉ p.partOuts part)
    (hacts : runActs sys acts e = .ok e1) (hrun : bayPropagate p.net.call fuel e1.world = .ok w) :
    ∃ w1, propagateList p.net.call .dirty fuel 0 (e1.world.setState .propagating) = .ok w1 ∧
      Bay.Written (fun c => ¬ p.Out parts c) e.world.bay e1.world.bay ∧
      Bay.Grown (p.Out parts) (e1.world.setState .propagating).bay w1.bay ∧
      PatchRest p parts tracked (emuChanInit model) (fun c => ever c ∨ c ∈ w1.bay.dirty) w := by
  obtain ⟨ops, hops, hwrites, hmod⟩ := hok.writes (fun op hop => (hsource op hop).1) hacts
  have hsrc : ∀ op ∈ ops, ¬ p.Out parts op.chan := by
    intro op hop
    apply not_out_of_partOuts
    intro part hpart hmem
    rcases hops op hop with hsys | hwrite
    · exact hbay.sys part hpart _ hmem hsys
    · exact (hsource op hwrite).2 part hpart hmem
  have hb := writeAll_ok (fun c => ¬ p.Out parts c) h.ready.dirtyOk hsrc hwrites
  have hready := h.ready.writeAll hwrites
  have hworld : World.mk e1.world.bay e.world.mod = e1.world := by
    rw [← hmod]
  rw [← hworld] at hrun
  obtain ⟨w1, hdirty, hg, hrest⟩ := h.propagate hl hready hb (fun c hc hrel => by
    rcases hb.only c hc with hmem | hnot
    · rw [h.quiet.nodirty] at hmem
      cases hmem
    · exact hlev c hnot hrel) hrun
  rw [hworld] at hdirty hg
  exact ⟨w1, hdirty, hb, hg, hrest⟩

/-- A channel of the system that was dirty in a step had another value before or has
another one after it. -/
theorem EmuOk.changed (hbay : EmuBay p parts) (hok : EmuOk sys p parts e)
    (hclean : ∀ c, (e.world.bay.chan c).isDirty = false) {acts : List (EmuAct θ γ ξ)}
    {w w1 : PatchWorld (EmuChan θ γ ξ) μ ς ρ φ} {fuel : Nat}
    (hmodel : ∀ op, .write op ∈ acts → ∃ x, op.chan = .model x)
    (hacts : runActs sys acts e = .ok e1) (hrun : bayPropagate p.net.call fuel e1.world = .ok w)
    (hb : Bay.Written (fun c => ¬ p.Out parts c) e.world.bay e1.world.bay)
    (hg : Bay.Grown (p.Out parts) (e1.world.setState .propagating).bay w1.bay)
    {x : EmuChan θ γ ξ} (hsys : x.IsSys) (hdirty : x ∈ w1.bay.dirty) :
    e.read x ≠ Emu.read { e1 with world := w } x := by
  have hok1 := hok.acts hmodel hacts
  have hout : ¬ p.Out parts x :=
    not_out_of_partOuts fun part hpart hmem => hbay.sys part hpart _ hmem hsys
  obtain ⟨l, hl, hlout⟩ := hg.dirty
  rw [hl, List.mem_append] at hdirty
  have hmem : x ∈ e1.world.bay.dirty := hdirty.resolve_right fun hmem => hout (hlout x hmem)
  have hnew := hok1.sys.bay.changed x hsys ((hb.dirtyOk.mem_iff x).mp hmem)
  rw [(hb.like x).lastValue, hok.sys.bay.flushed x (hclean x)] at hnew
  exact fun heq => hnew (heq.trans ((hok1.ready.propagate_read hrun x).2.2.2 hout))

/-- In every run the bay is at rest between the steps, the channels that once had
another value than at the start were dirty, and those of the system only these. -/
theorem EmuTrace.rest (hbay : EmuBay p parts) {tracked : μ → Prop}
    {rel reach : EmuChan θ γ ξ → Prop} {lev : EmuChan θ γ ξ → Nat}
    (hl : Layers p.net (partMuxes parts) tracked rel reach lev p.sortOut)
    (hlev : ∀ c, ¬ p.Out parts c → rel c → reach c ∧ lev c = 0)
    (h : EmuTrace sys p parts model (e :: es)) :
    ∃ ever, PatchRest p parts tracked (emuChanInit model) ever e.world ∧
      (∀ e' ∈ e :: es, ∀ c, ¬ p.Out parts c → ¬ p.sortOut c →
        e'.read c ≠ chanRead (emuChanInit model c) → ever c) ∧
      ∀ c : EmuChan θ γ ξ, c.IsSys → ever c → ∃ e' ∈ e :: es, e'.read c ≠ .null := by
  generalize hlist : e :: es = l at h
  induction h generalizing e es with
  | connect hchan hclean honce hrun =>
      obtain ⟨rfl, rfl⟩ := List.cons.inj hlist
      have hrest := PatchRest.connect tracked
        (fun m hm hout => (hl.apart _ hout).2 m (hl.on m hm) rfl)
        (emuChanInit_unregistered hchan) (emuChanInit_clean hclean) honce hrun
      refine ⟨_, hrest, fun e' he' c hc hsort hne => ?_, fun _ _ h => h.elim⟩
      rw [List.mem_singleton.mp he'] at hne
      exact hne (hrest.kept c hc hsort id)
  | step hprev hsource hacts hrun ih =>
      obtain ⟨rfl, rfl⟩ := List.cons.inj hlist
      obtain ⟨ever, hrest, hever, hsys⟩ := ih rfl
      have hok := hprev.run.ok hbay.sys
      obtain ⟨w1, -, hb, hg, hrest'⟩ := hrest.step hbay hl hlev hok hsource hacts hrun
      refine ⟨_, hrest', fun e' he' c hc hsort hne => ?_, fun c hc hor => ?_⟩
      · rcases List.mem_cons.mp he' with rfl | he'
        · by_contra hnot
          exact hne (hrest'.kept c hc hsort hnot)
        · exact Or.inl (hever e' he' c hc hsort hne)
      · rcases hor with hev | hdirty
        · obtain ⟨e', he', hne⟩ := hsys c hc hev
          exact ⟨e', List.mem_cons_of_mem _ he', hne⟩
        · have hne := hok.changed hbay hrest.quiet.clean (fun op hop => (hsource op hop).1) hacts
            hrun hb hg hc hdirty
          by_contra hnone
          simp only [List.mem_cons, not_exists, not_and, ne_eq, not_not] at hnone
          rw [hnone _ (Or.inr (Or.inl rfl)), hnone _ (Or.inl rfl)] at hne
          exact hne rfl

/-! ## Tracks in a run -/

omit [DecidableEq θ] [DecidableEq γ] [DecidableEq ξ] in
/-- A track alone: all its ports are written from outside the bay. -/
theorem TrackSetup.layers [DecidableEq (EmuChan θ γ ξ)] (hbay : EmuBay p parts)
    (hset : TrackSetup sys p parts m tr)
    (hloop : ∀ m ∈ partMuxes parts, ¬ (p.net.mux m).HasPort (p.net.mux m).output) :
    Layers p.net (partMuxes parts) (· = m) (tr.mux sys).HasPort (fun _ => True) (fun _ => 0)
      p.sortOut := by
  -- No port of the track is an output
  have hport : ∀ c, (tr.mux sys).HasPort c →
      (∀ m' ∈ partMuxes parts, c ≠ (p.net.mux m').output) ∧ ¬ p.sortOut c := by
    rintro c (rfl | ⟨i, hi⟩)
    · refine ⟨fun m' hm' heq => ?_, fun hout => (hbay.sort _ hout).1 (tr.isSys_select sys)⟩
      exact hbay.sys _ (mem_partMuxes.mp hm') _ (List.mem_singleton.mpr heq)
        (tr.isSys_select sys)
    · obtain ⟨x, hx, rfl⟩ := tr.input hi
      obtain ⟨hparts, hsort⟩ := hset.source x hx
      refine ⟨fun m' hm' heq => ?_, hsort⟩
      exact not_out_of_partOuts hparts (Or.inl ⟨m', hm', heq⟩)
  have hmux : p.net.mux m = tr.mux sys := hset.mux
  refine ⟨?_, ?_, ?_, hloop, ?_, ?_, fun _ _ _ _ _ => trivial, ?_, fun c hout => ?_,
    fun k c w w' => patch_other⟩
  · rintro _ rfl
    exact hset.mem
  · rintro _ rfl
    rw [hmux]
    exact tr.pure
  · rintro m0 rfl m' hm' heq
    exact hbay.mux m0 hset.mem m' hm' heq
  · rintro _ c rfl hc
    rw [hmux] at hc
    exact hc
  · intro m' hm' c _ hrel
    exact absurd rfl ((hport _ hrel).1 m' hm')
  · intro m' hm' c _ _ hrel
    exact absurd rfl ((hport _ hrel).1 m' hm')
  · exact ⟨fun hrel => (hport c hrel).2 hout, (hbay.sort c hout).2⟩

/-- A track shows its value if its select channel was ever not null, and is as it was
registered otherwise. -/
theorem EmuTrace.track (hbay : EmuBay p parts) (hset : TrackSetup sys p parts m tr)
    (h : EmuTrace sys p parts model (e :: es)) :
    e.read (.model tr.out) =
        (if ∃ e' ∈ e :: es, e'.read (tr.mux sys).select ≠ .null then tr.value e
        else chanRead (model tr.out)) := by
  have hl := hset.layers hbay h.run.loopless
  obtain ⟨ever, hrest, hever, hchanged⟩ := h.rest hbay hl fun _ _ _ => ⟨trivial, rfl⟩
  have hsys := tr.isSys_select sys
  have hmux : p.net.mux m = tr.mux sys := hset.mux
  by_cases hsel : ever (p.net.mux m).select
  · rw [if_pos (hmux ▸ hchanged _ (hmux ▸ hsys) hsel)]
    obtain ⟨hselected, hcopied⟩ := hrest.quiet.settled m rfl hsel
    exact Track.settled hset.mux (h.run.ok hbay.sys).sys hselected hcopied
  · have hout := hrest.out m rfl hsel
    rw [hset.mux, Track.output] at hout
    rw [if_neg]
    · exact hout
    rintro ⟨e', he', hne⟩
    apply hsel
    rw [hmux]
    refine hever e' he' _ ?_ ?_ ?_
    · exact not_out_of_partOuts fun part hpart hmem => hbay.sys part hpart _ hmem hsys
    · exact fun hsort => (hbay.sort _ hsort).1 hsys
    · rw [emuChanInit_sys _ hsys]
      exact hne

/-- After every step, a thread track shows the channel of its thread while the thread
is running, or active, and null otherwise; and a CPU track with a null default shows
the channel of the running thread when the CPU has exactly one, and null otherwise. -/
theorem tracks_follow (hbay : EmuBay p parts) (hset : TrackSetup sys p parts m tr)
    (hdef : (tr.mux sys).def_ = .null) (hnull : chanRead (model tr.out) = .null)
    (h : EmuRun sys p parts model e) : e.read (.model tr.out) = tr.value e := by
  obtain ⟨es, htrace⟩ := h.trace
  rw [htrace.track hbay hset]
  split
  · rfl
  · rename_i hnot
    have hsel : e.read (tr.mux sys).select = .null := by
      by_contra hne
      exact hnot ⟨e, List.mem_cons_self, hne⟩
    rw [hnull, Track.unselected (h.ok hbay.sys).sys hsel, hdef]

end

/-! ## A channel with its tracks -/

/-- A channel of each thread, with the outputs of its tracks. -/
inductive DemoChan where
  | th (t : Bool)
  | thTrack (t : Bool)
  | cpuTrack (c : Bool)
  deriving DecidableEq

/-- The muxes of the tracks of the channel. -/
inductive DemoMux where
  | th (t : Bool)
  | cpu (c : Bool)
  deriving DecidableEq

/-- The tracks: of the active threads, and of the CPUs with a default. -/
def demoTrack (def_ : Value) : DemoMux → Track Bool Bool DemoChan
  | .th t => .thread .act t (.th t) (.thTrack t)
  | .cpu c => .cpu c .th (.cpuTrack c) def_

/-- A bay with the tracks only. -/
def demoTracks (def_ : Value) : Patch (EmuChan Bool Bool DemoChan) DemoMux Empty Empty Empty :=
  { mux := fun m => (demoTrack def_ m).mux demoSystem, sort := Empty.elim, rchan := Empty.elim,
    nrows := Empty.elim }

/-- The tracks in the order of `model_thread_connect` and `model_cpu_connect`. -/
def demoTrackParts : List (Part DemoMux Empty Empty) :=
  [.mux (.th false), .mux (.th true), .mux (.cpu false), .mux (.cpu true)]

/-- All channels start null. -/
def demoModel (_ : DemoChan) : Chan := chanInit .single

theorem demoTracks_bay (def_ : Value) : EmuBay (demoTracks def_) demoTrackParts where
  sys part hpart c hc := by
    rcases part with ⟨_ | _⟩ | s | s | r
    · rw [List.mem_singleton.mp hc]
      exact id
    · rw [List.mem_singleton.mp hc]
      exact id
    · exact s.elim
    · exact s.elim
    · exact r.elim
  mux m _ m' _ heq := by
    simp only [demoTracks, Track.output, EmuChan.model.injEq] at heq
    cases m <;> cases m' <;> simp_all [demoTrack, Track.out]
  sort _ h := by
    obtain ⟨s, -⟩ := h
    exact s.elim

theorem demoTracks_setup (def_ : Value) (m : DemoMux) :
    TrackSetup demoSystem (demoTracks def_) demoTrackParts m (demoTrack def_ m) where
  mem := by cases m with
    | th t => cases t <;> decide
    | cpu c => cases c <;> decide
  mux := rfl
  source x hx := by
    have hth : ∃ t, x = .th t := by
      cases m with
      | th t => exact ⟨t, hx⟩
      | cpu c => exact hx
    obtain ⟨t, rfl⟩ := hth
    refine ⟨fun part _ hmem => ?_, fun ⟨s, _⟩ => s.elim⟩
    rcases part with ⟨_ | _⟩ | s | s | r
    · cases List.mem_singleton.mp hmem
    · cases List.mem_singleton.mp hmem
    · exact s.elim
    · exact s.elim
    · exact r.elim

/-- The emulator with the tracks, connected. -/
def demoTracksInit (def_ : Value) : PatchEmu Bool Bool DemoChan DemoMux Empty Empty Empty :=
  emuInit (okOr (patchInit (emuChanInit demoModel))
    (connectParts (demoTracks def_) demoTrackParts (patchInit (emuChanInit demoModel))))

/-- A step of the emulator with the tracks. -/
def demoTracksStep (def_ : Value) (e : PatchEmu Bool Bool DemoChan DemoMux Empty Empty Empty)
    (acts : List (EmuAct Bool Bool DemoChan)) :
    PatchEmu Bool Bool DemoChan DemoMux Empty Empty Empty :=
  let e1 := okOr e (runActs demoSystem acts e)
  { e1 with world := okOr e1.world (bayPropagate (demoTracks def_).net.call 20 e1.world) }

/-- The first thread writes its channel and executes in the physical CPU, in one step. -/
def demoActs : List (EmuAct Bool Bool DemoChan) :=
  [.write (.set (.model (.th false)) (.int64 7)), .event (demoEvent false 'H' 'x' [0])]

theorem demoActs_source (def_ : Value) (op : ChanOp (EmuChan Bool Bool DemoChan))
    (hop : .write op ∈ demoActs) : (∃ x, op.chan = .model x) ∧
      ∀ part ∈ demoTrackParts, op.chan ∉ (demoTracks def_).partOuts part := by
  obtain rfl : op = .set (.model (.th false)) (.int64 7) := by simpa [demoActs] using hop
  refine ⟨⟨_, rfl⟩, fun part hpart hmem => ?_⟩
  have hsetup := (demoTracks_setup def_ (.th false)).source (.th false) rfl
  exact hsetup.1 part hpart hmem

/-- The track of the CPU and that of the thread show the channel after the step. -/
theorem tracks_follow_demo :
    (demoTracksStep .null (demoTracksInit .null) demoActs).read (.model (.cpuTrack false)) =
        .int64 7 ∧
      (demoTracksStep .null (demoTracksInit .null) demoActs).read (.model (.thTrack false)) =
        .int64 7 ∧
      (demoTracksStep .null (demoTracksInit .null) demoActs).read (.model (.cpuTrack true)) =
        .null := by
  have hinit : EmuRun demoSystem (demoTracks .null) demoTrackParts demoModel
      (demoTracksInit .null) :=
    .connect (fun _ => .init .single) (fun _ => rfl) (by decide)
      (eq_okOr _ (by decide +kernel))
  have hrun : EmuRun demoSystem (demoTracks .null) demoTrackParts demoModel
      (demoTracksStep .null (demoTracksInit .null) demoActs) :=
    .step hinit (demoActs_source .null) (eq_okOr _ (by decide +kernel))
      (eq_okOr _ (by decide +kernel))
  have hfollow := fun m => tracks_follow (demoTracks_bay .null) (demoTracks_setup .null m)
    (by cases m <;> rfl) rfl hrun
  exact ⟨(hfollow (.cpu false)).trans (by decide +kernel),
    (hfollow (.th false)).trans (by decide +kernel),
    (hfollow (.cpu true)).trans (by decide +kernel)⟩

end Ovni
