import Ovni.System.Run

/-!
# Two ways to move a thread

OAs moves the thread of the event and OAr moves a thread of the loom by its id.  On the
thread of the event they do the same, unless it is on that CPU already: OAs has nothing to
do then, while OAr writes the CPU of the thread again, which is refused as a duplicate.
-/

namespace Ovni

open Ovni.Lib

section

variable {θ γ π ℓ ξ : Type} [DecidableEq θ] [DecidableEq γ] [DecidableEq ξ]

/-! ## Channels between the steps -/

theorem writeAll_ignoreDup {χ κ : Type} [DecidableEq χ] {ops : List (ChanOp χ)}
    {b b' : Bay χ κ} (h : writeAll ops b = .ok b') (c : χ) :
    (b'.chan c).ignoreDup = (b.chan c).ignoreDup := by
  induction ops generalizing b with
  | nil =>
      rw [writeAll] at h
      rw [Except.ok.inj h]
  | cons op ops ih =>
      rw [writeAll] at h
      obtain ⟨b1, hop, hrest⟩ := bind_ok h
      rw [ih hrest]
      rcases op.run_ok hop with rfl | ⟨chan, hlike, rfl⟩
      · rfl
      · by_cases hc : c = op.chan
        · rw [hc, Bay.touch_chan_self]
          exact hlike.ignoreDup
        · rw [Bay.touch_chan_of_ne _ hc]

section

variable {μ ν τ : Type} {sys : System θ γ π ℓ} {e e' : Emu θ γ ξ μ ν τ}

theorem Emu.Effect.ignoreDup (h : Emu.Effect e e') (c : EmuChan θ γ ξ) :
    (e'.world.bay.chan c).ignoreDup = (e.world.bay.chan c).ignoreDup := by
  obtain ⟨ops, -, hops⟩ := h.ops
  exact writeAll_ignoreDup hops c

theorem EmuAct.run_ignoreDup {act : EmuAct θ γ ξ} (h : SysOk sys e)
    (hrun : act.run sys e = .ok e') (c : EmuChan θ γ ξ) :
    (e'.world.bay.chan c).ignoreDup = (e.world.bay.chan c).ignoreDup := by
  cases act with
  | event ev => exact (h.event hrun).1.ignoreDup c
  | outOfCpu t out =>
      rw [← Except.ok.inj hrun]
      rfl
  | write op =>
      obtain ⟨b, hop, hrun⟩ := bind_ok hrun
      rw [← Except.ok.inj hrun]
      have hops : writeAll [op] e.world.bay = .ok b := by
        rw [writeAll, hop]
        rfl
      exact writeAll_ignoreDup hops c

/-- Writing what the channel shows is refused, as a duplicate or as a second write. -/
theorem SysBay.chanSet_same {κ : Type} {b b' : Bay (EmuChan θ γ ξ) κ} {c : EmuChan θ γ ξ}
    (h : SysBay b) (hc : c.IsSys) (hdup : (b.chan c).ignoreDup = false) :
    b.chanSet c (b.read c) ≠ .ok b' := by
  intro hset
  obtain ⟨-, honce, hres⟩ := Bay.chanSet_ok hset
  have hclean : (b.chan c).isDirty = false := by
    by_contra hd
    have hwrite := honce (by simpa using hd)
    rw [h.once c hc] at hwrite
    cases hwrite
  rcases hres with ⟨-, -, hignore, -⟩ | ⟨-, hallow | hne⟩
  · rw [hdup] at hignore
    cases hignore
  · rw [h.distinct c hc] at hallow
    cases hallow
  · exact hne (h.flushed c hclean)

/-- The migration of a thread to the CPU where it is fails. -/
theorem migrate_same {old : γ} {t : θ} {e1 : Emu θ γ ξ μ ν τ} (h : SysOk sys e)
    (ht : (e.th t).cpu = some old)
    (hdup : (e.world.bay.chan (.thread t .cpu)).ignoreDup = false)
    (hmig : cpuMigrateThread sys e old t old = .ok e1) :
    threadMigrateCpu sys e1 t old ≠ .ok e' := by
  obtain ⟨e0, hremove, hadd⟩ := bind_ok hmig
  have hstep := CpuStep.remove h.bay (h.cpu old).nthreads hremove
  have hb0 := hstep.effect.sysBay h.bay
  obtain ⟨-, hstep'⟩ := CpuStep.add hb0 hstep.ok.nthreads hadd
  have hb1 := hstep'.effect.sysBay hb0
  have hcpu : (e1.th t).cpu = some old := by rw [hstep'.th, hstep.th, ht]
  have hshown := (hstep'.thread t (hstep.thread t (h.thread t))).cpuChan
  rw [hcpu] at hshown
  have hdup1 : (e1.world.bay.chan (.thread t .cpu)).ignoreDup = false := by
    rw [hstep'.effect.ignoreDup, hstep.effect.ignoreDup, hdup]
  intro hrun
  obtain ⟨-, hrun⟩ := guard_ok hrun
  obtain ⟨w, hset, -⟩ := bind_ok hrun
  obtain ⟨b, hset, -⟩ := bind_ok hset
  exact hb1.chanSet_same (c := .thread t .cpu) trivial hdup1
    ((congrArg (e1.world.bay.chanSet (.thread t .cpu)) hshown).trans hset)

end

variable {μ ς ρ φ : Type} [DecidableEq μ] [DecidableEq ς] [DecidableEq ρ] [DecidableEq φ]
variable {sys : System θ γ π ℓ} {p : Patch (EmuChan θ γ ξ) μ ς ρ φ} {parts : List (Part μ ς ρ)}
  {model : ξ → Chan} {e e' : PatchEmu θ γ ξ μ ς ρ φ} {t : θ}

theorem runActs_ignoreDup {acts : List (EmuAct θ γ ξ)} (h : EmuOk sys p parts e)
    (hsource : ∀ op, .write op ∈ acts → ∃ x, op.chan = .model x)
    (hrun : runActs sys acts e = .ok e') (c : EmuChan θ γ ξ) :
    (e'.world.bay.chan c).ignoreDup = (e.world.bay.chan c).ignoreDup := by
  induction acts generalizing e with
  | nil =>
      rw [runActs] at hrun
      rw [Except.ok.inj hrun]
  | cons act acts ih =>
      rw [runActs] at hrun
      obtain ⟨e1, h1, hrun⟩ := bind_ok hrun
      have hok := h.act (fun op hact => hsource op (by simp [hact])) h1
      rw [ih hok (fun op hop => hsource op (List.mem_cons_of_mem _ hop)) hrun]
      exact EmuAct.run_ignoreDup h.sys h1 c

omit [DecidableEq θ] [DecidableEq γ] [DecidableEq ξ] in
theorem PatchReady.propagate_ignoreDup {χ : Type} [DecidableEq χ] {p : Patch χ μ ς ρ φ}
    {w w' : PatchWorld χ μ ς ρ φ} {fuel : Nat} (h : PatchReady p parts w)
    (hrun : bayPropagate p.net.call fuel w = .ok w') (c : χ) :
    (w'.bay.chan c).ignoreDup = (w.bay.chan c).ignoreDup := by
  obtain ⟨w1, w2, -, -, -, hg, -, hsame, rfl⟩ := h.phases hrun
  have hchan : w2.bay.chan = w1.bay.chan := by
    rw [hsame]
    rfl
  have hlike := (hg.like c).ignoreDup
  simp only [hchan]
  split
  · exact hlike
  · exact hlike

omit [DecidableEq θ] [DecidableEq γ] [DecidableEq ξ] in
theorem connect_nodirty {χ : Type} [DecidableEq χ] {p : Patch χ μ ς ρ φ} {chan : χ → Chan}
    {w : PatchWorld χ μ ς ρ φ} (hclean : ∀ c, (chan c).isDirty = false) (honce : parts.Nodup)
    (hrun : connectParts p parts (patchInit chan) = .ok w) : w.bay.dirty = [] := by
  obtain ⟨hinit, hreg⟩ := patchInit_connected (p := p) hclean
  obtain ⟨hconn, -, -⟩ := connectParts_inv (fun _ _ => True) (fun _ _ _ _ _ _ _ _ => trivial)
    hinit hreg trivial (by simpa using honce) hrun
  exact hconn.connected.nodirty

/-- Between the steps no channel is dirty, and those of the system are as they were made. -/
theorem EmuRun.rest (hsys : ∀ part ∈ parts, ∀ c ∈ p.partOuts part, ¬ c.IsSys)
    (h : EmuRun sys p parts model e) : e.world.bay.dirty = [] ∧
      ∀ c : EmuChan θ γ ξ, c.IsSys →
        (e.world.bay.chan c).ignoreDup = (emuChanInit model c).ignoreDup := by
  induction h with
  | connect hchan hclean honce hrun =>
      obtain ⟨-, -, hinit⟩ := SysBay.connect hsys hchan hclean honce hrun
      refine ⟨connect_nodirty (emuChanInit_clean hclean) honce hrun, fun c hc => ?_⟩
      exact congrArg Chan.ignoreDup (hinit c hc)
  | step h hsource hacts hrun ih =>
      have hwrites := fun op hop => (hsource op hop).1
      have hok := (h.ok hsys).acts hwrites hacts
      refine ⟨(hok.ready.propagate hrun).2.1, fun c hc => ?_⟩
      rw [hok.ready.propagate_ignoreDup hrun, runActs_ignoreDup (h.ok hsys) hwrites hacts]
      exact ih.2 c hc

/-! ## Events -/

/-- OAs with a CPU index. -/
def affinitySet (t : θ) (index : Int) : SysEvent θ :=
  { thread := t, c := 'A', v := 's', payloadSize := 4, i32 := fun _ => index }

/-- OAr with a CPU index and a thread id. -/
def affinityRemote (t : θ) (index tid : Int) : SysEvent θ :=
  { thread := t, c := 'A', v := 'r', payloadSize := 8,
    i32 := fun i => if i = 0 then index else tid }

/-- A step with one event. -/
def emuEvent (sys : System θ γ π ℓ) (p : Patch (EmuChan θ γ ξ) μ ς ρ φ) (fuel : Nat)
    (ev : SysEvent θ) (e : PatchEmu θ γ ξ μ ς ρ φ) :
    Except EmuFault (PatchEmu θ γ ξ μ ς ρ φ) := do
  let e ← modelOvniEvent sys e ev
  return { e with world := ← bayPropagate p.net.call fuel e.world }

/-- Both succeed with the same state or both fail. -/
def SameResult {α : Type} (r r' : Except EmuFault α) : Prop :=
  match r, r' with
  | .ok a, .ok a' => a = a'
  | .error _, .error _ => True
  | _, _ => False

omit [DecidableEq θ] [DecidableEq γ] [DecidableEq ξ] in
/-- A propagation with nothing to do. -/
theorem bayPropagate_clean {χ κ σ : Type} [DecidableEq χ] [DecidableEq κ]
    (call : κ → χ → World χ κ σ → Except EmuFault (World χ κ σ)) {w : World χ κ σ} (fuel : Nat)
    (h : w.bay.dirty = []) : ∃ w', bayPropagate call (fuel + 1) w = .ok w' := by
  simp [bayPropagate, propagateList, World.setState, h, Bay.flushAll, bind, Except.bind, pure,
    Except.pure]

omit [DecidableEq μ] [DecidableEq ς] [DecidableEq ρ] [DecidableEq φ] in
/-- What OAs does to an active thread. -/
theorem affinitySet_run {old : γ} (hout : (e.th t).isOutOfCpu = false)
    (ht : (e.th t).cpu = some old) (hactive : (e.th t).isActive = true) (index : Int) :
    modelOvniEvent sys e (affinitySet t index) =
      match loomGetCpu sys (sys.loom (sys.proc t)) index with
      | none => .error (.fail "cannot find cpu")
      | some newcpu =>
          if old = newcpu then .ok e
          else cpuMigrateThread sys e old t newcpu >>= (threadMigrateCpu sys · t newcpu) := by
  simp only [modelOvniEvent, affinitySet, hout, preAffinity, preAffinitySet, ht, hactive]
  cases loomGetCpu sys (sys.loom (sys.proc t)) index with
  | none => rfl
  | some newcpu =>
      by_cases hc : old = newcpu
      · simp [hc]
        rfl
      · simp [hc]

omit [DecidableEq μ] [DecidableEq ς] [DecidableEq ρ] [DecidableEq φ] in
/-- What OAr with its own thread id does to an active thread. -/
theorem affinityRemote_run {old : γ} (h : SysOk sys e)
    (hfind : procFindThread sys (sys.proc t) (sys.tid t) = some t)
    (hout : (e.th t).isOutOfCpu = false) (ht : (e.th t).cpu = some old) (index : Int) :
    modelOvniEvent sys e (affinityRemote t index (sys.tid t)) =
      match loomGetCpu sys (sys.loom (sys.proc t)) index with
      | none => .error (.fail "cannot find CPU")
      | some newcpu =>
          cpuMigrateThread sys e old t newcpu >>= (threadMigrateCpu sys · t newcpu) := by
  have hstate : ¬ ((e.th t).state = .unknown ∨ (e.th t).state = .dead) := by
    rw [← h.idle t, ht]
    simp
  rw [not_or] at hstate
  simp only [modelOvniEvent, affinityRemote, hout, preAffinity, preAffinityRemote,
    if_neg Nat.one_ne_zero, hfind, Option.some_or, hstate, ht, if_true]
  cases loomGetCpu sys (sys.loom (sys.proc t)) index with
  | none => rfl
  | some newcpu => rfl

omit [DecidableEq θ] [DecidableEq γ] in
/-- The threads of a process have different ids. -/
theorem procFindThread_self (hmem : t ∈ sys.procThreads (sys.proc t))
    (htid : ∀ t' ∈ sys.procThreads (sys.proc t), sys.tid t' = sys.tid t → t' = t) :
    procFindThread sys (sys.proc t) (sys.tid t) = some t := by
  unfold procFindThread
  cases hfind : (sys.procThreads (sys.proc t)).find? fun t' => sys.tid t' = sys.tid t with
  | none => exact absurd (List.find?_eq_none.mp hfind t hmem) (by simp)
  | some t' =>
      have htid' : sys.tid t' = sys.tid t := by simpa using List.find?_some hfind
      rw [htid t' (List.mem_of_find?_eq_some hfind) htid']

omit [DecidableEq θ] [DecidableEq γ] [DecidableEq ξ] in
theorem SameResult.refl {α : Type} (r : Except EmuFault α) : SameResult r r := by
  cases r with
  | ok a => exact rfl
  | error f => trivial

omit [DecidableEq θ] [DecidableEq γ] [DecidableEq ξ] in
theorem SameResult.isOk {α : Type} {r r' : Except EmuFault α} (h : SameResult r r') :
    r.isOk = r'.isOk := by
  unfold SameResult at h
  split at h
  · rfl
  · rfl
  · exact h.elim

/-- From any reachable state, OAs and OAr on the thread of the event have the same result
if and only if the event is refused for a thread out of its CPU or the index is not that of
the CPU where the thread is. -/
theorem affinity_same_result (hsys : ∀ part ∈ parts, ∀ c ∈ p.partOuts part, ¬ c.IsSys)
    (hmem : t ∈ sys.procThreads (sys.proc t))
    (htid : ∀ t' ∈ sys.procThreads (sys.proc t), sys.tid t' = sys.tid t → t' = t)
    (h : EmuRun sys p parts model e) (hactive : (e.th t).isActive = true) (index : Int)
    (fuel : Nat) :
    SameResult (emuEvent sys p (fuel + 1) (affinitySet t index) e)
        (emuEvent sys p (fuel + 1) (affinityRemote t index (sys.tid t)) e) ↔
      (e.th t).isOutOfCpu = true ∨
        loomGetCpu sys (sys.loom (sys.proc t)) index ≠ (e.th t).cpu := by
  have hok := (h.ok hsys).sys
  by_cases hout : (e.th t).isOutOfCpu = true
  · simp only [emuEvent, modelOvniEvent, affinitySet, affinityRemote, hout, true_or, iff_true]
    trivial
  rw [Bool.not_eq_true] at hout
  obtain ⟨old, ht⟩ : ∃ old, (e.th t).cpu = some old := by
    rw [← Option.ne_none_iff_exists', Ne, hok.idle t]
    have hstate := (hok.thread t).active.symm.trans hactive
    rintro (hu | hd)
    · rw [hu] at hstate
      cases hstate
    · rw [hd] at hstate
      cases hstate
  unfold emuEvent
  rw [affinitySet_run hout ht hactive,
    affinityRemote_run hok (procFindThread_self hmem htid) hout ht]
  cases hnew : loomGetCpu sys (sys.loom (sys.proc t)) index with
  | none => simp [ht, bind, Except.bind, SameResult]
  | some newcpu =>
      by_cases hc : old = newcpu
      · subst hc
        obtain ⟨hclean, hdup⟩ := h.rest hsys
        obtain ⟨w, hw⟩ := bayPropagate_clean p.net.call fuel hclean
        simp only [if_true, hout, ht, ne_eq, not_true, or_false, iff_false, Bool.false_eq_true]
        have hfail : ∀ e', (cpuMigrateThread sys e old t old >>=
            (threadMigrateCpu sys · t old)) ≠ .ok e' := by
          intro e' hrun
          obtain ⟨e1, hmig, hrun⟩ := bind_ok hrun
          exact migrate_same hok ht (hdup (.thread t .cpu) trivial) hmig hrun
        cases hrun : cpuMigrateThread sys e old t old >>= (threadMigrateCpu sys · t old) with
        | ok e' => exact absurd hrun (hfail e')
        | error f => simp [hw, bind, Except.bind, pure, Except.pure, SameResult]
      · have hsome : some newcpu ≠ some old := fun heq => hc (Option.some.inj heq).symm
        simp only [if_neg hc, ht, ne_eq, hsome, not_false_eq_true, or_true, iff_true]
        exact SameResult.refl _

end

/-! ## The thread stays where it is -/

/-- The first thread runs on the physical CPU. -/
def demoOnCpu : PatchEmu Bool Bool Empty Empty Empty Empty Empty :=
  demoStep bareBay bareInit [.event (demoEvent false 'H' 'x' [0])]

theorem demoOnCpu_run : EmuRun demoSystem bareBay [] Empty.elim demoOnCpu := by
  have hsource : ∀ acts ∈ [[EmuAct.event (demoEvent false 'H' 'x' [0])]],
      ∀ op, .write op ∈ acts → (∃ x : Empty, op.chan = .model x) ∧
        ∀ part ∈ ([] : List (Part Empty Empty Empty)), op.chan ∉ bareBay.partOuts part := by
    simp
  exact demoSteps_run bareInit_run hsource (by decide +kernel)

/-- OAs with the CPU of the thread succeeds and OAr fails. -/
theorem affinity_remote_fails : EmuRun demoSystem bareBay [] Empty.elim demoOnCpu ∧
    (demoOnCpu.th false).isActive = true ∧
      ¬ SameResult (emuEvent demoSystem bareBay 20 (affinitySet false 0) demoOnCpu)
        (emuEvent demoSystem bareBay 20 (affinityRemote false 0 100) demoOnCpu) := by
  have hset : (emuEvent demoSystem bareBay 20 (affinitySet false 0) demoOnCpu).isOk = true := by
    decide +kernel
  have hremote : (emuEvent demoSystem bareBay 20 (affinityRemote false 0 100) demoOnCpu).isOk =
      false := by
    decide +kernel
  refine ⟨demoOnCpu_run, by decide +kernel, fun hsame => ?_⟩
  rw [hsame.isOk, hremote] at hset
  cases hset

/-- Both move the thread to the virtual CPU. -/
theorem affinity_same_result_moved :
    (emuEvent demoSystem bareBay 20 (affinitySet false (-1)) demoOnCpu).isOk = true ∧
      SameResult (emuEvent demoSystem bareBay 20 (affinitySet false (-1)) demoOnCpu)
        (emuEvent demoSystem bareBay 20 (affinityRemote false (-1) 100) demoOnCpu) := by
  have hmoved : loomGetCpu demoSystem (demoSystem.loom (demoSystem.proc false)) (-1) ≠
      (demoOnCpu.th false).cpu := by
    decide +kernel
  have hsame := affinity_same_result (t := false) (by simp) (by decide +kernel)
    (by decide +kernel) demoOnCpu_run (by decide +kernel) (-1) 19
  exact ⟨by decide +kernel, hsame.mpr (.inr hmoved)⟩

end Ovni
