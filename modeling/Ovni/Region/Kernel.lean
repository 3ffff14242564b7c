import Ovni.Region.Nesting
import Ovni.System.Life

/-!
# Threads out of their CPU

The events KCO and KCI of the kernel model mark a thread out of its CPU and show it on a
channel.  When no other event does, the two agree and the events of a thread alternate; and
while a thread is out, it does nothing and stays in its state.
-/

namespace Ovni

open Ovni.Lib

/-! ## The mark of a thread -/

section

variable {θ γ π ℓ ξ μ ν τ : Type} [DecidableEq θ] [DecidableEq γ] [DecidableEq ξ]
variable {sys : System θ γ π ℓ} {e e' : Emu θ γ ξ μ ν τ} {t : θ} {ev : SysEvent θ}

omit [DecidableEq γ] [DecidableEq ξ] in
/-- A change of a thread that keeps its mark. -/
theorem update_out {th : θ → Thread γ} {x : Thread γ} (hx : x.isOutOfCpu = (th t).isOutOfCpu)
    (t' : θ) : (Function.update th t x t').isOutOfCpu = (th t').isOutOfCpu := by
  by_cases htt : t' = t
  · rw [htt, Function.update_self, hx]
  · rw [Function.update_of_ne htt]

theorem threadSetState_out {state : ThreadState} (hb : SysBay e.world.bay)
    (hrun : threadSetState sys e t state = .ok e') (t' : θ) :
    (e'.th t').isOutOfCpu = (e.th t').isOutOfCpu := by
  rw [(threadSetState_ok sys hb hrun).2.2.1]
  apply update_out
  rfl

theorem preThread_out (h : SysOk sys e) (hrun : preThread sys e ev = .ok e') (t' : θ) :
    (e'.th t').isOutOfCpu = (e.th t').isOutOfCpu := by
  have hchange : ∀ {allowed : List ThreadState} {state : ThreadState} {msg : String},
      preThreadChange sys allowed state msg e ev.thread = .ok e' →
        (e'.th t').isOutOfCpu = (e.th t').isOutOfCpu := by
    intro allowed state msg hrun
    obtain ⟨-, e1, c, h1, -, hrun⟩ := preThreadChange_ok hrun
    obtain ⟨heff, -, -, hcpu, -⟩ := threadSetState_ok sys h.bay h1
    have hstep := CpuStep.update (heff.sysBay h.bay) (by rw [hcpu]; exact (h.cpu c).nthreads) hrun
    rw [hstep.th]
    exact threadSetState_out h.bay h1 t'
  unfold preThread at hrun
  split at hrun
  · rw [Except.ok.inj hrun]
  · obtain ⟨c, e1, e2, h1, h2, hrun⟩ := preThreadExecute_ok hrun
    obtain ⟨heff1, -, hth1, hcpu1, -⟩ := threadSetCpu_ok sys h.bay h1
    have hb1 := heff1.sysBay h.bay
    obtain ⟨heff2, -, -, hcpu2, -⟩ := threadSetState_ok sys hb1 h2
    have hlen : (e2.cpu c).nthreads = (e2.cpu c).threads.length := by
      rw [hcpu2, hcpu1]
      exact (h.cpu c).nthreads
    obtain ⟨-, hstep⟩ := CpuStep.add (heff2.sysBay hb1) hlen hrun
    rw [hstep.th, threadSetState_out hb1 h2, hth1]
    apply update_out
    rfl
  · obtain ⟨-, e1, c, e2, h1, -, h2, hrun⟩ := preThreadEnd_ok hrun
    obtain ⟨heff1, -, -, hcpu1, -⟩ := threadSetState_ok sys h.bay h1
    have hb1 := heff1.sysBay h.bay
    have hstep := CpuStep.remove hb1 (by rw [hcpu1]; exact (h.cpu c).nthreads) h2
    rw [(threadUnsetCpu_ok (hstep.effect.sysBay hb1) hrun).2.1, hstep.th]
    refine (update_out ?_ t').trans (threadSetState_out h.bay h1 t')
    rfl
  · exact hchange hrun
  · exact hchange hrun
  · exact hchange hrun
  · exact hchange hrun
  · cases hrun

theorem preAffinity_out (h : SysOk sys e) (hrun : preAffinity sys e ev = .ok e') (t' : θ) :
    (e'.th t').isOutOfCpu = (e.th t').isOutOfCpu := by
  rcases preAffinity_ok hrun with rfl | ⟨t, old, newcpu, e1, -, h1, hrun⟩
  · rfl
  · obtain ⟨e0, h0, h1⟩ := bind_ok h1
    have hremove := CpuStep.remove h.bay (h.cpu old).nthreads h0
    have hb0 := hremove.effect.sysBay h.bay
    have hcpu : CpuOk sys e0 newcpu := by
      by_cases hcc : newcpu = old
      · rw [hcc]
        exact hremove.ok
      · exact hremove.cpus newcpu hcc (h.cpu newcpu)
    obtain ⟨-, hadd⟩ := CpuStep.add hb0 hcpu.nthreads h1
    obtain ⟨-, hth2, -, -⟩ := threadMigrateCpu_ok sys (hadd.effect.sysBay hb0) hrun
    rw [hth2, hadd.th, hremove.th]
    apply update_out
    rfl

/-- The events of a thread leave the states of the others alone. -/
theorem event_other (h : SysOk sys e) (hrun : modelOvniEvent sys e ev = .ok e') {t' : θ}
    (htt : t' ≠ ev.thread) : (e'.th t').state = (e.th t').state := by
  obtain ⟨-, hrun⟩ := guard_ok hrun
  split at hrun
  · unfold preThread at hrun
    split at hrun
    · rw [Except.ok.inj hrun]
    · exact (threadExecute_toState h hrun).2.other t' htt
    · exact (threadEnd_toState h hrun).2.other t' htt
    · exact (threadChange_toState h hrun).2.other t' htt
    · exact (threadChange_toState h hrun).2.other t' htt
    · exact (threadChange_toState h hrun).2.other t' htt
    · exact (threadChange_toState h hrun).2.other t' htt
    · cases hrun
  · exact preAffinity_state h hrun t'
  · cases hrun

/-- The events of threads and CPUs leave the marks alone. -/
theorem event_out (h : SysOk sys e) (hrun : modelOvniEvent sys e ev = .ok e') (t' : θ) :
    (e'.th t').isOutOfCpu = (e.th t').isOutOfCpu := by
  obtain ⟨-, hrun⟩ := guard_ok hrun
  split at hrun
  · exact preThread_out h hrun t'
  · exact preAffinity_out h hrun t'
  · cases hrun

end

/-! ## The words of context switches -/

/-- The word of a thread that went out of its CPU and back `n` times, and may be out again. -/
def switchWord (n : Nat) (out : Bool) : List (Bracket Value) :=
  (List.replicate n [.enter (.int64 stCsout), .leave (.int64 stCsout)]).flatten ++
    if out then [.enter (.int64 stCsout)] else []

theorem switchWord_run (n : Nat) (out : Bool) :
    (regionRule false).run [] (switchWord n out) =
      some (if out then [.int64 stCsout] else []) := by
  have hfits : ([] : List Value).length < (regionRule false).depth ∧
      ((regionRule false).repeats = false →
        ([] : List Value).head? ≠ some (.int64 stCsout)) := by decide
  unfold switchWord
  induction n with
  | zero =>
      cases out with
      | false => rfl
      | true => exact BracketRule.run_enter.mpr ⟨hfits, rfl⟩
  | succ n ih =>
      rw [List.replicate_succ, List.flatten_cons, List.append_assoc]
      exact BracketRule.run_enter.mpr ⟨hfits, BracketRule.run_leave.mpr ⟨[], rfl, ih⟩⟩

/-- What can follow is the other event. -/
theorem switchWord_next {n : Nat} {out out' : Bool} {s : List Value}
    (h : (regionRule false).run [] (switchWord n out ++
      [if out' then .enter (.int64 stCsout) else .leave (.int64 stCsout)]) = some s) :
    out = !out' ∧ ∃ n', switchWord n out ++
      [if out' then .enter (.int64 stCsout) else .leave (.int64 stCsout)] = switchWord n' out' := by
  rw [BracketRule.run_append, switchWord_run, Option.bind_some] at h
  cases out with
  | false =>
      cases out' with
      | false =>
          obtain ⟨s', hs, -⟩ := BracketRule.run_leave.mp h
          cases hs
      | true => exact ⟨rfl, n, by simp [switchWord]⟩
  | true =>
      cases out' with
      | false =>
          refine ⟨rfl, n + 1, ?_⟩
          simp [switchWord, List.replicate_succ', List.flatten_append]
      | true =>
          obtain ⟨⟨-, hne⟩, -⟩ := BracketRule.run_enter.mp h
          exact absurd rfl (hne rfl)

/-! ## Runs -/

section

variable {θ γ π ℓ ξ μ ς ρ φ : Type} [DecidableEq θ] [DecidableEq γ] [DecidableEq ξ]
  [DecidableEq μ] [DecidableEq ς] [DecidableEq ρ] [DecidableEq φ]
variable {sys : System θ γ π ℓ} {p : Patch (EmuChan θ γ ξ) μ ς ρ φ} {parts : List (Part μ ς ρ)}
  {model : ξ → Chan} {log : List (List (EmuAct θ γ ξ))} {e e' : PatchEmu θ γ ξ μ ς ρ φ}
  {cs : θ → ξ} {acts : List (EmuAct θ γ ξ)}

/-- A step of the kernel model, or one that leaves its marks and channels alone. -/
def KernelStep (cs : θ → ξ) (acts : List (EmuAct θ γ ξ)) : Prop :=
  (∃ th ev, kernelEvent cs th ev = .ok acts) ∨
    (∀ t out, .outOfCpu t out ∉ acts) ∧ ∀ op, .write op ∈ acts → ∀ t, op.chan ≠ .model (cs t)

/-- What a context switch of a thread does. -/
def switchActs (cs : θ → ξ) (t : θ) (out : Bool) : List (EmuAct θ γ ξ) :=
  [.outOfCpu t out, .write (if out then .push (.model (cs t)) (.int64 stCsout)
    else .pop (.model (cs t)) (.int64 stCsout))]

omit [DecidableEq θ] [DecidableEq γ] [DecidableEq ξ] in
theorem kernelEvent_ok {th : Thread γ} {ev : ModelEvent θ} (h : kernelEvent cs th ev = .ok acts) :
    ∃ out, acts = switchActs cs ev.thread out := by
  unfold kernelEvent at h
  split at h
  · split at h
    · exact ⟨true, (Except.ok.inj h).symm⟩
    · exact ⟨false, (Except.ok.inj h).symm⟩
    · cases h
  · cases h

theorem runActs_out {acts : List (EmuAct θ γ ξ)} (hok : EmuOk sys p parts e)
    (hmodel : ∀ op, .write op ∈ acts → ∃ x, op.chan = .model x)
    (hout : ∀ t out, .outOfCpu t out ∉ acts) (hrun : runActs sys acts e = .ok e') (t : θ) :
    (e'.th t).isOutOfCpu = (e.th t).isOutOfCpu := by
  induction acts generalizing e with
  | nil =>
      rw [runActs] at hrun
      rw [Except.ok.inj hrun]
  | cons act acts ih =>
      rw [runActs] at hrun
      obtain ⟨e1, hact, hrun⟩ := bind_ok hrun
      rw [ih (hok.act (fun op hop => hmodel op (by simp [hop])) hact)
        (fun op hop => hmodel op (List.mem_cons_of_mem _ hop))
        (fun t out hmem => hout t out (List.mem_cons_of_mem _ hmem)) hrun]
      cases act with
      | event ev => exact event_out hok.sys hact t
      | outOfCpu t' out => exact absurd List.mem_cons_self (hout t' out)
      | write op =>
          obtain ⟨b, -, hact⟩ := bind_ok hact
          rw [← Except.ok.inj hact]

omit [DecidableEq θ] [DecidableEq γ] [DecidableEq μ] [DecidableEq ς] [DecidableEq ρ]
  [DecidableEq φ] in
/-- A step that does not write a channel adds nothing to its word. -/
theorem actsWord_nil {x : ξ} (h : ∀ op, .write op ∈ acts → op.chan ≠ .model x) :
    actsWord x acts = [] := by
  unfold actsWord
  rw [List.filterMap_eq_nil_iff]
  intro act hact
  cases act with
  | event ev => rfl
  | outOfCpu t out => rfl
  | write op =>
      have hx := h op hact
      cases op with
      | set c v => rfl
      | push c v =>
          cases c with
          | model x' => exact if_neg fun he => hx (congrArg EmuChan.model he)
          | thread t k => rfl
          | cpu c k => rfl
      | pop c v =>
          cases c with
          | model x' => exact if_neg fun he => hx (congrArg EmuChan.model he)
          | thread t k => rfl
          | cpu c k => rfl

omit [DecidableEq θ] [DecidableEq γ] [DecidableEq μ] [DecidableEq ς] [DecidableEq ρ]
  [DecidableEq φ] in
theorem actsWord_switch (t : θ) (out : Bool) :
    actsWord (cs t) (switchActs cs t out : List (EmuAct θ γ ξ)) =
      [if out then .enter (.int64 stCsout) else .leave (.int64 stCsout)] := by
  cases out <;> simp [actsWord, switchActs, EmuAct.bracket, List.filterMap_cons]

omit [DecidableEq θ] [DecidableEq γ] [DecidableEq μ] [DecidableEq ς] [DecidableEq ρ]
  [DecidableEq φ] in
theorem actsWord_switch_of_ne {t t' : θ} {out : Bool} (hne : cs t' ≠ cs t) :
    actsWord (cs t) (switchActs cs t' out : List (EmuAct θ γ ξ)) = [] := by
  cases out <;> simp [actsWord, switchActs, EmuAct.bracket, hne]

omit [DecidableEq μ] [DecidableEq ς] [DecidableEq ρ] [DecidableEq φ] in
theorem switchActs_th {t : θ} {out : Bool} (hrun : runActs sys (switchActs cs t out) e = .ok e') :
    e'.th = Function.update e.th t { e.th t with isOutOfCpu := out } := by
  obtain ⟨e1, hmark, hrun⟩ := bind_ok hrun
  obtain ⟨e2, hwrite, hrun⟩ := bind_ok hrun
  obtain ⟨b, -, hwrite⟩ := bind_ok hwrite
  rw [← Except.ok.inj hrun, ← Except.ok.inj hwrite, ← Except.ok.inj hmark]
  rfl

/-- The word of a thread, and its mark. -/
theorem EmuLog.switchWord (hcs : Function.Injective cs)
    (hsys : ∀ part ∈ parts, ∀ c ∈ p.partOuts part, ¬ c.IsSys)
    (hinit : ∀ t, model (cs t) = stackInit false)
    (hout : ∀ t, ∀ part ∈ parts, .model (cs t) ∉ p.partOuts part)
    (h : EmuLog sys p parts model log e) (hkernel : ∀ acts ∈ log, KernelStep cs acts) (t : θ) :
    ∃ n, regionWord (cs t) log = Ovni.switchWord n (e.th t).isOutOfCpu := by
  have hnext := h.region hsys (hinit t) (hout t)
  induction h with
  | connect hchan hclean honce hrun => exact ⟨0, rfl⟩
  | @step log e e1 acts w fuel h hsource hacts hrun ih =>
      obtain ⟨n, hword⟩ := ih (fun acts hmem => hkernel acts (List.mem_append_left _ hmem))
        (h.region hsys (hinit t) (hout t))
      have hok := h.emuRun.ok hsys
      have hmodel : ∀ op, .write op ∈ acts → ∃ x, op.chan = .model x := fun op hop =>
        (hsource op hop).1
      have hsnoc : regionWord (cs t) (log ++ [acts]) = regionWord (cs t) log ++
          actsWord (cs t) acts := by
        unfold regionWord
        rw [List.flatMap_append, List.flatMap_singleton]
      obtain ⟨s, hread, -⟩ := hnext
      rw [hsnoc, hword] at hread ⊢
      rcases hkernel acts (by simp) with ⟨th, ev, hev⟩ | ⟨hmarks, hwrites⟩
      · obtain ⟨out, rfl⟩ := kernelEvent_ok hev
        have hth := switchActs_th hacts
        by_cases htt : t = ev.thread
        · subst htt
          rw [actsWord_switch] at hread ⊢
          obtain ⟨-, n', hn'⟩ := switchWord_next hread
          refine ⟨n', ?_⟩
          simp only [hth, Function.update_self]
          exact hn'
        · rw [actsWord_switch_of_ne fun he => htt (hcs he).symm, List.append_nil]
          refine ⟨n, ?_⟩
          simp only [hth, Function.update_of_ne htt]
      · rw [actsWord_nil fun op hop => hwrites op hop t, List.append_nil]
        refine ⟨n, ?_⟩
        rw [show (e1.th t).isOutOfCpu = _ from runActs_out hok hmodel hmarks hacts t]

/-- In every run where only the events of the kernel model mark threads and write its
channels, the events KCO and KCI of a thread alternate and its channel shows whether it is
out of its CPU.  While it is out, its own events are refused, and those of other threads
leave it in its state. -/
theorem kernel_marks_follow (hcs : Function.Injective cs)
    (hsys : ∀ part ∈ parts, ∀ c ∈ p.partOuts part, ¬ c.IsSys)
    (hinit : ∀ t, model (cs t) = stackInit false)
    (hout : ∀ t, ∀ part ∈ parts, .model (cs t) ∉ p.partOuts part)
    (h : EmuLog sys p parts model log e) (hkernel : ∀ acts ∈ log, KernelStep cs acts) (t : θ) :
    (∃ n, regionWord (cs t) log = switchWord n (e.th t).isOutOfCpu) ∧
      e.read (.model (cs t)) = (if (e.th t).isOutOfCpu then .int64 stCsout else .null) ∧
      (e.read (.model (cs t)) = .int64 stCsout → ∀ ev e', modelOvniEvent sys e ev = .ok e' →
        ev.thread ≠ t ∧ (e'.th t).state = (e.th t).state ∧ (e'.th t).isOutOfCpu = true) := by
  have hword := h.switchWord hcs hsys hinit hout hkernel t
  obtain ⟨n, hn⟩ := hword
  obtain ⟨hrun, hread⟩ := h.regions hsys (hinit t) (hout t)
  rw [hn, switchWord_run] at hrun
  have hshown : e.read (.model (cs t)) =
      (if (e.th t).isOutOfCpu then .int64 stCsout else .null) := by
    rw [hread, ← Option.some.inj hrun]
    cases (e.th t).isOutOfCpu <;> rfl
  refine ⟨⟨n, hn⟩, hshown, fun hcsout ev e' hev => ?_⟩
  have hmark : (e.th t).isOutOfCpu = true := by
    rw [hshown] at hcsout
    by_contra hin
    rw [if_neg hin] at hcsout
    cases hcsout
  have hok := (h.emuRun.ok hsys).sys
  have hother : ev.thread ≠ t := by
    rintro rfl
    exact (guard_ok hev).1 hmark
  exact ⟨hother, event_other hok hev (Ne.symm hother), (event_out hok hev t).trans hmark⟩

end

/-! ## A run -/

/-- The first thread executes, goes out of its CPU, comes back and goes out again. -/
def demoKernelLog : List (List (EmuAct Bool Bool DemoChan)) :=
  [[.event (demoEvent false 'H' 'x' [0])], switchActs .th false true, switchActs .th false false,
    switchActs .th false true]

theorem demoKernel_log : EmuLog demoSystem (demoTracks .null) demoTrackParts demoStacks
    demoKernelLog (demoKernelLog.foldl (demoTracksStep .null) demoStacksInit) := by
  refine demoStacks_init.demoSteps (fun acts hacts op hop => ?_) (by decide +kernel)
  have hchan : op.chan = .model (.th false) := by
    simp only [switchActs, List.mem_cons, List.not_mem_nil, or_false] at hacts
    rcases hacts with rfl | rfl | rfl | rfl <;> simp at hop <;> rw [hop] <;> rfl
  rw [hchan]
  exact ⟨⟨_, rfl⟩, ((demoTracks_setup .null (.th false)).source (.th false) rfl).1⟩

/-- The thread is shown out of its CPU, which it left twice. -/
theorem kernel_marks_follow_demo :
    ∃ n, regionWord (.th false) demoKernelLog = switchWord n true := by
  have hswitch : ∀ (v : Char) (out : Bool), kernelEvent DemoChan.th (threadInit : Thread Bool)
      { thread := false, c := 'C', v, payloadSize := 0, u32 := fun _ => 0, u64 := fun _ => 0 } =
        .ok (switchActs DemoChan.th false out) →
      KernelStep DemoChan.th
        (switchActs DemoChan.th false out : List (EmuAct Bool Bool DemoChan)) :=
    fun _ _ hev => Or.inl ⟨_, _, hev⟩
  have hkernel : ∀ acts ∈ demoKernelLog, KernelStep .th acts := by
    intro acts hacts
    simp only [demoKernelLog, List.mem_cons, List.not_mem_nil, or_false] at hacts
    rcases hacts with rfl | rfl | rfl | rfl
    · exact Or.inr ⟨by simp, by simp⟩
    · exact hswitch 'O' true rfl
    · exact hswitch 'I' false rfl
    · exact hswitch 'O' true rfl
  have hmark : ((demoKernelLog.foldl (demoTracksStep .null) demoStacksInit).th false).isOutOfCpu =
      true := by decide +kernel
  have hmarks := kernel_marks_follow (fun t t' => DemoChan.th.inj) (demoTracks_bay .null).sys
    (fun t => rfl) (fun t => ((demoTracks_setup .null (.th t)).source (.th t) rfl).1)
    demoKernel_log hkernel false
  rw [hmark] at hmarks
  exact hmarks.1

end Ovni
