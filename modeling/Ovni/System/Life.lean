import Mathlib.Data.List.Chain
import Ovni.System.Run

/-!
# The life of a thread

The states of the threads along a run, action by action.  A thread changes its state only
by its own events and along the thread model, but for one thing: `pre_thread_execute` only
refuses a thread that is running or has a CPU, and a dead thread is neither.
-/

namespace Ovni

open Ovni.Lib

/-- The thread model with the events that follow its arrows, and the end of a cooling
thread. -/
inductive Moves : Char → ThreadState → ThreadState → Prop where
  | execute : Moves 'x' .unknown .running
  | cool : Moves 'c' .running .cooling
  | pause : Moves 'p' .running .paused
  | pauseCooling : Moves 'p' .cooling .paused
  | warm : Moves 'w' .paused .warming
  | resume : Moves 'r' .paused .running
  | resumeWarming : Moves 'r' .warming .running
  | finish : Moves 'e' .running .dead
  | finishCooling : Moves 'e' .cooling .dead

theorem Moves.ne_dead {v : Char} {state state' : ThreadState} (h : Moves v state state') :
    state ≠ .dead := by
  cases h <;> simp

section

variable {θ γ π ℓ ξ μ ν τ : Type} [DecidableEq θ] [DecidableEq γ] [DecidableEq ξ]
variable {sys : System θ γ π ℓ} {e e' : Emu θ γ ξ μ ν τ} {t : θ} {ev : SysEvent θ}

/-! ## One event -/

/-- The thread has another state, and the rest of the threads is as it was. -/
structure ToState (e e' : Emu θ γ ξ μ ν τ) (t : θ) (state : ThreadState) : Prop where
  self : (e'.th t).state = state
  other : ∀ t', t' ≠ t → (e'.th t').state = (e.th t').state

theorem threadChange_toState {allowed : List ThreadState} {state : ThreadState} {msg : String}
    (h : SysOk sys e) (hrun : preThreadChange sys allowed state msg e t = .ok e') :
    (e.th t).state ∈ allowed ∧ ToState e e' t state := by
  obtain ⟨hallowed, e1, c, h1, -, hrun⟩ := preThreadChange_ok hrun
  obtain ⟨heff, -, hth, hcpu, -⟩ := threadSetState_ok sys h.bay h1
  have hstep := CpuStep.update (heff.sysBay h.bay) (by rw [hcpu]; exact (h.cpu c).nthreads) hrun
  refine ⟨hallowed, ?_, fun t' htt => ?_⟩
  · rw [hstep.th, hth, Function.update_self]
  · rw [hstep.th, hth, Function.update_of_ne htt]

theorem threadExecute_toState (h : SysOk sys e) (hrun : preThreadExecute sys e ev t = .ok e') :
    (e.th t).cpu = none ∧ ToState e e' t .running := by
  obtain ⟨c, e1, e2, h1, h2, hrun⟩ := preThreadExecute_ok hrun
  obtain ⟨heff1, hnone, hth1, hcpu1, -⟩ := threadSetCpu_ok sys h.bay h1
  have hb1 := heff1.sysBay h.bay
  obtain ⟨heff2, -, hth2, hcpu2, -⟩ := threadSetState_ok sys hb1 h2
  have hlen : (e2.cpu c).nthreads = (e2.cpu c).threads.length := by
    rw [hcpu2, hcpu1]
    exact (h.cpu c).nthreads
  obtain ⟨-, hstep⟩ := CpuStep.add (heff2.sysBay hb1) hlen hrun
  refine ⟨hnone, ?_, fun t' htt => ?_⟩
  · rw [hstep.th, hth2, Function.update_self]
  · rw [hstep.th, hth2, Function.update_of_ne htt, hth1, Function.update_of_ne htt]

theorem threadEnd_toState (h : SysOk sys e) (hrun : preThreadEnd sys e t = .ok e') :
    ((e.th t).state = .running ∨ (e.th t).state = .cooling) ∧ ToState e e' t .dead := by
  obtain ⟨hstate, e1, c, e2, h1, -, h2, hrun⟩ := preThreadEnd_ok hrun
  obtain ⟨heff1, -, hth1, hcpu1, -⟩ := threadSetState_ok sys h.bay h1
  have hb1 := heff1.sysBay h.bay
  have hstep := CpuStep.remove hb1 (by rw [hcpu1]; exact (h.cpu c).nthreads) h2
  obtain ⟨-, hth3, -, -⟩ := threadUnsetCpu_ok (hstep.effect.sysBay hb1) hrun
  refine ⟨hstate, ?_, fun t' htt => ?_⟩
  · rw [hth3, Function.update_self, hstep.th, hth1, Function.update_self]
  · rw [hth3, Function.update_of_ne htt, hstep.th, hth1, Function.update_of_ne htt]

theorem migrate_state {old newcpu : γ} {e1 : Emu θ γ ξ μ ν τ} (h : SysOk sys e)
    (h1 : cpuMigrateThread sys e old t newcpu = .ok e1)
    (hrun : threadMigrateCpu sys e1 t newcpu = .ok e') (t' : θ) :
    (e'.th t').state = (e.th t').state := by
  obtain ⟨e0, h0, h1⟩ := bind_ok h1
  have hremove := CpuStep.remove h.bay (h.cpu old).nthreads h0
  have hb0 := hremove.effect.sysBay h.bay
  have hcpu : CpuOk sys e0 newcpu := by
    by_cases hcc : newcpu = old
    · rw [hcc]
      exact hremove.ok
    · exact hremove.cpus newcpu hcc (h.cpu newcpu)
  obtain ⟨-, hadd⟩ := CpuStep.add hb0 hcpu.nthreads h1
  obtain ⟨heff2, hth2, hcpu2, hread2⟩ := threadMigrateCpu_ok sys (hadd.effect.sysBay hb0) hrun
  have hchange : CpuChange sys e1 e' t (some newcpu) := ⟨heff2, hth2, hcpu2, hread2⟩
  rw [hchange.state, hadd.th, hremove.th]

/-- How an event changes the state of a thread: not at all, or its own along the model. -/
def Follows (ev : SysEvent θ) (e e' : Emu θ γ ξ μ ν τ) (t : θ) : Prop :=
  (e'.th t).state = (e.th t).state ∨
    ev.thread = t ∧ ev.c = 'H' ∧ Moves ev.v (e.th t).state (e'.th t).state

/-- OHx of a dead thread. -/
def SysEvent.Revives (ev : SysEvent θ) (e : Emu θ γ ξ μ ν τ) : Prop :=
  ev.c = 'H' ∧ ev.v = 'x' ∧ (e.th ev.thread).state = .dead

omit [DecidableEq θ] [DecidableEq γ] [DecidableEq ξ] in
theorem ToState.follows {state : ThreadState} (h : ToState e e' ev.thread state)
    (hcat : ev.c = 'H') (hmove : Moves ev.v (e.th ev.thread).state state) (t : θ) :
    Follows ev e e' t := by
  by_cases htt : t = ev.thread
  · subst htt
    refine Or.inr ⟨rfl, hcat, ?_⟩
    rw [h.self]
    exact hmove
  · exact Or.inl (h.other t htt)

theorem preThread_follows (h : SysOk sys e) (hcat : ev.c = 'H') (hdead : ¬ ev.Revives e)
    (hrun : preThread sys e ev = .ok e') (t : θ) : Follows ev e e' t := by
  unfold preThread at hrun
  split at hrun
  · rw [← Except.ok.inj hrun]
    exact Or.inl rfl
  · rename_i hv
    obtain ⟨hnone, hto⟩ := threadExecute_toState h hrun
    refine hto.follows hcat ?_ t
    rcases (h.idle ev.thread).mp hnone with hstate | hstate
    · rw [hv, hstate]
      exact .execute
    · exact absurd ⟨hcat, hv, hstate⟩ hdead
  · rename_i hv
    obtain ⟨hstate | hstate, hto⟩ := threadEnd_toState h hrun
    · exact hto.follows hcat (by rw [hv, hstate]; exact .finish) t
    · exact hto.follows hcat (by rw [hv, hstate]; exact .finishCooling) t
  · rename_i hv
    obtain ⟨hstate, hto⟩ := threadChange_toState h hrun
    simp only [List.mem_cons, List.not_mem_nil, or_false] at hstate
    rcases hstate with hstate | hstate
    · exact hto.follows hcat (by rw [hv, hstate]; exact .pause) t
    · exact hto.follows hcat (by rw [hv, hstate]; exact .pauseCooling) t
  · rename_i hv
    obtain ⟨hstate, hto⟩ := threadChange_toState h hrun
    simp only [List.mem_cons, List.not_mem_nil, or_false] at hstate
    rcases hstate with hstate | hstate
    · exact hto.follows hcat (by rw [hv, hstate]; exact .resume) t
    · exact hto.follows hcat (by rw [hv, hstate]; exact .resumeWarming) t
  · rename_i hv
    obtain ⟨hstate, hto⟩ := threadChange_toState h hrun
    rw [List.mem_singleton] at hstate
    exact hto.follows hcat (by rw [hv, hstate]; exact .cool) t
  · rename_i hv
    obtain ⟨hstate, hto⟩ := threadChange_toState h hrun
    rw [List.mem_singleton] at hstate
    exact hto.follows hcat (by rw [hv, hstate]; exact .warm) t
  · cases hrun

theorem preAffinity_state (h : SysOk sys e) (hrun : preAffinity sys e ev = .ok e') (t : θ) :
    (e'.th t).state = (e.th t).state := by
  rcases preAffinity_ok hrun with rfl | ⟨t', old, newcpu, e1, -, h1, hrun⟩
  · rfl
  · exact migrate_state h h1 hrun t

/-- An event that does not execute a dead thread follows the thread model. -/
theorem event_follows (h : SysOk sys e) (hdead : ¬ ev.Revives e)
    (hrun : modelOvniEvent sys e ev = .ok e') (t : θ) : Follows ev e e' t := by
  obtain ⟨-, hrun⟩ := guard_ok hrun
  split at hrun
  · rename_i hcat
    exact preThread_follows h hcat hdead hrun t
  · exact Or.inl (preAffinity_state h hrun t)
  · cases hrun

end

/-! ## Runs -/

section

variable {θ γ π ℓ ξ μ ς ρ φ : Type} [DecidableEq θ] [DecidableEq γ] [DecidableEq ξ]
variable [DecidableEq μ] [DecidableEq ς] [DecidableEq ρ] [DecidableEq φ]

/-- A state of the emulator with the action that led to it, if it was one. -/
abbrev LifeStep (θ γ ξ μ ς ρ φ : Type) := Option (EmuAct θ γ ξ) × PatchEmu θ γ ξ μ ς ρ φ

/-- The states of a run after each action and each propagation, the latest one first, where
the actions are among the allowed ones. -/
inductive LifeRun (sys : System θ γ π ℓ) (p : Patch (EmuChan θ γ ξ) μ ς ρ φ)
    (parts : List (Part μ ς ρ)) (model : ξ → Chan)
    (allowed : EmuAct θ γ ξ → PatchEmu θ γ ξ μ ς ρ φ → Prop) :
    List (LifeStep θ γ ξ μ ς ρ φ) → Prop where
  | connect {w : PatchWorld (EmuChan θ γ ξ) μ ς ρ φ} (hchan : ∀ x, Unregistered (model x))
      (hclean : ∀ x, (model x).isDirty = false) (honce : parts.Nodup)
      (hrun : connectParts p parts (patchInit (emuChanInit model)) = .ok w) :
      LifeRun sys p parts model allowed [(none, emuInit w)]
  | act {e e' : PatchEmu θ γ ξ μ ς ρ φ} {o : Option (EmuAct θ γ ξ)} {act : EmuAct θ γ ξ}
      {steps : List (LifeStep θ γ ξ μ ς ρ φ)}
      (h : LifeRun sys p parts model allowed ((o, e) :: steps))
      (hsource : ∀ op, act = .write op →
        (∃ x, op.chan = .model x) ∧ ∀ part ∈ parts, op.chan ∉ p.partOuts part)
      (hallowed : allowed act e) (hrun : act.run sys e = .ok e') :
      LifeRun sys p parts model allowed ((some act, e') :: (o, e) :: steps)
  | propagate {e : PatchEmu θ γ ξ μ ς ρ φ} {o : Option (EmuAct θ γ ξ)}
      {steps : List (LifeStep θ γ ξ μ ς ρ φ)} {w : PatchWorld (EmuChan θ γ ξ) μ ς ρ φ}
      {fuel : Nat} (h : LifeRun sys p parts model allowed ((o, e) :: steps))
      (hrun : bayPropagate p.net.call fuel e.world = .ok w) :
      LifeRun sys p parts model allowed ((none, { e with world := w }) :: (o, e) :: steps)

/-- The action does not execute a dead thread. -/
def NotRevived (act : EmuAct θ γ ξ) (e : PatchEmu θ γ ξ μ ς ρ φ) : Prop :=
  ∀ ev, act = .event ev → ¬ ev.Revives e

/-- From one state to the next, each thread keeps its state or moves along the model. -/
def NextState (s' s : LifeStep θ γ ξ μ ς ρ φ) : Prop :=
  ∀ t, (s'.2.th t).state = (s.2.th t).state ∨
    ∃ ev, s'.1 = some (.event ev) ∧ ev.thread = t ∧ ev.c = 'H' ∧
      Moves ev.v (s.2.th t).state (s'.2.th t).state

/-- A dead thread is dead later, and has no CPU. -/
def StaysDead (s' s : LifeStep θ γ ξ μ ς ρ φ) : Prop :=
  ∀ t, (s.2.th t).state = .dead → (s'.2.th t).state = .dead ∧ (s'.2.th t).cpu = none

variable {sys : System θ γ π ℓ} {p : Patch (EmuChan θ γ ξ) μ ς ρ φ} {parts : List (Part μ ς ρ)}
  {model : ξ → Chan} {allowed : EmuAct θ γ ξ → PatchEmu θ γ ξ μ ς ρ φ → Prop}
  {steps : List (LifeStep θ γ ξ μ ς ρ φ)}

theorem LifeRun.ok (hsys : ∀ part ∈ parts, ∀ c ∈ p.partOuts part, ¬ c.IsSys)
    (h : LifeRun sys p parts model allowed steps) : ∀ s ∈ steps, EmuOk sys p parts s.2 := by
  induction h with
  | connect hchan hclean honce hrun =>
      intro s hs
      rw [List.mem_singleton.mp hs]
      exact (EmuRun.connect hchan hclean honce hrun : EmuRun sys p parts model _).ok hsys
  | act _ hsource _ hrun ih =>
      intro s hs
      rcases List.mem_cons.mp hs with rfl | hs
      · exact (ih _ List.mem_cons_self).act (fun op hop => (hsource op hop).1) hrun
      · exact ih s hs
  | propagate _ hrun ih =>
      intro s hs
      rcases List.mem_cons.mp hs with rfl | hs
      · exact (ih _ List.mem_cons_self).propagate hsys hrun
      · exact ih s hs

omit [DecidableEq μ] [DecidableEq ς] [DecidableEq ρ] [DecidableEq φ] in
theorem act_nextState {act : EmuAct θ γ ξ} {e e' : PatchEmu θ γ ξ μ ς ρ φ}
    {o : Option (EmuAct θ γ ξ)} (h : SysOk sys e) (hallowed : NotRevived act e)
    (hrun : act.run sys e = .ok e') : NextState (some act, e') (o, e) := by
  intro t
  cases act with
  | event ev =>
      rcases event_follows h (hallowed ev rfl) hrun t with hsame | ⟨ht, hcat, hmove⟩
      · exact Or.inl hsame
      · exact Or.inr ⟨ev, rfl, ht, hcat, hmove⟩
  | outOfCpu t' out =>
      rw [← Except.ok.inj hrun]
      apply Or.inl
      by_cases htt : t = t'
      · simp [Emu.setTh, htt]
      · simp [Emu.setTh, Function.update_of_ne htt]
  | write op =>
      obtain ⟨b, -, hrun⟩ := bind_ok hrun
      rw [← Except.ok.inj hrun]
      exact Or.inl rfl

omit [DecidableEq θ] [DecidableEq γ] [DecidableEq ξ] [DecidableEq μ] [DecidableEq ς]
  [DecidableEq ρ] [DecidableEq φ] in
theorem NextState.staysDead {s' s : LifeStep θ γ ξ μ ς ρ φ} (hok : SysOk sys s'.2)
    (h : NextState s' s) : StaysDead s' s := by
  intro t hdead
  have hstate : (s'.2.th t).state = .dead := by
    rcases h t with hsame | ⟨ev, -, -, -, hmove⟩
    · rw [hsame, hdead]
    · exact absurd hdead hmove.ne_dead
  exact ⟨hstate, (hok.idle t).mpr (.inr hstate)⟩

/-- In a run where no dead thread is executed the threads follow the thread model, and
nothing happens to a dead thread any more. -/
theorem threads_follow_model (hsys : ∀ part ∈ parts, ∀ c ∈ p.partOuts part, ¬ c.IsSys)
    (h : LifeRun sys p parts model NotRevived steps) :
    steps.IsChain NextState ∧ steps.Pairwise StaysDead := by
  have hok := h.ok hsys
  have hchain : steps.IsChain NextState := by
    clear hok
    induction h with
    | connect => exact .singleton _
    | act h _ hallowed hrun ih =>
        refine .cons_cons (act_nextState ?_ hallowed hrun) ih
        exact (h.ok hsys _ List.mem_cons_self).sys
    | propagate _ _ ih => exact .cons_cons (fun t => Or.inl rfl) ih
  refine ⟨hchain, ?_⟩
  clear h
  induction hchain with
  | nil => exact .nil
  | singleton s => exact List.pairwise_singleton _ s
  | @cons_cons s' s steps hnext _ ih =>
      have hrest := ih fun s hs => hok s (List.mem_cons_of_mem _ hs)
      have hstep := hnext.staysDead (hok s' List.mem_cons_self).sys
      refine List.pairwise_cons.mpr ⟨fun s'' hs'' => ?_, hrest⟩
      rcases List.mem_cons.mp hs'' with rfl | hs''
      · exact hstep
      · intro t hdead
        exact hstep t ((List.pairwise_cons.mp hrest).1 s'' hs'' t hdead).1

end

/-! ## A thread that is executed twice -/

/-- One event of the first thread, without its propagation. -/
def bareAct (e : PatchEmu Bool Bool Empty Empty Empty Empty Empty) (ev : SysEvent Bool) :
    PatchEmu Bool Bool Empty Empty Empty Empty Empty :=
  okOr e ((EmuAct.event ev).run demoSystem e)

/-- The event and its propagation. -/
def bareNext (e : PatchEmu Bool Bool Empty Empty Empty Empty Empty) (ev : SysEvent Bool) :
    PatchEmu Bool Bool Empty Empty Empty Empty Empty :=
  { bareAct e ev with
    world := okOr e.world (bayPropagate bareBay.net.call 20 (bareAct e ev).world) }

theorem bareLife {allowed : EmuAct Bool Bool Empty → PatchEmu Bool Bool Empty Empty Empty Empty
      Empty → Prop} {e : PatchEmu Bool Bool Empty Empty Empty Empty Empty}
    {o : Option (EmuAct Bool Bool Empty)}
    {steps : List (LifeStep Bool Bool Empty Empty Empty Empty Empty)} (ev : SysEvent Bool)
    (h : LifeRun demoSystem bareBay [] Empty.elim allowed ((o, e) :: steps))
    (hallowed : allowed (.event ev) e)
    (hact : ((EmuAct.event ev).run demoSystem e).isOk = true)
    (hprop : (bayPropagate bareBay.net.call 20 (bareAct e ev).world).isOk = true) :
    LifeRun demoSystem bareBay [] Empty.elim allowed ((none, bareNext e ev) ::
      (some (.event ev), bareAct e ev) :: (o, e) :: steps) :=
  .propagate (.act h (fun op hop => by cases hop) hallowed (eq_okOr e hact)) (eq_okOr _ hprop)

/-- The first thread executes. -/
def demoRan : PatchEmu Bool Bool Empty Empty Empty Empty Empty :=
  bareNext bareInit (demoEvent false 'H' 'x' [0])

/-- And ends. -/
def demoDead : PatchEmu Bool Bool Empty Empty Empty Empty Empty :=
  bareNext demoRan (demoEvent false 'H' 'e' [])

/-- And is executed again. -/
def demoRevived : PatchEmu Bool Bool Empty Empty Empty Empty Empty :=
  bareNext demoDead (demoEvent false 'H' 'x' [0])

/-- A dead thread runs again on a CPU. -/
theorem thread_revived : ∃ steps, LifeRun demoSystem bareBay [] Empty.elim (fun _ _ => True) steps ∧
    ¬ steps.IsChain NextState ∧ ¬ steps.Pairwise StaysDead := by
  have h₀ : LifeRun demoSystem bareBay [] Empty.elim (fun _ _ => True) [(none, bareInit)] :=
    .connect Empty.rec Empty.rec List.nodup_nil rfl
  have h₁ := bareLife (demoEvent false 'H' 'x' [0]) h₀ trivial (by decide +kernel)
    (by decide +kernel)
  have h₂ := bareLife (demoEvent false 'H' 'e' []) h₁ trivial (by decide +kernel)
    (by decide +kernel)
  have h₃ := bareLife (demoEvent false 'H' 'x' [0]) h₂ trivial (by decide +kernel)
    (by decide +kernel)
  have hdead : (demoDead.th false).state = .dead := by decide +kernel
  have hnot : (demoRevived.th false).state ≠ .dead := by decide +kernel
  have hnot' : ((bareAct demoDead (demoEvent false 'H' 'x' [0])).th false).state ≠ .dead := by
    decide +kernel
  refine ⟨_, h₃, fun hchain => ?_, fun hpair => ?_⟩
  · obtain ⟨-, hchain⟩ := List.isChain_cons_cons.mp hchain
    rcases (List.isChain_cons_cons.mp hchain).1 false with hsame | ⟨ev, -, -, -, hmove⟩
    · exact hnot' (hsame.trans hdead)
    · exact hmove.ne_dead hdead
  · have hstays := (List.pairwise_cons.mp hpair).1 (none, demoDead) (by simp [demoDead, demoRan])
    exact hnot (hstays false hdead).1

/-- The first thread executes and ends. -/
theorem threads_follow_model_ended : ∃ steps,
    LifeRun demoSystem bareBay [] Empty.elim NotRevived steps ∧
      (∃ s ∈ steps, (s.2.th false).state = .dead) ∧
      steps.IsChain NextState ∧ steps.Pairwise StaysDead := by
  have h₀ : LifeRun demoSystem bareBay [] Empty.elim NotRevived [(none, bareInit)] :=
    .connect Empty.rec Empty.rec List.nodup_nil rfl
  have h₁ := bareLife (demoEvent false 'H' 'x' [0]) h₀ ?_ (by decide +kernel) (by decide +kernel)
  have h₂ := bareLife (demoEvent false 'H' 'e' []) h₁ ?_ (by decide +kernel) (by decide +kernel)
  · refine ⟨_, h₂, ⟨_, List.mem_cons_self, ?_⟩, threads_follow_model (by simp) h₂⟩
    show (demoDead.th false).state = .dead
    decide +kernel
  · rintro ev ⟨⟩ ⟨-, hv, -⟩
    exact absurd hv (by decide)
  · rintro ev ⟨⟩ ⟨-, -, hdead⟩
    cases hdead

end Ovni
