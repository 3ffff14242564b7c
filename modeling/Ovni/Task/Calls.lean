import Ovni.Task.Invariant

/-!
# Sequences of calls on tasks

Each call is some steps, whether it fails or not, so after any sequence of calls the
bodies and the stacks are in order.
-/

namespace Ovni

open Ovni.Lib

variable {σ ι : Type} [DecidableEq σ] [DecidableEq ι] {s s' : Tasks σ ι} {on : σ → List Nat}
  {st : σ} {b t : Nat} {bodyId : UInt32}

/-- Steps, on the stack `o` if any. -/
inductive TaskSteps (o : Option σ) (s : Tasks σ ι) : Tasks σ ι → Prop where
  | refl : TaskSteps o s s
  | step {s1 s2 : Tasks σ ι} {o' : Option σ} (h : TaskSteps o s s1) (ho : o' = none ∨ o' = o)
      (hstep : TaskStep s1 o' s2) : TaskSteps o s s2

theorem TaskSteps.ok {o : Option σ} (h : TasksOk s on) (hsteps : TaskSteps o s s') :
    ∃ on', TasksOk s' on' ∧ ∀ st, o ≠ some st → on' st = on st := by
  induction hsteps with
  | refl => exact ⟨on, h, fun _ _ => rfl⟩
  | step _ ho hstep ih =>
      obtain ⟨on1, h1, hsame1⟩ := ih
      obtain ⟨on2, h2, hsame2⟩ := hstep.ok h1
      refine ⟨on2, h2, fun st hne => (hsame2 st ?_).trans (hsame1 st hne)⟩
      rcases ho with rfl | rfl
      · simp
      · exact hne

theorem TaskSteps.kept {o : Option σ} (hsteps : TaskSteps o s s') : s.Kept s' := by
  induction hsteps with
  | refl => exact .refl s
  | step _ _ hstep ih => exact ih.trans hstep.kept

theorem TaskSteps.trans {o : Option σ} {s'' : Tasks σ ι} (h : TaskSteps o s s')
    (h' : TaskSteps o s' s'') : TaskSteps o s s'' := by
  induction h' with
  | refl => exact h
  | step _ ho hstep ih => exact ih.step ho hstep

/-- Steps on no stack are steps on any. -/
theorem TaskSteps.weaken {o : Option σ} (h : TaskSteps none s s') : TaskSteps o s s' := by
  induction h with
  | refl => exact .refl
  | step _ ho hstep ih => exact ih.step (Or.inl (by simpa using ho)) hstep

/-- Steps on no stack and then one. -/
theorem TaskSteps.one {o : Option σ} {s'' : Tasks σ ι} (h : TaskSteps none s s')
    (hstep : TaskStep s' o s'') : TaskSteps o s s'' :=
  h.weaken.step (Or.inr rfl) hstep

/-- What runs on the other stacks. -/
theorem TaskStep.running {o : Option σ} (h : TasksOk s on) (hstep : TaskStep s o s')
    (hne : o ≠ some st) : bodyGetRunning s' st = bodyGetRunning s st := by
  -- One body changes, and it is not on the stack
  have hone : ∀ b, s'.top st = s.top st → (∀ b', b' ≠ b → s'.body b' = s.body b') → b ∉ on st →
      bodyGetRunning s' st = bodyGetRunning s st := by
    intro b htop hother hb
    unfold bodyGetRunning
    rw [htop]
    cases ht : s.top st with
    | none => rfl
    | some top =>
        obtain ⟨l, hl⟩ := h.top_cons ht
        have hne' : top ≠ b := by
          rintro rfl
          exact hb (by simp [hl])
        simp only [Option.filter_some, hother top hne']
  have htop : ∀ {b st'}, s.top st' = some b → some st' ≠ some st → b ∉ on st := by
    intro b st' ht hst hmem
    obtain ⟨l, hl⟩ := h.top_cons ht
    have hin : b ∈ on st' := by simp [hl]
    exact hst (congrArg some (h.apart hin hmem))
  have hupdate : ∀ {st' : σ} {top : Option Nat}, some st' ≠ some st →
      Function.update s.top st' top st = s.top st := fun hst =>
    Function.update_of_ne (fun heq => hst (congrArg some heq.symm)) _ _
  cases hstep with
  | addType info types => rfl
  | addTask info taskId type flags => rfl
  | newBody t bodyId ht hid hnew hone' =>
      refine hone s.nbody rfl (fun b' hb' => Function.update_of_ne hb' _ _) fun hmem => ?_
      exact Nat.lt_irrefl _ (h.known st _ hmem)
  | revive b hb hdead hflag =>
      exact hone b rfl (fun b' hb' => Function.update_of_ne hb' _ _)
        (h.not_mem hb (Or.inr hdead) st)
  | push st' b hb hcreated hnest =>
      exact hone b (hupdate hne) (fun b' hb' => Function.update_of_ne hb' _ _)
        (h.not_mem hb (Or.inl hcreated) st)
  | pause st' b hb hflag hstate ht =>
      exact hone b rfl (fun b' hb' => Function.update_of_ne hb' _ _) (htop ht hne)
  | resume st' b hb hstate ht =>
      exact hone b rfl (fun b' hb' => Function.update_of_ne hb' _ _) (htop ht hne)
  | pop st' b hb hstate ht links top hdel =>
      exact hone b (hupdate hne) (fun b' hb' => Function.update_of_ne hb' _ _) (htop ht hne)

theorem TaskSteps.running {o : Option σ} (h : TasksOk s on) (hsteps : TaskSteps o s s')
    (hne : o ≠ some st) : bodyGetRunning s' st = bodyGetRunning s st := by
  induction hsteps with
  | refl => rfl
  | step hsteps ho hstep ih =>
      obtain ⟨on1, h1, -⟩ := hsteps.ok h
      refine (hstep.running h1 ?_).trans ih
      rcases ho with rfl | rfl
      · simp
      · exact hne

/-- After success `post` holds; a failed call may have left a new body, or one that can
run again. -/
def Outcome (s : Tasks σ ι) (post : Tasks σ ι → Prop) : Except EmuFault Unit → Tasks σ ι → Prop
  | .ok _, s' => post s'
  | .error _, s' => TaskSteps none s s'

theorem outcome_fault (s : Tasks σ ι) (post : Tasks σ ι → Prop) (e : EmuFault) :
    Outcome s post (.error e) s := TaskSteps.refl

/-! ## Bodies -/

theorem checkTop_ensures (state : BodyState) {f : Unit → TaskM σ ι Unit}
    {post : Tasks σ ι → Prop}
    (hf : (s.body b).state = state → s.top st = some b → Ensures (f ()) s (Outcome s post)) :
    Ensures (checkTop st b state >>= f) s (Outcome s post) := by
  simp only [checkTop, ensures_bind, ensures_get, next_ok, ensures_ite, ensures_throw,
    next_error, ensures_pure, outcome_fault, implies_true, true_and, Decidable.not_not]
  intro hstate _ _ htop
  exact hf hstate htop

theorem bodyPause_ensures : Ensures (bodyPause st b) s (Outcome s fun s' =>
    (s.body b).flags.pause = true ∧ (s.body b).state = .running ∧ s.top st = some b ∧
      s' = s.setBody b { s.body b with state := .paused }) := by
  simp only [bodyPause, ensures_bind, ensures_get, next_ok, ensures_ite, ensures_throw,
    next_error, outcome_fault, implies_true, true_and, Bool.not_eq_false]
  intro hflag
  rw [← ensures_bind]
  exact checkTop_ensures .running fun hstate htop => ⟨hflag, hstate, htop, rfl⟩

theorem bodyResume_ensures : Ensures (bodyResume st b) s (Outcome s fun s' =>
    (s.body b).state = .paused ∧ s.top st = some b ∧
      s' = s.setBody b { s.body b with state := .running }) :=
  checkTop_ensures .paused fun hstate htop => ⟨hstate, htop, rfl⟩

theorem bodyEnd_ensures (h : TasksOk s on) : Ensures (bodyEnd st b) s (Outcome s fun s' =>
    (s.body b).state = .running ∧ s.top st = some b ∧
      ∃ links top, dlDelete s.links (s.top st) b = some (links, top) ∧
        s' = s.pop st b links top) := by
  apply checkTop_ensures .running
  intro hstate htop
  obtain ⟨l, hl⟩ := h.top_cons htop
  obtain ⟨links, hdel, -, -⟩ := (hl ▸ h.list st).delete_head
  simp only [ensures_bind, ensures_get, next_ok]
  rw [hdel]
  exact ⟨hstate, htop, links, _, rfl, rfl⟩

/-- What `body_execute` checks once the body is not dead. -/
theorem bodyStart_ensures {s1 : Tasks σ ι} (h1 : TaskSteps none s s1) :
    Ensures (bodyStart st b) s1 (Outcome s fun s' => (s1.body b).state = .created ∧
      (∀ top, bodyGetRunning s1 st = some top → (s1.body top).flags.relaxNesting = true) ∧
      s' = s1.push st b) := by
  have hfault : ∀ (post : Tasks σ ι → Prop) e, Outcome s post (.error e) s1 := fun _ _ => h1
  simp only [bodyStart, ensures_bind, ensures_get, ensures_modify, next_ok, ensures_ite,
    ensures_throw, next_error, hfault, implies_true, true_and, Decidable.not_not]
  intro _ hcreated _ hnest
  refine ⟨hcreated, fun top htop => ?_, rfl⟩
  simpa [htop] using hnest

/-- A body that is executed may first be made ready to run again. -/
theorem bodyExecute_ensures {s0 : Tasks σ ι} (h0 : TaskSteps none s0 s) (hb : b < s.nbody) :
    Ensures (bodyExecute st b) s (Outcome s0 fun s' => ∃ s1, TaskSteps none s s1 ∧
      (s1.body b).state = .created ∧
      (∀ top, bodyGetRunning s1 st = some top → (s1.body top).flags.relaxNesting = true) ∧
      s' = s1.push st b) := by
  have hfault : ∀ (post : Tasks σ ι → Prop) e, Outcome s0 post (.error e) s := fun _ _ => h0
  simp only [bodyExecute, ensures_bind, ensures_get, ensures_modify, next_ok, ensures_ite,
    ensures_throw, next_error, hfault, implies_true, true_and, Bool.not_eq_false]
  refine ⟨fun hdead hflag => ?_, fun hdead => ?_⟩
  · have hstep : TaskStep s none (s.revive b) := .revive b hb hdead hflag
    apply (bodyStart_ensures (h0.step (Or.inl rfl) hstep)).mono
    intro r s' hpost
    cases r with
    | ok _ => exact ⟨s.revive b, TaskSteps.refl.step (Or.inl rfl) hstep, hpost⟩
    | error e => exact hpost
  · apply (bodyStart_ensures h0).mono
    intro r s' hpost
    cases r with
    | ok _ => exact ⟨s, .refl, hpost⟩
    | error e => exact hpost

/-! ## Tasks -/

theorem checkTask_ensures {task : Option Nat} {f : Nat → TaskM σ ι Unit} {post : Tasks σ ι → Prop}
    (hf : ∀ t, task = some t → t < s.ntask → Ensures (f t) s (Outcome s post)) :
    Ensures (checkTask task >>= f) s (Outcome s post) := by
  cases task with
  | none => exact outcome_fault s post _
  | some t =>
      simp only [checkTask, ensures_bind, ensures_get, next_ok, ensures_ite, ensures_pure,
        ensures_throw, next_error, outcome_fault, implies_true, and_true]
      exact hf t rfl

omit [DecidableEq σ] [DecidableEq ι] in
/-- A body that was found is the one of the task with that id. -/
theorem TasksOk.find (h : TasksOk s on) (ht : t < s.ntask) (hfind : bodyFind s t bodyId = some b) :
    b < s.nbody ∧ (s.body b).task = t ∧ (s.body b).id = bodyId := by
  obtain ⟨hb, htask⟩ := ((h.task t ht).mem b).mp (List.mem_of_find?_eq_some hfind)
  exact ⟨hb, htask, by simpa using List.find?_some hfind⟩

/-- The body `b` is the one of the given task with the given id. -/
def IsBodyOf (s : Tasks σ ι) (task : Option Nat) (bodyId : UInt32) (b : Nat) : Prop :=
  b < s.nbody ∧ task = some (s.body b).task ∧ (s.body b).id = bodyId

omit [DecidableEq σ] [DecidableEq ι] in
theorem IsBodyOf.kept {task : Option Nat} (h : IsBodyOf s task bodyId b) (hk : s.Kept s') :
    IsBodyOf s' task bodyId b := by
  obtain ⟨hb, htask, hid⟩ := h
  obtain ⟨hid', htask', -⟩ := hk.body b hb
  exact ⟨Nat.lt_of_lt_of_le hb hk.nbody, htask' ▸ htask, hid'.trans hid⟩

/-- A call on a body of a task. -/
theorem taskBody_ensures {op : σ → Nat → TaskM σ ι Unit} {task : Option Nat} (h : TasksOk s on)
    {post : Nat → Tasks σ ι → Prop} (hop : ∀ b, Ensures (op st b) s (Outcome s (post b))) :
    Ensures (taskBody op st task bodyId) s
      (Outcome s fun s' => ∃ b, IsBodyOf s task bodyId b ∧ post b s') := by
  apply checkTask_ensures
  intro t htask ht
  simp only [ensures_bind, ensures_get, next_ok]
  cases hfind : bodyFind s t bodyId with
  | none => exact outcome_fault s _ _
  | some b =>
      obtain ⟨hb, htb, hid⟩ := h.find ht hfind
      apply (hop b).mono
      intro r s' hpost
      cases r with
      | ok _ => exact ⟨b, ⟨hb, htb ▸ htask, hid⟩, hpost⟩
      | error e => exact hpost

theorem createBody_ensures (ht : t < s.ntask) (hnew : bodyFind s t bodyId = none)
    {f : Nat → TaskM σ ι Unit} {post : Tasks σ ι → Prop}
    (hf : TaskStep s none (s.newBody t bodyId (s.task t).flags.body) →
      Ensures (f s.nbody) (s.newBody t bodyId (s.task t).flags.body) (Outcome s post)) :
    Ensures (createBody t bodyId >>= f) s (Outcome s post) := by
  simp only [createBody, bodyCreate, ensures_bind, ensures_get, ensures_modify, next_ok,
    ensures_ite, ensures_throw, next_error, ensures_pure, outcome_fault, implies_true, true_and]
  intro hone hid _
  refine hf (.newBody t bodyId ht hid hnew ?_)
  rw [not_and_or] at hone
  rcases hone with hpar | hzero
  · exact Or.inl (by simpa using hpar)
  · exact Or.inr (by omega)

/-- A body is executed after it was created, or made ready to run again, if it had to. -/
theorem taskExecute_ensures {task : Option Nat} (h : TasksOk s on) :
    Ensures (taskExecute st task bodyId) s (Outcome s fun s' => ∃ s1 b, TaskSteps none s s1 ∧
      (∀ t ∈ task, t < s.ntask) ∧ IsBodyOf s1 task bodyId b ∧ (s1.body b).state = .created ∧
      (∀ top, bodyGetRunning s1 st = some top → (s1.body top).flags.relaxNesting = true) ∧
      s' = s1.push st b) := by
  apply checkTask_ensures
  intro t htask ht
  have hknown : ∀ t' ∈ task, t' < s.ntask := fun t' ht' => by
    rw [htask] at ht'
    exact Option.some.inj ht' ▸ ht
  simp only [ensures_bind, ensures_get, next_ok]
  cases hfind : bodyFind s t bodyId with
  | none =>
      apply createBody_ensures ht hfind
      intro hstep
      have hb : s.nbody < (s.newBody t bodyId (s.task t).flags.body).nbody := Nat.lt_succ_self _
      have h0 : TaskSteps none s _ := TaskSteps.refl.step (Or.inl rfl) hstep
      have hbody : IsBodyOf (s.newBody t bodyId (s.task t).flags.body) task bodyId s.nbody := by
        refine ⟨hb, ?_, ?_⟩ <;> rw [Tasks.newBody_new]
        exact htask
      apply (bodyExecute_ensures h0 hb).mono
      intro r s' hpost
      cases r with
      | ok _ =>
          obtain ⟨s1, hsteps, hrest⟩ := hpost
          exact ⟨s1, s.nbody, h0.trans hsteps, hknown, hbody.kept hsteps.kept, hrest⟩
      | error e => exact hpost
  | some b =>
      obtain ⟨hb, htb, hid⟩ := h.find ht hfind
      apply (bodyExecute_ensures .refl hb).mono
      intro r s' hpost
      cases r with
      | ok _ =>
          obtain ⟨s1, hsteps, hrest⟩ := hpost
          have hbody : IsBodyOf s task bodyId b := ⟨hb, htb ▸ htask, hid⟩
          exact ⟨s1, b, hsteps, hknown, hbody.kept hsteps.kept, hrest⟩
      | error e => exact hpost

theorem taskPause_ensures {task : Option Nat} (h : TasksOk s on) :
    Ensures (taskPause st task bodyId) s (Outcome s fun s' => ∃ b, IsBodyOf s task bodyId b ∧
      (s.body b).flags.pause = true ∧ (s.body b).state = .running ∧ s.top st = some b ∧
      s' = s.setBody b { s.body b with state := .paused }) :=
  taskBody_ensures h fun _ => bodyPause_ensures

theorem taskResume_ensures {task : Option Nat} (h : TasksOk s on) :
    Ensures (taskResume st task bodyId) s (Outcome s fun s' => ∃ b, IsBodyOf s task bodyId b ∧
      (s.body b).state = .paused ∧ s.top st = some b ∧
      s' = s.setBody b { s.body b with state := .running }) :=
  taskBody_ensures h fun _ => bodyResume_ensures

theorem taskEnd_ensures {task : Option Nat} (h : TasksOk s on) :
    Ensures (taskEnd st task bodyId) s (Outcome s fun s' => ∃ b, IsBodyOf s task bodyId b ∧
      (s.body b).state = .running ∧ s.top st = some b ∧
      ∃ links top, dlDelete s.links (s.top st) b = some (links, top) ∧
        s' = s.pop st b links top) :=
  taskBody_ensures h fun _ => bodyEnd_ensures h

theorem taskCreate_ensures (info : ι) (typeId taskId : UInt32) (flags : TaskFlags) :
    Ensures (taskCreate info typeId taskId flags) s (Outcome s fun s' =>
      ∃ type, taskTypeFind s info typeId = some type ∧
        s' = s.addTask info taskId type flags) := by
  simp only [taskCreate, ensures_bind, ensures_get, next_ok, ensures_ite, ensures_throw,
    next_error, outcome_fault, implies_true, true_and]
  intro _
  cases htype : taskTypeFind s info typeId with
  | none => exact outcome_fault s _ _
  | some type => exact ⟨type, rfl, rfl⟩

omit [DecidableEq σ] in
theorem taskTypeCreate_ensures (info : ι) (typeId : UInt32) (label : List UInt8)
    {post : Except EmuFault Unit → Tasks σ ι → Prop} (hfault : ∀ e, post (.error e) s)
    (hok : ∀ types, post (.ok ()) { s with
      info := Function.update s.info info { s.info info with types } }) :
    Ensures (taskTypeCreate info typeId label) s post := by
  simp only [taskTypeCreate, ensures_bind, ensures_get, ensures_modify, next_ok, ensures_ite,
    ensures_throw, next_error, hfault, implies_true, true_and]
  intro _ _ _
  exact hok _

/-! ## Sequences of calls -/

/-- The calls of `emu/task.h` that change tasks. -/
inductive TaskCall (σ ι : Type) where
  | typeCreate (info : ι) (typeId : UInt32) (label : List UInt8)
  | create (info : ι) (typeId taskId : UInt32) (flags : TaskFlags)
  | execute (stack : σ) (task : Option Nat) (bodyId : UInt32)
  | pause (stack : σ) (task : Option Nat) (bodyId : UInt32)
  | resume (stack : σ) (task : Option Nat) (bodyId : UInt32)
  | end_ (stack : σ) (task : Option Nat) (bodyId : UInt32)

def TaskCall.run : TaskCall σ ι → TaskM σ ι Unit
  | .typeCreate info typeId label => taskTypeCreate info typeId label
  | .create info typeId taskId flags => taskCreate info typeId taskId flags
  | .execute stack task bodyId => taskExecute stack task bodyId
  | .pause stack task bodyId => taskPause stack task bodyId
  | .resume stack task bodyId => taskResume stack task bodyId
  | .end_ stack task bodyId => taskEnd stack task bodyId

/-- The tasks after a call, whether it succeeds or not. -/
def TaskCall.after (call : TaskCall σ ι) (s : Tasks σ ι) : Tasks σ ι := (call.run.run.run s).2

/-- Any sequence of calls. -/
inductive TaskRuns (s : Tasks σ ι) : Tasks σ ι → Prop where
  | refl : TaskRuns s s
  | call {s1 : Tasks σ ι} (h : TaskRuns s s1) (call : TaskCall σ ι) : TaskRuns s (call.after s1)

theorem Outcome.steps {post : Tasks σ ι → Prop} {o : Option σ}
    (hpost : ∀ s', post s' → TaskSteps o s s') {r : Except EmuFault Unit}
    (h : Outcome s post r s') : ∃ o, TaskSteps o s s' := by
  cases r with
  | ok _ => exact ⟨o, hpost s' h⟩
  | error e => exact ⟨none, h⟩

/-- Any call is some steps. -/
theorem TaskCall.steps (h : TasksOk s on) (call : TaskCall σ ι) :
    ∃ o, TaskSteps o s (call.after s) := by
  cases call with
  | typeCreate info typeId label =>
      have hsteps : Ensures (taskTypeCreate info typeId label) s fun _ s' =>
          TaskSteps none s s' := taskTypeCreate_ensures info typeId label (fun _ => .refl)
        fun types => TaskSteps.refl.one (.addType info types)
      exact ⟨none, hsteps⟩
  | create info typeId taskId flags =>
      refine Outcome.steps (o := none) ?_ (taskCreate_ensures info typeId taskId flags)
      rintro s' ⟨type, -, rfl⟩
      exact TaskSteps.refl.one (.addTask info taskId type flags)
  | execute stack task bodyId =>
      refine Outcome.steps (o := some stack) ?_ (taskExecute_ensures h)
      rintro s' ⟨s1, b, hsteps, -, ⟨hb, -, -⟩, hcreated, hnest, rfl⟩
      exact hsteps.one (.push stack b hb hcreated hnest)
  | pause stack task bodyId =>
      refine Outcome.steps (o := some stack) ?_ (taskPause_ensures h)
      rintro s' ⟨b, ⟨hb, -, -⟩, hflag, hstate, htop, rfl⟩
      exact TaskSteps.refl.one (.pause stack b hb hflag hstate htop)
  | resume stack task bodyId =>
      refine Outcome.steps (o := some stack) ?_ (taskResume_ensures h)
      rintro s' ⟨b, ⟨hb, -, -⟩, hstate, htop, rfl⟩
      exact TaskSteps.refl.one (.resume stack b hb hstate htop)
  | end_ stack task bodyId =>
      refine Outcome.steps (o := some stack) ?_ (taskEnd_ensures h)
      rintro s' ⟨b, ⟨hb, -, -⟩, hstate, htop, links, top, hdel, rfl⟩
      exact TaskSteps.refl.one (.pop stack b hb hstate htop links top hdel)

theorem TaskRuns.ok (h : TasksOk s on) (hruns : TaskRuns s s') :
    (∃ on', TasksOk s' on') ∧ s.Kept s' := by
  induction hruns with
  | refl => exact ⟨⟨on, h⟩, .refl s⟩
  | call _ call ih =>
      obtain ⟨⟨on1, h1⟩, hk⟩ := ih
      obtain ⟨o, hsteps⟩ := call.steps h1
      obtain ⟨on2, h2, -⟩ := hsteps.ok h1
      exact ⟨⟨on2, h2⟩, hk.trans hsteps.kept⟩

/-- The order of the tasks in a state and in one after it, when the bodies on each stack
are the lists `on`. -/
structure TasksInOrder (s s' : Tasks σ ι) (on : σ → List Nat) : Prop where
  list : ∀ st, IsDList s.links (s.top st) (on st) ∧ ∀ b ∈ on st, b < s.nbody
  placed : ∀ b < s.nbody,
    (∃ st, b ∈ on st) ↔ (s.body b).state = .running ∨ (s.body b).state = .paused
  once : ∀ b < s.nbody, ∀ st, b ∈ on st →
    (on st).count b = 1 ∧ (s.body b).stack = some st ∧ ∀ st', b ∈ on st' → st' = st
  idle : ∀ b < s.nbody, (s.body b).state = .created ∨ (s.body b).state = .dead →
    (s.body b).stack = none ∧ ∀ st, b ∉ on st
  running : ∀ st, (∀ b ∈ on st, (s.body b).flags.relaxNesting = false) →
    ∀ b ∈ on st, (s.body b).state = .running → s.top st = some b
  pause : ∀ b < s.nbody, (s.body b).flags.pause = false → (s.body b).state ≠ .paused
  dead : ∀ b < s.nbody, (s.body b).flags.resurrect = false → (s.body b).state = .dead →
    (s'.body b).state = .dead
  task : ∀ t < s.ntask, TaskOk s t

/-- After any calls the bodies that are running or paused are each on one stack; without
relaxed nesting only the top runs; only bodies that may pause are paused, and only those
that may run again leave death; and each task has its bodies counted, by ids of their
own. -/
theorem tasks_in_order (h : TaskRuns tasksInit s) (h' : TaskRuns s s') :
    ∃ on, TasksInOrder s s' on := by
  obtain ⟨⟨on, hok⟩, -⟩ := h.ok TasksOk.init
  obtain ⟨-, hk⟩ := h'.ok hok
  refine ⟨on, fun st => ⟨hok.list st, hok.known st⟩, fun b hb => ⟨?_, fun hst => ?_⟩,
    fun b hb st hmem => ⟨?_, ((hok.body b hb).mem st).mp hmem, fun st' hmem' => ?_⟩,
    fun b hb hst => ⟨(hok.body b hb).idle.mpr hst, hok.not_mem hb hst⟩,
    fun st hflags b hmem hrun => ?_, fun b hb hflag hst => ?_, hk.dead, hok.task⟩
  · rintro ⟨st, hmem⟩
    exact (hok.body b hb).active hmem
  · cases hstack : (s.body b).stack with
    | none =>
        have hidle := (hok.body b hb).idle.mp hstack
        rcases hst with hst | hst <;> rw [hst] at hidle <;> simp at hidle
    | some st => exact ⟨st, ((hok.body b hb).mem st).mpr hstack⟩
  · rw [(hok.list st).nodup.count, if_pos hmem]
  · exact hok.apart hmem' hmem
  · -- Under the top there are only paused bodies
    rw [(hok.list st).head]
    cases hon : on st with
    | nil =>
        rw [hon] at hmem
        cases hmem
    | cons top l =>
        rw [hon] at hmem
        rcases List.mem_cons.mp hmem with rfl | hl
        · rfl
        · have hin : b ∈ (on st).tail := by rw [hon]; exact hl
          rcases hok.nested st b hin with hpaused | hrelax
          · rw [hrun] at hpaused
            cases hpaused
          · rw [hflags b (List.mem_of_mem_tail hin)] at hrelax
            cases hrelax
  · rw [(hok.body b hb).pause hst] at hflag
    cases hflag

/-! ## Two stacks -/

/-- A body that pauses with another over it, which ends, and one that fails to run. -/
def demoCalls : List (TaskCall Bool Unit) :=
  [.typeCreate () 7 [109], .create () 7 1 ⟨false, false, true, false⟩,
   .create () 7 2 ⟨true, false, false, false⟩, .execute false (some 0) 1,
   .pause false (some 0) 1, .execute false (some 1) 5, .execute false (some 1) 6,
   .end_ false (some 1) 5, .execute true (some 1) 5]

/-- The tasks after the calls. -/
def afterCalls (calls : List (TaskCall σ ι)) (s : Tasks σ ι) : Tasks σ ι :=
  calls.foldl (fun s call => call.after s) s

theorem TaskRuns.calls (calls : List (TaskCall σ ι)) (h : TaskRuns s s') :
    TaskRuns s (afterCalls calls s') := by
  induction calls generalizing s' with
  | nil => exact h
  | cons call calls ih => exact ih (h.call call)

/-- The first body stays paused, the second one is dead and stays so, and the third one
was created but could not run. -/
theorem tasks_in_order_demo :
    (List.range 3).map (fun b => ((afterCalls (demoCalls.take 8) tasksInit).body b).state) =
        [.paused, .dead, .created] ∧
      ∃ on, TasksInOrder (afterCalls (demoCalls.take 8) tasksInit)
        (afterCalls demoCalls tasksInit) on := by
  refine ⟨by decide +kernel, tasks_in_order (TaskRuns.refl.calls _) ?_⟩
  exact TaskRuns.refl.calls (demoCalls.drop 8)

end Ovni
