import Ovni.Task.Model

/-!
# Bodies and stacks

What the calls on tasks can do is a handful of steps.  Each of them keeps the order of
the bodies: those that are running or paused are on one stack, those under the top are
paused or allow nesting, and the bodies of a task have their own ids.
-/

namespace Ovni

open Ovni.Lib

variable {σ ι : Type} {s s' : Tasks σ ι} {on : σ → List Nat} {st : σ} {b t : Nat}

/-! ## The order of the bodies -/

/-- A body that is on a stack is running or paused there, and it may pause. -/
structure BodyOk (s : Tasks σ ι) (on : σ → List Nat) (b : Nat) : Prop where
  mem : ∀ st, b ∈ on st ↔ (s.body b).stack = some st
  idle : (s.body b).stack = none ↔ (s.body b).state = .created ∨ (s.body b).state = .dead
  pause : (s.body b).state = .paused → (s.body b).flags.pause = true

/-- The bodies of a task are counted, and only parallel tasks have several. -/
structure TaskOk (s : Tasks σ ι) (t : Nat) : Prop where
  mem : ∀ b, b ∈ (s.task t).bodies ↔ b < s.nbody ∧ (s.body b).task = t
  ids : ((s.task t).bodies.map fun b => (s.body b).id).Nodup
  nonzero : ∀ b ∈ (s.task t).bodies, (s.body b).id ≠ 0
  nbodies : (s.task t).nbodies = (s.task t).bodies.length
  single : (s.task t).flags.parallel = false → (s.task t).bodies.length ≤ 1

/-- The stacks are the lists `on`, and the bodies and tasks are in order. -/
structure TasksOk (s : Tasks σ ι) (on : σ → List Nat) : Prop where
  list : ∀ st, IsDList s.links (s.top st) (on st)
  known : ∀ st, ∀ b ∈ on st, b < s.nbody
  nested : ∀ st, ∀ b ∈ (on st).tail,
    (s.body b).state = .paused ∨ (s.body b).flags.relaxNesting = true
  body : ∀ b < s.nbody, BodyOk s on b
  owner : ∀ b < s.nbody, (s.body b).task < s.ntask
  task : ∀ t < s.ntask, TaskOk s t

theorem TasksOk.init : TasksOk (tasksInit : Tasks σ ι) fun _ => [] where
  list _ := IsDList.nil _
  known _ := by simp
  nested _ := by simp
  body b hb := by cases hb
  owner b hb := by cases hb
  task t ht := by cases ht

/-- What is said of a body is the same where it has not changed. -/
theorem BodyOk.congr {on' : σ → List Nat} (h : BodyOk s on b) (hbody : s'.body b = s.body b)
    (hon : ∀ st, b ∈ on' st ↔ b ∈ on st) : BodyOk s' on' b := by
  refine ⟨fun st => ?_, ?_, ?_⟩
  · rw [hon, hbody]
    exact h.mem st
  · rw [hbody]
    exact h.idle
  · rw [hbody]
    exact h.pause

/-- What is said of a task only depends on it and on the ids of its bodies. -/
theorem TaskOk.congr (h : TaskOk s t) (htask : s'.task t = s.task t) (hn : s'.nbody = s.nbody)
    (hbody : ∀ b, (s'.body b).id = (s.body b).id ∧ (s'.body b).task = (s.body b).task) :
    TaskOk s' t := by
  refine ⟨fun b => ?_, ?_, fun b hb => ?_, ?_, ?_⟩
  · rw [htask, hn, (hbody b).2]
    exact h.mem b
  · simp only [htask, (hbody _).1]
    exact h.ids
  · rw [htask] at hb
    rw [(hbody b).1]
    exact h.nonzero b hb
  · rw [htask]
    exact h.nbodies
  · rw [htask]
    exact h.single

/-- A body that is on a stack is running or paused. -/
theorem BodyOk.active (h : BodyOk s on b) (hb : b ∈ on st) :
    (s.body b).state = .running ∨ (s.body b).state = .paused := by
  have hstack := (h.mem st).mp hb
  have hidle : ¬ ((s.body b).state = .created ∨ (s.body b).state = .dead) := fun hst => by
    rw [h.idle.mpr hst] at hstack
    cases hstack
  cases hst : (s.body b).state with
  | created => exact absurd (Or.inl hst) hidle
  | running => exact Or.inl rfl
  | paused => exact Or.inr rfl
  | dead => exact absurd (Or.inr hst) hidle

/-- The top of a stack is the first of its list. -/
theorem TasksOk.top_cons (h : TasksOk s on) (htop : s.top st = some b) :
    ∃ l, on st = b :: l := by
  have hhead := (h.list st).head
  rw [htop] at hhead
  exact List.head?_eq_some_iff.mp hhead.symm

/-! ## Changes that keep the order -/

theorem TasksOk.addType (h : TasksOk s on) (info : ι → TaskInfo) :
    TasksOk { s with info } on :=
  ⟨h.list, h.known, h.nested, fun b hb => (h.body b hb).congr rfl fun _ => Iff.rfl, h.owner,
    fun t ht => (h.task t ht).congr rfl rfl fun _ => ⟨rfl, rfl⟩⟩

/-- One body changes, and with it the stacks. -/
theorem TasksOk.change {on' : σ → List Nat} (h : TasksOk s on) (hb : b < s.nbody)
    (htask : s'.nbody = s.nbody ∧ s'.ntask = s.ntask ∧ s'.task = s.task)
    (hother : ∀ b', b' ≠ b → s'.body b' = s.body b')
    (hfields : (s'.body b).id = (s.body b).id ∧ (s'.body b).task = (s.body b).task)
    (hlist : ∀ st, IsDList s'.links (s'.top st) (on' st))
    (hmem : ∀ b', b' ≠ b → ∀ st, b' ∈ on' st ↔ b' ∈ on st)
    (hnested : ∀ st, ∀ b' ∈ (on' st).tail,
      b' ≠ b ∧ ((s.body b').state = .paused ∨ (s.body b').flags.relaxNesting = true))
    (hok : BodyOk s' on' b) : TasksOk s' on' := by
  have hall : ∀ b', (s'.body b').id = (s.body b').id ∧ (s'.body b').task = (s.body b').task := by
    intro b'
    by_cases hb' : b' = b
    · rw [hb']
      exact hfields
    · rw [hother b' hb']
      exact ⟨rfl, rfl⟩
  refine ⟨hlist, fun st b' hb' => ?_, fun st b' hb' => ?_, fun b' hlt => ?_, fun b' hlt => ?_,
    fun t ht => ?_⟩
  · rw [htask.1]
    by_cases heq : b' = b
    · rw [heq]
      exact hb
    · exact h.known st b' ((hmem b' heq st).mp hb')
  · obtain ⟨hne, hst⟩ := hnested st b' hb'
    rw [hother b' hne]
    exact hst
  · rw [htask.1] at hlt
    by_cases heq : b' = b
    · rw [heq]
      exact hok
    · exact (h.body b' hlt).congr (hother b' heq) (hmem b' heq)
  · rw [htask.1] at hlt
    rw [(hall b').2, htask.2.1]
    exact h.owner b' hlt
  · rw [htask.2.1] at ht
    exact (h.task t ht).congr (by rw [htask.2.2]) htask.1 hall

/-- A body is on one stack only. -/
theorem TasksOk.apart (h : TasksOk s on) {st' : σ} (hb : b ∈ on st) (hb' : b ∈ on st') :
    st = st' := by
  have hok := h.body b (h.known st b hb)
  exact Option.some.inj (((hok.mem st).mp hb).symm.trans ((hok.mem st').mp hb'))

/-- A body under the top of a stack is not the top of any. -/
theorem TasksOk.not_top (h : TasksOk s on) (htop : s.top st = some b) {st' : σ} {b' : Nat}
    (hb' : b' ∈ (on st').tail) : b' ≠ b := by
  rintro rfl
  obtain ⟨l, hl⟩ := h.top_cons htop
  have hmem : b' ∈ on st := by simp [hl]
  obtain rfl : st = st' := h.apart hmem (List.mem_of_mem_tail hb')
  have hnodup := (h.list st).nodup
  rw [hl] at hnodup hb'
  exact (List.nodup_cons.mp hnodup).1 hb'

/-- The top of a stack changes between running and paused. -/
theorem TasksOk.setState (h : TasksOk s on) (hb : b < s.nbody) (htop : s.top st = some b)
    {state : BodyState} (hstate : state = .running ∨ state = .paused)
    (hpause : state = .paused → (s.body b).flags.pause = true) :
    TasksOk (s.setBody b { s.body b with state }) on := by
  have hself : (s.setBody b { s.body b with state }).body b = { s.body b with state } :=
    Function.update_self _ _ _
  refine h.change hb ⟨rfl, rfl, rfl⟩ (fun b' hne => Function.update_of_ne hne _ _) ?_ h.list
    (fun _ _ _ => Iff.rfl) (fun st' b' hb' => ⟨h.not_top htop hb', h.nested st' b' hb'⟩)
    ⟨fun st' => ?_, ?_, ?_⟩
  · rw [hself]
    exact ⟨rfl, rfl⟩
  · rw [hself]
    exact (h.body b hb).mem st'
  · rw [hself]
    obtain ⟨l, hl⟩ := h.top_cons htop
    have hstack := ((h.body b hb).mem st).mp (by simp [hl])
    simp only [hstack, reduceCtorEq, false_iff]
    rcases hstate with rfl | rfl <;> simp
  · rw [hself]
    exact hpause

/-- A body that is on no stack is in no list. -/
theorem TasksOk.not_mem (h : TasksOk s on) (hb : b < s.nbody)
    (hidle : (s.body b).state = .created ∨ (s.body b).state = .dead) (st : σ) : b ∉ on st := by
  intro hmem
  have hstack := ((h.body b hb).mem st).mp hmem
  rw [(h.body b hb).idle.mpr hidle] at hstack
  cases hstack

theorem TasksOk.revive (h : TasksOk s on) (hb : b < s.nbody) (hdead : (s.body b).state = .dead) :
    TasksOk (s.revive b) on := by
  have hself : (s.revive b).body b =
      { s.body b with state := .created, iteration := (s.body b).iteration + 1 } :=
    Function.update_self _ _ _
  have hout := h.not_mem hb (Or.inr hdead)
  refine h.change hb ⟨rfl, rfl, rfl⟩ (fun b' hne => Function.update_of_ne hne _ _) ?_ h.list
    (fun _ _ _ => Iff.rfl) (fun st b' hb' => ⟨?_, h.nested st b' hb'⟩) ⟨fun st => ?_, ?_, ?_⟩
  · rw [hself]
    exact ⟨rfl, rfl⟩
  · rintro rfl
    exact hout st (List.mem_of_mem_tail hb')
  · rw [hself]
    exact (h.body b hb).mem st
  · rw [hself]
    simpa using (h.body b hb).idle.mpr (Or.inr hdead)
  · rw [hself]
    simp

/-! ## New bodies -/

/-- The tasks once `create_body` has made a body. -/
def Tasks.newBody (s : Tasks σ ι) (t : Nat) (bodyId : UInt32) (flags : BodyFlags) : Tasks σ ι :=
  (s.addBody t bodyId flags).setTask t
    { (s.addBody t bodyId flags).task t with
      nbodies := ((s.addBody t bodyId flags).task t).nbodies + 1 }

section NewBody

variable {bodyId : UInt32} {flags : BodyFlags}

theorem Tasks.newBody_old (hb : b < s.nbody) : (s.newBody t bodyId flags).body b = s.body b :=
  Function.update_of_ne (Nat.ne_of_lt hb) _ _

theorem Tasks.newBody_new : (s.newBody t bodyId flags).body s.nbody =
    { id := bodyId, flags, state := .created, stack := none, iteration := 0, task := t } :=
  Function.update_self _ _ _

theorem Tasks.newBody_self : (s.newBody t bodyId flags).task t =
    { s.task t with
      nbodies := (s.task t).nbodies + 1, bodies := (s.task t).bodies ++ [s.nbody] } := by
  simp [Tasks.newBody, Tasks.setTask, Tasks.addBody]

theorem Tasks.newBody_other {t' : Nat} (h : t' ≠ t) :
    (s.newBody t bodyId flags).task t' = s.task t' := by
  simp [Tasks.newBody, Tasks.setTask, Tasks.addBody, Function.update_of_ne h]

/-- The bodies that were there have their ids. -/
theorem Tasks.newBody_ids {l : List Nat} (hl : ∀ b ∈ l, b < s.nbody) :
    l.map (fun b => ((s.newBody t bodyId flags).body b).id) = l.map fun b => (s.body b).id :=
  List.map_congr_left fun b hb => congrArg Body.id (newBody_old (hl b hb))

/-- The task of the new body, whose id none of its bodies has. -/
theorem TaskOk.newBody (h : TaskOk s t) (hid : bodyId ≠ 0) (hnew : bodyFind s t bodyId = none)
    (hone : (s.task t).flags.parallel = true ∨ (s.task t).nbodies = 0) :
    TaskOk (s.newBody t bodyId flags) t := by
  have hknown : ∀ b ∈ (s.task t).bodies, b < s.nbody := fun b hb => ((h.mem b).mp hb).1
  refine ⟨fun b => ?_, ?_, fun b hb => ?_, ?_, fun hpar => ?_⟩
  · rw [Tasks.newBody_self, List.mem_append, List.mem_singleton, h.mem]
    constructor
    · rintro (⟨hb, htb⟩ | rfl)
      · rw [Tasks.newBody_old hb]
        exact ⟨Nat.lt_succ_of_lt hb, htb⟩
      · rw [Tasks.newBody_new]
        exact ⟨Nat.lt_succ_self _, rfl⟩
    · rintro ⟨hb, htb⟩
      rcases Nat.lt_succ_iff_lt_or_eq.mp hb with hb | rfl
      · rw [Tasks.newBody_old hb] at htb
        exact Or.inl ⟨hb, htb⟩
      · exact Or.inr rfl
  · rw [Tasks.newBody_self, List.map_append, Tasks.newBody_ids hknown, List.nodup_append]
    refine ⟨h.ids, by simp, fun x hx y hy => ?_⟩
    obtain ⟨b, hb, rfl⟩ := List.mem_map.mp hx
    rw [List.map_singleton, List.mem_singleton, Tasks.newBody_new] at hy
    rw [hy]
    simpa using List.find?_eq_none.mp hnew b hb
  · rw [Tasks.newBody_self] at hb
    rcases List.mem_append.mp hb with hb | hb
    · rw [Tasks.newBody_old (hknown b hb)]
      exact h.nonzero b hb
    · rw [List.mem_singleton.mp hb, Tasks.newBody_new]
      exact hid
  · rw [Tasks.newBody_self]
    simp [h.nbodies]
  · rw [Tasks.newBody_self] at hpar ⊢
    have hzero : (s.task t).nbodies = 0 := hone.resolve_left (by simpa using hpar)
    rw [h.nbodies] at hzero
    simp [List.length_eq_zero_iff.mp hzero]

/-- Another task than that of the new body. -/
theorem TaskOk.newBody_of_ne {t' : Nat} (h : TaskOk s t') (hne : t' ≠ t) :
    TaskOk (s.newBody t bodyId flags) t' := by
  have hknown : ∀ b ∈ (s.task t').bodies, b < s.nbody := fun b hb => ((h.mem b).mp hb).1
  refine ⟨fun b => ?_, ?_, fun b hb => ?_, ?_, ?_⟩
  · rw [Tasks.newBody_other hne, h.mem]
    constructor
    · rintro ⟨hb, htb⟩
      rw [Tasks.newBody_old hb]
      exact ⟨Nat.lt_succ_of_lt hb, htb⟩
    · rintro ⟨hb, htb⟩
      rcases Nat.lt_succ_iff_lt_or_eq.mp hb with hb | rfl
      · rw [Tasks.newBody_old hb] at htb
        exact ⟨hb, htb⟩
      · rw [Tasks.newBody_new] at htb
        exact absurd htb.symm hne
  · rw [Tasks.newBody_other hne, Tasks.newBody_ids hknown]
    exact h.ids
  · rw [Tasks.newBody_other hne] at hb
    rw [Tasks.newBody_old (hknown b hb)]
    exact h.nonzero b hb
  · rw [Tasks.newBody_other hne]
    exact h.nbodies
  · rw [Tasks.newBody_other hne]
    exact h.single

theorem TasksOk.newBody (h : TasksOk s on) (ht : t < s.ntask) (hid : bodyId ≠ 0)
    (hnew : bodyFind s t bodyId = none)
    (hone : (s.task t).flags.parallel = true ∨ (s.task t).nbodies = 0) :
    TasksOk (s.newBody t bodyId flags) on := by
  have hout : ∀ st, s.nbody ∉ on st := fun st hmem => Nat.lt_irrefl _ (h.known st _ hmem)
  refine ⟨fun st => ?_, fun st b hb => Nat.lt_succ_of_lt (h.known st b hb), fun st b hb => ?_,
    fun b hb => ?_, fun b hb => ?_, fun t' ht' => ?_⟩
  · apply (h.list st).frame
    intro x hx
    have hne : x ≠ s.nbody := fun heq => hout st (heq ▸ hx)
    exact ⟨Function.update_of_ne hne _ _, Function.update_of_ne hne _ _⟩
  · rw [Tasks.newBody_old (h.known st b (List.mem_of_mem_tail hb))]
    exact h.nested st b hb
  · rcases Nat.lt_succ_iff_lt_or_eq.mp hb with hb | rfl
    · exact (h.body b hb).congr (Tasks.newBody_old hb) fun _ => Iff.rfl
    · refine ⟨fun st => ?_, ?_, ?_⟩
      · simp [Tasks.newBody_new, hout st]
      · simp [Tasks.newBody_new]
      · simp [Tasks.newBody_new]
  · rcases Nat.lt_succ_iff_lt_or_eq.mp hb with hb | rfl
    · rw [Tasks.newBody_old hb]
      exact h.owner b hb
    · rw [Tasks.newBody_new]
      exact ht
  · by_cases htt : t' = t
    · rw [htt]
      exact (h.task t ht).newBody hid hnew hone
    · exact (h.task t' ht').newBody_of_ne htt

end NewBody

/-! ## New tasks and stacks -/

theorem TasksOk.addTask [DecidableEq ι] (h : TasksOk s on) (info : ι) (taskId : UInt32)
    (type : TaskType) (flags : TaskFlags) : TasksOk (s.addTask info taskId type flags) on := by
  refine ⟨h.list, h.known, h.nested, fun b hb => (h.body b hb).congr rfl fun _ => Iff.rfl,
    fun b hb => Nat.lt_succ_of_lt (h.owner b hb), fun t ht => ?_⟩
  by_cases hnew : t = s.ntask
  · -- No body can be of a task that was not there
    have htask : (s.addTask info taskId type flags).task t =
        { id := taskId, type, nbodies := 0, bodies := [], flags } := by
      simp [Tasks.addTask, hnew]
    refine ⟨fun b => ?_, ?_, ?_, ?_, ?_⟩
    · rw [htask]
      simp only [List.not_mem_nil, false_iff, not_and]
      intro hb heq
      have := h.owner b hb
      have heq' : (s.body b).task = t := heq
      omega
    · rw [htask]
      exact List.nodup_nil
    · rw [htask]
      simp
    · rw [htask]
      rfl
    · rw [htask]
      simp
  · have ht' : t < s.ntask := by
      have : t < s.ntask + 1 := ht
      omega
    refine (h.task t ht').congr ?_ rfl fun _ => ⟨rfl, rfl⟩
    simp [Tasks.addTask, Function.update_of_ne hnew]

theorem TasksOk.push [DecidableEq σ] (h : TasksOk s on) (hb : b < s.nbody)
    (hcreated : (s.body b).state = .created)
    (hnest : ∀ top, bodyGetRunning s st = some top → (s.body top).flags.relaxNesting = true) :
    TasksOk (s.push st b) (Function.update on st (b :: on st)) := by
  have hself : (s.push st b).body b = { s.body b with stack := some st, state := .running } :=
    Function.update_self _ _ _
  have hout := h.not_mem hb (Or.inl hcreated)
  obtain ⟨hlist, hframe⟩ := (h.list st).prepend (hout st)
  refine h.change hb ⟨rfl, rfl, rfl⟩ (fun b' hne => Function.update_of_ne hne _ _) ?_
    (fun st' => ?_) (fun b' hne st' => ?_) (fun st' b' hb' => ?_) ⟨fun st' => ?_, ?_, ?_⟩
  · rw [hself]
    exact ⟨rfl, rfl⟩
  · by_cases hst : st' = st
    · subst hst
      simpa [Tasks.push] using hlist
    · -- The bodies of another stack are not in this one
      simp only [Tasks.push, Function.update_of_ne hst]
      refine (h.list st').frame fun x hx => hframe x ?_
      rw [List.mem_cons, not_or]
      exact ⟨fun heq => hout st' (heq ▸ hx), fun hx' => hst (h.apart hx hx')⟩
  · by_cases hst : st' = st
    · subst hst
      simp [hne]
    · rw [Function.update_of_ne hst]
  · by_cases hst : st' = st
    · subst hst
      have hb' : b' ∈ on st' := by simpa using hb'
      refine ⟨fun heq => hout st' (heq ▸ hb'), ?_⟩
      -- The top is paused, or it allows others over it
      cases hon : on st' with
      | nil =>
          rw [hon] at hb'
          cases hb'
      | cons top l =>
          rw [hon] at hb'
          rcases List.mem_cons.mp hb' with rfl | hb'
          · have hmem : b' ∈ on st' := by simp [hon]
            rcases (h.body b' (h.known st' b' hmem)).active hmem with hrun | hpause
            · refine Or.inr (hnest b' ?_)
              have htop : s.top st' = some b' := by rw [(h.list st').head, hon]; rfl
              simp [bodyGetRunning, htop, hrun]
            · exact Or.inl hpause
          · exact h.nested st' b' (by simpa [hon] using hb')
    · rw [Function.update_of_ne hst] at hb'
      exact ⟨fun heq => hout st' (heq ▸ List.mem_of_mem_tail hb'), h.nested st' b' hb'⟩
  · rw [hself]
    by_cases hst : st' = st
    · subst hst
      simp
    · rw [Function.update_of_ne hst]
      simp only [Option.some.injEq, Ne.symm hst, iff_false]
      exact hout st'
  · rw [hself]
    simp
  · rw [hself]
    simp

theorem TasksOk.pop [DecidableEq σ] (h : TasksOk s on) (hb : b < s.nbody)
    (htop : s.top st = some b) {links : Links Nat} {top : Option Nat}
    (hdel : dlDelete s.links (s.top st) b = some (links, top)) :
    TasksOk (s.pop st b links top) (Function.update on st (on st).tail) := by
  obtain ⟨l, hl⟩ := h.top_cons htop
  have hlist := h.list st
  rw [hl] at hlist
  obtain ⟨links', hdel', hlist', hframe⟩ := hlist.delete_head
  rw [hdel'] at hdel
  obtain ⟨rfl, rfl⟩ : links' = links ∧ l.head? = top := by simpa using hdel
  have hmem : b ∈ on st := by simp [hl]
  have hb' : b ∉ l := (List.nodup_cons.mp (hl ▸ (h.list st).nodup)).1
  have hself : (s.pop st b links' l.head?).body b =
      { s.body b with state := .dead, stack := none } := Function.update_self _ _ _
  refine h.change hb ⟨rfl, rfl, rfl⟩ (fun b' hne => Function.update_of_ne hne _ _) ?_
    (fun st' => ?_) (fun b' hne st' => ?_) (fun st' b' hb' => ?_) ⟨fun st' => ?_, ?_, ?_⟩
  · rw [hself]
    exact ⟨rfl, rfl⟩
  · by_cases hst : st' = st
    · subst hst
      simpa [Tasks.pop, hl] using hlist'
    · simp only [Tasks.pop, Function.update_of_ne hst]
      refine (h.list st').frame fun x hx => hframe x fun hx' => hst ?_
      exact h.apart hx (by simp [hl, hx'])
  · by_cases hst : st' = st
    · subst hst
      simp [hl, hne]
    · rw [Function.update_of_ne hst]
  · by_cases hst : st' = st
    · subst hst
      rw [Function.update_self] at hb'
      have hb' := List.mem_of_mem_tail hb'
      exact ⟨h.not_top htop hb', h.nested st' b' hb'⟩
    · rw [Function.update_of_ne hst] at hb'
      exact ⟨h.not_top htop hb', h.nested st' b' hb'⟩
  · simp only [hself, reduceCtorEq, iff_false]
    by_cases hst : st' = st
    · subst hst
      simpa [hl] using hb'
    · rw [Function.update_of_ne hst]
      exact fun hx => hst (h.apart hx hmem)
  · simp [hself]
  · simp [hself]

/-! ## Steps -/

section Steps

variable [DecidableEq σ] [DecidableEq ι]

/-- What the calls do, on a stack if it is given, and the checks that they make
before it. -/
inductive TaskStep (s : Tasks σ ι) : Option σ → Tasks σ ι → Prop where
  | addType (info : ι) (types : List TaskType) :
      TaskStep s none { s with info := Function.update s.info info { s.info info with types } }
  | addTask (info : ι) (taskId : UInt32) (type : TaskType) (flags : TaskFlags) :
      TaskStep s none (s.addTask info taskId type flags)
  | newBody (t : Nat) (bodyId : UInt32) (ht : t < s.ntask) (hid : bodyId ≠ 0)
      (hnew : bodyFind s t bodyId = none)
      (hone : (s.task t).flags.parallel = true ∨ (s.task t).nbodies = 0) :
      TaskStep s none (s.newBody t bodyId (s.task t).flags.body)
  | revive (b : Nat) (hb : b < s.nbody) (hdead : (s.body b).state = .dead)
      (hflag : (s.body b).flags.resurrect = true) : TaskStep s none (s.revive b)
  | push (st : σ) (b : Nat) (hb : b < s.nbody) (hcreated : (s.body b).state = .created)
      (hnest : ∀ top, bodyGetRunning s st = some top →
        (s.body top).flags.relaxNesting = true) : TaskStep s (some st) (s.push st b)
  | pause (st : σ) (b : Nat) (hb : b < s.nbody) (hflag : (s.body b).flags.pause = true)
      (hstate : (s.body b).state = .running) (htop : s.top st = some b) :
      TaskStep s (some st) (s.setBody b { s.body b with state := .paused })
  | resume (st : σ) (b : Nat) (hb : b < s.nbody) (hstate : (s.body b).state = .paused)
      (htop : s.top st = some b) :
      TaskStep s (some st) (s.setBody b { s.body b with state := .running })
  | pop (st : σ) (b : Nat) (hb : b < s.nbody) (hstate : (s.body b).state = .running)
      (htop : s.top st = some b) (links : Links Nat) (top : Option Nat)
      (hdel : dlDelete s.links (s.top st) b = some (links, top)) :
      TaskStep s (some st) (s.pop st b links top)

/-- Each step keeps the order, and the lists of the other stacks. -/
theorem TaskStep.ok {o : Option σ} (h : TasksOk s on) (hstep : TaskStep s o s') :
    ∃ on', TasksOk s' on' ∧ ∀ st, o ≠ some st → on' st = on st := by
  cases hstep with
  | addType info types => exact ⟨on, h.addType _, fun _ _ => rfl⟩
  | addTask info taskId type flags =>
      exact ⟨on, h.addTask info taskId type flags, fun _ _ => rfl⟩
  | newBody t bodyId ht hid hnew hone =>
      exact ⟨on, h.newBody ht hid hnew hone, fun _ _ => rfl⟩
  | revive b hb hdead hflag => exact ⟨on, h.revive hb hdead, fun _ _ => rfl⟩
  | push st b hb hcreated hnest =>
      refine ⟨_, h.push hb hcreated hnest, fun st' hne => Function.update_of_ne ?_ _ _⟩
      rintro rfl
      exact hne rfl
  | pause st b hb hflag hstate htop =>
      exact ⟨on, h.setState hb htop (Or.inr rfl) fun _ => hflag, fun _ _ => rfl⟩
  | resume st b hb hstate htop =>
      refine ⟨on, h.setState hb htop (Or.inl rfl) fun heq => ?_, fun _ _ => rfl⟩
      cases heq
  | pop st b hb hstate htop links top hdel =>
      refine ⟨_, h.pop hb htop hdel, fun st' hne => Function.update_of_ne ?_ _ _⟩
      rintro rfl
      exact hne rfl

/-- What never changes, and the dead bodies that may not run again. -/
structure Tasks.Kept (s s' : Tasks σ ι) : Prop where
  nbody : s.nbody ≤ s'.nbody
  ntask : s.ntask ≤ s'.ntask
  task : ∀ t < s.ntask, (s'.task t).id = (s.task t).id ∧ (s'.task t).type = (s.task t).type
  body : ∀ b < s.nbody, (s'.body b).id = (s.body b).id ∧ (s'.body b).task = (s.body b).task ∧
    (s'.body b).flags = (s.body b).flags
  dead : ∀ b < s.nbody, (s.body b).flags.resurrect = false → (s.body b).state = .dead →
    (s'.body b).state = .dead

omit [DecidableEq σ] [DecidableEq ι] in
theorem Tasks.Kept.refl (s : Tasks σ ι) : s.Kept s :=
  ⟨Nat.le_refl _, Nat.le_refl _, fun _ _ => ⟨rfl, rfl⟩, fun _ _ => ⟨rfl, rfl, rfl⟩,
    fun _ _ _ hd => hd⟩

omit [DecidableEq σ] [DecidableEq ι] in
theorem Tasks.Kept.trans {s'' : Tasks σ ι} (h : s.Kept s') (h' : s'.Kept s'') : s.Kept s'' := by
  refine ⟨Nat.le_trans h.nbody h'.nbody, Nat.le_trans h.ntask h'.ntask, fun t ht => ?_,
    fun b hb => ?_, fun b hb hflag hd => ?_⟩
  · obtain ⟨hid, htype⟩ := h'.task t (Nat.lt_of_lt_of_le ht h.ntask)
    exact ⟨hid.trans (h.task t ht).1, htype.trans (h.task t ht).2⟩
  · obtain ⟨hid, htask, hflags⟩ := h'.body b (Nat.lt_of_lt_of_le hb h.nbody)
    obtain ⟨hid0, htask0, hflags0⟩ := h.body b hb
    exact ⟨hid.trans hid0, htask.trans htask0, hflags.trans hflags0⟩
  · refine h'.dead b (Nat.lt_of_lt_of_le hb h.nbody) ?_ (h.dead b hb hflag hd)
    rw [(h.body b hb).2.2]
    exact hflag

omit [DecidableEq σ] [DecidableEq ι] in
/-- One body changes, unless it is dead for good. -/
theorem Tasks.Kept.change (htask : s'.nbody = s.nbody ∧ s'.ntask = s.ntask ∧ s'.task = s.task)
    (hother : ∀ b', b' ≠ b → s'.body b' = s.body b')
    (hfields : (s'.body b).id = (s.body b).id ∧ (s'.body b).task = (s.body b).task ∧
      (s'.body b).flags = (s.body b).flags)
    (hdead : (s.body b).flags.resurrect = true ∨ (s.body b).state ≠ .dead) : s.Kept s' := by
  refine ⟨Nat.le_of_eq htask.1.symm, Nat.le_of_eq htask.2.1.symm, fun t _ => ?_, fun b' _ => ?_,
    fun b' _ hflag hd => ?_⟩
  · rw [htask.2.2]
    exact ⟨rfl, rfl⟩
  · by_cases heq : b' = b
    · rw [heq]
      exact hfields
    · rw [hother b' heq]
      exact ⟨rfl, rfl, rfl⟩
  · by_cases heq : b' = b
    · rw [heq] at hflag hd
      rcases hdead with hres | hne
      · rw [hres] at hflag
        cases hflag
      · exact absurd hd hne
    · rw [hother b' heq]
      exact hd

theorem TaskStep.kept {o : Option σ} (hstep : TaskStep s o s') : s.Kept s' := by
  cases hstep with
  | addType info types => exact ⟨Nat.le_refl _, Nat.le_refl _, fun _ _ => ⟨rfl, rfl⟩,
      fun _ _ => ⟨rfl, rfl, rfl⟩, fun _ _ _ hd => hd⟩
  | addTask info taskId type flags =>
      refine ⟨Nat.le_refl _, Nat.le_succ _, fun t ht => ?_, fun _ _ => ⟨rfl, rfl, rfl⟩,
        fun _ _ _ hd => hd⟩
      have hne : t ≠ s.ntask := Nat.ne_of_lt ht
      simp [Tasks.addTask, Function.update_of_ne hne]
  | newBody t bodyId ht hid hnew hone =>
      refine ⟨Nat.le_succ _, Nat.le_refl _, fun t' _ => ?_, fun b hb => ?_, fun b hb _ hd => ?_⟩
      · by_cases heq : t' = t
        · rw [heq, Tasks.newBody_self]
          exact ⟨rfl, rfl⟩
        · rw [Tasks.newBody_other heq]
          exact ⟨rfl, rfl⟩
      · rw [Tasks.newBody_old hb]
        exact ⟨rfl, rfl, rfl⟩
      · rw [Tasks.newBody_old hb]
        exact hd
  | revive b hb hdead hflag =>
      refine .change ⟨rfl, rfl, rfl⟩ (fun _ hne => Function.update_of_ne hne _ _) ?_
        (Or.inl hflag)
      simp [Tasks.revive, Tasks.setBody]
  | push st b hb hcreated hnest =>
      refine .change ⟨rfl, rfl, rfl⟩ (fun _ hne => Function.update_of_ne hne _ _) ?_
        (Or.inr (by simp [hcreated]))
      simp [Tasks.push]
  | pause st b hb hflag hstate htop =>
      refine .change ⟨rfl, rfl, rfl⟩ (fun _ hne => Function.update_of_ne hne _ _) ?_
        (Or.inr (by simp [hstate]))
      simp [Tasks.setBody]
  | resume st b hb hstate htop =>
      refine .change ⟨rfl, rfl, rfl⟩ (fun _ hne => Function.update_of_ne hne _ _) ?_
        (Or.inr (by simp [hstate]))
      simp [Tasks.setBody]
  | pop st b hb hstate htop links top hdel =>
      refine .change ⟨rfl, rfl, rfl⟩ (fun _ hne => Function.update_of_ne hne _ _) ?_
        (Or.inr (by simp [hstate]))
      simp [Tasks.pop]

end Steps

end Ovni
