import Ovni.Task.Follow

/-!
# What the channels of a thread show

In nOS-V and Nanos6 the channels hold the body that runs on the stack of the thread, or
null when the top does not run.  In OpenMP the channel of the task ids is a stack like
that of the bodies.
-/

namespace Ovni

open Ovni.Lib

/-! ## The body that runs -/

section

variable {θ γ π χ κ K : Type}

/-- Some channels of a thread show the body that runs on its stack. -/
def RunningShown (ks : TaskThread θ π → List K)
    (shown : TaskThread θ π → Tasks θ π → Option Nat → K → Value) (th : TaskThread θ π)
    (s : Tasks θ π) (chan : K → Chan) : Prop :=
  ∀ k ∈ ks th, chanRead (chan k) = shown th s (taskGetRunning s th.thread) k

variable {ks : TaskThread θ π → List K}
  {shown : TaskThread θ π → Tasks θ π → Option Nat → K → Value} {th : TaskThread θ π}
  {s s' : Tasks θ π} {on on' : θ → List Nat}

/-- Two states of the tasks with the same ids and type of a body. -/
structure SameBody (s s' : Tasks θ π) (body : Nat) : Prop where
  id : (s'.body body).id = (s.body body).id
  taskId : (s'.task (s'.body body).task).id = (s.task (s.body body).task).id
  type : (s'.task (s'.body body).task).type = (s.task (s.body body).task).type

theorem Tasks.Kept.sameBody (h : s.Kept s') (hok : TasksOk s on) {body : Nat}
    (hb : body < s.nbody) : SameBody s s' body := by
  obtain ⟨hid, htask, -⟩ := h.body body hb
  obtain ⟨htid, htype⟩ := h.task _ (hok.owner body hb)
  refine ⟨hid, ?_, ?_⟩
  · rw [htask]
    exact htid
  · rw [htask]
    exact htype

/-- What is shown of a body does not change with other stacks. -/
theorem RunningShown.frame
    (hshown : ∀ th s s' body, SameBody s s' body →
      ∀ k, shown th s' (some body) k = shown th s (some body) k)
    (hnull : ∀ th s k, shown th s none k = .null) (hok : TasksOk s on) (hk : s.Kept s')
    (hrun : bodyGetRunning s' th.thread = bodyGetRunning s th.thread) {chan chan' : K → Chan}
    (hsame : ∀ k ∈ ks th, (chan k).Same (chan' k)) (h : RunningShown ks shown th s chan) :
    RunningShown ks shown th s' chan' := by
  intro k hmem
  rw [(hsame k hmem).read, h k hmem, taskGetRunning, taskGetRunning, hrun]
  cases hb : bodyGetRunning s th.thread with
  | none => rw [hnull, hnull]
  | some body =>
      refine (hshown th s s' body (hk.sameBody hok ?_) k).symm
      have htop : s.top th.thread = some body := (Option.filter_eq_some_iff.mp hb).1
      obtain ⟨l, hl⟩ := hok.top_cons htop
      exact hok.known th.thread body (by simp [hl])

theorem RunningShown.steps [DecidableEq θ] [DecidableEq π] (ks : TaskThread θ π → List K)
    (th : TaskThread θ π)
    (hshown : ∀ th s s' body, SameBody s s' body →
      ∀ k, shown th s' (some body) k = shown th s (some body) k)
    (hnull : ∀ th s k, shown th s none k = .null) (hok : TasksOk s on) (chan : K → Chan)
    (hsteps : TaskSteps none s s') (h : RunningShown ks shown th s chan) :
    RunningShown ks shown th s' chan :=
  h.frame hshown hnull hok hsteps.kept (hsteps.running hok (by simp)) fun _ _ => .refl _

variable [DecidableEq χ]

/-- The writes of the channels. -/
def showOps (ch : K → χ) (ks : List K) (v : K → Value) : List (ChanOp χ) :=
  ks.map fun k => .set (ch k) (v k)

theorem writeAll_show {ch : K → χ} (hinj : Function.Injective ch) {ks : List K} (hks : ks.Nodup)
    {v : K → Value} {b b' : Bay χ κ} (hd : b.DirtyOk)
    (hplain : ∀ k, (b.chan (ch k)).ignoreDup = false)
    (h : writeAll (showOps ch ks v) b = .ok b') : ∀ k ∈ ks, b'.read (ch k) = v k := by
  intro k hk
  refine writeAll_set h (List.mem_map.mpr ⟨k, hk, rfl⟩) ?_ (hplain k) hd
  have hmap : (showOps ch ks v).map ChanOp.chan = ks.map ch := by
    simp [showOps, ChanOp.chan]
  rw [hmap]
  exact List.Nodup.map hinj hks

variable [DecidableEq θ] [DecidableEq π]

/-- An event that only adds types and tasks. -/
theorem EventOk.of_runTask {shows : TaskThread θ π → Tasks θ π → (K → Chan) → Prop} {ch : K → χ}
    {call : TaskM θ π Unit} {b b' : Bay χ κ}
    (hframe : TaskSteps none s s' → shows th s (fun k => b.chan (ch k)) →
      shows th s' fun k => b.chan (ch k))
    (hcall : Ensures call s (Outcome s fun s' => TaskSteps none s s'))
    (h : (do return (← runTask call s, b) : Except EmuFault (Tasks θ π × Bay χ κ)) =
      .ok (s', b')) : EventOk shows ch th s s' b b' := by
  obtain ⟨s1, hrun, h⟩ := bind_ok h
  obtain ⟨rfl, rfl⟩ : s1 = s' ∧ b = b' := by simpa using Except.ok.inj h
  have hsteps := runTask_ok hrun hcall
  exact ⟨hsteps.weaken, ⟨[], by simp, rfl⟩, hframe hsteps⟩

/-- An update of a task sets the channels for the body that runs after it. -/
theorem updateTaskWith_shows {ev : TaskEvent} {state : TaskM θ π Unit} {ch : K → χ} {ss : K}
    {stTaskBody : Int}
    {running : Option Nat → Tasks θ π → Bay χ κ → Except EmuFault (Bay χ κ)}
    {stopped : Bay χ κ → Except EmuFault (Bay χ κ)}
    {switch : Option Nat → Option Nat → Tasks θ π → Bay χ κ → Except EmuFault (Bay χ κ)}
    {b b' : Bay χ κ} (hinj : Function.Injective ch) (hks : (ks th).Nodup) (hd : b.DirtyOk)
    (hplain : ∀ k, (b.chan (ch k)).ignoreDup = false) (hnull : ∀ k, shown th s' none k = .null)
    (hrunning : ∀ {next b b'}, running next s' b = .ok b' → ∃ body, next = some body ∧
      writeAll (showOps ch (ks th) (shown th s' (some body))) b = .ok b')
    (hswitch : ∀ {prev next b b'}, switch prev next s' b = .ok b' → ∃ body, next = some body ∧
      writeAll (showOps ch (ks th) (shown th s' (some body))) b = .ok b')
    (hstopped : ∀ {b b'}, stopped b = .ok b' →
      writeAll (showOps ch (ks th) fun _ => .null) b = .ok b')
    (hstate : Ensures state s (Outcome s fun s' => TaskSteps (some th.thread) s s' ∧
      (ev.v = 'p' → bodyGetRunning s' th.thread = none)))
    (h : updateTaskWith th ev state (ch ss) stTaskBody running stopped switch s b =
      .ok (s', b')) :
    EventOk (RunningShown ks shown) ch th s s' b b' := by
  obtain ⟨hsteps, b1, ops, hops, hwrite, hend⟩ := updateTaskWith_ok
    (fun body s b => writeAll (showOps ch (ks th) (shown th s (some body))) b)
    hrunning hswitch hstate h
  have hwritten := writeAll_ok (fun c => c = ch ss) hd hops hwrite
  have hplain1 : ∀ k, (b1.chan (ch k)).ignoreDup = false := fun k => by
    rw [(hwritten.like _).ignoreDup]
    exact hplain k
  -- In both cases the channels are written with what is shown of the body that runs
  have hset : writeAll (showOps ch (ks th) (shown th s' (taskGetRunning s' th.thread))) b1 =
      .ok b' := by
    rcases hend with ⟨body, hrun, hset⟩ | ⟨hrun, hstop⟩
    · rw [taskGetRunning, hrun]
      exact hset
    · have hfun : shown th s' none = fun _ => .null := funext hnull
      rw [taskGetRunning, hrun, hfun]
      exact hstopped hstop
  refine ⟨hsteps, ⟨_, fun op hop => ?_, (writeAll_append hwrite).trans hset⟩, fun _ =>
    writeAll_show hinj hks hwritten.dirtyOk hplain1 hset⟩
  rcases List.mem_append.mp hop with hop | hop
  · exact ⟨ss, hops op hop⟩
  · obtain ⟨k, -, rfl⟩ := List.mem_map.mp hop
    exact ⟨k, rfl⟩

end

/-! ## nOS-V -/

section Nosv

variable {θ γ π χ κ : Type}

/-- The channels of a thread that show its task. -/
def nosvTaskChans (th : TaskThread θ π) : List NosvChan :=
  [.bodyid, .taskid, .type, .appid] ++ if 0 ≤ th.rank then [.rank] else []

/-- What a channel shows of a body. -/
def nosvShown (th : TaskThread θ π) (s : Tasks θ π) : Option Nat → NosvChan → Value
  | none, _ => .null
  | some b, .bodyid => idValue (s.body b).id
  | some b, .taskid => idValue (s.task (s.body b).task).id
  | some b, .type => idValue (s.task (s.body b).task).type.gid
  | some _, .appid => .int64 th.appid
  | some _, .rank => .int64 (th.rank + 1)
  | some _, _ => .null

/-- nOS-V, where only task events write the channels of the task. -/
def nosvModel [DecidableEq θ] [DecidableEq π] [DecidableEq χ] :
    TaskModel θ γ π χ κ NosvChan where
  chanInit := nosvChanInit
  tasked k := k ≠ .subsystem ∧ k ≠ .idle
  processEv := Nosv.processEv

theorem nosvTaskChans_tasked {th : TaskThread θ π} {k : NosvChan} (h : k ∈ nosvTaskChans th) :
    k ≠ .subsystem ∧ k ≠ .idle := by
  constructor
  · rintro rfl
    unfold nosvTaskChans at h
    split at h <;> simp at h
  · rintro rfl
    unfold nosvTaskChans at h
    split at h <;> simp at h

theorem nosvTaskChans_nodup (th : TaskThread θ π) : (nosvTaskChans th).Nodup := by
  unfold nosvTaskChans
  split <;> decide

theorem nosvShown_same (th : TaskThread θ π) (s s' : Tasks θ π) (body : Nat)
    (h : SameBody s s' body) (k : NosvChan) :
    nosvShown th s' (some body) k = nosvShown th s (some body) k := by
  cases k <;> simp only [nosvShown, h.id, h.taskId, h.type]

variable [DecidableEq χ]

theorem chanBodySet_eq (ch : NosvChan → χ) (th : TaskThread θ π) (s : Tasks θ π) (body : Nat)
    (b : Bay χ κ) : Nosv.chanBodySet ch th s body b =
      writeAll (showOps ch (nosvTaskChans th) (nosvShown th s (some body))) b := by
  unfold Nosv.chanBodySet showOps nosvTaskChans
  split <;> rfl

theorem chanBodyStopped_eq (ch : NosvChan → χ) (th : TaskThread θ π) (b : Bay χ κ) :
    Nosv.chanBodyStopped ch th b =
      writeAll (showOps ch (nosvTaskChans th) fun _ => .null) b := by
  unfold Nosv.chanBodyStopped showOps nosvTaskChans
  split <;> rfl

theorem chanBodyRunning_ok {ch : NosvChan → χ} {th : TaskThread θ π} {s : Tasks θ π}
    {next : Option Nat} {b b' : Bay χ κ} (h : Nosv.chanBodyRunning ch th next s b = .ok b') :
    ∃ body, next = some body ∧
      writeAll (showOps ch (nosvTaskChans th) (nosvShown th s (some body))) b = .ok b' := by
  cases next with
  | none => cases h
  | some body =>
      obtain ⟨-, h⟩ := guard_ok h
      obtain ⟨-, h⟩ := guard_ok h
      obtain ⟨-, h⟩ := guard_ok h
      exact ⟨body, rfl, (chanBodySet_eq ..).symm.trans h⟩

theorem chanBodySwitch_ok {ch : NosvChan → χ} {th : TaskThread θ π} {s : Tasks θ π}
    {prev next : Option Nat} {b b' : Bay χ κ}
    (h : Nosv.chanBodySwitch ch th prev next s b = .ok b') :
    ∃ body, next = some body ∧
      writeAll (showOps ch (nosvTaskChans th) (nosvShown th s (some body))) b = .ok b' := by
  cases prev with
  | none => cases h
  | some prev =>
      cases next with
      | none => cases h
      | some body =>
          obtain ⟨-, h⟩ := guard_ok h
          obtain ⟨-, h⟩ := guard_ok h
          obtain ⟨-, h⟩ := guard_ok h
          exact ⟨body, rfl, (chanBodySet_eq ..).symm.trans h⟩

variable [DecidableEq θ] [DecidableEq π] {s s' : Tasks θ π} {on : θ → List Nat}

theorem Nosv.updateTaskState_ensures (h : TasksOk s on) (th : TaskThread θ π) (ev : TaskEvent) :
    Ensures (Nosv.updateTaskState th ev) s (Outcome s fun s' =>
      TaskSteps (some th.thread) s s' ∧
        (ev.v = 'p' → bodyGetRunning s' th.thread = none)) := by
  simp only [Nosv.updateTaskState, ensures_bind, ensures_ite, ensures_throw, next_error,
    ensures_get, next_ok, outcome_fault, implies_true, true_and]
  intro _ _
  split
  · exact outcome_fault s _ _
  · simp only [ensures_ite, ensures_bind, ensures_throw, next_error, outcome_fault,
      implies_true, true_and]
    exact ⟨fun _ _ => changeTaskState_ensures h, fun _ _ => changeTaskState_ensures h⟩

theorem Nosv.createTask_ensures (th : TaskThread θ π) (ev : TaskEvent) :
    Ensures (Nosv.createTask th ev) s (Outcome s fun s' => TaskSteps none s s') := by
  simp only [Nosv.createTask, ensures_bind, ensures_ite, ensures_throw, next_error,
    outcome_fault, implies_true, true_and]
  exact fun _ => taskCreate_steps _ _ _ _

/-- The channels of nOS-V show the body that runs. -/
theorem nosvShows : TaskShows (nosvModel : TaskModel θ γ π χ κ NosvChan)
    (RunningShown nosvTaskChans nosvShown) where
  plain k := by cases k <;> rfl
  init th k hk := by cases k <;> rfl
  frame hok _ _ hk hrun hsame h := h.frame nosvShown_same (fun _ _ _ => rfl) hok hk hrun
    fun k hmem => hsame k (nosvTaskChans_tasked hmem)
  event := by
    intro ch th state ev s s' on b b' hok hinj hd hplain h
    have hframe : TaskSteps none s s' → _ → _ :=
      RunningShown.steps nosvTaskChans th nosvShown_same (fun _ _ _ => rfl) hok
        fun k => b.chan (ch k)
    have hcreate := Nosv.createTask_ensures (s := s) th ev
    have hupdate : Nosv.updateTask ch th ev s b = .ok (s', b') →
        EventOk (RunningShown nosvTaskChans nosvShown) ch th s s' b b' := fun h =>
      updateTaskWith_shows hinj (nosvTaskChans_nodup th) hd hplain (fun _ => rfl)
        chanBodyRunning_ok chanBodySwitch_ok
        (fun hstop => (chanBodyStopped_eq ch th _).symm.trans hstop)
        (Nosv.updateTaskState_ensures hok th ev) h
    obtain ⟨-, h⟩ := guard_ok h
    obtain ⟨-, h⟩ := guard_ok h
    split at h
    · unfold Nosv.preTask at h
      split at h
      · exact .of_runTask hframe hcreate h
      · exact .of_runTask hframe hcreate h
      · exact hupdate h
      · exact hupdate h
      · exact hupdate h
      · exact hupdate h
      · cases h
    · exact .of_runTask hframe (preType_ensures th ev) h
    · cases h

end Nosv

/-! ## Nanos6 -/

section Nanos6

variable {θ γ π χ κ : Type}

/-- The channels of a thread that show its task. -/
def nanos6TaskChans (th : TaskThread θ π) : List Nanos6Chan :=
  [.taskid, .type] ++ if 0 ≤ th.rank then [.rank] else []

/-- What a channel shows of a body. -/
def nanos6Shown (th : TaskThread θ π) (s : Tasks θ π) : Option Nat → Nanos6Chan → Value
  | none, _ => .null
  | some b, .taskid => idValue (s.task (s.body b).task).id
  | some b, .type => idValue (s.task (s.body b).task).type.gid
  | some _, .rank => .int64 (th.rank + 1)
  | some _, _ => .null

/-- Nanos6, where only task events write the channels of the task. -/
def nanos6Model [DecidableEq θ] [DecidableEq π] [DecidableEq χ] :
    TaskModel θ γ π χ κ Nanos6Chan where
  chanInit := nanos6ChanInit
  tasked k := k ≠ .subsystem ∧ k ≠ .thread ∧ k ≠ .idle
  processEv := Nanos6.processEv

theorem nanos6TaskChans_tasked {th : TaskThread θ π} {k : Nanos6Chan} (h : k ∈ nanos6TaskChans th) :
    k ≠ .subsystem ∧ k ≠ .thread ∧ k ≠ .idle := by
  unfold nanos6TaskChans at h
  refine ⟨?_, ?_, ?_⟩
  · rintro rfl
    split at h <;> simp at h
  · rintro rfl
    split at h <;> simp at h
  · rintro rfl
    split at h <;> simp at h

theorem nanos6TaskChans_nodup (th : TaskThread θ π) : (nanos6TaskChans th).Nodup := by
  unfold nanos6TaskChans
  split <;> decide

theorem nanos6Shown_same (th : TaskThread θ π) (s s' : Tasks θ π) (body : Nat)
    (h : SameBody s s' body) (k : Nanos6Chan) :
    nanos6Shown th s' (some body) k = nanos6Shown th s (some body) k := by
  cases k <;> simp only [nanos6Shown, h.taskId, h.type]

variable [DecidableEq χ]

theorem chanTaskSet_eq (ch : Nanos6Chan → χ) (th : TaskThread θ π) (s : Tasks θ π) (body : Nat)
    (b : Bay χ κ) : Nanos6.chanTaskSet ch th (s.task (s.body body).task) b =
      writeAll (showOps ch (nanos6TaskChans th) (nanos6Shown th s (some body))) b := by
  unfold Nanos6.chanTaskSet showOps nanos6TaskChans
  split <;> rfl

theorem chanTaskStopped_eq (ch : Nanos6Chan → χ) (th : TaskThread θ π) (b : Bay χ κ) :
    Nanos6.chanTaskStopped ch th b =
      writeAll (showOps ch (nanos6TaskChans th) fun _ => .null) b := by
  unfold Nanos6.chanTaskStopped showOps nanos6TaskChans
  split <;> rfl

theorem chanTaskRunning_ok {ch : Nanos6Chan → χ} {th : TaskThread θ π} {s : Tasks θ π}
    {next : Option Nat} {b b' : Bay χ κ} (h : Nanos6.chanTaskRunning ch th next s b = .ok b') :
    ∃ body, next = some body ∧
      writeAll (showOps ch (nanos6TaskChans th) (nanos6Shown th s (some body))) b = .ok b' := by
  cases next with
  | none => cases h
  | some body =>
      obtain ⟨-, h⟩ := guard_ok h
      obtain ⟨-, h⟩ := guard_ok h
      exact ⟨body, rfl, (chanTaskSet_eq ..).symm.trans h⟩

theorem chanTaskSwitch_ok {ch : Nanos6Chan → χ} {th : TaskThread θ π} {s : Tasks θ π}
    {prev next : Option Nat} {b b' : Bay χ κ}
    (h : Nanos6.chanTaskSwitch ch th prev next s b = .ok b') :
    ∃ body, next = some body ∧
      writeAll (showOps ch (nanos6TaskChans th) (nanos6Shown th s (some body))) b = .ok b' := by
  cases prev with
  | none => cases h
  | some prev =>
      cases next with
      | none => cases h
      | some body =>
          obtain ⟨-, h⟩ := guard_ok h
          obtain ⟨-, h⟩ := guard_ok h
          obtain ⟨-, h⟩ := guard_ok h
          exact ⟨body, rfl, (chanTaskSet_eq ..).symm.trans h⟩

variable [DecidableEq θ] [DecidableEq π] {s s' : Tasks θ π} {on : θ → List Nat}

theorem Nanos6.updateTaskState_ensures (h : TasksOk s on) (th : TaskThread θ π) (ev : TaskEvent) :
    Ensures (Nanos6.updateTaskState th ev) s (Outcome s fun s' =>
      TaskSteps (some th.thread) s s' ∧
        (ev.v = 'p' → bodyGetRunning s' th.thread = none)) := by
  simp only [Nanos6.updateTaskState, ensures_bind, ensures_ite, ensures_throw, next_error,
    ensures_get, next_ok, outcome_fault, implies_true, true_and]
  intro _
  split
  · exact outcome_fault s _ _
  · exact changeTaskState_ensures h

theorem Nanos6.createTask_ensures (th : TaskThread θ π) (ev : TaskEvent) :
    Ensures (Nanos6.createTask th ev) s (Outcome s fun s' => TaskSteps none s s') := by
  simp only [Nanos6.createTask, ensures_bind, ensures_ite, ensures_throw, next_error,
    outcome_fault, implies_true, true_and]
  exact fun _ => taskCreate_steps _ _ _ _

/-- The channels of Nanos6 show the body that runs. -/
theorem nanos6Shows : TaskShows (nanos6Model : TaskModel θ γ π χ κ Nanos6Chan)
    (RunningShown nanos6TaskChans nanos6Shown) where
  plain k := by cases k <;> rfl
  init th k hk := by cases k <;> rfl
  frame hok _ _ hk hrun hsame h := h.frame nanos6Shown_same (fun _ _ _ => rfl) hok hk hrun
    fun k hmem => hsame k (nanos6TaskChans_tasked hmem)
  event := by
    intro ch th state ev s s' on b b' hok hinj hd hplain h
    have hframe : TaskSteps none s s' → _ → _ :=
      RunningShown.steps nanos6TaskChans th nanos6Shown_same (fun _ _ _ => rfl) hok
        fun k => b.chan (ch k)
    have hcreate := Nanos6.createTask_ensures (s := s) th ev
    have hupdate : Nanos6.updateTask ch th ev s b = .ok (s', b') →
        EventOk (RunningShown nanos6TaskChans nanos6Shown) ch th s s' b b' := fun h =>
      updateTaskWith_shows hinj (nanos6TaskChans_nodup th) hd hplain (fun _ => rfl)
        chanTaskRunning_ok chanTaskSwitch_ok
        (fun hstop => (chanTaskStopped_eq ch th _).symm.trans hstop)
        (Nanos6.updateTaskState_ensures hok th ev) h
    obtain ⟨-, h⟩ := guard_ok h
    split at h
    · unfold Nanos6.preTask at h
      split at h
      · obtain ⟨rfl, rfl⟩ : s = s' ∧ b = b' := by simpa using Except.ok.inj h
        exact ⟨.refl, ⟨[], by simp, rfl⟩, id⟩
      · exact .of_runTask hframe hcreate h
      · exact hupdate h
      · exact hupdate h
      · exact hupdate h
      · exact hupdate h
      · cases h
    · exact .of_runTask hframe (preType_ensures th ev) h
    · cases h

end Nanos6

/-! ## OpenMP -/

section Openmp

variable {θ γ π χ κ : Type}

/-- The stack of the task ids is that of the bodies, top first. -/
def OpenmpShown (th : TaskThread θ π) (s : Tasks θ π) (chan : OpenmpChan → Chan) : Prop :=
  ∃ l, IsDList s.links (s.top th.thread) l ∧
    (chan .taskid).stack = l.map fun b => idValue (s.task (s.body b).task).id

/-- OpenMP, where worksharings also write the channel of the labels. -/
def openmpModel [DecidableEq θ] [DecidableEq π] [DecidableEq χ] :
    TaskModel θ γ π χ κ OpenmpChan where
  chanInit := openmpChanInit
  tasked k := k = .taskid
  processEv := Openmp.processEv

variable {th : TaskThread θ π} {s s' : Tasks θ π} {on on' : θ → List Nat}

/-- The ids of bodies that were there. -/
theorem Tasks.Kept.taskIds (h : s.Kept s') (hok : TasksOk s on) {l : List Nat}
    (hl : ∀ b ∈ l, b < s.nbody) :
    l.map (fun b => idValue (s'.task (s'.body b).task).id) =
      l.map fun b => idValue (s.task (s.body b).task).id :=
  List.map_congr_left fun b hb => by rw [(h.sameBody hok (hl b hb)).taskId]

theorem OpenmpShown.iff (hok : TasksOk s on) {chan : OpenmpChan → Chan} :
    OpenmpShown th s chan ↔ (chan .taskid).stack =
      (on th.thread).map fun b => idValue (s.task (s.body b).task).id := by
  constructor
  · rintro ⟨l, hl, hstack⟩
    rw [← hl.unique (hok.list th.thread)]
    exact hstack
  · exact fun hstack => ⟨_, hok.list th.thread, hstack⟩

theorem OpenmpShown.frame (hok : TasksOk s on) (hok' : TasksOk s' on')
    (hon : on' th.thread = on th.thread) (hk : s.Kept s') {chan chan' : OpenmpChan → Chan}
    (hsame : (chan .taskid).Same (chan' .taskid)) (h : OpenmpShown th s chan) :
    OpenmpShown th s' chan' := by
  rw [OpenmpShown.iff hok'] at *
  rw [OpenmpShown.iff hok] at h
  rw [hsame.stack, h, hon, hk.taskIds hok (hok.known th.thread)]

variable [DecidableEq θ] [DecidableEq π] [DecidableEq χ]

omit [DecidableEq θ] [DecidableEq π] in
/-- The first of two writes of different channels. -/
theorem writeAll_pair {op op' : ChanOp χ} {b b' : Bay χ κ} (hne : op.chan ≠ op'.chan)
    (h : writeAll [op, op'] b = .ok b') :
    ∃ b1, op.run b = .ok b1 ∧ b'.chan op.chan = b1.chan op.chan := by
  obtain ⟨b1, hop, h⟩ := bind_ok h
  obtain ⟨b2, hop', h⟩ := bind_ok h
  obtain rfl : b2 = b' := Except.ok.inj h
  refine ⟨b1, hop, ?_⟩
  rcases op'.run_ok hop' with rfl | ⟨chan, -, rfl⟩
  · rfl
  · exact Bay.touch_chan_of_ne _ hne

/-- A task that executes is pushed in both stacks. -/
theorem Openmp.execute_ok {ch : OpenmpChan → χ} (hinj : Function.Injective ch) {t : Nat}
    {label : Value} {b b' : Bay χ κ} (hplain : (b.chan (ch .taskid)).ignoreDup = false)
    (hok : TasksOk s on) (hrun : runTask (taskExecute th.thread (some t) 1) s = .ok s')
    (h : writeAll [.push (ch .taskid) (idValue (s.task t).id), .push (ch .label) label] b =
      .ok b') : EventOk OpenmpShown ch th s s' b b' := by
  obtain ⟨s1, body, hsteps, ht, ⟨hb, htask, -⟩, hcreated, hnest, rfl⟩ :=
    runTask_ok hrun (taskExecute_ensures hok)
  have hall := hsteps.one (.push th.thread body hb hcreated hnest)
  obtain ⟨on1, hok1, hon1⟩ := hsteps.ok hok
  have hok' := hok1.push hb hcreated hnest
  refine ⟨hall, ⟨_, by simp [ChanOp.chan], h⟩, fun hshow => ?_⟩
  rw [OpenmpShown.iff hok] at hshow
  rw [OpenmpShown.iff hok', Function.update_self, List.map_cons, hon1 th.thread (by simp),
    hall.kept.taskIds hok (hok.known th.thread), ← hshow]
  -- The body that was pushed is of the task
  have hid : ((s1.push th.thread body).task ((s1.push th.thread body).body body).task).id =
      (s.task t).id := by
    have hbody : ((s1.push th.thread body).body body).task = t := by
      rw [Option.some.inj htask]
      simp [Tasks.push]
    rw [hbody]
    exact (hall.kept.task t (ht t rfl)).1
  obtain ⟨b1, hpush, hchan⟩ := writeAll_pair (fun heq => by cases hinj heq) h
  rw [hid, show b'.chan (ch .taskid) = b1.chan (ch .taskid) from hchan]
  rcases Bay.chanPush_ok hpush with ⟨-, -, hign, -⟩ | rfl
  · rw [hplain] at hign
    cases hign
  · rw [Bay.touch_chan_self]

/-- A task that ends is popped in both stacks. -/
theorem Openmp.end_ok {ch : OpenmpChan → χ} (hinj : Function.Injective ch) {t : Nat}
    {id label : Value} {b b' : Bay χ κ} (hok : TasksOk s on)
    (hrun : runTask (taskEnd th.thread (some t) 1) s = .ok s')
    (h : writeAll [.pop (ch .taskid) id, .pop (ch .label) label] b = .ok b') :
    EventOk OpenmpShown ch th s s' b b' := by
  obtain ⟨body, ⟨hb, -, -⟩, hstate, htop, links, top, hdel, rfl⟩ :=
    runTask_ok hrun (taskEnd_ensures hok)
  have hall : TaskSteps (some th.thread) s (s.pop th.thread body links top) :=
    TaskSteps.refl.one (.pop th.thread body hb hstate htop links top hdel)
  have hok' := hok.pop hb htop hdel
  obtain ⟨l, hl⟩ := hok.top_cons htop
  refine ⟨hall, ⟨_, by simp [ChanOp.chan], h⟩, fun hshow => ?_⟩
  rw [OpenmpShown.iff hok, hl, List.map_cons] at hshow
  rw [OpenmpShown.iff hok', Function.update_self, hl, List.tail_cons,
    hall.kept.taskIds hok fun b hb => hok.known th.thread b (by simp [hl, hb])]
  obtain ⟨b1, hpop, hchan⟩ := writeAll_pair (fun heq => by cases hinj heq) h
  rw [show b'.chan (ch .taskid) = b1.chan (ch .taskid) from hchan]
  obtain ⟨rest, hrest, rfl⟩ := Bay.chanPop_ok hpop
  rw [hshow] at hrest
  rw [Bay.touch_chan_self]
  exact (List.cons.inj hrest).2.symm

/-- An update of a task pushes it or pops it in both stacks. -/
theorem Openmp.updateTask_ok {ch : OpenmpChan → χ} (hinj : Function.Injective ch) {ev : TaskEvent}
    {b b' : Bay χ κ} (hplain : ∀ k, (b.chan (ch k)).ignoreDup = false)
    (hok : TasksOk s on) (h : Openmp.updateTask ch th ev s b = .ok (s', b')) :
    EventOk OpenmpShown ch th s s' b b' := by
  obtain ⟨-, h⟩ := guard_ok h
  obtain ⟨-, h⟩ := guard_ok h
  split at h
  · cases h
  · simp only at h
    split at h
    · obtain ⟨s1, hrun, h⟩ := bind_ok h
      obtain ⟨b1, hwrite, h⟩ := bind_ok h
      obtain ⟨rfl, rfl⟩ : s1 = s' ∧ b1 = b' := by simpa using Except.ok.inj h
      exact Openmp.execute_ok hinj (hplain .taskid) hok hrun hwrite
    · obtain ⟨s1, hrun, h⟩ := bind_ok h
      obtain ⟨b1, hwrite, h⟩ := bind_ok h
      obtain ⟨rfl, rfl⟩ : s1 = s' ∧ b1 = b' := by simpa using Except.ok.inj h
      exact Openmp.end_ok hinj hok hrun hwrite
    · cases h

theorem Openmp.createTask_ensures (th : TaskThread θ π) (ev : TaskEvent) :
    Ensures (Openmp.createTask th ev) s (Outcome s fun s' => TaskSteps none s s') := by
  simp only [Openmp.createTask, ensures_bind, ensures_ite, ensures_throw, next_error,
    outcome_fault, implies_true, true_and]
  exact fun _ _ _ => taskCreate_steps _ _ _ _

/-- The stack of the task ids follows that of the bodies. -/
theorem openmpShows : TaskShows (openmpModel : TaskModel θ γ π χ κ OpenmpChan) OpenmpShown where
  plain _ := rfl
  init _ := ⟨[], IsDList.nil _, rfl⟩
  frame hok hok' hon hk _ hsame h := h.frame hok hok' hon hk (hsame .taskid rfl)
  event := by
    intro ch th state ev s s' on b b' hok hinj hd hplain h
    have hframe : TaskSteps none s s' → OpenmpShown th s (fun k => b.chan (ch k)) →
        OpenmpShown th s' fun k => b.chan (ch k) := by
      intro hsteps hshow
      obtain ⟨on', hok', hon⟩ := hsteps.ok hok
      exact hshow.frame hok hok' (hon th.thread (by simp)) hsteps.kept (.refl _)
    obtain ⟨-, h⟩ := guard_ok h
    split at h
    · unfold Openmp.preTask at h
      split at h
      · exact .of_runTask hframe (Openmp.createTask_ensures th ev) h
      · exact Openmp.updateTask_ok hinj hplain hok h
      · exact Openmp.updateTask_ok hinj hplain hok h
      · cases h
    · exact .of_runTask hframe (preType_ensures th ev) h
    · cases h

end Openmp

/-! ## Runs -/

section Runs

variable {θ γ π ℓ ξ μ ς ρ φ : Type} [DecidableEq θ] [DecidableEq γ] [DecidableEq π]
  [DecidableEq ξ] [DecidableEq μ] [DecidableEq ς] [DecidableEq ρ] [DecidableEq φ]
  (sys : System θ γ π ℓ) (p : Patch (EmuChan θ γ ξ) μ ς ρ φ) (parts : List (Part μ ς ρ))
  (model : ξ → Chan)

/-- In every run, the channels of each thread hold the ids, the type, the appid and the
rank of the body that runs on its stack, or null: in nOS-V, and in Nanos6 but for the
body id and the appid.  In OpenMP the stack of the task ids is that of the bodies. -/
theorem task_channels_follow :
    (∀ (ts : TaskSystem θ π ξ NosvChan) (e : PatchEmu θ γ ξ μ ς ρ φ) (s : Tasks θ π),
      TaskSetup p parts model ts nosvModel → TaskRun sys p parts model ts nosvModel e s →
      ∀ t, ∀ k ∈ nosvTaskChans (ts.thread t),
        e.read (.model (ts.ch t k)) = nosvShown (ts.thread t) s (taskGetRunning s t) k) ∧
    (∀ (ts : TaskSystem θ π ξ Nanos6Chan) (e : PatchEmu θ γ ξ μ ς ρ φ) (s : Tasks θ π),
      TaskSetup p parts model ts nanos6Model → TaskRun sys p parts model ts nanos6Model e s →
      ∀ t, ∀ k ∈ nanos6TaskChans (ts.thread t),
        e.read (.model (ts.ch t k)) = nanos6Shown (ts.thread t) s (taskGetRunning s t) k) ∧
    ∀ (ts : TaskSystem θ π ξ OpenmpChan) (e : PatchEmu θ γ ξ μ ς ρ φ) (s : Tasks θ π),
      TaskSetup p parts model ts openmpModel → TaskRun sys p parts model ts openmpModel e s →
      ∀ t, ∃ bodies, IsDList s.links (s.top t) bodies ∧
        (e.world.bay.chan (.model (ts.ch t .taskid))).stack =
          bodies.map fun b => idValue (s.task (s.body b).task).id := by
  refine ⟨fun ts e s hs h t => ?_, fun ts e s hs h t => ?_, fun ts e s hs h t => ?_⟩
  · exact (h.follow hs nosvShows).2.2.2 t
  · exact (h.follow hs nanos6Shows).2.2.2 t
  · exact (h.follow hs openmpShows).2.2.2 t

end Runs

/-! ## A task of a thread -/

section Demo

variable {K : Type} [DecidableEq K]

/-- A bay without modules, with the channels of a model in two threads. -/
def taskBay : Patch (EmuChan Bool Bool (Bool × K)) Empty Empty Empty Empty :=
  { mux := Empty.elim, sort := Empty.elim, rchan := Empty.elim, nrows := Empty.elim }

/-- The two threads are in a process of rank 2. -/
def demoTaskSystem (K : Type) : TaskSystem Bool Unit (Bool × K) K where
  proc _ := ()
  appid _ := 1
  rank _ := 2
  ch t k := (t, k)
  inj h := ⟨congrArg Prod.fst h, congrArg Prod.snd h⟩

/-- A model in the demo. -/
abbrev DemoModel (K : Type) :=
  TaskModel Bool Bool Unit (EmuChan Bool Bool (Bool × K)) (Cb Empty (Hook Empty Empty)) K

variable (tm : DemoModel K)

/-- The emulator of the demo with its tasks. -/
abbrev DemoTasks (K : Type) :=
  PatchEmu Bool Bool (Bool × K) Empty Empty Empty Empty × Tasks Bool Unit

/-- The first thread executes on the physical CPU. -/
def demoTaskInit : DemoTasks K :=
  let e := emuInit (patchInit (emuChanInit fun x => tm.chanInit x.2))
  let e1 := okOr e (runActs demoSystem [.event (demoEvent false 'H' 'x' [0])] e)
  ({ e1 with world := okOr e1.world (bayPropagate taskBay.net.call 20 e1.world) }, tasksInit)

/-- The bay after the handler of a task event of the first thread, which propagates next. -/
def demoTaskWorld (d : DemoTasks K) (ev : TaskEvent) :
    Tasks Bool Unit × PatchWorld (EmuChan Bool Bool (Bool × K)) Empty Empty Empty Empty :=
  let r := okOr (d.2, d.1.world.bay) (tm.processEv (fun k => .model (false, k))
    ((demoTaskSystem K).thread false) (d.1.th false) ev d.2 d.1.world.bay)
  (r.1, { d.1.world with bay := r.2 })

/-- A task event of the first thread. -/
def demoTaskStep (d : DemoTasks K) (ev : TaskEvent) : DemoTasks K :=
  ({ d.1 with
      world := okOr (demoTaskWorld tm d ev).2
        (bayPropagate taskBay.net.call 20 (demoTaskWorld tm d ev).2) },
    (demoTaskWorld tm d ev).1)

/-- Task events that are all taken. -/
def demoTasksOk (d : DemoTasks K) : List TaskEvent → Bool
  | [] => true
  | ev :: evs =>
      (tm.processEv (fun k => .model (false, k)) ((demoTaskSystem K).thread false)
        (d.1.th false) ev d.2 d.1.world.bay).isOk &&
      (bayPropagate (taskBay (K := K)).net.call 20 (demoTaskWorld tm d ev).2).isOk &&
      demoTasksOk (demoTaskStep tm d ev) evs

/-- An event with words in its payload, or with a type. -/
def demoTaskEvent (c v : Char) (words : List UInt32) (typeId : UInt32) : TaskEvent :=
  { c, v, payloadSize := 4 * words.length, u32 := fun i => words.getD i 0, isJumbo := true, typeId,
    label := [109] }

/-- The model, the emulator and its tasks are those of a run. -/
def DemoRun (d : DemoTasks K) : Prop :=
  TaskRun demoSystem taskBay [] (fun x => tm.chanInit x.2) (demoTaskSystem K) tm d.1 d.2

variable {tm}

theorem demoTask_init (hchan : ∀ k, Unregistered (tm.chanInit k))
    (hclean : ∀ k, (tm.chanInit k).isDirty = false)
    (hact : (runActs demoSystem [.event (demoEvent false 'H' 'x' [0])]
      (emuInit (patchInit (emuChanInit fun x => tm.chanInit x.2)) :
        PatchEmu Bool Bool (Bool × K) Empty Empty Empty Empty)).isOk = true)
    (hprop : (bayPropagate (taskBay (K := K)).net.call 20 (okOr
      (emuInit (patchInit (emuChanInit fun x => tm.chanInit x.2)))
      (runActs demoSystem [.event (demoEvent false 'H' 'x' [0])]
        (emuInit (patchInit (emuChanInit fun x => tm.chanInit x.2))))).world).isOk = true) :
    DemoRun tm (demoTaskInit tm) :=
  .other (.connect (fun x => hchan x.2) (fun x => hclean x.2) List.nodup_nil rfl)
    (fun op hop => by simp at hop) (fun op hop => by simp at hop) (eq_okOr _ hact) (eq_okOr _ hprop)

/-- Events that are taken continue a run. -/
theorem demoTask_steps {evs : List TaskEvent} {d : DemoTasks K} (h : DemoRun tm d)
    (hok : demoTasksOk tm d evs = true) : DemoRun tm (evs.foldl (demoTaskStep tm) d) := by
  induction evs generalizing d with
  | nil => exact h
  | cons ev evs ih =>
      simp only [demoTasksOk, Bool.and_eq_true] at hok
      obtain ⟨⟨hev, hprop⟩, hrest⟩ := hok
      exact ih (.task h false ev (eq_okOr (d.2, d.1.world.bay) hev) (eq_okOr _ hprop)) hrest

omit [DecidableEq K] in
theorem demoTask_setup : TaskSetup taskBay [] (fun x => tm.chanInit x.2) (demoTaskSystem K) tm :=
  ⟨by simp, fun _ _ => rfl, by simp⟩

end Demo

theorem nosvChanInit_unregistered (k : NosvChan) : Unregistered (nosvChanInit k) := by
  cases k <;> first | exact .init _ | exact .prop false true false (.init _)

theorem nanos6ChanInit_unregistered (k : Nanos6Chan) : Unregistered (nanos6ChanInit k) := by
  cases k <;> first | exact .init _ | exact .prop false true false (.init _)

/-- A type, a task of it with the id 9, and the task executes. -/
def nosvEvents : List TaskEvent :=
  [demoTaskEvent 'Y' 'c' [] 5, demoTaskEvent 'T' 'c' [9, 5] 0, demoTaskEvent 'T' 'x' [9, 0] 0]

/-- The same in Nanos6, where the task is paused and goes on. -/
def nanos6Events : List TaskEvent :=
  [demoTaskEvent 'Y' 'c' [] 5, demoTaskEvent 'T' 'c' [9, 5] 0, demoTaskEvent 'T' 'x' [9] 0,
    demoTaskEvent 'T' 'p' [9] 0, demoTaskEvent 'T' 'r' [9] 0]

/-- Two tasks of OpenMP, the second of which executes inside the first. -/
def openmpEvents : List TaskEvent :=
  [demoTaskEvent 'O' 'c' [] 5, demoTaskEvent 'P' 'c' [9, 5] 0, demoTaskEvent 'P' 'c' [10, 5] 0,
    demoTaskEvent 'P' 'x' [9] 0, demoTaskEvent 'P' 'x' [10] 0]

/-- nOS-V after its events. -/
def nosvDemo : DemoTasks NosvChan :=
  nosvEvents.foldl (demoTaskStep nosvModel) (demoTaskInit nosvModel)

/-- Nanos6 after its events. -/
def nanos6Demo : DemoTasks Nanos6Chan :=
  nanos6Events.foldl (demoTaskStep nanos6Model) (demoTaskInit nanos6Model)

/-- OpenMP after its events. -/
def openmpDemo : DemoTasks OpenmpChan :=
  openmpEvents.foldl (demoTaskStep openmpModel) (demoTaskInit openmpModel)

theorem nosvDemo_run : DemoRun nosvModel nosvDemo :=
  demoTask_steps (demoTask_init nosvChanInit_unregistered (fun k => by cases k <;> rfl)
    (by decide +kernel) (by decide +kernel)) (by decide +kernel)

theorem nanos6Demo_run : DemoRun nanos6Model nanos6Demo :=
  demoTask_steps (demoTask_init nanos6ChanInit_unregistered (fun k => by cases k <;> rfl)
    (by decide +kernel) (by decide +kernel)) (by decide +kernel)

theorem openmpDemo_run : DemoRun openmpModel openmpDemo :=
  demoTask_steps (demoTask_init (fun _ => .prop false true false (.init _)) (fun _ => rfl)
    (by decide +kernel) (by decide +kernel)) (by decide +kernel)

/-- The channels of the thread show the task that runs in nOS-V and in Nanos6, and the two
nested tasks in OpenMP. -/
theorem task_channels_follow_demo :
    (taskGetRunning nosvDemo.2 false = some 0 ∧
      nosvShown ((demoTaskSystem NosvChan).thread false) nosvDemo.2 (some 0) .taskid = .int64 9 ∧
      ∀ k ∈ nosvTaskChans ((demoTaskSystem NosvChan).thread false),
        nosvDemo.1.read (.model (false, k)) =
          nosvShown ((demoTaskSystem NosvChan).thread false) nosvDemo.2
            (taskGetRunning nosvDemo.2 false) k) ∧
    (taskGetRunning nanos6Demo.2 false = some 0 ∧
      nanos6Shown ((demoTaskSystem Nanos6Chan).thread false) nanos6Demo.2 (some 0) .taskid =
        .int64 9 ∧
      ∀ k ∈ nanos6TaskChans ((demoTaskSystem Nanos6Chan).thread false),
        nanos6Demo.1.read (.model (false, k)) =
          nanos6Shown ((demoTaskSystem Nanos6Chan).thread false) nanos6Demo.2
            (taskGetRunning nanos6Demo.2 false) k) ∧
    ∃ bodies, IsDList openmpDemo.2.links (openmpDemo.2.top false) bodies ∧
      bodies.map (fun b => idValue (openmpDemo.2.task (openmpDemo.2.body b).task).id) =
        [.int64 10, .int64 9] ∧
      (openmpDemo.1.world.bay.chan (.model (false, .taskid))).stack = [.int64 10, .int64 9] := by
  refine ⟨⟨by decide +kernel, by decide +kernel, ?_⟩,
    ⟨by decide +kernel, by decide +kernel, ?_⟩, ?_⟩
  · exact (task_channels_follow demoSystem taskBay [] _).1 _ nosvDemo.1 nosvDemo.2
      demoTask_setup nosvDemo_run false
  · exact (task_channels_follow demoSystem taskBay [] _).2.1 _ nanos6Demo.1 nanos6Demo.2
      demoTask_setup nanos6Demo_run false
  · obtain ⟨bodies, hlist, hstack⟩ := (task_channels_follow demoSystem taskBay [] _).2.2 _
      openmpDemo.1 openmpDemo.2 demoTask_setup openmpDemo_run false
    have hshown : (openmpDemo.1.world.bay.chan (.model (false, .taskid))).stack =
        [.int64 10, .int64 9] := by
      decide +kernel
    exact ⟨bodies, hlist, hstack.symm.trans hshown, hshown⟩

end Ovni
