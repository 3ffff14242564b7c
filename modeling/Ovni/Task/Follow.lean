import Ovni.System.Run
import Ovni.System.Tracks
import Ovni.Task.Calls
import Ovni.Task.Events

/-!
# The channels follow the tasks

Runs of the emulator with the task events of a model.  Each event is a step like any
other, with some writes of channels of its thread.  After it, these channels show the
body that runs on the stack of the thread, or in OpenMP all bodies of the stack; the
channels and stacks of the other threads do not change.
-/

namespace Ovni

open Ovni.Lib

/-! ## Channels -/

/-- Two states of a channel that hold the same. -/
structure Chan.Same (chan chan' : Chan) : Prop where
  type : chan'.type = chan.type
  ignoreDup : chan'.ignoreDup = chan.ignoreDup
  value : chan'.value = chan.value
  stack : chan'.stack = chan.stack

theorem Chan.Same.refl (chan : Chan) : chan.Same chan := ⟨rfl, rfl, rfl, rfl⟩

theorem Chan.Same.read {chan chan' : Chan} (h : chan.Same chan') :
    chanRead chan' = chanRead chan := by
  unfold chanRead
  rw [h.type, h.value, h.stack]

section

variable {χ κ : Type} [DecidableEq χ] {b b' : Bay χ κ} {c : χ}

/-- A channel that is set among others. -/
theorem writeAll_set {ops : List (ChanOp χ)} (h : writeAll ops b = .ok b') {v : Value}
    (hmem : .set c v ∈ ops) (hnodup : (ops.map ChanOp.chan).Nodup)
    (hdup : (b.chan c).ignoreDup = false) (hd : b.DirtyOk) :
    b'.read c = v := by
  induction ops generalizing b with
  | nil => cases hmem
  | cons op ops ih =>
      rw [writeAll] at h
      obtain ⟨b1, hop, hops⟩ := bind_ok h
      rw [List.map_cons, List.nodup_cons] at hnodup
      have hwritten : Bay.Written (fun x => x = op.chan) b b1 := .op hd rfl hop
      rcases List.mem_cons.mp hmem with rfl | hmem
      · -- It is not written again
        have hnot : ∀ op ∈ ops, op.chan ≠ c := fun op hop heq =>
          hnodup.1 (List.mem_map.mpr ⟨op, hop, heq⟩)
        have hrest := writeAll_ok (fun x => x ≠ c) hwritten.dirtyOk hnot hops
        rw [hrest.read_of_not_src (by simp)]
        obtain ⟨htype, -, ⟨-, -, hign, -⟩ | ⟨rfl, -⟩⟩ := Bay.chanSet_ok hop
        · rw [hdup] at hign
          cases hign
        · rw [Bay.touch_read_self]
          simp [chanRead, htype]
      · refine ih hops hmem hnodup.2 ?_ hwritten.dirtyOk
        rw [(hwritten.like c).ignoreDup]
        exact hdup

end

section

variable {θ γ π ℓ ξ μ ς ρ φ K : Type} [DecidableEq θ] [DecidableEq γ] [DecidableEq π]
  [DecidableEq ξ] [DecidableEq μ] [DecidableEq ς] [DecidableEq ρ] [DecidableEq φ]

omit [DecidableEq θ] [DecidableEq γ] [DecidableEq π] [DecidableEq ξ] in
/-- A propagation keeps what the channels hold that are no outputs. -/
theorem PatchReady.propagate_same {χ : Type} [DecidableEq χ] {p : Patch χ μ ς ρ φ}
    {parts : List (Part μ ς ρ)} {w w' : PatchWorld χ μ ς ρ φ} {fuel : Nat}
    (h : PatchReady p parts w) (hrun : bayPropagate p.net.call fuel w = .ok w') {c : χ}
    (hout : ¬ p.Out parts c) : (w.bay.chan c).Same (w'.bay.chan c) := by
  obtain ⟨w1, w2, -, -, -, hg, -, hsame, rfl⟩ := h.phases hrun
  have hchan : w2.bay.chan = w1.bay.chan := by
    rw [hsame]
    rfl
  have heq : w1.bay.chan c = w.bay.chan c := hg.apart c hout
  simp only [hchan]
  split
  · rw [heq]
    exact ⟨rfl, rfl, rfl, rfl⟩
  · rw [heq]
    exact ⟨rfl, rfl, rfl, rfl⟩

/-! ## Runs with task events -/

/-- A model with tasks: its channels in each thread, those that only its task events
write, and these events. -/
structure TaskModel (θ γ π χ κ K : Type) where
  chanInit : K → Chan
  tasked : K → Prop
  processEv : (K → χ) → TaskThread θ π → Thread γ → TaskEvent → Tasks θ π → Bay χ κ →
    Except EmuFault (Tasks θ π × Bay χ κ)

/-- The processes and channels of the threads of a model. -/
structure TaskSystem (θ π ξ K : Type) where
  proc : θ → π
  appid : π → Int
  rank : π → Int
  ch : θ → K → ξ
  inj : ∀ {t t' : θ} {k k' : K}, ch t k = ch t' k' → t = t' ∧ k = k'

/-- A thread with its process. -/
def TaskSystem.thread (ts : TaskSystem θ π ξ K) (t : θ) : TaskThread θ π :=
  { thread := t, proc := ts.proc t, appid := ts.appid (ts.proc t), rank := ts.rank (ts.proc t) }

/-- The runs of the emulator with the tasks of a model: its task events, and steps of
any other kind that leave the channels of the tasks alone. -/
inductive TaskRun (sys : System θ γ π ℓ) (p : Patch (EmuChan θ γ ξ) μ ς ρ φ)
    (parts : List (Part μ ς ρ)) (model : ξ → Chan) (ts : TaskSystem θ π ξ K)
    (tm : TaskModel θ γ π (EmuChan θ γ ξ) (Cb μ (Hook ς ρ)) K) :
    PatchEmu θ γ ξ μ ς ρ φ → Tasks θ π → Prop where
  | connect {w : PatchWorld (EmuChan θ γ ξ) μ ς ρ φ} (hchan : ∀ x, Unregistered (model x))
      (hclean : ∀ x, (model x).isDirty = false) (honce : parts.Nodup)
      (hrun : connectParts p parts (patchInit (emuChanInit model)) = .ok w) :
      TaskRun sys p parts model ts tm (emuInit w) tasksInit
  | task {e : PatchEmu θ γ ξ μ ς ρ φ} {s s' : Tasks θ π}
      {b : Bay (EmuChan θ γ ξ) (Cb μ (Hook ς ρ))} {w : PatchWorld (EmuChan θ γ ξ) μ ς ρ φ}
      {fuel : Nat} (h : TaskRun sys p parts model ts tm e s) (t : θ) (ev : TaskEvent)
      (hev : tm.processEv (fun k => .model (ts.ch t k)) (ts.thread t) (e.th t) ev s e.world.bay =
        .ok (s', b))
      (hrun : bayPropagate p.net.call fuel { e.world with bay := b } = .ok w) :
      TaskRun sys p parts model ts tm { e with world := w } s'
  | other {e e1 : PatchEmu θ γ ξ μ ς ρ φ} {s : Tasks θ π} {acts : List (EmuAct θ γ ξ)}
      {w : PatchWorld (EmuChan θ γ ξ) μ ς ρ φ} {fuel : Nat}
      (h : TaskRun sys p parts model ts tm e s)
      (hsource : ∀ op, .write op ∈ acts →
        (∃ x, op.chan = .model x) ∧ ∀ part ∈ parts, op.chan ∉ p.partOuts part)
      (htask : ∀ op, .write op ∈ acts → ∀ t k, tm.tasked k → op.chan ≠ .model (ts.ch t k))
      (hacts : runActs sys acts e = .ok e1)
      (hrun : bayPropagate p.net.call fuel e1.world = .ok w) :
      TaskRun sys p parts model ts tm { e1 with world := w } s

/-- The channels of the model are its own. -/
structure TaskSetup (p : Patch (EmuChan θ γ ξ) μ ς ρ φ) (parts : List (Part μ ς ρ))
    (model : ξ → Chan) (ts : TaskSystem θ π ξ K)
    (tm : TaskModel θ γ π (EmuChan θ γ ξ) (Cb μ (Hook ς ρ)) K) : Prop where
  sys : ∀ part ∈ parts, ∀ c ∈ p.partOuts part, ¬ c.IsSys
  init : ∀ t k, model (ts.ch t k) = tm.chanInit k
  own : ∀ t k, ∀ part ∈ parts, .model (ts.ch t k) ∉ p.partOuts part

/-- What an event does with the tasks and the bay: steps on the stack of its thread and
writes of channels of the thread, after which these show again what they did. -/
def EventOk {χ κ : Type} [DecidableEq χ]
    (shows : TaskThread θ π → Tasks θ π → (K → Chan) → Prop) (ch : K → χ) (th : TaskThread θ π)
    (s s' : Tasks θ π) (b b' : Bay χ κ) : Prop :=
  TaskSteps (some th.thread) s s' ∧
    (∃ ops : List (ChanOp χ), (∀ op ∈ ops, ∃ k, op.chan = ch k) ∧ writeAll ops b = .ok b') ∧
    (shows th s (fun k => b.chan (ch k)) → shows th s' fun k => b'.chan (ch k))

/-- What a model says of the channels of a thread: it holds at the start, its events
make it hold again, and it does not depend on other stacks. -/
structure TaskShows {χ κ : Type} [DecidableEq χ] (tm : TaskModel θ γ π χ κ K)
    (shows : TaskThread θ π → Tasks θ π → (K → Chan) → Prop) : Prop where
  plain : ∀ k, (tm.chanInit k).ignoreDup = false
  init : ∀ th, shows th tasksInit tm.chanInit
  frame : ∀ {th s s' on on' chan chan'}, TasksOk s on → TasksOk s' on' →
    on' th.thread = on th.thread → s.Kept s' →
    bodyGetRunning s' th.thread = bodyGetRunning s th.thread →
    (∀ k, tm.tasked k → (chan k).Same (chan' k)) → shows th s chan → shows th s' chan'
  event : ∀ {ch : K → χ} {th state ev s s' on} {b b' : Bay χ κ}, TasksOk s on →
    Function.Injective ch → b.DirtyOk → (∀ k, (b.chan (ch k)).ignoreDup = false) →
    tm.processEv ch th state ev s b = .ok (s', b') → EventOk shows ch th s s' b b'

variable {sys : System θ γ π ℓ} {p : Patch (EmuChan θ γ ξ) μ ς ρ φ} {parts : List (Part μ ς ρ)}
  {model : ξ → Chan} {ts : TaskSystem θ π ξ K}
  {tm : TaskModel θ γ π (EmuChan θ γ ξ) (Cb μ (Hook ς ρ)) K} {e : PatchEmu θ γ ξ μ ς ρ φ}
  {s : Tasks θ π} {shows : TaskThread θ π → Tasks θ π → (K → Chan) → Prop}

omit [DecidableEq π] [DecidableEq μ] [DecidableEq ς] [DecidableEq ρ] [DecidableEq φ] in
/-- Writes as actions of a step. -/
theorem runActs_write {ops : List (ChanOp (EmuChan θ γ ξ))}
    {b : Bay (EmuChan θ γ ξ) (Cb μ (Hook ς ρ))} (h : writeAll ops e.world.bay = .ok b) :
    runActs sys (ops.map .write) e = .ok { e with world := { e.world with bay := b } } := by
  induction ops generalizing e with
  | nil =>
      rw [writeAll] at h
      rw [← Except.ok.inj h]
      rfl
  | cons op ops ih =>
      rw [writeAll] at h
      obtain ⟨b1, hop, h⟩ := bind_ok h
      rw [List.map_cons, runActs]
      simp only [EmuAct.run, hop]
      exact ih (e := { e with world := { e.world with bay := b1 } }) h

/-- The invariant of a run: the channels of each thread show what the model says. -/
theorem TaskRun.follow (hs : TaskSetup p parts model ts tm) (hm : TaskShows tm shows)
    (h : TaskRun sys p parts model ts tm e s) :
    EmuRun sys p parts model e ∧ (∃ on, TasksOk s on) ∧
      (∀ t k, (e.world.bay.chan (.model (ts.ch t k))).ignoreDup = false) ∧
      ∀ t, shows (ts.thread t) s fun k => e.world.bay.chan (.model (ts.ch t k)) := by
  have hout : ∀ t k, ¬ p.Out parts (.model (ts.ch t k)) := fun t k =>
    not_out_of_partOuts fun part hpart => hs.own t k part hpart
  induction h with
  | @connect w hchan hclean honce hrun =>
      have hinit : ∀ t k, w.bay.chan (.model (ts.ch t k)) = tm.chanInit k := fun t k =>
        (connect_chan (emuChanInit_clean hclean) honce (hs.own t k) hrun).trans (hs.init t k)
      refine ⟨.connect hchan hclean honce hrun, ⟨_, TasksOk.init⟩, fun t k => ?_, fun t => ?_⟩
      · simp only [emuInit, hinit]
        exact hm.plain k
      · simp only [emuInit, hinit]
        exact hm.init _
  | @task e s s' b w fuel h t ev hev hrun ih =>
      obtain ⟨hemu, ⟨on, hok⟩, hplain, hshow⟩ := ih
      have hinj : Function.Injective fun k => (EmuChan.model (ts.ch t k) : EmuChan θ γ ξ) := by
        intro k k' heq
        exact (ts.inj (EmuChan.model.inj heq)).2
      have hready := (hemu.ok hs.sys).ready
      obtain ⟨hsteps, ⟨ops, hops, hwrite⟩, hnew⟩ :=
        hm.event hok hinj hready.dirtyOk (hplain t) hev
      have hsource : ∀ op, EmuAct.write op ∈ ops.map EmuAct.write →
          (∃ x, op.chan = .model x) ∧ ∀ part ∈ parts, op.chan ∉ p.partOuts part := by
        intro op hop
        obtain ⟨op', hop', heq⟩ := List.mem_map.mp hop
        obtain rfl := EmuAct.write.inj heq
        obtain ⟨k, hk⟩ := hops op' hop'
        exact ⟨⟨_, hk⟩, fun part hpart => hk ▸ hs.own t k part hpart⟩
      have hacts : runActs sys (ops.map EmuAct.write) e = .ok _ := runActs_write hwrite
      obtain ⟨on', hok', hon⟩ := hsteps.ok hok
      have hsame : ∀ t' k, (b.chan (.model (ts.ch t' k))).Same
          (w.bay.chan (.model (ts.ch t' k))) := fun t' k =>
        (hready.writeAll hwrite).propagate_same hrun (hout t' k)
      have hwritten := writeAll_ok (fun c => ∃ k, c = .model (ts.ch t k)) hready.dirtyOk hops hwrite
      have hstep := EmuRun.step hemu hsource hacts hrun
      refine ⟨hstep, ⟨on', hok'⟩, fun t' k => ?_, fun t' => ?_⟩
      · exact (hsame t' k).ignoreDup.trans ((hwritten.like _).ignoreDup.trans (hplain t' k))
      · by_cases ht : t' = t
        · subst ht
          exact hm.frame hok' hok' rfl (.refl s') rfl (fun k _ => hsame t' k) (hnew (hshow t'))
        · have hne : some t ≠ some t' := fun heq => ht (Option.some.inj heq).symm
          refine hm.frame hok hok' (hon t' hne) hsteps.kept (hsteps.running hok hne)
            (fun k _ => ?_) (hshow t')
          have hapart := hwritten.apart (.model (ts.ch t' k)) (by
            rintro ⟨k', heq⟩
            exact ht (ts.inj (EmuChan.model.inj heq)).1)
          rw [← hapart]
          exact hsame t' k
  | @other e e1 s acts w fuel h hsource htask hacts hrun ih =>
      obtain ⟨hemu, ⟨on, hok⟩, hplain, hshow⟩ := ih
      have hemuok := hemu.ok hs.sys
      obtain ⟨ops, hops, hwrite, hmod⟩ := hemuok.writes (fun op hop => (hsource op hop).1) hacts
      have hready1 := (hemuok.acts (fun op hop => (hsource op hop).1) hacts).ready
      have hwritten := writeAll_ok (fun c => ∀ t k, tm.tasked k → c ≠ .model (ts.ch t k))
        hemuok.ready.dirtyOk (fun op hop t k hk heq => by
          rcases hops op hop with hsys | hact
          · rw [heq] at hsys
            exact hsys
          · exact htask op hact t k hk heq) hwrite
      have hsame : ∀ t k, (e1.world.bay.chan (.model (ts.ch t k))).Same
          (w.bay.chan (.model (ts.ch t k))) := fun t k => hready1.propagate_same hrun (hout t k)
      refine ⟨.step hemu hsource hacts hrun, ⟨on, hok⟩, fun t k => ?_, fun t => ?_⟩
      · exact (hsame t k).ignoreDup.trans ((hwritten.like _).ignoreDup.trans (hplain t k))
      · refine hm.frame hok hok rfl (.refl s) rfl (fun k hk => ?_) (hshow t)
        rw [← hwritten.apart (.model (ts.ch t k)) fun hnot => hnot t k hk rfl]
        exact hsame t k

end

/-! ## What the events do with the tasks -/

section

variable {θ π χ κ : Type} [DecidableEq θ] [DecidableEq π] {s s' : Tasks θ π} {on : θ → List Nat}
  {st : θ}

/-- A call that did not fail. -/
theorem runTask_ok {call : TaskM θ π Unit} {post : Tasks θ π → Prop}
    (h : runTask call s = .ok s') (hcall : Ensures call s (Outcome s post)) : post s' := by
  unfold runTask at h
  unfold Ensures at hcall
  cases hrun : call.run.run s with
  | mk r s1 =>
      rw [hrun] at h hcall
      cases r with
      | ok _ =>
          rw [← Except.ok.inj h]
          exact hcall
      | error e => cases h

/-- The calls of `update_task_state` are steps on the stack, and once the top pauses
nothing runs. -/
theorem changeTaskState_ensures (h : TasksOk s on) {v : Char} {task : Option Nat}
    {bodyId : UInt32} :
    Ensures (changeTaskState st v task bodyId) s (Outcome s fun s' =>
      TaskSteps (some st) s s' ∧ (v = 'p' → bodyGetRunning s' st = none)) := by
  unfold changeTaskState
  split
  · apply (taskExecute_ensures h).mono
    intro r s' hpost
    cases r with
    | error e => exact hpost
    | ok _ =>
        obtain ⟨s1, b, hsteps, -, ⟨hb, -, -⟩, hcreated, hnest, rfl⟩ := hpost
        exact ⟨hsteps.one (.push st b hb hcreated hnest), by simp⟩
  · apply (taskEnd_ensures h).mono
    intro r s' hpost
    cases r with
    | error e => exact hpost
    | ok _ =>
        obtain ⟨b, ⟨hb, -, -⟩, hstate, htop, links, top, hdel, rfl⟩ := hpost
        exact ⟨TaskSteps.refl.one (.pop st b hb hstate htop links top hdel), by simp⟩
  · apply (taskPause_ensures h).mono
    intro r s' hpost
    cases r with
    | error e => exact hpost
    | ok _ =>
        obtain ⟨b, ⟨hb, -, -⟩, hflag, hstate, htop, rfl⟩ := hpost
        refine ⟨TaskSteps.refl.one (.pause st b hb hflag hstate htop), fun _ => ?_⟩
        simp [bodyGetRunning, Tasks.setBody, htop]
  · apply (taskResume_ensures h).mono
    intro r s' hpost
    cases r with
    | error e => exact hpost
    | ok _ =>
        obtain ⟨b, ⟨hb, -, -⟩, hstate, htop, rfl⟩ := hpost
        exact ⟨TaskSteps.refl.one (.resume st b hb hstate htop), by simp⟩
  · exact outcome_fault s _ _

theorem preType_ensures (th : TaskThread θ π) (ev : TaskEvent) :
    Ensures (preType th ev) s (Outcome s fun s' => TaskSteps none s s') := by
  simp only [preType, ensures_bind, ensures_ite, ensures_throw, next_error, outcome_fault,
    implies_true, true_and]
  intro _ _
  exact taskTypeCreate_ensures _ _ _ (fun _ => TaskSteps.refl) fun types =>
    TaskSteps.refl.one (.addType _ types)

theorem taskCreate_steps (info : π) (typeId taskId : UInt32) (flags : TaskFlags) :
    Ensures (taskCreate info typeId taskId flags : TaskM θ π Unit) s
      (Outcome s fun s' => TaskSteps none s s') := by
  apply (taskCreate_ensures info typeId taskId flags).mono
  intro r s' hpost
  cases r with
  | error e => exact hpost
  | ok _ =>
      obtain ⟨type, -, rfl⟩ := hpost
      exact TaskSteps.refl.one (.addTask info taskId type flags)

/-! ## What the events do with the channels -/

variable [DecidableEq χ]

theorem updateTaskSsChannel_ok {ss : χ} {stTaskBody : Int} {v : Char} {b b' : Bay χ κ}
    (h : updateTaskSsChannel ss stTaskBody v b = .ok b') :
    ∃ ops : List (ChanOp χ), (∀ op ∈ ops, op.chan = ss) ∧ writeAll ops b = .ok b' := by
  unfold updateTaskSsChannel at h
  split at h
  · exact ⟨_, by simp [ChanOp.chan], h⟩
  · exact ⟨_, by simp [ChanOp.chan], h⟩
  · exact ⟨[], by simp, h⟩

theorem expandTransitionValue_ok {v tr : Char} {wasRunning runsNow : Bool}
    (h : expandTransitionValue v wasRunning runsNow = .ok tr) :
    (tr = 'e' → runsNow = false) ∧ (tr = 'p' → v = 'p') := by
  unfold expandTransitionValue at h
  split at h
  · cases h
  · split at h
    · rw [← Except.ok.inj h]
      simp
    · split at h
      · rw [← Except.ok.inj h]
        simp
      · rename_i hrun
        obtain rfl := Except.ok.inj h
        refine ⟨fun hv => ?_, id⟩
        simpa [hv] using hrun

theorem updateTaskChannels_ok {α : Type} {running stopped switch : Except EmuFault α} {tr : Char}
    {a : α} (h : updateTaskChannels running stopped switch tr = .ok a) :
    running = .ok a ∨ ((tr = 'e' ∨ tr = 'p') ∧ stopped = .ok a) ∨ switch = .ok a := by
  unfold updateTaskChannels at h
  split at h
  · exact Or.inl h
  · exact Or.inl h
  · exact Or.inr (Or.inl ⟨Or.inl rfl, h⟩)
  · exact Or.inr (Or.inl ⟨Or.inr rfl, h⟩)
  · exact Or.inr (Or.inr h)
  · exact Or.inr (Or.inr h)
  · cases h

/-- After an update the channels are set for the body that runs, or cleared. -/
theorem updateTaskWith_ok {th : TaskThread θ π} {ev : TaskEvent} {state : TaskM θ π Unit} {ss : χ}
    {stTaskBody : Int}
    {running : Option Nat → Tasks θ π → Bay χ κ → Except EmuFault (Bay χ κ)}
    {stopped : Bay χ κ → Except EmuFault (Bay χ κ)}
    {switch : Option Nat → Option Nat → Tasks θ π → Bay χ κ → Except EmuFault (Bay χ κ)}
    (set : Nat → Tasks θ π → Bay χ κ → Except EmuFault (Bay χ κ)) {b b' : Bay χ κ}
    (hrunning : ∀ {next b b'}, running next s' b = .ok b' →
      ∃ body, next = some body ∧ set body s' b = .ok b')
    (hswitch : ∀ {prev next b b'}, switch prev next s' b = .ok b' →
      ∃ body, next = some body ∧ set body s' b = .ok b')
    (hstate : Ensures state s (Outcome s fun s' => TaskSteps (some th.thread) s s' ∧
      (ev.v = 'p' → bodyGetRunning s' th.thread = none)))
    (h : updateTaskWith th ev state ss stTaskBody running stopped switch s b = .ok (s', b')) :
    TaskSteps (some th.thread) s s' ∧
      ∃ (b1 : Bay χ κ) (ops : List (ChanOp χ)), (∀ op ∈ ops, op.chan = ss) ∧
        writeAll ops b = .ok b1 ∧
        ((∃ body, bodyGetRunning s' th.thread = some body ∧ set body s' b1 = .ok b') ∨
          bodyGetRunning s' th.thread = none ∧ stopped b1 = .ok b') := by
  obtain ⟨s1, hs1, h⟩ := bind_ok h
  obtain ⟨b1, hb1, h⟩ := bind_ok h
  obtain ⟨tr, htr, h⟩ := bind_ok h
  obtain ⟨b2, hb2, h⟩ := bind_ok h
  obtain ⟨-, -, h⟩ := bind_ok h
  obtain ⟨rfl, rfl⟩ : s1 = s' ∧ b2 = b' := by simpa using Except.ok.inj h
  obtain ⟨hsteps, hpause⟩ := runTask_ok hs1 hstate
  obtain ⟨ops, hops, hwrite⟩ := updateTaskSsChannel_ok hb1
  refine ⟨hsteps, b1, ops, hops, hwrite, ?_⟩
  rcases updateTaskChannels_ok hb2 with hrun | ⟨htr', hstop⟩ | hsw
  · exact Or.inl (hrunning hrun)
  · refine Or.inr ⟨?_, hstop⟩
    rcases htr' with rfl | rfl
    · simpa [taskGetRunning] using (expandTransitionValue_ok htr).1 rfl
    · exact hpause ((expandTransitionValue_ok htr).2 rfl)
  · exact Or.inl (hswitch hsw)

end

end Ovni
