import Ovni.Mux.Network
import Ovni.System.Model
import Ovni.Task.Model

/-!
# Task events

The task and type events of nOS-V, Nanos6 and OpenMP: `emu/nosv/event.c`,
`emu/nanos6/event.c` and `emu/openmp/event.c`.  An event changes the tasks of the
process and the stack of the thread, and then the channels of the thread that show the
task.  In nOS-V and Nanos6 they are set by a transition that is found from the bodies
that run before and after; in OpenMP they are stacks.
-/

namespace Ovni

open Ovni.Lib

/-! ## What the models share -/

/-- A task event with the words of its payload, or a type event with the type and the
label of its jumbo payload. -/
structure TaskEvent where
  c : Char
  v : Char
  payloadSize : Nat
  u32 : Nat → UInt32
  isJumbo : Bool
  typeId : UInt32
  label : List UInt8

/-- The thread of an event, with its process. -/
structure TaskThread (θ π : Type) where
  thread : θ
  proc : π
  appid : Int
  rank : Int

section

variable {θ π χ κ : Type} [DecidableEq θ] [DecidableEq π] [DecidableEq χ]

/-- The tasks after a call, which must not fail. -/
def runTask (call : TaskM θ π Unit) (s : Tasks θ π) : Except EmuFault (Tasks θ π) :=
  match call.run.run s with
  | (.ok _, s) => .ok s
  | (.error e, _) => .error e

/-- The calls that `update_task_state` makes. -/
def changeTaskState (stack : θ) (v : Char) (task : Option Nat) (bodyId : UInt32) :
    TaskM θ π Unit :=
  match v with
  | 'x' => taskExecute stack task bodyId
  | 'e' => taskEnd stack task bodyId
  | 'p' => taskPause stack task bodyId
  | 'r' => taskResume stack task bodyId
  | _ => throw (.fail "unexpected task event")

/-- `expand_transition_value`. -/
def expandTransitionValue (v : Char) (wasRunning runsNow : Bool) : Except EmuFault Char :=
  -- Ensure we don't clobber the value
  if v = 'X' ∨ v = 'E' then .error (.fail "unexpected event value")
  -- Modify the event value to detect nested transitions
  else if v = 'x' ∧ wasRunning then .ok 'X'
  else if v = 'e' ∧ runsNow then .ok 'E'
  else .ok v

/-- `update_task_channels`, with what it does for each kind of transition. -/
def updateTaskChannels {α : Type} (running stopped switch : Except EmuFault α) (tr : Char) :
    Except EmuFault α :=
  match tr with
  | 'x' => running
  | 'r' => running
  | 'e' => stopped
  | 'p' => stopped
  -- Additional nested transitions
  | 'X' => switch
  | 'E' => switch
  | _ => .error (.fail "unexpected transition value")

/-- `update_task_ss_channel`. -/
def updateTaskSsChannel (ss : χ) (stTaskBody : Int) (v : Char) (b : Bay χ κ) :
    Except EmuFault (Bay χ κ) :=
  match v with
  | 'x' => writeAll [.push ss (.int64 stTaskBody)] b
  | 'e' => writeAll [.pop ss (.int64 stTaskBody)] b
  | _ => .ok b

/-- `enforce_task_rules`. -/
def enforceTaskRules (ss : χ) (stTaskBody : Int) (tr : Char) (next : Option Nat) (s : Tasks θ π)
    (b : Bay χ κ) : Except EmuFault Unit :=
  if tr ≠ 'x' ∧ tr ≠ 'X' then .ok ()
  else match next with
    | none => .error .crash
    | some body => do
        if (s.body body).state ≠ .running then throw (.fail "body not in running state on begin")
        match b.read ss with
        | .int64 i => if i ≠ stTaskBody then throw (.fail "wrong subsystem state on task begin")
        | _ => return ()

/-- `update_task` of nOS-V and Nanos6: the state of the task, the channel `ss` of the
subsystem, and the channels of the task. -/
def updateTaskWith (th : TaskThread θ π) (ev : TaskEvent) (state : TaskM θ π Unit) (ss : χ)
    (stTaskBody : Int)
    (running : Option Nat → Tasks θ π → Bay χ κ → Except EmuFault (Bay χ κ))
    (stopped : Bay χ κ → Except EmuFault (Bay χ κ))
    (switch : Option Nat → Option Nat → Tasks θ π → Bay χ κ → Except EmuFault (Bay χ κ))
    (s : Tasks θ π) (b : Bay χ κ) : Except EmuFault (Tasks θ π × Bay χ κ) := do
  let prev := taskGetRunning s th.thread
  -- Update the emulator state, but don't modify the channels
  let s ← runTask state s
  let next := taskGetRunning s th.thread
  let b ← updateTaskSsChannel ss stTaskBody ev.v b
  let tr ← expandTransitionValue ev.v prev.isSome next.isSome
  let b ← updateTaskChannels (running next s b) (stopped b) (switch prev next s b) tr
  enforceTaskRules ss stTaskBody tr next s b
  return (s, b)

/-- `pre_type`. -/
def preType (th : TaskThread θ π) (ev : TaskEvent) : TaskM θ π Unit := do
  if ev.v ≠ 'c' then throw (.fail "unexpected event value")
  if ev.isJumbo = false then throw (.fail "expecting a jumbo event")
  taskTypeCreate th.proc ev.typeId ev.label

/-- A value of a channel. -/
def idValue (id : UInt32) : Value := .int64 id.toNat

end

/-! ## nOS-V -/

/-- `enum nosv_chan`. -/
inductive NosvChan where
  | bodyid
  | taskid
  | type
  | appid
  | subsystem
  | rank
  | idle
  deriving DecidableEq

/-- The channels of a thread, by `chan_stack` and `chan_dup`. -/
def nosvChanInit : NosvChan → Chan
  | .bodyid => { chanInit .single with allowDup := true }
  | .taskid => chanInit .single
  | .type => { chanInit .single with allowDup := true }
  | .appid => { chanInit .single with allowDup := true }
  | .subsystem => { chanInit .stack with allowDup := true }
  | .rank => { chanInit .single with allowDup := true }
  | .idle => chanInit .single

namespace Nosv

variable {θ γ π χ κ : Type} [DecidableEq θ] [DecidableEq π] [DecidableEq χ]

/-- `ST_TASK_BODY`. -/
def stTaskBody : Int := 11

/-- `chan_body_stopped`. -/
def chanBodyStopped (ch : NosvChan → χ) (th : TaskThread θ π) (b : Bay χ κ) :
    Except EmuFault (Bay χ κ) :=
  writeAll ([.set (ch .bodyid) .null, .set (ch .taskid) .null, .set (ch .type) .null,
    .set (ch .appid) .null] ++ if 0 ≤ th.rank then [.set (ch .rank) .null] else []) b

/-- The writes of `chan_body_running` and `chan_body_switch`. -/
def chanBodySet (ch : NosvChan → χ) (th : TaskThread θ π) (s : Tasks θ π) (body : Nat)
    (b : Bay χ κ) : Except EmuFault (Bay χ κ) :=
  let task := s.task (s.body body).task
  writeAll ([.set (ch .bodyid) (idValue (s.body body).id), .set (ch .taskid) (idValue task.id),
    .set (ch .type) (idValue task.type.gid), .set (ch .appid) (.int64 th.appid)] ++
    if 0 ≤ th.rank then [.set (ch .rank) (.int64 (th.rank + 1))] else []) b

/-- `chan_body_running`. -/
def chanBodyRunning (ch : NosvChan → χ) (th : TaskThread θ π) (body : Option Nat)
    (s : Tasks θ π) (b : Bay χ κ) : Except EmuFault (Bay χ κ) :=
  match body with
  | none => .error .crash
  | some body => do
      let task := s.task (s.body body).task
      if task.id = 0 then throw (.fail "task id cannot be 0")
      if task.type.gid = 0 then throw (.fail "task type gid cannot be 0")
      if th.appid ≤ 0 then throw (.fail "app id must be positive")
      chanBodySet ch th s body b

/-- `chan_body_switch`. -/
def chanBodySwitch (ch : NosvChan → χ) (th : TaskThread θ π) (bprev bnext : Option Nat)
    (s : Tasks θ π) (b : Bay χ κ) : Except EmuFault (Bay χ κ) :=
  match bprev, bnext with
  | some prev, some next => do
      if prev = next then throw (.fail "cannot switch to the same body")
      let task := s.task (s.body next).task
      if task.id = 0 then throw (.fail "next task id cannot be 0")
      if task.type.gid = 0 then throw (.fail "next task type id cannot be 0")
      chanBodySet ch th s next b
  | _, _ => .error (.fail "cannot switch to or from a NULL body")

/-- `update_task_state`. -/
def updateTaskState (th : TaskThread θ π) (ev : TaskEvent) : TaskM θ π Unit := do
  if ev.payloadSize < 4 then throw (.fail "missing task id in payload")
  if ev.payloadSize < 8 then throw (.fail "missing body id in payload")
  let s ← get
  match taskFind s th.proc (ev.u32 0) with
  | none => throw (.fail "cannot find task")
  | some t =>
      if (s.task t).flags.parallel then
        if ev.u32 1 = 0 then throw (.fail "the body_id must be > 0 for parallel task")
        changeTaskState th.thread ev.v (some t) (ev.u32 1)
      else
        if ev.u32 1 ≠ 0 then throw (.fail "the body_id must be 0 for non-parallel task")
        -- We use body_id = 1 internally, as they cannot be zero
        changeTaskState th.thread ev.v (some t) 1

/-- `update_task`. -/
def updateTask (ch : NosvChan → χ) (th : TaskThread θ π) (ev : TaskEvent) (s : Tasks θ π)
    (b : Bay χ κ) : Except EmuFault (Tasks θ π × Bay χ κ) :=
  updateTaskWith th ev (updateTaskState th ev) (ch .subsystem) stTaskBody
    (chanBodyRunning ch th) (chanBodyStopped ch th) (chanBodySwitch ch th) s b

/-- `create_task`. -/
def createTask (th : TaskThread θ π) (ev : TaskEvent) : TaskM θ π Unit := do
  if ev.payloadSize < 8 then throw (.fail "unexpected payload size")
  -- Parallel tasks cannot pause or resurrect
  let flags : TaskFlags :=
    if ev.v = 'C' then
      { parallel := true, resurrect := false, pause := false, relaxNesting := false }
    else { parallel := false, resurrect := true, pause := true, relaxNesting := false }
  taskCreate th.proc (ev.u32 1) (ev.u32 0) flags

/-- `pre_task`. -/
def preTask (ch : NosvChan → χ) (th : TaskThread θ π) (ev : TaskEvent) (s : Tasks θ π)
    (b : Bay χ κ) : Except EmuFault (Tasks θ π × Bay χ κ) :=
  match ev.v with
  | 'C' => do return (← runTask (createTask th ev) s, b)
  | 'c' => do return (← runTask (createTask th ev) s, b)
  | 'x' => updateTask ch th ev s b
  | 'e' => updateTask ch th ev s b
  | 'r' => updateTask ch th ev s b
  | 'p' => updateTask ch th ev s b
  | _ => .error (.fail "unexpected nOS-V task event value")

/-- `process_ev` on the categories of tasks and types. -/
def processEv (ch : NosvChan → χ) (th : TaskThread θ π) (state : Thread γ) (ev : TaskEvent)
    (s : Tasks θ π) (b : Bay χ κ) : Except EmuFault (Tasks θ π × Bay χ κ) := do
  if state.isActive = false then throw (.fail "current thread not active")
  if state.isOutOfCpu then throw (.fail "current thread out of CPU")
  match ev.c with
  | 'T' => preTask ch th ev s b
  | 'Y' => return (← runTask (preType th ev) s, b)
  | _ => throw (.fail "unknown nOS-V event category")

end Nosv

/-! ## Nanos6 -/

/-- `enum nanos6_chan`. -/
inductive Nanos6Chan where
  | taskid
  | type
  | subsystem
  | rank
  | thread
  | idle
  deriving DecidableEq

/-- The channels of a thread, by `chan_stack` and `chan_dup`. -/
def nanos6ChanInit : Nanos6Chan → Chan
  | .taskid => chanInit .single
  | .type => { chanInit .single with allowDup := true }
  | .subsystem => chanInit .stack
  | .rank => { chanInit .single with allowDup := true }
  | .thread => chanInit .stack
  | .idle => chanInit .single

namespace Nanos6

variable {θ γ π χ κ : Type} [DecidableEq θ] [DecidableEq π] [DecidableEq χ]

/-- `ST_TASK_BODY`. -/
def stTaskBody : Int := 1

/-- `chan_task_stopped`. -/
def chanTaskStopped (ch : Nanos6Chan → χ) (th : TaskThread θ π) (b : Bay χ κ) :
    Except EmuFault (Bay χ κ) :=
  writeAll ([.set (ch .taskid) .null, .set (ch .type) .null] ++
    if 0 ≤ th.rank then [.set (ch .rank) .null] else []) b

/-- The writes of `chan_task_running` and `chan_task_switch`. -/
def chanTaskSet (ch : Nanos6Chan → χ) (th : TaskThread θ π) (task : Task) (b : Bay χ κ) :
    Except EmuFault (Bay χ κ) :=
  writeAll ([.set (ch .taskid) (idValue task.id), .set (ch .type) (idValue task.type.gid)] ++
    if 0 ≤ th.rank then [.set (ch .rank) (.int64 (th.rank + 1))] else []) b

/-- `chan_task_running`. -/
def chanTaskRunning (ch : Nanos6Chan → χ) (th : TaskThread θ π) (bnext : Option Nat)
    (s : Tasks θ π) (b : Bay χ κ) : Except EmuFault (Bay χ κ) :=
  match bnext with
  | none => .error .crash
  | some body => do
      let task := s.task (s.body body).task
      if task.id = 0 then throw (.fail "task id cannot be 0")
      if task.type.gid = 0 then throw (.fail "task type gid cannot be 0")
      chanTaskSet ch th task b

/-- `chan_task_switch`, between the tasks of the two bodies. -/
def chanTaskSwitch (ch : Nanos6Chan → χ) (th : TaskThread θ π) (bprev bnext : Option Nat)
    (s : Tasks θ π) (b : Bay χ κ) : Except EmuFault (Bay χ κ) :=
  match bprev, bnext with
  | some prev, some next => do
      if (s.body prev).task = (s.body next).task then
        throw (.fail "cannot switch to the same task")
      let task := s.task (s.body next).task
      if task.id = 0 then throw (.fail "next task id cannot be 0")
      if task.type.gid = 0 then throw (.fail "next task type id cannot be 0")
      chanTaskSet ch th task b
  | _, _ => .error (.fail "cannot switch to or from a NULL task")

/-- `update_task_state`. -/
def updateTaskState (th : TaskThread θ π) (ev : TaskEvent) : TaskM θ π Unit := do
  if ev.payloadSize < 4 then throw (.fail "missing task id in payload")
  match taskFind (← get) th.proc (ev.u32 0) with
  | none => throw (.fail "cannot find task")
  | some t =>
      -- Nanos6 doesn't have parallel tasks
      changeTaskState th.thread ev.v (some t) 1

/-- `update_task`. -/
def updateTask (ch : Nanos6Chan → χ) (th : TaskThread θ π) (ev : TaskEvent) (s : Tasks θ π)
    (b : Bay χ κ) : Except EmuFault (Tasks θ π × Bay χ κ) :=
  updateTaskWith th ev (updateTaskState th ev) (ch .subsystem) stTaskBody
    (chanTaskRunning ch th) (chanTaskStopped ch th) (chanTaskSwitch ch th) s b

/-- `create_task`. -/
def createTask (th : TaskThread θ π) (ev : TaskEvent) : TaskM θ π Unit := do
  if ev.payloadSize ≠ 8 then throw (.fail "unexpected payload size")
  -- Only allow pausing the tasks, no parallel or resurrect; Nanos6 still submits inline
  -- tasks without pausing the previous task
  taskCreate th.proc (ev.u32 1) (ev.u32 0)
    { parallel := false, resurrect := false, pause := true, relaxNesting := true }

/-- `pre_task`. -/
def preTask (ch : Nanos6Chan → χ) (th : TaskThread θ π) (ev : TaskEvent) (s : Tasks θ π)
    (b : Bay χ κ) : Except EmuFault (Tasks θ π × Bay χ κ) :=
  match ev.v with
  -- The old event is ignored
  | 'C' => .ok (s, b)
  | 'c' => do return (← runTask (createTask th ev) s, b)
  | 'x' => updateTask ch th ev s b
  | 'e' => updateTask ch th ev s b
  | 'r' => updateTask ch th ev s b
  | 'p' => updateTask ch th ev s b
  | _ => .error (.fail "unexpected Nanos6 task event value")

/-- `process_ev` on the categories of tasks and types. -/
def processEv (ch : Nanos6Chan → χ) (th : TaskThread θ π) (state : Thread γ) (ev : TaskEvent)
    (s : Tasks θ π) (b : Bay χ κ) : Except EmuFault (Tasks θ π × Bay χ κ) := do
  if state.isActive = false then throw (.fail "current thread not active")
  match ev.c with
  | 'T' => preTask ch th ev s b
  | 'Y' => return (← runTask (preType th ev) s, b)
  | _ => throw (.fail "unknown Nanos6 event category")

end Nanos6

/-! ## OpenMP -/

/-- `enum openmp_chan`. -/
inductive OpenmpChan where
  | subsystem
  | label
  | taskid
  deriving DecidableEq

/-- The channels of a thread, by `chan_stack` and `chan_dup`. -/
def openmpChanInit (_ : OpenmpChan) : Chan := { chanInit .stack with allowDup := true }

namespace Openmp

variable {θ γ π χ κ : Type} [DecidableEq θ] [DecidableEq π] [DecidableEq χ]

/-- `create_task`. -/
def createTask (th : TaskThread θ π) (ev : TaskEvent) : TaskM θ π Unit := do
  if ev.payloadSize ≠ 8 then throw (.fail "unexpected payload size")
  if ev.u32 0 = 0 then throw (.fail "taskid cannot be 0")
  if ev.u32 1 = 0 then throw (.fail "typeid cannot be 0")
  -- OpenMP submits inline tasks without pausing the previous task
  taskCreate th.proc (ev.u32 1) (ev.u32 0)
    { parallel := false, resurrect := true, pause := false, relaxNesting := true }

/-- `update_task`. -/
def updateTask (ch : OpenmpChan → χ) (th : TaskThread θ π) (ev : TaskEvent) (s : Tasks θ π)
    (b : Bay χ κ) : Except EmuFault (Tasks θ π × Bay χ κ) := do
  if ev.payloadSize < 4 then throw (.fail "missing task id in payload")
  if ev.u32 0 = 0 then throw (.fail "taskid cannot be 0")
  match taskFind s th.proc (ev.u32 0) with
  | none => throw (.fail "cannot find task")
  | some t =>
      let id := idValue (s.task t).id
      let label := idValue (s.task t).type.gid
      -- OpenMP doesn't have parallel tasks
      match ev.v with
      | 'x' =>
          let s ← runTask (taskExecute th.thread (some t) 1) s
          return (s, ← writeAll [.push (ch .taskid) id, .push (ch .label) label] b)
      | 'e' =>
          let s ← runTask (taskEnd th.thread (some t) 1) s
          return (s, ← writeAll [.pop (ch .taskid) id, .pop (ch .label) label] b)
      | _ => throw (.fail "unexpected task event")

/-- `pre_task`. -/
def preTask (ch : OpenmpChan → χ) (th : TaskThread θ π) (ev : TaskEvent) (s : Tasks θ π)
    (b : Bay χ κ) : Except EmuFault (Tasks θ π × Bay χ κ) :=
  match ev.v with
  | 'c' => do return (← runTask (createTask th ev) s, b)
  | 'x' => updateTask ch th ev s b
  | 'e' => updateTask ch th ev s b
  | _ => .error (.fail "unexpected task event value")

/-- `process_ev` on the categories of tasks and types. -/
def processEv (ch : OpenmpChan → χ) (th : TaskThread θ π) (state : Thread γ) (ev : TaskEvent)
    (s : Tasks θ π) (b : Bay χ κ) : Except EmuFault (Tasks θ π × Bay χ κ) := do
  if state.isRunning = false then throw (.fail "current thread not running")
  match ev.c with
  | 'P' => preTask ch th ev s b
  | 'O' => return (← runTask (preType th ev) s, b)
  | _ => throw (.fail "unknown event category")

end Openmp

end Ovni
