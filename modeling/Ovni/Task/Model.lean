import Ovni.Bay.Model
import Ovni.Lib.Ensures
import Ovni.Lib.LinkedList
import Ovni.Text

/-!
# Tasks and their bodies

`emu/task.c` and `emu/body.c`.  A task has bodies, which run on the stacks of the
threads: a body that starts goes on top of a stack, and it is the top that pauses,
resumes and ends.  A call that fails may have created a body or made a dead one ready
to run again.

Tasks and bodies are named by their addresses, counted as they are allocated.  Stacks
and processes are named by the values of two types.  The hash tables of a task and of a
process are lists of what was added to them.
-/

namespace Ovni

open Ovni.Lib

/-! ## The data -/

/-- `enum body_flags`. -/
structure BodyFlags where
  pause : Bool
  resurrect : Bool
  relaxNesting : Bool
  deriving DecidableEq

/-- `enum body_state`. -/
inductive BodyState where
  | created
  | running
  | paused
  | dead
  deriving DecidableEq

/-- `struct body`, but for its links in the stack. -/
structure Body (σ : Type) where
  id : UInt32
  flags : BodyFlags
  state : BodyState
  stack : Option σ
  iteration : Nat
  task : Nat

/-- `enum task_flags`. -/
structure TaskFlags where
  parallel : Bool
  resurrect : Bool
  pause : Bool
  relaxNesting : Bool
  deriving DecidableEq

/-- `struct task_type`, with the bytes of its label. -/
structure TaskType where
  id : UInt32
  gid : UInt32
  label : List UInt8
  deriving DecidableEq

/-- `struct task`; its `body_info` is the list of its bodies. -/
structure Task where
  id : UInt32
  type : TaskType
  nbodies : Nat
  bodies : List Nat
  flags : TaskFlags

/-- `struct task_info`. -/
structure TaskInfo where
  types : List TaskType
  tasks : List Nat

/-- The tasks and bodies in memory, the links of the bodies, the top of each stack and
the task information of each process. -/
structure Tasks (σ ι : Type) where
  body : Nat → Body σ
  nbody : Nat
  links : Links Nat
  top : σ → Option Nat
  task : Nat → Task
  ntask : Nat
  info : ι → TaskInfo

/-- Calls on the tasks; what a call did before it failed stays. -/
abbrev TaskM (σ ι α : Type) := Prog EmuFault (Tasks σ ι) α

section

variable {σ ι : Type}

/-- The tasks before the first call. -/
def tasksInit : Tasks σ ι where
  body _ := { id := 0, flags := ⟨false, false, false⟩, state := .created, stack := none,
              iteration := 0, task := 0 }
  nbody := 0
  links := ⟨fun _ => none, fun _ => none⟩
  top _ := none
  task _ := { id := 0, type := ⟨0, 0, []⟩, nbodies := 0, bodies := [],
              flags := ⟨false, false, false, false⟩ }
  ntask := 0
  info _ := ⟨[], []⟩

/-- The tasks with another state of a body. -/
def Tasks.setBody (s : Tasks σ ι) (b : Nat) (body : Body σ) : Tasks σ ι :=
  { s with body := Function.update s.body b body }

/-- The tasks with another state of a task. -/
def Tasks.setTask (s : Tasks σ ι) (t : Nat) (task : Task) : Tasks σ ι :=
  { s with task := Function.update s.task t task }

/-! ## Bodies -/

/-- `body_find`, in the bodies of a task. -/
def bodyFind (s : Tasks σ ι) (t : Nat) (bodyId : UInt32) : Option Nat :=
  (s.task t).bodies.find? fun b => (s.body b).id = bodyId

/-- `body_get_running`. -/
def bodyGetRunning (s : Tasks σ ι) (stack : σ) : Option Nat :=
  (s.top stack).filter fun b => (s.body b).state = .running

/-- `body_get_state_name`. -/
def bodyGetStateName : BodyState → String
  | .created => "Created"
  | .running => "Running"
  | .paused => "Paused"
  | .dead => "Dead"

/-- The tasks with a new body of a task, at the next address. -/
def Tasks.addBody (s : Tasks σ ι) (t : Nat) (bodyId : UInt32) (flags : BodyFlags) : Tasks σ ι :=
  { s with
    body := Function.update s.body s.nbody
      { id := bodyId, flags, state := .created, stack := none, iteration := 0, task := t }
    nbody := s.nbody + 1
    links := (s.links.setNext s.nbody none).setPrev s.nbody none
    task := Function.update s.task t
      { s.task t with bodies := (s.task t).bodies ++ [s.nbody] } }

/-- `body_create`, for the bodies of a task. -/
def bodyCreate (t : Nat) (bodyId : UInt32) (flags : BodyFlags) : TaskM σ ι Nat := do
  if bodyId = 0 then throw (.fail "body id must be non-zero")
  if (bodyFind (← get) t bodyId).isSome then throw (.fail "body with that id already exists")
  let b := (← get).nbody
  modify fun s => s.addBody t bodyId flags
  return b

/-- The body that may run again is as if it was just created. -/
def Tasks.revive (s : Tasks σ ι) (b : Nat) : Tasks σ ι :=
  s.setBody b { s.body b with state := .created, iteration := (s.body b).iteration + 1 }

variable [DecidableEq σ]

/-- The body runs on top of the stack, by `DL_PREPEND`. -/
def Tasks.push (s : Tasks σ ι) (stack : σ) (b : Nat) : Tasks σ ι :=
  { s with
    body := Function.update s.body b { s.body b with stack := some stack, state := .running }
    links := (dlPrepend s.links (s.top stack) b).1
    top := Function.update s.top stack (dlPrepend s.links (s.top stack) b).2 }

/-- The rest of `body_execute`, for a body that is not dead. -/
def bodyStart (stack : σ) (b : Nat) : TaskM σ ι Unit := do
  if ((← get).body b).state = .paused then
    throw (.fail "refusing to run body in Paused state, needs to resume intead")
  if ((← get).body b).state ≠ .created then throw (.fail "body state must be Created")
  if ((← get).body b).stack.isSome then throw (.fail "body stack already set")
  let s ← get
  if (bodyGetRunning s stack).any fun top => (s.body top).flags.relaxNesting = false then
    throw (.fail "cannot nest body over one which is already running")
  modify fun s => s.push stack b

/-- `body_execute`. -/
def bodyExecute (stack : σ) (b : Nat) : TaskM σ ι Unit := do
  -- Allow bodies to be executed multiple times
  if ((← get).body b).state = .dead then
    if ((← get).body b).flags.resurrect = false then
      throw (.fail "body is not allowed to run again")
    modify fun s => s.revive b
  bodyStart stack b

/-- The tasks once the body on top of a stack has ended, with the links and the top that
`DL_DELETE` leaves. -/
def Tasks.pop (s : Tasks σ ι) (stack : σ) (b : Nat) (links : Links Nat) (top : Option Nat) :
    Tasks σ ι :=
  { s with
    body := Function.update s.body b { s.body b with state := .dead, stack := none }
    links
    top := Function.update s.top stack top }

/-- The checks of `body_pause`, `body_resume` and `body_end` on a body that must be in
some state on top of the stack. -/
def checkTop (stack : σ) (b : Nat) (state : BodyState) : TaskM σ ι Unit := do
  if ((← get).body b).state ≠ state then
    throw (.fail ("body state must be " ++ bodyGetStateName state))
  if ((← get).body b).stack = none then throw (.fail "body stack not set")
  if ((← get).body b).stack ≠ some stack then throw (.fail "body has another stack")
  if (← get).top stack ≠ some b then throw (.fail "body is not on top of the stack")

/-- `body_pause`. -/
def bodyPause (stack : σ) (b : Nat) : TaskM σ ι Unit := do
  if ((← get).body b).flags.pause = false then throw (.fail "body is not allowed to pause")
  checkTop stack b .running
  modify fun s => s.setBody b { s.body b with state := .paused }

/-- `body_resume`. -/
def bodyResume (stack : σ) (b : Nat) : TaskM σ ι Unit := do
  checkTop stack b .paused
  modify fun s => s.setBody b { s.body b with state := .running }

/-- `body_end`. -/
def bodyEnd (stack : σ) (b : Nat) : TaskM σ ι Unit := do
  checkTop stack b .running
  match dlDelete (← get).links ((← get).top stack) b with
  | none => throw .crash
  | some (links, top) => modify fun s => s.pop stack b links top

/-! ## Tasks -/

/-- `task_find`. -/
def taskFind (s : Tasks σ ι) (info : ι) (taskId : UInt32) : Option Nat :=
  (s.info info).tasks.find? fun t => (s.task t).id = taskId

/-- `task_type_find`. -/
def taskTypeFind (s : Tasks σ ι) (info : ι) (typeId : UInt32) : Option TaskType :=
  (s.info info).types.find? fun type => type.id = typeId

/-- The tasks with a new task of a process, at the next address. -/
def Tasks.addTask [DecidableEq ι] (s : Tasks σ ι) (info : ι) (taskId : UInt32) (type : TaskType)
    (flags : TaskFlags) : Tasks σ ι :=
  { s with
    task := Function.update s.task s.ntask { id := taskId, type, nbodies := 0, bodies := [], flags }
    ntask := s.ntask + 1
    info := Function.update s.info info
      { s.info info with tasks := (s.info info).tasks ++ [s.ntask] } }

/-- `task_create`. -/
def taskCreate [DecidableEq ι] (info : ι) (typeId taskId : UInt32) (flags : TaskFlags) :
    TaskM σ ι Unit := do
  if (taskFind (← get) info taskId).isSome then throw (.fail "task_id already exists")
  match taskTypeFind (← get) info typeId with
  | none => throw (.fail "unknown type id")
  | some type => modify fun s => s.addTask info taskId type flags

/-- The flags that `create_body` takes from the task. -/
def TaskFlags.body (flags : TaskFlags) : BodyFlags :=
  { pause := flags.pause, resurrect := flags.resurrect, relaxNesting := flags.relaxNesting }

/-- `create_body`. -/
def createBody (t : Nat) (bodyId : UInt32) : TaskM σ ι Nat := do
  let task := (← get).task t
  if task.flags.parallel = false ∧ 0 < task.nbodies then
    throw (.fail "cannot create more than one body for non-parallel task")
  let b ← bodyCreate t bodyId task.flags.body
  modify fun s => s.setTask t { s.task t with nbodies := (s.task t).nbodies + 1 }
  return b

/-- The check that a task is given; a wild pointer ends the emulator. -/
def checkTask (task : Option Nat) : TaskM σ ι Nat := do
  match task with
  | none => throw (.fail "task is NULL")
  | some t => if t < (← get).ntask then return t else throw .crash

/-- `task_execute`. -/
def taskExecute (stack : σ) (task : Option Nat) (bodyId : UInt32) : TaskM σ ι Unit := do
  let t ← checkTask task
  match bodyFind (← get) t bodyId with
  | some b => bodyExecute stack b
  | none =>
      -- Create new body if it doesn't exist
      let b ← createBody t bodyId
      bodyExecute stack b

/-- What `task_pause`, `task_resume` and `task_end` do with the body of a task. -/
def taskBody (op : σ → Nat → TaskM σ ι Unit) (stack : σ) (task : Option Nat) (bodyId : UInt32) :
    TaskM σ ι Unit := do
  let t ← checkTask task
  match bodyFind (← get) t bodyId with
  | none => throw (.fail "cannot find body in task")
  | some b => op stack b

/-- `task_pause`. -/
def taskPause (stack : σ) : Option Nat → UInt32 → TaskM σ ι Unit := taskBody bodyPause stack

/-- `task_resume`. -/
def taskResume (stack : σ) : Option Nat → UInt32 → TaskM σ ι Unit := taskBody bodyResume stack

/-- `task_end`. -/
def taskEnd (stack : σ) : Option Nat → UInt32 → TaskM σ ι Unit := taskBody bodyEnd stack

/-- `task_get_running`. -/
def taskGetRunning (s : Tasks σ ι) (stack : σ) : Option Nat := bodyGetRunning s stack

end

/-! ## Task types -/

/-- `HASH_JEN_MIX`. -/
def hashJenMix (a b c : UInt32) : UInt32 × UInt32 × UInt32 :=
  let a := (a - b - c) ^^^ (c >>> 13)
  let b := (b - c - a) ^^^ (a <<< 8)
  let c := (c - a - b) ^^^ (b >>> 13)
  let a := (a - b - c) ^^^ (c >>> 12)
  let b := (b - c - a) ^^^ (a <<< 16)
  let c := (c - a - b) ^^^ (b >>> 5)
  let a := (a - b - c) ^^^ (c >>> 3)
  let b := (b - c - a) ^^^ (a <<< 10)
  let c := (c - a - b) ^^^ (b >>> 15)
  (a, b, c)

/-- The word of up to four bytes, the first one lowest. -/
def hashWord (bytes : List UInt8) : UInt32 :=
  bytes.foldr (fun byte acc => byte.toUInt32 + (acc <<< 8)) 0

/-- The loop of `HASH_JEN` over the key, with the rounds that are left. -/
def hashJenLoop : Nat → List UInt8 → UInt32 → UInt32 → UInt32 → UInt32 → UInt32
  | 0, _, _, _, _, hashv => hashv
  | fuel + 1, key, len, i, j, hashv =>
      if 12 ≤ key.length then
        let (i, j, hashv) := hashJenMix (i + hashWord (key.take 4))
          (j + hashWord ((key.drop 4).take 4)) (hashv + hashWord ((key.drop 8).take 4))
        hashJenLoop fuel (key.drop 12) len i j hashv
      else
        -- The lowest byte of the last word is left for the length
        (hashJenMix (i + hashWord (key.take 4)) (j + hashWord ((key.drop 4).take 4))
          (hashv + len + (hashWord (key.drop 8) <<< 8))).2.2

/-- `HASH_JEN`. -/
def hashJen (key : List UInt8) : UInt32 :=
  hashJenLoop (key.length + 1) key (UInt32.ofNat key.length) 0x9e3779b9 0x9e3779b9 0xfeedbeef

/-- `PCF_RESERVED`. -/
def pcfReserved : UInt32 := 1000

/-- `task_get_type_gid`. -/
def taskGetTypeGid (label : List UInt8) : UInt32 :=
  -- Avoid bad colors for "Unlabeled0" and "main", and use non-negative values
  let gid := (hashJen label + 666) &&& 0x7FFFFFFF
  -- Avoid reserved values
  if gid < pcfReserved then gid + pcfReserved else gid

/-- The label of a type, which is given a name if empty. -/
def taskTypeLabel (typeId : UInt32) (label : List UInt8) : List UInt8 :=
  if label = [] then ("(unlabeled task type " ++ toString typeId.toNat ++ ")").toUTF8.toList
  else label

/-- `task_type_create`. -/
def taskTypeCreate {σ ι : Type} [DecidableEq ι] (info : ι) (typeId : UInt32)
    (label : List UInt8) : TaskM σ ι Unit := do
  if (taskTypeFind (← get) info typeId).isSome then
    throw (.fail "a task type with that id already exists")
  if typeId = 0 then throw (.fail "invalid task type id")
  let label := taskTypeLabel typeId label
  if maxPcfLabel ≤ label.length then throw (.fail "task type label too long")
  let type := { id := typeId, gid := taskGetTypeGid label, label }
  modify fun s => { s with
    info := Function.update s.info info
      { s.info info with types := (s.info info).types ++ [type] } }

end Ovni
