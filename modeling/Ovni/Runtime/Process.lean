import Ovni.Json.Model
import Ovni.Lib.Parties
import Ovni.Runtime.Model

/-!
# The runtime of a process

The calls of `rt/ovni.c` made by the threads of a process.  The state of the process is an
atomic that `ovni_proc_init` and `ovni_proc_fini` exchange and the other calls load; the rest
of `rproc` is written by the thread that got it from `ST_UNINIT`, one field after another.
Every access to what the threads share is a step, so the calls of the threads interleave
there.

The directories of a thread are told by its id.  A file is written at the offset of its
descriptor and keeps what it had behind it, as it is not truncated when it is opened.  The
calls to the system are taken to succeed.
-/

namespace Ovni

open Ovni.Lib

/-! ## State -/

/-- The states of `rproc.st`. -/
inductive ProcState where
  | uninit
  | init
  | ready
  | gone
  deriving DecidableEq

/-- `struct ovni_rproc`. -/
structure Rproc where
  st : ProcState
  app : Int
  loom : Name
  pid : Int
  moveToFinal : Bool

/-- What `stream.json` says of a thread. -/
structure StreamInfo where
  tid : Int
  pid : Int
  loom : Name
  app : Int
  rank : Option (Int × Int)
  cpus : List (Int × Int)
  finished : Bool

/-- What is left of `ovni_proc_init` after the exchange. -/
inductive InitStage where
  | loom
  | pid
  | app
  | dir
  | store
  deriving DecidableEq

/-- What is left of `ovni_thread_init` after the state of the process was loaded. -/
inductive ThreadStage where
  | stream
  | metadata
  deriving DecidableEq

/-- The call that a thread is in. -/
inductive Pc where
  | idle
  | procInit (stage : InitStage) (app : Int) (loom : Name) (pid : Int)
  | threadInit (stage : ThreadStage) (evbuf : Mem)

/-- `struct ovni_rthread`, with the stream in `rt`. -/
structure OsThread where
  pc : Pc
  finished : Bool
  tid : Int
  rt : Rthread
  cpus : List (Int × Int)
  rank : Option (Int × Int)
  info : Option StreamInfo

/-- `rthread = {0}`. -/
def OsThread.zero : OsThread :=
  { pc := .idle, finished := false, tid := 0
    rt := { ready := false, procReady := false, evbuf := fun _ => 0, evlen := 0, file := []
            reads := 0 }
    cpus := [], rank := none, info := none }

/-- The directory of a process where the trace is flushed, and the final one. -/
inductive ProcDir where
  | flushed
  | final
  deriving DecidableEq

/-- The process with its threads `ι` and the files of the streams. -/
structure RtState (ι : Type) where
  proc : Rproc
  th : ι → OsThread
  obs : ProcDir → Int → Option (List UInt8)
  json : ProcDir → Int → Option StreamInfo

/-- The clock of each thread, and whether `OVNI_TMPDIR` is set. -/
structure RtEnv (ι : Type) where
  clk : ι → Nat → UInt64
  tmpdir : Bool

/-- A process at the start, with the files that are there. -/
def rtInit {ι : Type} (obs : ProcDir → Int → Option (List UInt8))
    (json : ProcDir → Int → Option StreamInfo) : RtState ι :=
  { proc := { st := .uninit, app := 0, loom := [], pid := 0, moveToFinal := false }
    th := fun _ => .zero, obs, json }

/-! ## Files -/

/-- `write` at an offset of a file. -/
def writeAt (old : List UInt8) (off : Nat) (bytes : List UInt8) : List UInt8 :=
  old.takeD off 0 ++ bytes ++ old.drop (off + bytes.length)

/-- A file for a thread in a directory. -/
def putFile {α : Type} (files : ProcDir → Int → Option α) (dir : ProcDir) (tid : Int)
    (file : Option α) : ProcDir → Int → Option α :=
  Function.update files dir (Function.update (files dir) tid file)

/-- `move_thdir_to_final`, on one of the files. -/
def moveFile {α : Type} (files : ProcDir → Int → Option α) (tid : Int) :
    ProcDir → Int → Option α :=
  putFile (putFile files .final tid (files .flushed tid)) .flushed tid none

/-! ## Calls -/

section

variable {ι : Type} [DecidableEq ι]

def RtState.setTh (s : RtState ι) (i : ι) (th : OsThread) : RtState ι :=
  { s with th := Function.update s.th i th }

/-- The thread with another stream, whose new bytes go to its file. -/
def RtState.setRt (s : RtState ι) (i : ι) (rt : Rthread) : RtState ι :=
  let th := s.th i
  let off := th.rt.file.length
  { s.setTh i { th with rt } with
    obs := putFile s.obs .flushed th.tid
      ((s.obs .flushed th.tid).map fun old => writeAt old off (rt.file.drop off)) }

/-- A call of the user. -/
inductive RtCall where
  | procInit (app : Int) (loom : Name) (pid : Int)
  | procFini
  | threadInit (tid : Int) (evbuf : Mem)
  | stream (c : Call)
  | addCpu (index phyid : Int)
  | setRank (rank nranks : Int)
  | threadFree

/-- `ovni_proc_init` up to the exchange. -/
def ovniProcInit (s : RtState ι) (i : ι) (app : Int) (loom : Name) (pid : Int) :
    Except Fault (RtState ι) :=
  match s.proc.st with
  | .uninit => .ok ({ s with proc := { s.proc with st := .init } }.setTh i
      { s.th i with pc := .procInit .loom app loom pid })
  | .init => .error (.die "already being initialized")
  | .ready => .error (.die "already initialized")
  | .gone => .error (.die "has finished, cannot init again")

/-- `ovni_proc_fini`. -/
def ovniProcFini (s : RtState ι) : Except Fault (RtState ι) :=
  if s.proc.st = .ready then .ok { s with proc := { s.proc with st := .gone } }
  else .error (.die "process not ready")

/-- `ovni_thread_init` up to the load of the state and the `memset`. -/
def ovniThreadInitCall (s : RtState ι) (i : ι) (tid : Int) (evbuf : Mem) :
    Except Fault (RtState ι) := do
  if (s.th i).rt.ready then return s
  if (s.th i).finished then throw (.die "thread has finished, cannot init again")
  if tid = 0 then throw (.die "cannot use tid=0")
  if s.proc.st ≠ .ready then throw (.die "process not ready")
  return s.setTh i { OsThread.zero with tid, pc := .threadInit .stream evbuf }

/-- Whether a call is `ovni_flush`. -/
def Call.isFlush : Call → Bool
  | .flush => true
  | _ => false

/-- `ovni_ev_emit`, `ovni_ev_jumbo_emit` and `ovni_flush`, which also loads the state of the
process. -/
def ovniStreamCall (env : RtEnv ι) (s : RtState ι) (i : ι) (c : Call) :
    Except Fault (RtState ι) := do
  if c.isFlush ∧ (s.th i).rt.ready ∧ s.proc.st ≠ .ready then throw (.die "process not ready")
  return s.setRt i (← runCall (env.clk i) (s.th i).rt c)

/-- `ovni_add_cpu`. -/
def ovniAddCpu (s : RtState ι) (i : ι) (index phyid : Int) : Except Fault (RtState ι) := do
  if index < 0 then throw (.die "cannot use negative index")
  if phyid < 0 then throw (.die "cannot use negative CPU id")
  if s.proc.st ≠ .ready then throw (.die "process not ready")
  if (s.th i).rt.ready = false then throw (.die "thread not yet initialized")
  return s.setTh i { s.th i with cpus := (s.th i).cpus ++ [(index, phyid)] }

/-- `ovni_proc_set_rank`. -/
def ovniProcSetRank (s : RtState ι) (i : ι) (rank nranks : Int) : Except Fault (RtState ι) := do
  if s.proc.st ≠ .ready then throw (.die "process not ready")
  if (s.th i).rt.ready = false then throw (.die "thread not yet initialized")
  return s.setTh i { s.th i with rank := some (rank, nranks) }

/-- `ovni_thread_free`. -/
def ovniThreadFree (s : RtState ι) (i : ι) : Except Fault (RtState ι) := do
  let th := s.th i
  if th.finished then throw (.die "thread already finished")
  if th.rt.ready = false then throw (.die "thread not initialized")
  match th.info with
  | none => throw (.die "json_value_get_object failed")
  | some info =>
      let info := { info with rank := th.rank.or info.rank, cpus := th.cpus, finished := true }
      -- `thread_metadata_store`
      let json := putFile s.json .flushed th.tid (some info)
      let s := s.setTh i { th with
        info := some info, finished := true, rt := { th.rt with ready := false } }
      if s.proc.moveToFinal then
        return { s with obs := moveFile s.obs th.tid, json := moveFile json th.tid }
      else return { s with json }

/-- A call, up to the end or to the next access to what the threads share. -/
def rtCall (env : RtEnv ι) (i : ι) (s : RtState ι) : RtCall → Except Fault (RtState ι)
  | .procInit app loom pid => ovniProcInit s i app loom pid
  | .procFini => ovniProcFini s
  | .threadInit tid evbuf => ovniThreadInitCall s i tid evbuf
  | .stream c => ovniStreamCall env s i c
  | .addCpu index phyid => ovniAddCpu s i index phyid
  | .setRank rank nranks => ovniProcSetRank s i rank nranks
  | .threadFree => ovniThreadFree s i

/-- `OVNI_MAX_HOSTNAME`. -/
def ovniMaxHostname : Nat := 512

/-- The rest of `ovni_proc_init`. -/
def procInitNext (env : RtEnv ι) (i : ι) (s : RtState ι) (app : Int) (loom : Name)
    (pid : Int) : InitStage → Except Fault (RtState ι)
  | .loom =>
      if ovniMaxHostname ≤ loom.length then .error (.die "loom name too long")
      else .ok ({ s with proc := { s.proc with loom } }.setTh i
        { s.th i with pc := .procInit .pid app loom pid })
  | .pid => .ok ({ s with proc := { s.proc with pid } }.setTh i
      { s.th i with pc := .procInit .app app loom pid })
  | .app => .ok ({ s with proc := { s.proc with app } }.setTh i
      { s.th i with pc := .procInit .dir app loom pid })
  -- `create_proc_dir`
  | .dir => .ok ({ s with proc := { s.proc with moveToFinal := env.tmpdir } }.setTh i
      { s.th i with pc := .procInit .store app loom pid })
  | .store => .ok ({ s with proc := { s.proc with st := .ready } }.setTh i
      { s.th i with pc := .idle })

/-- What the rest of `ovni_thread_init` does. -/
def threadInitStep (i : ι) (s : RtState ι) (evbuf : Mem) : ThreadStage → RtState ι
  | .stream =>
      -- `create_trace_stream` opens the file as it is, and the header goes to its start
      let tid := (s.th i).tid
      let s := { s with obs := putFile s.obs .flushed tid (some ((s.obs .flushed tid).getD [])) }
      let s := s.setTh i { s.th i with pc := .threadInit .metadata evbuf }
      s.setRt i { ovniThreadInit evbuf with ready := false }
  | .metadata =>
      let th := s.th i
      let info : StreamInfo :=
        { tid := th.tid, pid := s.proc.pid, loom := s.proc.loom, app := s.proc.app, rank := none
          cpus := [], finished := false }
      let th := { th with pc := .idle, info := some info, rt := { th.rt with ready := true } }
      { s.setTh i th with json := putFile s.json .flushed th.tid (some info) }

/-- The rest of `ovni_thread_init`.  A string that is not valid cannot be stored. -/
def threadInitNext (i : ι) (s : RtState ι) (evbuf : Mem) (stage : ThreadStage) :
    Except Fault (RtState ι) :=
  if stage = .metadata ∧ isValidUtf8 s.proc.loom = false then
    .error (.die "json_object_dotset_string failed")
  else .ok (threadInitStep i s evbuf stage)

/-- The next part of the call that a thread is in. -/
def rtNext (env : RtEnv ι) (i : ι) (s : RtState ι) : Option (Except Fault (RtState ι)) :=
  match (s.th i).pc with
  | .idle => none
  | .procInit stage app loom pid => some (procInitNext env i s app loom pid stage)
  | .threadInit stage evbuf => some (threadInitNext i s evbuf stage)

/-- What a thread does: a call, or the next part of the one that it is in. -/
inductive RtAct where
  | call (c : RtCall)
  | next

/-- The steps of the threads.  A thread makes a call when it is in no other one, and the
process is aborted when one dies. -/
inductive RtStep (env : RtEnv ι) (i : ι) : RtAct → RtState ι → RtState ι → Prop where
  | call {s s' : RtState ι} {c : RtCall} (hidle : (s.th i).pc = .idle)
      (hrun : rtCall env i s c = .ok s') : RtStep env i (.call c) s s'
  | next {s s' : RtState ι} (hrun : rtNext env i s = some (.ok s')) : RtStep env i .next s s'

/-- The runs of the threads of a process. -/
def RtRun (env : RtEnv ι) (obs : ProcDir → Int → Option (List UInt8))
    (json : ProcDir → Int → Option StreamInfo) : List (ι × RtAct) → RtState ι → Prop :=
  Runs (RtStep env) (rtInit obs json)

end

end Ovni
