import Ovni.Mux.Model

/-!
# Threads and CPUs

The part of the emulator that follows where each thread runs: `emu/thread.c`,
`emu/cpu.c`, the lookups of `emu/loom.c` and `emu/proc.c`, and the thread and
affinity events of `emu/ovni/event.c`.  Each thread and each CPU has channels in
the bay, next to those of the models.

Threads, CPUs, processes and looms are named by the values of four types.  What
`system_init` has fixed is a `System`; the rest is the state of an `Emu`.
-/

namespace Ovni

/-! ## The system -/

/-- `enum thread_state`. -/
inductive ThreadState where
  | unknown
  | running
  | paused
  | dead
  | cooling
  | warming
  deriving DecidableEq

/-- The number of a state in `enum thread_state`. -/
def ThreadState.toInt : ThreadState → Int
  | .unknown => 0
  | .running => 1
  | .paused => 2
  | .dead => 3
  | .cooling => 4
  | .warming => 5

/-- The states in which a thread is active. -/
def ThreadState.isActive : ThreadState → Bool
  | .running => true
  | .cooling => true
  | .warming => true
  | _ => false

/-- `enum thread_chan`. -/
inductive ThChan where
  | cpu
  | tid
  | state
  deriving DecidableEq

/-- `enum cpu_chan`. -/
inductive CpuChan where
  | nrun
  | pid
  | tid
  | thrun
  | thact
  deriving DecidableEq

/-- The channels of the bay: of each thread, of each CPU and of the models. -/
inductive EmuChan (θ γ ξ : Type) where
  | thread (t : θ) (k : ThChan)
  | cpu (c : γ) (k : CpuChan)
  | model (x : ξ)
  deriving DecidableEq

/-- The threads, CPUs, processes and looms once the system is initialised.  The
global index of a thread is its place in the global list. -/
structure System (θ γ π ℓ : Type) where
  threads : List θ
  gindex : θ → Nat
  gindex_spec : ∀ t, threads[gindex t]? = some t
  tid : θ → Int
  proc : θ → π
  pid : π → Int
  loom : π → ℓ
  procThreads : π → List θ
  loomProcs : ℓ → List π
  cpuGindex : γ → Int
  isVirtual : γ → Bool
  vcpu : ℓ → γ
  cpusArray : ℓ → List γ

/-- The state of a `struct thread`. -/
structure Thread (γ : Type) where
  state : ThreadState
  isRunning : Bool
  isActive : Bool
  isOutOfCpu : Bool
  cpu : Option γ

/-- The state of a `struct cpu`.  Whether `cpu_update` was called on it is only kept
to speak about it. -/
structure Cpu (θ : Type) where
  nthreads : Nat
  nthRunning : Nat
  nthActive : Nat
  threads : List θ
  thRunning : Option θ
  thActive : Option θ
  updated : Bool

/-- The state of the emulator: threads, CPUs and the bay. -/
structure Emu (θ γ ξ μ ν τ : Type) where
  th : θ → Thread γ
  cpu : γ → Cpu θ
  world : MuxWorld (EmuChan θ γ ξ) μ ν τ

/-- `thread_init_begin`. -/
def threadInit {γ : Type} : Thread γ :=
  { state := .unknown, isRunning := false, isActive := false, isOutOfCpu := false, cpu := none }

/-- `cpu_init_begin`. -/
def cpuInit {θ : Type} : Cpu θ :=
  { nthreads := 0, nthRunning := 0, nthActive := 0, threads := [], thRunning := none,
    thActive := none, updated := false }

/-- The channels made by `thread_init_end`. -/
def threadChanInit : ThChan → Chan
  | .cpu => chanInit .single
  | .tid => { chanInit .single with ignoreDup := true }
  | .state => chanInit .single

/-- The channels made by `cpu_init_end`. -/
def cpuChanInit (_ : CpuChan) : Chan := { chanInit .single with ignoreDup := true }

section

variable {θ γ π ℓ ξ μ ν τ : Type} [DecidableEq θ] [DecidableEq γ] [DecidableEq ξ]
  (sys : System θ γ π ℓ)

/-- `loom_get_cpu`. -/
def loomGetCpu (loom : ℓ) (index : Int) : Option γ :=
  if index = -1 then some (sys.vcpu loom)
  else if index < 0 ∨ ((sys.cpusArray loom).length : Int) ≤ index then none
  else (sys.cpusArray loom)[index.toNat]?

/-- `proc_find_thread`. -/
def procFindThread (proc : π) (tid : Int) : Option θ :=
  (sys.procThreads proc).find? fun t => sys.tid t = tid

/-- `loom_find_thread`. -/
def loomFindThread (loom : ℓ) (tid : Int) : Option θ :=
  (sys.loomProcs loom).findSome? fun p => procFindThread sys p tid

/-! ## Threads -/

/-- `chan_set` in the bay of the emulator. -/
def Emu.chanSet (e : Emu θ γ ξ μ ν τ) (c : EmuChan θ γ ξ) (v : Value) :
    Except EmuFault (Emu θ γ ξ μ ν τ) := do
  return { e with world := ← e.world.chanSet c v }

/-- The emulator with another state of a thread. -/
def Emu.setTh (e : Emu θ γ ξ μ ν τ) (t : θ) (th : Thread γ) : Emu θ γ ξ μ ν τ :=
  { e with th := Function.update e.th t th }

/-- The emulator with another state of a CPU. -/
def Emu.setCpu (e : Emu θ γ ξ μ ν τ) (c : γ) (cpu : Cpu θ) : Emu θ γ ξ μ ν τ :=
  { e with cpu := Function.update e.cpu c cpu }

/-- `thread_set_state`. -/
def threadSetState (e : Emu θ γ ξ μ ν τ) (t : θ) (state : ThreadState) :
    Except EmuFault (Emu θ γ ξ μ ν τ) := do
  -- The state must be updated when a cpu is set
  if (e.th t).cpu = none then throw (.fail "thread doesn't have a CPU")
  let isActive := state.isActive
  let e := e.setTh t { e.th t with state, isRunning := state = .running, isActive }
  let e ← e.chanSet (.thread t .state) (.int64 state.toInt)
  e.chanSet (.thread t .tid) (if isActive then .int64 (sys.tid t) else .null)

/-- `thread_set_cpu`, with a CPU that is not NULL. -/
def threadSetCpu (e : Emu θ γ ξ μ ν τ) (t : θ) (c : γ) :
    Except EmuFault (Emu θ γ ξ μ ν τ) := do
  if (e.th t).cpu ≠ none then throw (.fail "thread already has a CPU")
  let e := e.setTh t { e.th t with cpu := some c }
  e.chanSet (.thread t .cpu) (.int64 (sys.cpuGindex c))

/-- `thread_unset_cpu`. -/
def threadUnsetCpu (e : Emu θ γ ξ μ ν τ) (t : θ) : Except EmuFault (Emu θ γ ξ μ ν τ) := do
  if (e.th t).cpu = none then throw (.fail "thread doesn't have a CPU")
  let e := e.setTh t { e.th t with cpu := none }
  e.chanSet (.thread t .cpu) .null

/-- `thread_migrate_cpu`. -/
def threadMigrateCpu (e : Emu θ γ ξ μ ν τ) (t : θ) (c : γ) :
    Except EmuFault (Emu θ γ ξ μ ν τ) := do
  if (e.th t).cpu = none then throw (.fail "thread doesn't have a CPU")
  let e := e.setTh t { e.th t with cpu := some c }
  e.chanSet (.thread t .cpu) (.int64 (sys.cpuGindex c))

/-! ## CPUs -/

/-- The variables of the loop of `cpu_update`. -/
structure CpuScan (θ : Type) where
  running : Nat
  active : Nat
  thRunning : Option θ
  thActive : Option θ

/-- The loop of `cpu_update` over the threads of the CPU. -/
def cpuScan (state : θ → ThreadState) (threads : List θ) : CpuScan θ :=
  threads.foldl (fun s t =>
    match state t with
    | .running => { running := s.running + 1, active := s.active + 1, thRunning := some t,
                    thActive := some t }
    | .cooling => { s with active := s.active + 1, thActive := some t }
    | .warming => { s with active := s.active + 1, thActive := some t }
    | _ => s)
    { running := 0, active := 0, thRunning := none, thActive := none }

/-- A value of a thread, or null without one. -/
def threadValue (f : θ → Int) : Option θ → Value
  | none => .null
  | some t => .int64 (f t)

/-- `cpu_update`. -/
def cpuUpdate (e : Emu θ γ ξ μ ν τ) (c : γ) : Except EmuFault (Emu θ γ ξ μ ν τ) := do
  let scan := cpuScan (fun t => (e.th t).state) (e.cpu c).threads
  let e := e.setCpu c
    { e.cpu c with nthRunning := scan.running, nthActive := scan.active, updated := true }
  -- Only virtual cpus can be oversubscribed
  if 1 < scan.running ∧ sys.isVirtual c = false then
    throw (.fail "physical cpu has several threads running at the same time")
  let running := if scan.running = 1 then scan.thRunning else none
  let e := e.setCpu c { e.cpu c with thRunning := running }
  let e ← e.chanSet (.cpu c .tid) (threadValue sys.tid running)
  let e ← e.chanSet (.cpu c .pid) (threadValue (fun t => sys.pid (sys.proc t)) running)
  let e ← e.chanSet (.cpu c .thrun) (threadValue (fun t => sys.gindex t) running)
  let active := if scan.active = 1 then scan.thActive else none
  let e := e.setCpu c { e.cpu c with thActive := active }
  let e ← e.chanSet (.cpu c .nrun) (.int64 scan.running)
  e.chanSet (.cpu c .thact) (threadValue (fun t => sys.gindex t) active)

/-- `cpu_add_thread`. -/
def cpuAddThread (e : Emu θ γ ξ μ ν τ) (c : γ) (t : θ) :
    Except EmuFault (Emu θ γ ξ μ ν τ) := do
  if t ∈ (e.cpu c).threads then throw (.fail "thread already assigned")
  let e := e.setCpu c { e.cpu c with
    threads := (e.cpu c).threads ++ [t], nthreads := (e.cpu c).nthreads + 1 }
  cpuUpdate sys e c

/-- `cpu_remove_thread`. -/
def cpuRemoveThread (e : Emu θ γ ξ μ ν τ) (c : γ) (t : θ) :
    Except EmuFault (Emu θ γ ξ μ ν τ) := do
  -- Not found, abort
  if t ∉ (e.cpu c).threads then throw (.fail "cannot remove missing thread")
  let e := e.setCpu c { e.cpu c with
    threads := (e.cpu c).threads.erase t, nthreads := (e.cpu c).nthreads - 1 }
  cpuUpdate sys e c

/-- `cpu_migrate_thread`. -/
def cpuMigrateThread (e : Emu θ γ ξ μ ν τ) (c : γ) (t : θ) (newcpu : γ) :
    Except EmuFault (Emu θ γ ξ μ ν τ) := do
  let e ← cpuRemoveThread sys e c t
  cpuAddThread sys e newcpu t

/-! ## Events -/

/-- A thread or affinity event: the thread of the stream, the category and value of
the event, and its payload as words. -/
structure SysEvent (θ : Type) where
  thread : θ
  c : Char
  v : Char
  payloadSize : Nat
  i32 : Nat → Int

/-- `pre_thread_execute`. -/
def preThreadExecute (e : Emu θ γ ξ μ ν τ) (ev : SysEvent θ) (t : θ) :
    Except EmuFault (Emu θ γ ξ μ ν τ) := do
  if (e.th t).state = .running then throw (.fail "cannot execute thread, is already running")
  if ev.payloadSize < 4 then throw (.fail "missing payload in thread execute event")
  match loomGetCpu sys (sys.loom (sys.proc t)) (ev.i32 0) with
  | none => throw (.fail "cannot find CPU")
  | some c =>
      -- First set the CPU in the thread, then the running state, and then add the
      -- thread to the CPU
      let e ← threadSetCpu sys e t c
      let e ← threadSetState sys e t .running
      cpuAddThread sys e c t

/-- The CPU of a thread, where the code reads it. -/
def cpuOf (e : Emu θ γ ξ μ ν τ) (t : θ) : Except EmuFault γ :=
  match (e.th t).cpu with
  | none => .error .crash
  | some c => .ok c

/-- `pre_thread_end`. -/
def preThreadEnd (e : Emu θ γ ξ μ ν τ) (t : θ) : Except EmuFault (Emu θ γ ξ μ ν τ) := do
  if (e.th t).state ≠ .running ∧ (e.th t).state ≠ .cooling then
    throw (.fail "cannot end thread: state not running or cooling")
  let e ← threadSetState sys e t .dead
  let e ← cpuRemoveThread sys e (← cpuOf e t) t
  threadUnsetCpu e t

/-- The events that change the state of a thread and update its CPU. -/
def preThreadChange (allowed : List ThreadState) (state : ThreadState) (msg : String)
    (e : Emu θ γ ξ μ ν τ) (t : θ) : Except EmuFault (Emu θ γ ξ μ ν τ) := do
  if (e.th t).state ∉ allowed then throw (.fail msg)
  let e ← threadSetState sys e t state
  cpuUpdate sys e (← cpuOf e t)

/-- `pre_thread_pause`. -/
def preThreadPause (e : Emu θ γ ξ μ ν τ) (t : θ) : Except EmuFault (Emu θ γ ξ μ ν τ) :=
  preThreadChange sys [.running, .cooling] .paused
    "cannot pause thread: state not running or cooling" e t

/-- `pre_thread_resume`. -/
def preThreadResume (e : Emu θ γ ξ μ ν τ) (t : θ) : Except EmuFault (Emu θ γ ξ μ ν τ) :=
  preThreadChange sys [.paused, .warming] .running
    "cannot resume thread: state not paused or warming" e t

/-- `pre_thread_cool`. -/
def preThreadCool (e : Emu θ γ ξ μ ν τ) (t : θ) : Except EmuFault (Emu θ γ ξ μ ν τ) :=
  preThreadChange sys [.running] .cooling "cannot cool thread: state not running" e t

/-- `pre_thread_warm`. -/
def preThreadWarm (e : Emu θ γ ξ μ ν τ) (t : θ) : Except EmuFault (Emu θ γ ξ μ ν τ) :=
  preThreadChange sys [.paused] .warming "cannot warm thread: state not paused" e t

/-- `pre_thread`. -/
def preThread (e : Emu θ γ ξ μ ν τ) (ev : SysEvent θ) : Except EmuFault (Emu θ γ ξ μ ν τ) :=
  match ev.v with
  | 'C' => .ok e
  | 'x' => preThreadExecute sys e ev ev.thread
  | 'e' => preThreadEnd sys e ev.thread
  | 'p' => preThreadPause sys e ev.thread
  | 'r' => preThreadResume sys e ev.thread
  | 'c' => preThreadCool sys e ev.thread
  | 'w' => preThreadWarm sys e ev.thread
  | _ => .error (.fail "unknown thread event value")

/-- `pre_affinity_set`. -/
def preAffinitySet (e : Emu θ γ ξ μ ν τ) (ev : SysEvent θ) :
    Except EmuFault (Emu θ γ ξ μ ν τ) := do
  let t := ev.thread
  match (e.th t).cpu with
  | none => throw (.fail "thread doesn't have CPU set")
  | some old =>
      if (e.th t).isActive = false then throw (.fail "thread is not active")
      if ev.payloadSize ≠ 4 then throw (.fail "unexpected payload size")
      -- Migrate current cpu to the one at index
      match loomGetCpu sys (sys.loom (sys.proc t)) (ev.i32 0) with
      | none => throw (.fail "cannot find cpu")
      | some newcpu =>
          -- The CPU is already properly set, return
          if old = newcpu then return e
          let e ← cpuMigrateThread sys e old t newcpu
          threadMigrateCpu sys e t newcpu

/-- `pre_affinity_remote`. -/
def preAffinityRemote (e : Emu θ γ ξ μ ν τ) (ev : SysEvent θ) :
    Except EmuFault (Emu θ γ ξ μ ν τ) := do
  if ev.payloadSize ≠ 8 then throw (.fail "unexpected payload size")
  let proc := sys.proc ev.thread
  -- Search the thread in other processes of the loom if not found in the current one
  let remote := (procFindThread sys proc (ev.i32 1)).or
    (loomFindThread sys (sys.loom proc) (ev.i32 1))
  match remote with
  | none => throw (.fail "thread not found")
  | some t =>
      if (e.th t).state = .dead then throw (.fail "thread is dead")
      if (e.th t).state = .unknown then throw (.fail "thread in state unknown")
      match (e.th t).cpu with
      | none => throw (.fail "thread has no CPU")
      | some old =>
          match loomGetCpu sys (sys.loom proc) (ev.i32 0) with
          | none => throw (.fail "cannot find CPU")
          | some newcpu =>
              let e ← cpuMigrateThread sys e old t newcpu
              threadMigrateCpu sys e t newcpu

/-- `pre_affinity`. -/
def preAffinity (e : Emu θ γ ξ μ ν τ) (ev : SysEvent θ) :
    Except EmuFault (Emu θ γ ξ μ ν τ) :=
  match ev.v with
  | 's' => preAffinitySet sys e ev
  | 'r' => preAffinityRemote sys e ev
  | _ => .error (.fail "unknown affinity event value")

/-- `model_ovni_event` on the categories of threads and affinity. -/
def modelOvniEvent (e : Emu θ γ ξ μ ν τ) (ev : SysEvent θ) :
    Except EmuFault (Emu θ γ ξ μ ν τ) := do
  if (e.th ev.thread).isOutOfCpu then throw (.fail "current thread out of CPU")
  match ev.c with
  | 'H' => preThread sys e ev
  | 'A' => preAffinity sys e ev
  | _ => throw (.fail "unknown ovni event category")

end

end Ovni
