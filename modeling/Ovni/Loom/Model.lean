import Ovni.Bay.Model
import Ovni.Lib.Keyed
import Ovni.Text

/-!
# Looms, processes and threads from the metadata

The part of `system_init` that reads the metadata of the streams: each thread stream adds
its thread and merges what it says of its process and of its loom (`system.c`, `loom.c`,
`proc.c`, `thread.c`).  Then everything is sorted and gets its global index.

A hash table is iterated in the order in which its elements were added, so it is a list,
and both `DL_SORT` and `HASH_SORT` are stable.  Numbers in the metadata are those after
the cast to `int`.
-/

namespace Ovni

def pathMax : Nat := 4096

def intMax : Int := 2 ^ 31 - 1

/-- The metadata of a stream that `system_init` reads.  A `pid` or `tid` is `none` when it
is missing or zero, and an element of `ovni.loom_cpus` when it is not an object. -/
structure StreamMeta where
  part : Option String
  loom : Option Name
  loomCpus : Option (List (Option (Int × Int)))
  pid : Option Int
  tid : Option Int
  appId : Option Int
  rank : Option Int
  nranks : Option Int
  finished : Bool
  deriving DecidableEq

/-- A `struct cpu` of a loom. -/
structure LoomCpu where
  index : Int
  phyid : Int
  isVirtual : Bool
  deriving DecidableEq

/-- A `struct proc`, with the `tid` of its threads. -/
structure Proc where
  pid : Int
  appid : Int
  rank : Int
  nranks : Int
  threads : List Int
  deriving DecidableEq

structure Loom where
  name : Name
  rankEnabled : Bool
  rankMin : Int
  cpus : List LoomCpu
  vcpu : LoomCpu
  procs : List Proc
  cpusArray : List (Option LoomCpu)
  deriving DecidableEq

/-! ## The CPUs of a loom -/

/-- `loom_init_begin`. -/
def loomInitBegin (name : Name) : Except EmuFault Loom := do
  if name.contains 47 then throw (.fail "loom name cannot contain '/'")
  if name.length ≥ pathMax then throw (.fail "name too long")
  return { name, rankEnabled := false, rankMin := intMax, cpus := [],
           vcpu := { index := -1, phyid := -1, isVirtual := true }, procs := [],
           cpusArray := [] }

/-- `loom_find_cpu`. -/
def loomFindCpu (loom : Loom) (phyid : Int) : Option LoomCpu :=
  if phyid = -1 then some loom.vcpu else loom.cpus.find? fun cpu => cpu.phyid = phyid

/-- `loom_add_cpu`, of a loom that is not initialised. -/
def loomAddCpu (loom : Loom) (cpu : LoomCpu) : Except EmuFault Loom := do
  if cpu.phyid < 0 then throw (.fail "cannot use negative cpu phyid")
  if (loomFindCpu loom cpu.phyid).isSome then throw (.fail "cpu with phyid already in loom")
  return { loom with cpus := loom.cpus ++ [cpu] }

/-- One turn of the loop of `load_cpus`. -/
def loadCpu (loom : Loom) (jcpu : Option (Int × Int)) : Except EmuFault Loom :=
  match jcpu with
  | none => throw (.fail "json_array_get_object() failed for cpu")
  | some (index, phyid) => do
      if index < 0 then throw (.fail "cpu index out of bounds")
      match loomFindCpu loom phyid with
      | some cpu =>
          if cpu.index ≠ index then throw (.fail "mismatch index in existing cpu")
          return loom
      | none => loomAddCpu loom { index, phyid, isVirtual := false }

/-- `load_cpus`, which is all of `loom_load_metadata`. -/
def loadCpus (loom : Loom) (s : StreamMeta) : Except EmuFault Loom :=
  match s.loomCpus with
  | none => return loom
  | some cpuarray => do
      if cpuarray.isEmpty then throw (.fail "empty 'cpus' array in metadata")
      cpuarray.foldlM loadCpu loom

/-! ## Processes -/

/-- `proc_init_begin`. -/
def procInitBegin (pid : Int) : Proc :=
  { pid, appid := 0, rank := -1, nranks := 0, threads := [] }

/-- `load_appid`. -/
def loadAppid (proc : Proc) (s : StreamMeta) : Except EmuFault Proc :=
  match s.appId with
  | none => return proc
  | some appid => do
      if proc.appid ≠ 0 ∧ proc.appid ≠ appid then throw (.fail "mismatch previous appid")
      if appid ≤ 0 then throw (.fail "appid must be >0")
      return { proc with appid }

/-- `load_rank`. -/
def loadRank (proc : Proc) (s : StreamMeta) : Except EmuFault Proc :=
  match s.rank with
  | none => return proc
  | some rank => do
      if rank < 0 then throw (.fail "rank must be >=0")
      if proc.rank ≥ 0 ∧ proc.rank ≠ rank then throw (.fail "mismatch previous rank")
      match s.nranks with
      | none => throw (.fail "missing ovni.nranks attribute")
      | some nranks => do
          if nranks ≤ 0 then throw (.fail "nranks must be >0")
          if proc.nranks > 0 ∧ proc.nranks ≠ nranks then
            throw (.fail "mismatch previous nranks")
          if rank ≥ nranks then throw (.fail "rank must be lower than nranks")
          return { proc with rank, nranks }

/-- `proc_load_metadata`. -/
def procLoadMetadata (proc : Proc) (s : StreamMeta) : Except EmuFault Proc := do
  let proc ← loadAppid proc s
  loadRank proc s

/-! ## The system -/

/-- `create_thread`, which adds the thread to its process. -/
def createThread (proc : Proc) (s : StreamMeta) : Except EmuFault Proc :=
  match s.tid with
  | none => throw (.fail "cannot get attribute ovni.tid for stream")
  | some tid => do
      if tid < 0 then throw (.fail "cannot get thread tid from stream")
      if tid ∈ proc.threads then throw (.fail "thread with tid already exists")
      if s.finished = false then throw (.fail "missing ovni.finished")
      return { proc with threads := proc.threads ++ [tid] }

/-- `create_proc`: the process of the stream, a new one if the loom does not have it. -/
def createProc (loom : Loom) (s : StreamMeta) : Except EmuFault Proc :=
  match s.pid with
  | none => throw (.fail "cannot get attribute ovni.pid for stream")
  | some pid => do
      if pid < 0 then throw (.fail "cannot get proc pid from stream")
      let proc := (loom.procs.find? fun proc => proc.pid = pid).getD (procInitBegin pid)
      procLoadMetadata proc s

/-- `create_loom`: the loom of the stream, a new one if the system does not have it. -/
def createLoom (looms : List Loom) (s : StreamMeta) : Except EmuFault Loom :=
  match s.loom with
  | none => throw (.fail "cannot get attribute ovni.loom for stream")
  | some name => do
      let loom ← match looms.find? fun loom => loom.name = name with
        | some loom => .ok loom
        | none => loomInitBegin name
      loadCpus loom s

/-- `is_thread_stream`. -/
def isThreadStream (s : Option StreamMeta) : Except EmuFault (Option StreamMeta) :=
  match s with
  | none => throw (.die "stream metadata is NULL")
  | some s =>
      match s.part with
      | none => throw (.fail "cannot get attribute ovni.part for stream")
      | some part => return if part = "thread" then some s else none

/-- What one thread stream adds to the looms. -/
def addStream (looms : List Loom) (s : StreamMeta) : Except EmuFault (List Loom) := do
  let loom ← createLoom looms s
  let proc ← createProc loom s
  let proc ← createThread proc s
  return Lib.put Loom.name { loom with procs := Lib.put Proc.pid proc loom.procs } looms

/-- `create_system`. -/
def createSystem (trace : List (Option StreamMeta)) : Except EmuFault (List Loom) :=
  trace.foldlM (fun looms s => do
    match ← isThreadStream s with
    | none => return looms
    | some s => addStream looms s) []

/-- `loom_set_rank_min`, of a loom whose minimum is not set. -/
def loomSetRankMin (loom : Loom) : Except EmuFault Loom :=
  if loom.procs.any fun p => p.rank ≥ 0 then
    if loom.procs.any fun p => p.rank < 0 then throw (.fail "process has no rank information")
    else return { loom with rankEnabled := true,
                            rankMin := loom.procs.foldl (fun m p => min m p.rank) loom.rankMin }
  else return loom

/-- `set_sort_criteria`: the looms and whether they are sorted by rank. -/
def setSortCriteria (looms : List Loom) : Except EmuFault (List Loom × Bool) := do
  let looms ← looms.mapM loomSetRankMin
  return (looms, looms.all Loom.rankEnabled)

/-! ## Sorting -/

def byPid : Proc → Proc → Int := Lib.cmpKey Proc.pid

def byRank : Proc → Proc → Int := Lib.cmpKey Proc.rank

def byPhyid : LoomCpu → LoomCpu → Int := Lib.cmpKey LoomCpu.phyid

def byTid : Int → Int → Int := Lib.cmpKey id

def cmpLoomId : Loom → Loom → Int := Lib.cmpKey Loom.name

def cmpLoomRank : Loom → Loom → Int := Lib.cmpKey Loom.rankMin

/-- `proc_sort`. -/
def procSort (proc : Proc) : Proc := { proc with threads := Lib.sortCmp byTid proc.threads }

/-- `loom_sort`. -/
def loomSort (loom : Loom) : Loom :=
  { loom with
    procs := (Lib.sortCmp (if loom.rankEnabled then byRank else byPid) loom.procs).map procSort
    cpus := Lib.sortCmp byPhyid loom.cpus }

/-- `sort_lpt`. -/
def sortLpt (looms : List Loom) (sortByRank : Bool) : List Loom :=
  (Lib.sortCmp (if sortByRank then cmpLoomRank else cmpLoomId) looms).map loomSort

/-! ## Global lists and indices -/

/-- A process, a thread or a CPU is known by the name of its loom as well. -/
structure SystemInit where
  sortByRank : Bool
  looms : List (Loom × Nat)
  procs : List ((Name × Proc) × Nat)
  threads : List ((Name × Int × Int) × Nat)
  cpus : List ((Name × LoomCpu) × Nat)
  nphycpus : Nat
  deriving DecidableEq

/-- The global list of threads of `init_global_lists`, by loom, `pid` and `tid`. -/
def globalThreads (looms : List Loom) : List (Name × Int × Int) :=
  looms.flatMap fun l => l.procs.flatMap fun p => p.threads.map fun t => (l.name, p.pid, t)

/-- The global list of processes. -/
def globalProcs (looms : List Loom) : List (Name × Proc) :=
  looms.flatMap fun l => l.procs.map fun p => (l.name, p)

/-- The global list of CPUs, the virtual CPU of each loom last. -/
def globalCpus (looms : List Loom) : List (Name × LoomCpu) :=
  looms.flatMap fun l => (l.cpus ++ [l.vcpu]).map fun c => (l.name, c)

/-- `init_global_indices` after `init_global_lists`. -/
def initGlobalIndices (looms : List Loom) (sortByRank : Bool) : SystemInit :=
  { sortByRank
    looms := looms.zipIdx
    procs := (globalProcs looms).zipIdx
    threads := (globalThreads looms).zipIdx
    cpus := (globalCpus looms).zipIdx
    nphycpus := (globalCpus looms).countP fun c => !c.2.isVirtual }

/-- One turn of the loop of `loom_init_end`. -/
def takeIndex (array : List (Option LoomCpu)) (c : LoomCpu) :
    Except EmuFault (List (Option LoomCpu)) := do
  if c.index < 0 ∨ c.index ≥ array.length then throw (.fail "cpu index out of bounds")
  if (array[c.index.toNat]?.join).isSome then throw (.fail "cpu with index already taken")
  return array.set c.index.toNat (some c)

/-- `loom_init_end`. -/
def loomInitEnd (loom : Loom) : Except EmuFault Loom := do
  if loom.rankEnabled ∧ loom.rankMin = intMax then throw (.fail "rank_min not set")
  if loom.cpus.length = 0 then throw (.fail "loom has no physical CPUs")
  if loom.procs.length = 0 then throw (.fail "loom has no processes")
  let cpusArray ← loom.cpus.foldlM takeIndex (List.replicate loom.cpus.length none)
  return { loom with cpusArray }

/-- `proc_init_end`, of a process that has its index. -/
def procInitEnd (proc : Proc) : Except EmuFault Proc := do
  if proc.appid ≤ 0 then throw (.fail "appid not set")
  return proc

/-- What `init_end_system` does with one loom. -/
def initEndLoom (loom : Loom) : Except EmuFault Loom := do
  let procs ← loom.procs.mapM procInitEnd
  loomInitEnd { loom with procs }

/-- `init_end_system`. -/
def initEndSystem (sys : SystemInit) : Except EmuFault SystemInit := do
  let looms ← sys.looms.mapM fun p => do
    let loom ← initEndLoom p.1
    return (loom, p.2)
  return { sys with looms }

/-- `system_init`, up to `init_end_system`. -/
def systemInit (trace : List (Option StreamMeta)) : Except EmuFault SystemInit := do
  let looms ← createSystem trace
  let (looms, sortByRank) ← setSortCriteria looms
  initEndSystem (initGlobalIndices (sortLpt looms sortByRank) sortByRank)

end Ovni
