import Ovni.Breakdown.Connect

/-!
# Tables of events

`ss_table` and `fn_table` of the models: what an event of a category and a value does with
a channel of its thread.  Most of the events open or close a region, and in every table
the two go together.
-/

namespace Ovni

/-- An entry of a table, at its category and value. -/
structure SimpleEntry (K σ : Type) where
  c : Char
  v : Char
  chan : K
  action : SimpleAction
  st : σ

/-- A table: it has one entry for an event, and what an event opens is what another one
closes. -/
structure EventTable (K σ : Type) where
  rows : List (SimpleEntry K σ)
  nodup : (rows.map fun row => (row.c, row.v)).Nodup
  paired : ∀ row ∈ rows, row.action = .push →
    ∃ row' ∈ rows, row'.action = .pop ∧ row'.chan = row.chan ∧ row'.st = row.st

/-! ## MPI -/

/-- `enum mpi_chan`. -/
inductive MpiChan where
  | function
  deriving DecidableEq

/-- `enum mpi_function_values`. -/
inductive MpiFunction where
  | init | initThread | finalize | wait | waitall | waitany | waitsome | test | testall
  | testany | testsome | recv | send | bsend | rsend | ssend | sendrecv | sendrecvReplace
  | irecv | isend | ibsend | irsend | issend | isendrecv | isendrecvReplace | allgather
  | allreduce | alltoall | barrier | bcast | gather | reduce | reduceScatter
  | reduceScatterBlock | scatter | scan | exscan | iallgather | iallreduce | ialltoall
  | ibarrier | ibcast | igather | ireduce | ireduceScatter | ireduceScatterBlock | iscatter
  | iscan | iexscan
  deriving DecidableEq

/-- The number of a function. -/
def MpiFunction.toInt (st : MpiFunction) : Int := st.ctorIdx + 1

/-- `fn_table` of `mpi/event.c`. -/
def mpiTable : EventTable MpiChan MpiFunction where
  rows :=
    [⟨'U', 'i', .function, .push, .init⟩, ⟨'U', 'I', .function, .pop, .init⟩,
     ⟨'U', 't', .function, .push, .initThread⟩, ⟨'U', 'T', .function, .pop, .initThread⟩,
     ⟨'U', 'f', .function, .push, .finalize⟩, ⟨'U', 'F', .function, .pop, .finalize⟩,
     ⟨'W', '[', .function, .push, .wait⟩, ⟨'W', ']', .function, .pop, .wait⟩,
     ⟨'W', 'a', .function, .push, .waitall⟩, ⟨'W', 'A', .function, .pop, .waitall⟩,
     ⟨'W', 'y', .function, .push, .waitany⟩, ⟨'W', 'Y', .function, .pop, .waitany⟩,
     ⟨'W', 's', .function, .push, .waitsome⟩, ⟨'W', 'S', .function, .pop, .waitsome⟩,
     ⟨'T', '[', .function, .push, .test⟩, ⟨'T', ']', .function, .pop, .test⟩,
     ⟨'T', 'a', .function, .push, .testall⟩, ⟨'T', 'A', .function, .pop, .testall⟩,
     ⟨'T', 'y', .function, .push, .testany⟩, ⟨'T', 'Y', .function, .pop, .testany⟩,
     ⟨'T', 's', .function, .push, .testsome⟩, ⟨'T', 'S', .function, .pop, .testsome⟩,
     ⟨'R', '[', .function, .push, .recv⟩, ⟨'R', ']', .function, .pop, .recv⟩,
     ⟨'R', 's', .function, .push, .sendrecv⟩, ⟨'R', 'S', .function, .pop, .sendrecv⟩,
     ⟨'R', 'o', .function, .push, .sendrecvReplace⟩, ⟨'R', 'O', .function, .pop, .sendrecvReplace⟩,
     ⟨'r', '[', .function, .push, .irecv⟩, ⟨'r', ']', .function, .pop, .irecv⟩,
     ⟨'r', 's', .function, .push, .isendrecv⟩, ⟨'r', 'S', .function, .pop, .isendrecv⟩,
     ⟨'r', 'o', .function, .push, .isendrecvReplace⟩,
     ⟨'r', 'O', .function, .pop, .isendrecvReplace⟩, ⟨'S', '[', .function, .push, .send⟩,
     ⟨'S', ']', .function, .pop, .send⟩, ⟨'S', 'b', .function, .push, .bsend⟩,
     ⟨'S', 'B', .function, .pop, .bsend⟩, ⟨'S', 'r', .function, .push, .rsend⟩,
     ⟨'S', 'R', .function, .pop, .rsend⟩, ⟨'S', 's', .function, .push, .ssend⟩,
     ⟨'S', 'S', .function, .pop, .ssend⟩, ⟨'s', '[', .function, .push, .isend⟩,
     ⟨'s', ']', .function, .pop, .isend⟩, ⟨'s', 'b', .function, .push, .ibsend⟩,
     ⟨'s', 'B', .function, .pop, .ibsend⟩, ⟨'s', 'r', .function, .push, .irsend⟩,
     ⟨'s', 'R', .function, .pop, .irsend⟩, ⟨'s', 's', .function, .push, .issend⟩,
     ⟨'s', 'S', .function, .pop, .issend⟩, ⟨'A', 'g', .function, .push, .allgather⟩,
     ⟨'A', 'G', .function, .pop, .allgather⟩, ⟨'A', 'r', .function, .push, .allreduce⟩,
     ⟨'A', 'R', .function, .pop, .allreduce⟩, ⟨'A', 'a', .function, .push, .alltoall⟩,
     ⟨'A', 'A', .function, .pop, .alltoall⟩, ⟨'a', 'g', .function, .push, .iallgather⟩,
     ⟨'a', 'G', .function, .pop, .iallgather⟩, ⟨'a', 'r', .function, .push, .iallreduce⟩,
     ⟨'a', 'R', .function, .pop, .iallreduce⟩, ⟨'a', 'a', .function, .push, .ialltoall⟩,
     ⟨'a', 'A', .function, .pop, .ialltoall⟩, ⟨'C', 'b', .function, .push, .barrier⟩,
     ⟨'C', 'B', .function, .pop, .barrier⟩, ⟨'C', 's', .function, .push, .scan⟩,
     ⟨'C', 'S', .function, .pop, .scan⟩, ⟨'C', 'e', .function, .push, .exscan⟩,
     ⟨'C', 'E', .function, .pop, .exscan⟩, ⟨'c', 'b', .function, .push, .ibarrier⟩,
     ⟨'c', 'B', .function, .pop, .ibarrier⟩, ⟨'c', 's', .function, .push, .iscan⟩,
     ⟨'c', 'S', .function, .pop, .iscan⟩, ⟨'c', 'e', .function, .push, .iexscan⟩,
     ⟨'c', 'E', .function, .pop, .iexscan⟩, ⟨'D', 'b', .function, .push, .bcast⟩,
     ⟨'D', 'B', .function, .pop, .bcast⟩, ⟨'D', 'g', .function, .push, .gather⟩,
     ⟨'D', 'G', .function, .pop, .gather⟩, ⟨'D', 's', .function, .push, .scatter⟩,
     ⟨'D', 'S', .function, .pop, .scatter⟩, ⟨'d', 'b', .function, .push, .ibcast⟩,
     ⟨'d', 'B', .function, .pop, .ibcast⟩, ⟨'d', 'g', .function, .push, .igather⟩,
     ⟨'d', 'G', .function, .pop, .igather⟩, ⟨'d', 's', .function, .push, .iscatter⟩,
     ⟨'d', 'S', .function, .pop, .iscatter⟩, ⟨'E', '[', .function, .push, .reduce⟩,
     ⟨'E', ']', .function, .pop, .reduce⟩, ⟨'E', 's', .function, .push, .reduceScatter⟩,
     ⟨'E', 'S', .function, .pop, .reduceScatter⟩, ⟨'E', 'b', .function, .push, .reduceScatterBlock⟩,
     ⟨'E', 'B', .function, .pop, .reduceScatterBlock⟩, ⟨'e', '[', .function, .push, .ireduce⟩,
     ⟨'e', ']', .function, .pop, .ireduce⟩, ⟨'e', 's', .function, .push, .ireduceScatter⟩,
     ⟨'e', 'S', .function, .pop, .ireduceScatter⟩,
     ⟨'e', 'b', .function, .push, .ireduceScatterBlock⟩,
     ⟨'e', 'B', .function, .pop, .ireduceScatterBlock⟩]
  nodup := by decide +kernel
  paired := by decide +kernel

/-! ## TAMPI -/

/-- `enum tampi_chan`. -/
inductive TampiChan where
  | subsystem
  deriving DecidableEq

/-- `enum tampi_ss_values`. -/
inductive TampiSs where
  | commIssueNonblocking | globalArrayCheck | libraryInterface | libraryPolling | queueAdd
  | queueTransfer | requestCompleted | requestTest | requestTestall | requestTestsome
  | ticketCreate | ticketWait
  deriving DecidableEq

def TampiSs.toInt (st : TampiSs) : Int := st.ctorIdx + 1

/-- `ss_table` of `tampi/event.c`. -/
def tampiTable : EventTable TampiChan TampiSs where
  rows :=
    [⟨'C', 'i', .subsystem, .push, .commIssueNonblocking⟩,
     ⟨'C', 'I', .subsystem, .pop, .commIssueNonblocking⟩,
     ⟨'G', 'c', .subsystem, .push, .globalArrayCheck⟩,
     ⟨'G', 'C', .subsystem, .pop, .globalArrayCheck⟩,
     ⟨'L', 'i', .subsystem, .push, .libraryInterface⟩,
     ⟨'L', 'I', .subsystem, .pop, .libraryInterface⟩,
     ⟨'L', 'p', .subsystem, .push, .libraryPolling⟩, ⟨'L', 'P', .subsystem, .pop, .libraryPolling⟩,
     ⟨'Q', 'a', .subsystem, .push, .queueAdd⟩, ⟨'Q', 'A', .subsystem, .pop, .queueAdd⟩,
     ⟨'Q', 't', .subsystem, .push, .queueTransfer⟩, ⟨'Q', 'T', .subsystem, .pop, .queueTransfer⟩,
     ⟨'R', 'c', .subsystem, .push, .requestCompleted⟩,
     ⟨'R', 'C', .subsystem, .pop, .requestCompleted⟩, ⟨'R', 't', .subsystem, .push, .requestTest⟩,
     ⟨'R', 'T', .subsystem, .pop, .requestTest⟩, ⟨'R', 'a', .subsystem, .push, .requestTestall⟩,
     ⟨'R', 'A', .subsystem, .pop, .requestTestall⟩, ⟨'R', 's', .subsystem, .push, .requestTestsome⟩,
     ⟨'R', 'S', .subsystem, .pop, .requestTestsome⟩, ⟨'T', 'c', .subsystem, .push, .ticketCreate⟩,
     ⟨'T', 'C', .subsystem, .pop, .ticketCreate⟩, ⟨'T', 'w', .subsystem, .push, .ticketWait⟩,
     ⟨'T', 'W', .subsystem, .pop, .ticketWait⟩]
  nodup := by decide +kernel
  paired := by decide +kernel

/-! ## NODES -/

/-- `enum nodes_chan`. -/
inductive NodesChan where
  | subsystem
  deriving DecidableEq

/-- `enum nodes_ss_values`. -/
inductive NodesSs where
  | register | unregister | if0Wait | if0Inline | taskwait | create | submit | spawn
  deriving DecidableEq

def NodesSs.toInt (st : NodesSs) : Int := st.ctorIdx + 1

/-- `ss_table` of `nodes/event.c`. -/
def nodesTable : EventTable NodesChan NodesSs where
  rows :=
    [⟨'R', '[', .subsystem, .push, .register⟩, ⟨'R', ']', .subsystem, .pop, .register⟩,
     ⟨'U', '[', .subsystem, .push, .unregister⟩, ⟨'U', ']', .subsystem, .pop, .unregister⟩,
     ⟨'W', '[', .subsystem, .push, .if0Wait⟩, ⟨'W', ']', .subsystem, .pop, .if0Wait⟩,
     ⟨'I', '[', .subsystem, .push, .if0Inline⟩, ⟨'I', ']', .subsystem, .pop, .if0Inline⟩,
     ⟨'T', '[', .subsystem, .push, .taskwait⟩, ⟨'T', ']', .subsystem, .pop, .taskwait⟩,
     ⟨'C', '[', .subsystem, .push, .create⟩, ⟨'C', ']', .subsystem, .pop, .create⟩,
     ⟨'S', '[', .subsystem, .push, .submit⟩, ⟨'S', ']', .subsystem, .pop, .submit⟩,
     ⟨'P', '[', .subsystem, .push, .spawn⟩, ⟨'P', ']', .subsystem, .pop, .spawn⟩]
  nodup := by decide +kernel
  paired := by decide +kernel

/-! ## OpenMP -/

/-- `enum openmp_function_values`. -/
inductive OpenmpFunction where
  | barrierFork | barrierJoin | barrierPlain | barrierSpinWait | barrierTask | criticalAcq
  | criticalRel | criticalSection | wdDistribute | wdForDynamicChunk | wdForDynamicInit
  | wdForStatic | wdSection | wdSingle | taskAlloc | taskCheckDeps | taskDupAlloc
  | taskReleaseDeps | taskRun | taskRunIf0 | taskSchedule | taskTaskgroup | taskTaskwait
  | taskTaskwaitDeps | taskTaskyield | rtAttached | rtForkCall | rtInit
  | rtMicrotaskInternal | rtMicrotaskUser | rtWorkerLoop
  deriving DecidableEq

def OpenmpFunction.toInt (st : OpenmpFunction) : Int := st.ctorIdx + 1

/-- `fn_table` of `openmp/event.c`. -/
def openmpTable : EventTable OpenmpChan OpenmpFunction where
  rows :=
    [⟨'B', 'b', .subsystem, .push, .barrierPlain⟩, ⟨'B', 'B', .subsystem, .pop, .barrierPlain⟩,
     ⟨'B', 'j', .subsystem, .push, .barrierJoin⟩, ⟨'B', 'J', .subsystem, .pop, .barrierJoin⟩,
     ⟨'B', 'f', .subsystem, .push, .barrierFork⟩, ⟨'B', 'F', .subsystem, .pop, .barrierFork⟩,
     ⟨'B', 't', .subsystem, .push, .barrierTask⟩, ⟨'B', 'T', .subsystem, .pop, .barrierTask⟩,
     ⟨'B', 's', .subsystem, .ign, .barrierSpinWait⟩, ⟨'B', 'S', .subsystem, .ign, .barrierSpinWait⟩,
     ⟨'I', 'a', .subsystem, .push, .criticalAcq⟩, ⟨'I', 'A', .subsystem, .pop, .criticalAcq⟩,
     ⟨'I', 'r', .subsystem, .push, .criticalRel⟩, ⟨'I', 'R', .subsystem, .pop, .criticalRel⟩,
     ⟨'I', '[', .subsystem, .push, .criticalSection⟩,
     ⟨'I', ']', .subsystem, .pop, .criticalSection⟩, ⟨'W', 'd', .subsystem, .push, .wdDistribute⟩,
     ⟨'W', 'D', .subsystem, .pop, .wdDistribute⟩, ⟨'W', 'c', .subsystem, .push, .wdForDynamicChunk⟩,
     ⟨'W', 'C', .subsystem, .pop, .wdForDynamicChunk⟩,
     ⟨'W', 'y', .subsystem, .push, .wdForDynamicInit⟩,
     ⟨'W', 'Y', .subsystem, .pop, .wdForDynamicInit⟩, ⟨'W', 's', .subsystem, .push, .wdForStatic⟩,
     ⟨'W', 'S', .subsystem, .pop, .wdForStatic⟩, ⟨'W', 'e', .subsystem, .push, .wdSection⟩,
     ⟨'W', 'E', .subsystem, .pop, .wdSection⟩, ⟨'W', 'i', .subsystem, .push, .wdSingle⟩,
     ⟨'W', 'I', .subsystem, .pop, .wdSingle⟩, ⟨'T', 'a', .subsystem, .push, .taskAlloc⟩,
     ⟨'T', 'A', .subsystem, .pop, .taskAlloc⟩, ⟨'T', 'c', .subsystem, .push, .taskCheckDeps⟩,
     ⟨'T', 'C', .subsystem, .pop, .taskCheckDeps⟩, ⟨'T', 'd', .subsystem, .push, .taskDupAlloc⟩,
     ⟨'T', 'D', .subsystem, .pop, .taskDupAlloc⟩, ⟨'T', 'r', .subsystem, .push, .taskReleaseDeps⟩,
     ⟨'T', 'R', .subsystem, .pop, .taskReleaseDeps⟩, ⟨'T', '[', .subsystem, .push, .taskRun⟩,
     ⟨'T', ']', .subsystem, .pop, .taskRun⟩, ⟨'T', 'i', .subsystem, .push, .taskRunIf0⟩,
     ⟨'T', 'I', .subsystem, .pop, .taskRunIf0⟩, ⟨'T', 's', .subsystem, .push, .taskSchedule⟩,
     ⟨'T', 'S', .subsystem, .pop, .taskSchedule⟩, ⟨'T', 'g', .subsystem, .push, .taskTaskgroup⟩,
     ⟨'T', 'G', .subsystem, .pop, .taskTaskgroup⟩, ⟨'T', 't', .subsystem, .push, .taskTaskwait⟩,
     ⟨'T', 'T', .subsystem, .pop, .taskTaskwait⟩, ⟨'T', 'w', .subsystem, .push, .taskTaskwaitDeps⟩,
     ⟨'T', 'W', .subsystem, .pop, .taskTaskwaitDeps⟩, ⟨'T', 'y', .subsystem, .push, .taskTaskyield⟩,
     ⟨'T', 'Y', .subsystem, .pop, .taskTaskyield⟩, ⟨'A', '[', .subsystem, .push, .rtAttached⟩,
     ⟨'A', ']', .subsystem, .pop, .rtAttached⟩, ⟨'M', 'i', .subsystem, .push, .rtMicrotaskInternal⟩,
     ⟨'M', 'I', .subsystem, .pop, .rtMicrotaskInternal⟩,
     ⟨'M', 'u', .subsystem, .push, .rtMicrotaskUser⟩,
     ⟨'M', 'U', .subsystem, .pop, .rtMicrotaskUser⟩, ⟨'H', '[', .subsystem, .push, .rtWorkerLoop⟩,
     ⟨'H', ']', .subsystem, .pop, .rtWorkerLoop⟩, ⟨'C', 'i', .subsystem, .push, .rtInit⟩,
     ⟨'C', 'I', .subsystem, .pop, .rtInit⟩, ⟨'C', 'f', .subsystem, .push, .rtForkCall⟩,
     ⟨'C', 'F', .subsystem, .pop, .rtForkCall⟩]
  nodup := by decide +kernel
  paired := by decide +kernel

/-! ## nOS-V -/

/-- `enum nosv_ss_values` and `enum nosv_progress`; the state of an ignored event is not read. -/
inductive NosvState where
  | schedHungry | schedServing | schedSubmitting | memAllocating | memFreeing | taskBody
  | apiCreate | apiDestroy | apiSubmit | apiPause | apiYield | apiWaitfor | apiSchedpoint
  | apiAttach | apiDetach | apiMutexLock | apiMutexTrylock | apiMutexUnlock | apiBarrierWait
  | apiCondWait | apiCondSignal | apiCondBcast | worker | delegate | progressing | resting
  | absorbing | unused
  deriving DecidableEq

/-- The number of a state; the first one of the subsystems is 6. -/
def NosvState.toInt (st : NosvState) : Int :=
  match st with
  | .progressing => 100
  | .resting => 101
  | .absorbing => 102
  | .unused => -1
  | st => st.ctorIdx + 6

/-- `ss_table` of `nosv/event.c`. -/
def nosvTable : EventTable NosvChan NosvState where
  rows :=
    [⟨'S', 'h', .subsystem, .push, .schedHungry⟩, ⟨'S', 'f', .subsystem, .pop, .schedHungry⟩,
     ⟨'S', '[', .subsystem, .push, .schedServing⟩, ⟨'S', ']', .subsystem, .pop, .schedServing⟩,
     ⟨'S', 'N', .subsystem, .push, .schedServing⟩, ⟨'S', 'n', .subsystem, .pop, .schedServing⟩,
     ⟨'S', '@', .subsystem, .ign, .unused⟩, ⟨'S', 'r', .subsystem, .ign, .unused⟩,
     ⟨'S', 's', .subsystem, .ign, .unused⟩, ⟨'U', '[', .subsystem, .push, .schedSubmitting⟩,
     ⟨'U', ']', .subsystem, .pop, .schedSubmitting⟩, ⟨'M', 'a', .subsystem, .push, .memAllocating⟩,
     ⟨'M', 'A', .subsystem, .pop, .memAllocating⟩, ⟨'M', 'f', .subsystem, .push, .memFreeing⟩,
     ⟨'M', 'F', .subsystem, .pop, .memFreeing⟩, ⟨'A', 'r', .subsystem, .push, .apiCreate⟩,
     ⟨'A', 'R', .subsystem, .pop, .apiCreate⟩, ⟨'A', 'd', .subsystem, .push, .apiDestroy⟩,
     ⟨'A', 'D', .subsystem, .pop, .apiDestroy⟩, ⟨'A', 's', .subsystem, .push, .apiSubmit⟩,
     ⟨'A', 'S', .subsystem, .pop, .apiSubmit⟩, ⟨'A', 'p', .subsystem, .push, .apiPause⟩,
     ⟨'A', 'P', .subsystem, .pop, .apiPause⟩, ⟨'A', 'y', .subsystem, .push, .apiYield⟩,
     ⟨'A', 'Y', .subsystem, .pop, .apiYield⟩, ⟨'A', 'w', .subsystem, .push, .apiWaitfor⟩,
     ⟨'A', 'W', .subsystem, .pop, .apiWaitfor⟩, ⟨'A', 'c', .subsystem, .push, .apiSchedpoint⟩,
     ⟨'A', 'C', .subsystem, .pop, .apiSchedpoint⟩, ⟨'A', 'a', .subsystem, .push, .apiAttach⟩,
     ⟨'A', 'A', .subsystem, .pop, .apiAttach⟩, ⟨'A', 'e', .subsystem, .push, .apiDetach⟩,
     ⟨'A', 'E', .subsystem, .pop, .apiDetach⟩, ⟨'A', 'l', .subsystem, .push, .apiMutexLock⟩,
     ⟨'A', 'L', .subsystem, .pop, .apiMutexLock⟩, ⟨'A', 't', .subsystem, .push, .apiMutexTrylock⟩,
     ⟨'A', 'T', .subsystem, .pop, .apiMutexTrylock⟩, ⟨'A', 'u', .subsystem, .push, .apiMutexUnlock⟩,
     ⟨'A', 'U', .subsystem, .pop, .apiMutexUnlock⟩, ⟨'A', 'b', .subsystem, .push, .apiBarrierWait⟩,
     ⟨'A', 'B', .subsystem, .pop, .apiBarrierWait⟩, ⟨'A', 'o', .subsystem, .push, .apiCondWait⟩,
     ⟨'A', 'O', .subsystem, .pop, .apiCondWait⟩, ⟨'A', 'g', .subsystem, .push, .apiCondSignal⟩,
     ⟨'A', 'G', .subsystem, .pop, .apiCondSignal⟩, ⟨'A', 'k', .subsystem, .push, .apiCondBcast⟩,
     ⟨'A', 'K', .subsystem, .pop, .apiCondBcast⟩, ⟨'H', 'a', .subsystem, .ign, .unused⟩,
     ⟨'H', 'A', .subsystem, .ign, .unused⟩, ⟨'H', 'w', .subsystem, .push, .worker⟩,
     ⟨'H', 'W', .subsystem, .pop, .worker⟩, ⟨'H', 'd', .subsystem, .push, .delegate⟩,
     ⟨'H', 'D', .subsystem, .pop, .delegate⟩, ⟨'P', 'p', .idle, .set, .progressing⟩,
     ⟨'P', 'r', .idle, .set, .resting⟩, ⟨'P', 'a', .idle, .set, .absorbing⟩]
  nodup := by decide +kernel
  paired := by decide +kernel

/-! ## Nanos6 -/

/-- `enum nanos6_ss_state`, `enum nanos6_thread_type` and `enum nanos6_progress`. -/
inductive Nanos6State where
  | taskBody | unknownSs | taskCreating | taskSubmit | taskSpawning | taskFor | schedAdding
  | schedProcessing | schedServing | depReg | depUnreg | blkTaskwait | blkWaitfor
  | blkBlocking | blkUnblocking | allocating | freeing | handlingTask | workerLoop
  | switchTo | migrate | suspend | resume | sponge | thLeader | thMain | thWorker
  | thExternal | progressing | resting | absorbing | unused
  deriving DecidableEq

/-- The number of a state; each of the three enumerations has its own channel. -/
def Nanos6State.toInt (st : Nanos6State) : Int :=
  match st with
  | .thLeader => 1
  | .thMain => 2
  | .thWorker => 3
  | .thExternal => 4
  | .progressing => 100
  | .resting => 101
  | .absorbing => 102
  | .unused => -1
  | st => st.ctorIdx + 1

/-- `ss_table` of `nanos6/event.c`. -/
def nanos6Table : EventTable Nanos6Chan Nanos6State where
  rows :=
    [⟨'W', '[', .subsystem, .push, .workerLoop⟩, ⟨'W', ']', .subsystem, .pop, .workerLoop⟩,
     ⟨'W', 't', .subsystem, .push, .handlingTask⟩, ⟨'W', 'T', .subsystem, .pop, .handlingTask⟩,
     ⟨'W', 'w', .subsystem, .push, .switchTo⟩, ⟨'W', 'W', .subsystem, .pop, .switchTo⟩,
     ⟨'W', 'm', .subsystem, .push, .migrate⟩, ⟨'W', 'M', .subsystem, .pop, .migrate⟩,
     ⟨'W', 's', .subsystem, .push, .suspend⟩, ⟨'W', 'S', .subsystem, .pop, .suspend⟩,
     ⟨'W', 'r', .subsystem, .push, .resume⟩, ⟨'W', 'R', .subsystem, .pop, .resume⟩,
     ⟨'W', 'g', .subsystem, .push, .sponge⟩, ⟨'W', 'G', .subsystem, .pop, .sponge⟩,
     ⟨'W', '*', .subsystem, .ign, .unused⟩, ⟨'P', 'p', .idle, .set, .progressing⟩,
     ⟨'P', 'r', .idle, .set, .resting⟩, ⟨'P', 'a', .idle, .set, .absorbing⟩,
     ⟨'C', '[', .subsystem, .push, .taskCreating⟩, ⟨'C', ']', .subsystem, .pop, .taskCreating⟩,
     ⟨'U', '[', .subsystem, .push, .taskSubmit⟩, ⟨'U', ']', .subsystem, .pop, .taskSubmit⟩,
     ⟨'F', '[', .subsystem, .push, .taskSpawning⟩, ⟨'F', ']', .subsystem, .pop, .taskSpawning⟩,
     ⟨'O', '[', .subsystem, .push, .taskFor⟩, ⟨'O', ']', .subsystem, .pop, .taskFor⟩,
     ⟨'t', '[', .subsystem, .ign, .unused⟩, ⟨'t', ']', .subsystem, .ign, .unused⟩,
     ⟨'M', 'a', .subsystem, .push, .allocating⟩, ⟨'M', 'A', .subsystem, .pop, .allocating⟩,
     ⟨'M', 'f', .subsystem, .push, .freeing⟩, ⟨'M', 'F', .subsystem, .pop, .freeing⟩,
     ⟨'D', 'r', .subsystem, .push, .depReg⟩, ⟨'D', 'R', .subsystem, .pop, .depReg⟩,
     ⟨'D', 'u', .subsystem, .push, .depUnreg⟩, ⟨'D', 'U', .subsystem, .pop, .depUnreg⟩,
     ⟨'S', '[', .subsystem, .push, .schedServing⟩, ⟨'S', ']', .subsystem, .pop, .schedServing⟩,
     ⟨'S', 'a', .subsystem, .push, .schedAdding⟩, ⟨'S', 'A', .subsystem, .pop, .schedAdding⟩,
     ⟨'S', 'p', .subsystem, .push, .schedProcessing⟩,
     ⟨'S', 'P', .subsystem, .pop, .schedProcessing⟩, ⟨'S', '@', .subsystem, .ign, .unused⟩,
     ⟨'S', 'r', .subsystem, .ign, .unused⟩, ⟨'S', 's', .subsystem, .ign, .unused⟩,
     ⟨'B', 'b', .subsystem, .push, .blkBlocking⟩, ⟨'B', 'B', .subsystem, .pop, .blkBlocking⟩,
     ⟨'B', 'u', .subsystem, .push, .blkUnblocking⟩, ⟨'B', 'U', .subsystem, .pop, .blkUnblocking⟩,
     ⟨'B', 'w', .subsystem, .push, .blkTaskwait⟩, ⟨'B', 'W', .subsystem, .pop, .blkTaskwait⟩,
     ⟨'B', 'f', .subsystem, .push, .blkWaitfor⟩, ⟨'B', 'F', .subsystem, .pop, .blkWaitfor⟩,
     ⟨'H', 'e', .thread, .push, .thExternal⟩, ⟨'H', 'E', .thread, .pop, .thExternal⟩,
     ⟨'H', 'w', .thread, .push, .thWorker⟩, ⟨'H', 'W', .thread, .pop, .thWorker⟩,
     ⟨'H', 'l', .thread, .push, .thLeader⟩, ⟨'H', 'L', .thread, .pop, .thLeader⟩,
     ⟨'H', 'm', .thread, .push, .thMain⟩, ⟨'H', 'M', .thread, .pop, .thMain⟩]
  nodup := by decide +kernel
  paired := by decide +kernel

end Ovni
