import Ovni.Event
import Ovni.Region.Tables

/-!
# Regions

The events of the models that mark regions of the code of a thread: `process_ev` of MPI,
TAMPI, NODES, OpenMP, nOS-V and Nanos6, and the context switches of the kernel model.  The
events of tasks and of counters have handlers of their own, which `process_ev` is given.  At
the end of a trace the linter looks for regions that were left open.

A handler tells what an event does: the writes of the channels of the thread, and the mark
of a thread out of its CPU.
-/

namespace Ovni

open Ovni.Lib

/-- An event of a model, with its payload as words. -/
structure ModelEvent (θ : Type) where
  thread : θ
  c : Char
  v : Char
  payloadSize : Nat
  u32 : Nat → UInt32
  u64 : Nat → UInt64

/-- What an event of a thread does, by the state of the thread. -/
abbrev Handler (θ γ ξ : Type) :=
  Thread γ → ModelEvent θ → Except EmuFault (List (EmuAct θ γ ξ))

section

variable {θ γ π ℓ ξ μ ν τ K σ : Type}

/-- The entry of an event, if its action is not zero. -/
def findEntry (table : EventTable K σ) (c v : Char) : Option (SimpleEntry K σ) :=
  table.rows.find? fun row => row.c = c ∧ row.v = v

/-- `simple`: the channel `ch` of the thread is changed by the entry of the event. -/
def simple (table : EventTable K σ) (num : σ → Int) (ch : θ → K → ξ) (unknown : String)
    (ev : ModelEvent θ) : Except EmuFault (List (EmuAct θ γ ξ)) :=
  match findEntry table ev.c ev.v with
  | none => .error (.fail unknown)
  | some row =>
      .ok ((simpleOps (.model (ch ev.thread row.chan)) row.action (num row.st)).map .write)

theorem findEntry_iff {table : EventTable K σ} {c v : Char} {row : SimpleEntry K σ} :
    findEntry table c v = some row ↔ row ∈ table.rows ∧ row.c = c ∧ row.v = v := by
  constructor
  · intro h
    have hkey := List.find?_some h
    simp only [decide_eq_true_eq] at hkey
    exact ⟨List.mem_of_find?_eq_some h, hkey⟩
  · rintro ⟨hmem, hc, hv⟩
    cases h : findEntry table c v with
    | none =>
        have hnone := List.find?_eq_none.mp h row hmem
        simp [hc, hv] at hnone
    | some row' =>
        have hmem' := List.mem_of_find?_eq_some h
        have hkey := List.find?_some h
        simp only [decide_eq_true_eq] at hkey
        have heq := List.inj_on_of_nodup_map table.nodup hmem' hmem (by rw [hkey.1, hkey.2, hc, hv])
        rw [heq]

/-- The entry of a category and value is the only one. -/
theorem EventTable.exists_row (table : EventTable K σ) {row : SimpleEntry K σ}
    (hrow : row ∈ table.rows) {P : SimpleEntry K σ → Prop} :
    (∃ row' ∈ table.rows, row'.c = row.c ∧ row'.v = row.v ∧ P row') ↔ P row := by
  constructor
  · rintro ⟨row', hrow', hc, hv, h⟩
    have heq := List.inj_on_of_nodup_map table.nodup hrow' hrow (by rw [hc, hv])
    rwa [heq] at h
  · intro h
    exact ⟨row, hrow, rfl, rfl, h⟩

theorem simple_iff {table : EventTable K σ} {num : σ → Int} {ch : θ → K → ξ} {unknown : String}
    {ev : ModelEvent θ} {acts : List (EmuAct θ γ ξ)} :
    simple table num ch unknown ev = .ok acts ↔ ∃ row ∈ table.rows, row.c = ev.c ∧ row.v = ev.v ∧
      acts = (simpleOps (.model (ch ev.thread row.chan)) row.action (num row.st)).map .write := by
  unfold simple
  constructor
  · intro h
    cases hrow : findEntry table ev.c ev.v with
    | none =>
        rw [hrow] at h
        cases h
    | some row =>
        rw [hrow] at h
        obtain ⟨hmem, hc, hv⟩ := findEntry_iff.mp hrow
        exact ⟨row, hmem, hc, hv, (Except.ok.inj h).symm⟩
  · rintro ⟨row, hmem, hc, hv, rfl⟩
    rw [findEntry_iff.mpr ⟨hmem, hc, hv⟩]

/-- `process_ev` of MPI. -/
def mpiEvent (ch : θ → MpiChan → ξ) : Handler θ γ ξ := fun th ev => do
  if th.isRunning = false then throw (.fail "current thread not running")
  simple mpiTable MpiFunction.toInt ch "unknown mpi function event" ev

/-- `process_ev` of TAMPI. -/
def tampiEvent (ch : θ → TampiChan → ξ) : Handler θ γ ξ := fun th ev => do
  if th.isRunning = false then throw (.fail "current thread not running")
  simple tampiTable TampiSs.toInt ch "unknown TAMPI subsystem event" ev

/-- `process_ev` of NODES. -/
def nodesEvent (ch : θ → NodesChan → ξ) : Handler θ γ ξ := fun th ev => do
  if th.isRunning = false then throw (.fail "current thread not running")
  if ev.c ∈ ['R', 'U', 'W', 'I', 'T', 'C', 'S', 'P'] then
    simple nodesTable NodesSs.toInt ch "unknown NODES subsystem event" ev
  else throw (.fail "unknown NODES event category")

/-- `process_ev` of OpenMP; `simple` looks at the state of the thread once more. -/
def openmpEvent (ch : θ → OpenmpChan → ξ) (preTask preType preWorksharing : Handler θ γ ξ) :
    Handler θ γ ξ := fun th ev => do
  if th.isRunning = false then throw (.fail "current thread not running")
  if ev.c ∈ ['B', 'I', 'W', 'T', 'A', 'M', 'H', 'C'] then
    if th.isRunning = false then throw (.fail "current thread not running")
    simple openmpTable OpenmpFunction.toInt ch "unknown openmp function event" ev
  else if ev.c = 'P' then preTask th ev
  else if ev.c = 'O' then preType th ev
  else if ev.c = 'Q' then preWorksharing th ev
  else throw (.fail "unknown event category")

/-- `process_ev` of nOS-V. -/
def nosvEvent (ch : θ → NosvChan → ξ) (preTask preType hwcEvent : Handler θ γ ξ) :
    Handler θ γ ξ := fun th ev => do
  if th.isActive = false then throw (.fail "current thread not active")
  if th.isOutOfCpu then throw (.fail "current thread out of CPU")
  if ev.c ∈ ['S', 'U', 'M', 'H', 'A', 'P'] then
    simple nosvTable NosvState.toInt ch "unknown nOS-V subsystem event" ev
  else if ev.c = 'T' then preTask th ev
  else if ev.c = 'Y' then preType th ev
  else if ev.c = 'W' then hwcEvent th ev
  else throw (.fail "unknown nOS-V event category")

/-- `process_ev` of Nanos6. -/
def nanos6Event (ch : θ → Nanos6Chan → ξ) (preTask preType : Handler θ γ ξ) : Handler θ γ ξ :=
  fun th ev => do
    if th.isActive = false then throw (.fail "current thread not active")
    if ev.c ∈ ['C', 'S', 'U', 'F', 'O', 't', 'H', 'D', 'B', 'W', 'M', 'P'] then
      simple nanos6Table Nanos6State.toInt ch "unknown Nanos6 subsystem event" ev
    else if ev.c = 'T' then preTask th ev
    else if ev.c = 'Y' then preType th ev
    else throw (.fail "unknown Nanos6 event category")

/-- `ST_CSOUT`. -/
def stCsout : Int := 3

/-- `process_ev` of the kernel model, with `context_switch`.  The mark of the thread changes
before its channel. -/
def kernelEvent (cs : θ → ξ) : Handler θ γ ξ := fun _ ev =>
  if ev.c = 'C' then
    match ev.v with
    | 'O' => .ok [.outOfCpu ev.thread true, .write (.push (.model (cs ev.thread)) (.int64 stCsout))]
    | 'I' => .ok [.outOfCpu ev.thread false, .write (.pop (.model (cs ev.thread)) (.int64 stCsout))]
    | _ => .error (.fail "unknown context switch event")
  else .error (.fail "unknown Kernel event category")

variable [DecidableEq θ] [DecidableEq γ] [DecidableEq ξ]

/-- `model_event`, with the handler of the model. -/
def handlerEvent (sys : System θ γ π ℓ) (handler : Handler θ γ ξ) (ev : ModelEvent θ)
    (e : Emu θ γ ξ μ ν τ) : Except EmuFault (Emu θ γ ξ μ ν τ) := do
  runActs sys (← handler (e.th ev.thread) ev) e

/-! ## The linter -/

/-- `end_lint`: no thread is left with regions on its channel. -/
def endLint (threads : List θ) (ss : θ → ξ) (e : Emu θ γ ξ μ ν τ) : Except EmuFault Unit :=
  threads.forM fun t =>
    if 0 < (e.world.bay.chan (.model (ss t))).stack.length then
      .error (.fail "thread ended with stacked regions")
    else .ok ()

/-- What `model_mpi_finish` checks, and those of TAMPI, NODES, OpenMP and Nanos6: the trace is
only looked at in linter mode, and when it was read to the end. -/
def finishLint (linter finished : Bool) (threads : List θ) (ss : θ → ξ)
    (e : Emu θ γ ξ μ ν τ) : Except EmuFault Unit :=
  if linter ∧ finished then endLint threads ss e else .ok ()

/-- What `model_nosv_finish` checks: a trace that was not read to the end as well. -/
def nosvFinishLint (linter : Bool) (threads : List θ) (ss : θ → ξ)
    (e : Emu θ γ ξ μ ν τ) : Except EmuFault Unit :=
  if linter then endLint threads ss e else .ok ()

end

end Ovni
