import Ovni.Bay.Spec
import Ovni.Event
import Ovni.Mark.Model
import Ovni.Pcf.Model

/-!
# The hardware counters of nOS-V

`nosv/hwc.c`.  The threads give names to the counters in their metadata, by an index which
is the name of a JSON value, and the channels of all threads and CPUs are made from the
number of counters.  Reading an entry of an array that is not there, or the name of a
counter that has none, is a crash.
-/

namespace Ovni

/-! ## The data -/

/-- A channel of the counters: the one of a thread, or the output of a track of a thread or
of a CPU, with its `gindex` and the index of the counter. -/
inductive HwcChan where
  | thread (gindex index : Nat)
  | threadTrack (gindex index : Nat)
  | cpuTrack (gindex index : Nat)
  deriving DecidableEq

/-- `struct nosv_hwc_emu`; a name is `none` when it is null, and `values` is the length of
the buffer of values. -/
structure HwcEmu where
  name : List (Option Name)
  n : Nat
  values : Nat

/-- `struct nosv_hwc_thread`. -/
structure HwcThread where
  track : List HwcChan
  chan : List HwcChan
  n : Nat

/-- `struct nosv_hwc_cpu`. -/
structure HwcCpu where
  track : List HwcChan
  n : Nat

/-- The counters of the emulator, its threads and its CPUs. -/
structure Hwc where
  emu : HwcEmu
  threads : List HwcThread
  cpus : List HwcCpu

/-! ## hwc_create -/

/-- The index of a counter: a number and nothing after it, in `[0, 100)` as a `size_t`. -/
def hwcIndex (indexstr : Name) : Except EmuFault Nat :=
  match strtoll indexstr with
  | some (n, []) =>
      if 100 ≤ toSize n then .error (.fail "hwc index should be in [0, 100) range")
      else .ok (toSize n)
  | _ => .error (.fail "failed to parse hwc index")

/-- The name of a counter. -/
def hwcName (hwcval : JsonValue) : Except EmuFault Name := do
  let hwc ← orFail "json_value_get_object() failed" hwcval.getObject
  orFail "json_object_get_string() for name failed" (jsonGetString hwc (ascii "name"))

/-- `parse_hwc`. -/
def parseHwc (emu : HwcEmu) (item : Name × JsonValue) : Except EmuFault HwcEmu := do
  let index ← hwcIndex item.1
  if emu.n ≤ index then throw (.fail "hwc index exceeds allocated counters")
  let name ← hwcName item.2
  match emu.name[index]? with
  | none => throw .crash
  | some none => return { emu with name := emu.name.set index (some name) }
  | some (some old) =>
      if old ≠ name then throw (.fail "hwc already defined with another name")
      return emu

/-- `nosv.hwc` in the metadata of a thread, if it is an object. -/
def threadHwc (metadata : JsonObject) : JsonObject :=
  ((jsonGetObject metadata (ascii "nosv")).bind fun o => jsonGetObject o (ascii "hwc")).getD []

/-- The counters are allocated by the first thread that has some. -/
def allocHwc (emu : HwcEmu) (n : Nat) : Except EmuFault HwcEmu :=
  if emu.n = 0 then .ok { emu with name := List.replicate n none, n }
  else if emu.n ≠ n then .error (.fail "thread defines another number of hardware counters")
  else .ok emu

/-- `scan_thread`. -/
def scanThreadHwc (emu : HwcEmu) (metadata : JsonObject) : Except EmuFault HwcEmu := do
  let obj := threadHwc metadata
  -- No HWC in this thread, or an empty dictionary
  if obj = [] then return emu
  let emu ← allocHwc emu obj.length
  obj.foldlM parseHwc emu

/-- `bay_register` for each of some channels. -/
def registerAll (bay chans : List HwcChan) : Except EmuFault (List HwcChan) :=
  chans.foldlM (fun bay c => do
    if c ∈ bay then throw (.fail "bay_register failed")
    return bay ++ [c]) bay

/-- `create_thread_chan`, with the channels that are registered. -/
def createThreadChan (emu : HwcEmu) (r : List HwcThread × List HwcChan) (gindex : Nat) :
    Except EmuFault (List HwcThread × List HwcChan) := do
  let chan := (List.range emu.n).map (.thread gindex)
  let bay ← registerAll r.2 chan
  let track := (List.range emu.n).map (.threadTrack gindex)
  let bay ← registerAll bay track
  return (r.1 ++ [{ track, chan, n := emu.n }], bay)

/-- `init_cpu`. -/
def initCpu (emu : HwcEmu) (r : List HwcCpu × List HwcChan) (gindex : Nat) :
    Except EmuFault (List HwcCpu × List HwcChan) := do
  let track := (List.range emu.n).map (.cpuTrack gindex)
  let bay ← registerAll r.2 track
  return (r.1 ++ [{ track, n := emu.n }], bay)

/-- The first loop of `hwc_create`. -/
def scanThreadsHwc (threads : List JsonObject) : Except EmuFault HwcEmu :=
  threads.foldlM scanThreadHwc { name := [], n := 0, values := 0 }

/-- `hwc_create`, from the metadata of the threads and the number of CPUs. -/
def hwcCreate (threads : List JsonObject) (ncpus : Nat) : Except EmuFault Hwc := do
  let emu ← scanThreadsHwc threads
  -- Early exit if no counters found
  if emu.n = 0 then
    return { emu
             threads := List.replicate threads.length { track := [], chan := [], n := 0 }
             cpus := List.replicate ncpus { track := [], n := 0 } }
  let emu := { emu with values := emu.n }
  let (ths, bay) ← (List.range threads.length).foldlM (createThreadChan emu) ([], [])
  let (cpus, _) ← (List.range ncpus).foldlM (initCpu emu) ([], bay)
  return { emu, threads := ths, cpus }

/-! ## hwc_connect -/

/-- `PRV_NOSV_HWC`. -/
def prvNosvHwc : Int := 200

/-- An entry of an array. -/
def arrayAt {α : Type} (l : List α) (i : Nat) : Except EmuFault α :=
  match l[i]? with
  | some a => .ok a
  | none => .error .crash

/-- `connect_thread_prv`: the type of each track in the trace and what it is connected to. -/
def hwcConnectThread (t : HwcThread) : Except EmuFault (List (Int × HwcChan × HwcChan)) :=
  (List.range t.n).mapM fun i => do
    let track ← arrayAt t.track i
    let ch ← arrayAt t.chan i
    return (prvNosvHwc + i, track, ch)

/-- `connect_cpu_prv`: the type of each track in the trace and its inputs. -/
def hwcConnectCpu (e : Hwc) (c : HwcCpu) :
    Except EmuFault (List (Int × HwcChan × List HwcChan)) :=
  (List.range e.emu.n).mapM fun i => do
    let track ← arrayAt c.track i
    let inputs ← e.threads.mapM fun t => arrayAt t.chan i
    return (prvNosvHwc + i, track, inputs)

/-- One turn of the loop of `init_pcf`. -/
def hwcInitType (emu : HwcEmu) (pcf : List (PcfType (Fin 256))) (i : Nat) :
    Except EmuFault (List (PcfType (Fin 256))) := do
  match ← arrayAt emu.name i with
  | none => throw .crash
  | some name => do
      let pcftype ← pcfAddType pcf (toInt32 (prvNosvHwc + i)) name
      return pcf ++ [pcftype]

/-- `init_pcf` for some counters. -/
def hwcInitTypes (emu : HwcEmu) (l : List Nat) (pcf : List (PcfType (Fin 256))) :
    Except EmuFault (List (PcfType (Fin 256))) :=
  l.foldlM (hwcInitType emu) pcf

/-- `init_pcf`. -/
def hwcInitPcf (emu : HwcEmu) (pcf : List (PcfType (Fin 256))) :
    Except EmuFault (List (PcfType (Fin 256))) :=
  hwcInitTypes emu (List.range emu.n) pcf

/-! ## hwc_event -/

/-- What `event_hwc_count` reads of an event: the values are those of its jumbo data. -/
structure HwcEvent where
  isJumbo : Bool
  size : Nat
  values : Nat → Int

/-- `event_hwc_count`: what it does with the channels of the thread. -/
def eventHwcCount (e : Hwc) (gindex : Nat) (ev : HwcEvent) :
    Except EmuFault (List (ChanOp HwcChan)) := do
  if ev.isJumbo = false then throw (.fail "expecting a jumbo event")
  -- Make sure size matches
  if ev.size ≠ e.emu.n * 8 then throw (.fail "unexpected hwc event with jumbo payload size")
  if e.emu.values < e.emu.n then throw .crash
  let t ← arrayAt e.threads gindex
  (List.range e.emu.n).mapM fun i => do
    let ch ← arrayAt t.chan i
    return .set ch (.int64 (ev.values i))

end Ovni
