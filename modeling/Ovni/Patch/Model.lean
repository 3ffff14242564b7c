import Mathlib.Algebra.Group.Int.Defs
import Mathlib.Data.List.Sort
import Ovni.Mux.Model
import Ovni.Patch.Replace

/-!
# Sort modules and Paraver traces

The other modules with callbacks in the bay: `emu/sort.c`, which keeps the values
of some channels in order, and `emu/pv/prv.c`, which writes a line when a channel
that was registered in a trace changes.  A `Patch` is a bay with muxes, sort
modules and Paraver channels, each named by a type.
-/

namespace Ovni

/-! ## Data -/

/-- `struct sort` as it is connected, with as many inputs as outputs. -/
structure SortModule (χ : Type) where
  inputs : List χ
  outputs : List χ
  same : inputs.length = outputs.length

/-- The arrays of a `struct sort`. -/
structure SortArrays where
  values : List Int
  sorted : List Int
  copied : Bool

/-- `enum prv_flags`, one by one. -/
structure PrvFlags where
  emitDup : Bool
  skipDup : Bool
  next : Bool
  zero : Bool
  skipDupNull : Bool

/-- `struct prv_chan` as it is registered in the trace `prv`. -/
structure PrvChan (χ φ : Type) where
  prv : φ
  chan : χ
  row : Int
  type : Int
  flags : PrvFlags

/-- A line of a trace, without the fields that never change. -/
structure PrvLine where
  row : Int
  time : Int
  type : Int
  value : Int
  deriving DecidableEq

/-- `struct prv`: the time, the registered channels and the lines written. -/
structure PrvTrace (ρ : Type) where
  time : Int
  channels : List ρ
  lines : List PrvLine

/-- The callbacks of sort inputs and of Paraver channels. -/
inductive Hook (ς ρ : Type) where
  | sort (s : ς) (index : Nat)
  | prv (r : ρ)
  deriving DecidableEq

/-- The state of the sort modules and of the traces; a Paraver channel keeps its
`last_value` once set. -/
structure Sinks (ς ρ φ : Type) where
  sort : ς → SortArrays
  prv : φ → PrvTrace ρ
  lastValue : ρ → Option Value

/-- The muxes, sort modules and Paraver channels of a bay, with the rows of each
trace. -/
structure Patch (χ μ ς ρ φ : Type) where
  mux : μ → Mux χ
  sort : ς → SortModule χ
  rchan : ρ → PrvChan χ φ
  nrows : φ → Int

/-- A bay with all its modules. -/
abbrev PatchWorld (χ μ ς ρ φ : Type) := MuxWorld χ μ (Hook ς ρ) (Sinks ς ρ φ)

section

variable {χ μ ς ρ φ : Type} [DecidableEq χ] [DecidableEq μ] [DecidableEq ς] [DecidableEq ρ]
  [DecidableEq φ] (p : Patch χ μ ς ρ φ)

/-- The world with other sort modules and traces. -/
def World.setSinks (w : PatchWorld χ μ ς ρ φ) (sinks : Sinks ς ρ φ) : PatchWorld χ μ ς ρ φ :=
  { w with mod := { w.mod with other := sinks } }

/-! ## Sorting -/

/-- The integer that a sort module takes for a value. -/
def Value.toSort : Value → Int
  | .int64 i => i
  | _ => 0

/-- The loop of `sort_cb_input` that writes the outputs. -/
def sortOutputs {κ : Type} : List (χ × Int) → Bay χ κ → Except EmuFault (Bay χ κ)
  | [], b => .ok b
  | (out, v) :: rest, b => do
      if b.read out = .int64 v then sortOutputs rest b
      else sortOutputs rest (← b.chanSet out (.int64 v))

/-- The `sorted` array after one value changed. -/
def sortUpdate (st : SortArrays) (values : List Int) (old new : Int) :
    Except EmuFault (List Int) :=
  if st.copied then sortReplace st.sorted old new
  else .ok (values.insertionSort (· ≤ ·))

/-- `sort_cb_input`. -/
def sortCbInput (s : ς) (index : Nat) (inChan : χ) (w : PatchWorld χ μ ς ρ φ) :
    Except EmuFault (PatchWorld χ μ ς ρ φ) := do
  let new := (w.bay.read inChan).toSort
  let st := w.mod.other.sort s
  match st.values[index]? with
  | none => throw .crash
  | some old =>
      -- Nothing to do if no change
      if old = new then return w
      let values := st.values.set index new
      let sorted ← sortUpdate st values old new
      let w := w.setSinks { w.mod.other with
        sort := Function.update w.mod.other.sort s { values, sorted, copied := true } }
      return { w with bay := ← sortOutputs ((p.sort s).outputs.zip sorted) w.bay }

/-- `sort_init`: the outputs take any write. -/
def sortInit (w : PatchWorld χ μ ς ρ φ) (s : ς) : PatchWorld χ μ ς ρ φ :=
  let n := (p.sort s).outputs.length
  let bay := (p.sort s).outputs.foldl (fun b out =>
    b.put out { chanInit .single with dirtyWrite := true, allowDup := true }) w.bay
  { w with bay }.setSinks { w.mod.other with
    sort := Function.update w.mod.other.sort s
      { values := List.replicate n 0, sorted := List.replicate n 0, copied := false } }

/-- `sort_set_input`; the callback is enabled from then on. -/
def sortSetInput (w : PatchWorld χ μ ς ρ φ) (s : ς) (index : Nat) :
    Except EmuFault (PatchWorld χ μ ς ρ φ) :=
  match (p.sort s).inputs[index]? with
  | none => .error .crash
  | some c =>
      if w.bay.enabled (.other (.sort s index)) then
        .error (.fail "input already has a channel")
      else .ok { w with bay := w.bay.enableCb .dirty c (.other (.sort s index)) }

/-! ## Paraver traces -/

/-- The values of a `long`. -/
def inLong (i : Int) : Prop := -2 ^ 63 ≤ i ∧ i < 2 ^ 63

instance (i : Int) : Decidable (inLong i) := by
  unfold inLong
  infer_instance

/-- `get_id`; signed overflow is undefined. -/
def getId (nrows type row : Int) : Except EmuFault Int :=
  if inLong (type * nrows) ∧ inLong (type * nrows + row) then .ok (type * nrows + row)
  else .error .crash

/-- `is_value_dup`. -/
def isValueDup (last : Option Value) (value : Value) : Bool := last = some value

/-- What `emit` does with a duplicated value. -/
inductive DupAction where
  | skip
  | write
  | refuse

/-- The treatment of a value by the flags of its channel. -/
def dupAction (flags : PrvFlags) (last : Option Value) (value : Value) : DupAction :=
  -- Only test for duplicates without PRV_EMITDUP
  if flags.emitDup then .write
  else if isValueDup last value then
    if flags.skipDup then .skip
    else if flags.skipDupNull then
      if value = .null then .skip else .write
    else .refuse
  else .write

/-- The number written for a value; the increment of the last integer overflows. -/
def prvValue (flags : PrvFlags) (value : Value) : Except EmuFault Int :=
  match value with
  | .null => .ok 0
  | .int64 i => do
      if flags.next ∧ ¬ inLong (i + 1) then throw .crash
      let val := if flags.next then i + 1 else i
      if flags.zero = false ∧ val = 0 then throw (.fail "forbidden value 0")
      return val
  | .double _ => .error (.fail "only int64 and null supported")

/-- `write_line`, with the latest line first. -/
def writeLine (prv : PrvTrace ρ) (rowBase1 type value : Int) : PrvTrace ρ :=
  { prv with lines := { row := rowBase1, time := prv.time, type, value } :: prv.lines }

/-- `emit`. -/
def emit (r : ρ) (w : PatchWorld χ μ ς ρ φ) : Except EmuFault (PatchWorld χ μ ς ρ φ) := do
  let rchan := p.rchan r
  let value := w.bay.read rchan.chan
  let sinks := w.mod.other
  match dupAction rchan.flags (sinks.lastValue r) value with
  | .skip => return w
  | .refuse => throw (.fail "error duplicated value")
  | .write =>
      -- Only set when caring about duplicates
      let lastValue :=
        if rchan.flags.emitDup then sinks.lastValue
        else Function.update sinks.lastValue r (some value)
      let val ← prvValue rchan.flags value
      let prv := writeLine (sinks.prv rchan.prv) (rchan.row + 1) rchan.type val
      return w.setSinks { sinks with lastValue, prv := Function.update sinks.prv rchan.prv prv }

/-- `check_flags`. -/
def checkFlags (flags : PrvFlags) : Except EmuFault Unit := do
  if flags.emitDup ∧ flags.skipDupNull then
    throw (.fail "flags PRV_EMITDUP and PRV_SKIPDUPNULL are mutually exclusive")
  if flags.emitDup ∧ flags.skipDup then
    throw (.fail "flags PRV_EMITDUP and PRV_SKIPDUP are mutually exclusive")
  if flags.skipDup ∧ flags.skipDupNull then
    throw (.fail "flags PRV_SKIPDUP and PRV_SKIPDUPNULL are mutually exclusive")

/-- The id under which a channel is stored in the trace. -/
def Patch.id (r : ρ) : Except EmuFault Int :=
  getId (p.nrows (p.rchan r).prv) (p.rchan r).type (p.rchan r).row

/-- `find_prv_chan`: some registered channel has the id. -/
def findPrvChan (channels : List ρ) (id : Int) : Bool :=
  channels.any fun r => match p.id r with
    | .ok id' => id' = id
    | .error _ => false

/-- `prv_register`. -/
def prvRegister (w : PatchWorld χ μ ς ρ φ) (r : ρ) : Except EmuFault (PatchWorld χ μ ς ρ φ) := do
  let rchan := p.rchan r
  let sinks := w.mod.other
  let prv := sinks.prv rchan.prv
  let id ← p.id r
  if findPrvChan p prv.channels id then throw (.fail "row and type have a channel registered")
  checkFlags rchan.flags
  let bay := w.bay.enableCb .emit rchan.chan (.other (.prv r))
  return { w with bay }.setSinks { sinks with
    lastValue := Function.update sinks.lastValue r none
    prv := Function.update sinks.prv rchan.prv { prv with channels := prv.channels ++ [r] } }

/-- `prv_advance`. -/
def World.prvAdvance (w : PatchWorld χ μ ς ρ φ) (f : φ) (time : Int) :
    Except EmuFault (PatchWorld χ μ ς ρ φ) :=
  let prv := w.mod.other.prv f
  if time < prv.time then .error (.fail "cannot move to previous time")
  else .ok (w.setSinks { w.mod.other with
    prv := Function.update w.mod.other.prv f { prv with time } })

/-! ## The bay -/

/-- The bay's muxes with the callbacks of the other modules. -/
def Patch.net : Net χ μ (Hook ς ρ) (Sinks ς ρ φ) where
  mux := p.mux
  other k c w :=
    match k with
    | .sort s index => sortCbInput p s index c w
    | .prv r => emit p r w

/-- What is connected to the bay, one after the other. -/
inductive Part (μ ς ρ : Type) where
  | mux (m : μ)
  | sort (s : ς)
  | sortInput (s : ς) (index : Nat)
  | prv (r : ρ)
  deriving DecidableEq

/-- Connect a module to the bay. -/
def connectPart (w : PatchWorld χ μ ς ρ φ) : Part μ ς ρ → Except EmuFault (PatchWorld χ μ ς ρ φ)
  | .mux m => muxInit p.net w m
  | .sort s => .ok (sortInit p w s)
  | .sortInput s index => sortSetInput p w s index
  | .prv r => prvRegister p w r

/-- Connect the parts of a bay. -/
def connectParts : List (Part μ ς ρ) → PatchWorld χ μ ς ρ φ →
    Except EmuFault (PatchWorld χ μ ς ρ φ)
  | [], w => .ok w
  | part :: parts, w => do connectParts parts (← connectPart p w part)

/-- `bay_init` and the traces just opened, with the channels registered. -/
def patchInit (chan : χ → Chan) : PatchWorld χ μ ς ρ φ :=
  { bay := Bay.init chan
    mod :=
      { selected := fun _ => 0
        other :=
          { sort := fun _ => { values := [], sorted := [], copied := false }
            prv := fun _ => { time := 0, channels := [], lines := [] }
            lastValue := fun _ => none } } }

end

end Ovni
