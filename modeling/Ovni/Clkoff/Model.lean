import Ovni.Loom.Model
import Ovni.Stream.Model

/-!
# The table of clock offsets

`emu/clkoff.c` reads a text file with a header and one line for each host, and
`init_offsets` of `emu/system.c` gives the offset of its host to each loom and to the
streams of the threads of the loom.

The conversions of numbers of the C library are a parameter, with the type `δ` of the
`double` values; `errno` is zero when a text ends.
-/

namespace Ovni

/-! ## sscanf -/

/-- The conversions of the C library: what `%ld` and `%lf` read at the start of a text and
leave of it, and the cast of a `double` to `int64_t`. -/
structure Conversions (δ : Type) where
  ld : Name → Option (Int × Name)
  lf : Name → Option (δ × Name)
  toInt64 : δ → Int

/-- What `%s` reads. -/
def word (s : Name) : Option (Name × Name) :=
  some (s.takeWhile fun c => !isspace c, s.dropWhile fun c => !isspace c)

/-- A conversion skips white space first and fails at the end of the text. -/
def convert {α : Type} (conv : Name → Option (α × Name)) (s : Name) : Option (α × Name) :=
  match s.dropWhile isspace with
  | [] => none
  | c :: s => conv (c :: s)

/-- `struct clkoff_entry`. -/
structure ClkoffEntry (δ : Type) where
  index : Int
  name : Name
  median : δ
  mean : δ
  stdev : δ
  deriving DecidableEq

/-- What `sscanf` returns: `EOF`, or the number of fields, with them when it read all. -/
inductive Scanned (δ : Type) where
  | eof
  | fields (n : Nat)
  | entry (e : ClkoffEntry δ)

section

variable {δ : Type} (conv : Conversions δ)

/-- `sscanf` of a line with the format of the entries. -/
def sscanf (buf : Name) : Scanned δ :=
  let s := buf.takeWhile (· ≠ 0)
  if s.all isspace then .eof
  else
    match convert conv.ld s with
    | none => .fields 0
    | some (index, s) =>
        match convert word s with
        | none => .fields 1
        | some (name, s) =>
            match convert conv.lf s with
            | none => .fields 2
            | some (median, s) =>
                match convert conv.lf s with
                | none => .fields 3
                | some (mean, s) =>
                    match convert conv.lf s with
                    | none => .fields 4
                    | some (stdev, _) => .entry { index, name, median, mean, stdev }

/-! ## clkoff.c -/

/-- `cadd`. -/
def cadd (table : List (ClkoffEntry δ)) (e : ClkoffEntry δ) :
    Except EmuFault (List (ClkoffEntry δ)) :=
  if e.name ∈ table.map ClkoffEntry.name then
    .error (.fail "entry with name already exists")
  else .ok (table ++ [e])

/-- The loop of `cparse`. -/
def cparseLoop : Nat → Name → List (ClkoffEntry δ) → Except EmuFault (List (ClkoffEntry δ))
  | 0, _, _ => .error .rounds
  | fuel + 1, text, table =>
      match fgets 1024 text with
      | none => .ok table
      | some (buf, text) =>
          -- Empty line
          if buf.head? = some 10 then cparseLoop fuel text table
          else
            match sscanf conv buf with
            | .eof => .ok table
            | .fields _ => .error (.fail "fscanf() read less than 5 fields")
            | .entry e => do cparseLoop fuel text (← cadd table e)

/-- `cparse`. -/
def cparse (text : Name) : Except EmuFault (List (ClkoffEntry δ)) :=
  match fgets 1024 text with
  | none => .error (.fail "missing header line in clock offset")
  -- Ignore header line
  | some (_, text) => cparseLoop conv (text.length + 1) text []

/-- `clkoff_load`, with the entries in the order of the index. -/
def clkoffLoad (text : Name) : Except EmuFault (List (ClkoffEntry δ)) := do
  let table ← cparse conv text
  if table = [] then throw (.fail "no entries")
  return table

end

/-! ## system.c -/

/-- `set_hostname`: the name up to the first dot. -/
def setHostname (name : Name) : Name := (name.take (pathMax - 1)).takeWhile (· ≠ 46)

section

variable {δ ℓ : Type} [DecidableEq ℓ] (conv : Conversions δ) (looms : List ℓ) (name : ℓ → Name)

/-- One turn of the loop of `parse_clkoff_entry`, with the offsets and the matches. -/
def parseLoom (entry : ClkoffEntry δ) (st : (ℓ → Int) × Nat) (l : ℓ) :
    Except EmuFault ((ℓ → Int) × Nat) := do
  -- Match the hostname exactly
  if setHostname (name l) ≠ entry.name then return st
  if st.1 l ≠ 0 then throw (.fail "loom already has a clock offset")
  return (Function.update st.1 l (conv.toInt64 entry.median), st.2 + 1)

/-- `parse_clkoff_entry`. -/
def parseClkoffEntry (offsets : ℓ → Int) (entry : ClkoffEntry δ) :
    Except EmuFault (ℓ → Int) := do
  let (offsets, found) ← looms.foldlM (parseLoom conv name entry) (offsets, 0)
  if found = 0 then throw (.fail "cannot find loom with hostname")
  return offsets

/-- A stream of the trace, with the loom of its thread when it is a thread stream. -/
structure TraceStream (ℓ : Type) where
  loom : Option ℓ
  stream : Stream

/-- One turn of the last loop of `init_offsets`. -/
def setOffset (offsets : ℓ → Int) (s : TraceStream ℓ) : Except EmuFault (TraceStream ℓ) :=
  match s.loom with
  -- Not LPT stream
  | none => .ok s
  | some l => do
      let stream ← (streamClkoffSet s.stream (offsets l)).mapError .fail
      return { s with stream }

/-- `init_offsets`. -/
def initOffsets (entries : List (ClkoffEntry δ)) (streams : List (TraceStream ℓ)) :
    Except EmuFault (List (TraceStream ℓ)) := do
  let offsets ← entries.foldlM (parseClkoffEntry conv looms name) fun _ => 0
  streams.mapM (setOffset offsets)

end

end Ovni
