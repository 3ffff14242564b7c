import Ovni.Bay.Model
import Ovni.Lib.Keyed
import Ovni.Text

/-!
# The mark types of the threads

`mark_create` of `emu/ovni/mark.c` scans the metadata of every thread for the mark types
that the thread defines, with a title, the type of their channels and some labels, and
keeps all of them in one table.

A hash table is a list in the order in which its elements were added.  The elements that
are changed in place are put back by their key.
-/

namespace Ovni

open Ovni.Lib

/-! ## Metadata -/

/-- A `JSON_Value`; other kinds of values are not read here. -/
inductive JsonValue where
  | string (s : Name)
  | object (fields : List (Name × JsonValue))
  | other

/-- A `JSON_Object`: names and values in their order. -/
abbrev JsonObject := List (Name × JsonValue)

/-- `json_value_get_string`. -/
def JsonValue.getString : JsonValue → Option Name
  | .string s => some s
  | _ => none

/-- `json_value_get_object`. -/
def JsonValue.getObject : JsonValue → Option JsonObject
  | .object fields => some fields
  | _ => none

/-- `json_object_get_value`. -/
def jsonGetValue (obj : JsonObject) (name : Name) : Option JsonValue :=
  (obj.find? fun field => field.1 = name).map Prod.snd

/-- `json_object_get_string`. -/
def jsonGetString (obj : JsonObject) (name : Name) : Option Name :=
  (jsonGetValue obj name).bind JsonValue.getString

/-- `json_object_get_object`. -/
def jsonGetObject (obj : JsonObject) (name : Name) : Option JsonObject :=
  (jsonGetValue obj name).bind JsonValue.getObject

/-- The value, or a failure with this message. -/
def orFail {α : Type} (msg : String) : Option α → Except EmuFault α
  | some a => .ok a
  | none => .error (.fail msg)

/-! ## mark.c -/

/-- `PRV_OVNI_MARK`. -/
def prvOvniMark : Int := 100

/-- `struct mark_label`. -/
structure MarkLabel where
  value : Int
  label : Name
  deriving DecidableEq

/-- `struct mark_type`. -/
structure MarkType where
  type : Int
  prvtype : Int
  index : Nat
  ctype : ChanType
  labels : List MarkLabel
  title : Name
  deriving DecidableEq

/-- `struct ovni_mark_emu`. -/
structure MarkEmu where
  types : List MarkType
  ntypes : Nat

/-- `parse_number`, and the same lines of `parse_mark`: a number and nothing after it. -/
def parseNumber (str : Name) : Except EmuFault Int :=
  match strtoll str with
  | some (n, []) => .ok n
  | _ => .error (.fail "failed to parse number")

/-- `find_label`. -/
def findLabel (t : MarkType) (value : Int) : Option MarkLabel :=
  t.labels.find? fun l => l.value = value

/-- `add_label`. -/
def addLabel (t : MarkType) (value : Int) (label : Name) : Except EmuFault MarkType :=
  match findLabel t value with
  | some l =>
      -- Already exists with the same label, all good
      if l.label = label then .ok t
      else .error (.fail "mark value already defined")
  | none =>
      if maxPcfLabel ≤ label.length then .error (.fail "mark label too long")
      else .ok { t with labels := t.labels ++ [{ value, label }] }

/-- One turn of the loop of `parse_labels`. -/
def parseLabel (t : MarkType) (item : Name × JsonValue) : Except EmuFault MarkType := do
  let value ← parseNumber item.1
  let label ← orFail "json_value_get_string() for label failed" item.2.getString
  addLabel t value label

/-- `parse_labels`. -/
def parseLabels (t : MarkType) (labels : JsonObject) : Except EmuFault MarkType :=
  labels.foldlM parseLabel t

/-- `find_mark_type`. -/
def findMarkType (m : MarkEmu) (type : Int) : Option MarkType :=
  m.types.find? fun t => t.type = type

/-- `create_mark_type`. -/
def createMarkType (m : MarkEmu) (type : Int) (ctype : ChanType) (title : Name) :
    Except EmuFault (MarkEmu × MarkType) := do
  if (findMarkType m type).isSome then throw (.fail "mark type already defined")
  if maxPcfLabel ≤ title.length then throw (.fail "mark title too long")
  let t : MarkType :=
    { type, prvtype := type + prvOvniMark, index := m.ntypes, ctype, labels := [], title }
  return ({ types := m.types ++ [t], ntypes := m.ntypes + 1 }, t)

/-- What `parse_mark` reads of a mark before it looks at the table. -/
structure MarkHead where
  type : Int
  title : Name
  ctype : ChanType
  labels : Option JsonValue

/-- The first part of `parse_mark`. -/
def readMark (item : Name × JsonValue) : Except EmuFault MarkHead := do
  let type ← parseNumber item.1
  if type < 0 ∨ 100 ≤ type then throw (.fail "mark type should be in [0, 100) range")
  let mark ← orFail "json_value_get_object() failed" item.2.getObject
  let title ← orFail "json_object_get_string() for title failed"
    (jsonGetString mark (ascii "title"))
  let chanType ← orFail "json_object_get_string() for chan_type failed"
    (jsonGetString mark (ascii "chan_type"))
  let ctype ←
    if chanType = ascii "single" then pure .single
    else if chanType = ascii "stack" then pure .stack
    else throw (.fail "chan_type not understood")
  return { type, title, ctype, labels := jsonGetValue mark (ascii "labels") }

/-- The second part of `parse_mark`: the mark type in the table, which is made when there
is none. -/
def registerMark (m : MarkEmu) (mark : MarkHead) : Except EmuFault (MarkEmu × MarkType) :=
  match findMarkType m mark.type with
  | none => createMarkType m mark.type mark.ctype mark.title
  | some t => do
      if t.title ≠ mark.title then throw (.fail "already registered with another title")
      if t.ctype ≠ mark.ctype then throw (.fail "already registered with another channel type")
      return (m, t)

/-- The last part of `parse_mark`.  The labels are optional. -/
def populateMark (t : MarkType) (labels : Option JsonValue) : Except EmuFault MarkType :=
  match labels with
  | none => .ok t
  | some labels => do
      let labels ← orFail "json_object_get_object() for labels failed" labels.getObject
      parseLabels t labels

/-- `parse_mark`. -/
def parseMark (m : MarkEmu) (item : Name × JsonValue) : Except EmuFault MarkEmu := do
  let mark ← readMark item
  let (m, t) ← registerMark m mark
  let t ← populateMark t mark.labels
  return { m with types := put MarkType.type t m.types }

/-- The definitions of a thread: `ovni.mark` of its metadata, if it is an object. -/
def threadMarks (metadata : JsonObject) : JsonObject :=
  ((jsonGetObject metadata (ascii "ovni")).bind fun o => jsonGetObject o (ascii "mark")).getD []

/-- `scan_thread`. -/
def scanThread (m : MarkEmu) (metadata : JsonObject) : Except EmuFault MarkEmu :=
  (threadMarks metadata).foldlM parseMark m

/-- The first loop of `mark_create`. -/
def scanThreads (threads : List JsonObject) : Except EmuFault MarkEmu :=
  threads.foldlM scanThread { types := [], ntypes := 0 }

end Ovni
