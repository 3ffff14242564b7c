import Ovni.EvSpec.Model
import Ovni.Lib.Reads
import Ovni.Player.Model

/-!
# The description of an event

The part of `emu/ev_spec.c` that prints the description of an event, with the values of
its arguments, in a buffer.  The calls keep the offsets of the payload that they read,
and the buffer that they leave.

What `snprintf` writes for a format and a value is up to the C library.  A format that is
not valid for the value is undefined behaviour, and is a crash here, as is a read where
there is no memory.
-/

namespace Ovni

open Ovni.Lib

/-! ## The C library -/

/-- The value of an argument, as it is passed to `snprintf`. -/
inductive EvArgData where
  | int (type : EvArgType) (i : Int)
  | str (s : Name)

/-- What the C library says of formats: the conversions of `inttypes.h`, the text of a
format with one value when it is valid, and how much of a string a format reads when it
has a precision.  The length of a text is an `int`. -/
structure Printf where
  pri : EvArgType → Name
  text : Name → EvArgData → Option Name
  limit : Name → Option Nat
  pri_length : ∀ type, (pri type).length < 63
  text_length : ∀ fmt data t, text fmt data = some t → t.length < 2 ^ 31
  text_limit : ∀ fmt n s, limit fmt = some n → text fmt (.str (s.take n)) = text fmt (.str s)

/-- `type_fmt`. -/
def typeFmt (p : Printf) (type : EvArgType) : Name :=
  if type = .str then ascii "%s" else ascii "%" ++ p.pri type

/-- A number in decimal. -/
def decimalText (i : Int) : Name := if i < 0 then ascii "-" ++ itoa i.natAbs else itoa i.natAbs

/-- The conversions of `inttypes.h` on a 64-bit system. -/
def intConversion : EvArgType → Name
  | .u8 => ascii "u"
  | .u16 => ascii "u"
  | .u32 => ascii "u"
  | .u64 => ascii "lu"
  | .i64 => ascii "ld"
  | _ => ascii "d"

/-- The text of a value for a format without flags. -/
def plainText (fmt : Name) : EvArgData → Option Name
  | .int type i => if fmt = ascii "%" ++ intConversion type then some (decimalText i) else none
  | .str s => if fmt = ascii "%s" then some s else none

/-- A C library that has the formats without flags only. -/
def plainPrintf : Printf where
  pri := intConversion
  text fmt data := (plainText fmt data).filter fun t => t.length < 2 ^ 31
  limit _ := none
  pri_length type := by cases type <;> decide
  text_length fmt data t h := by simpa using (Option.filter_eq_some_iff.mp h).2
  text_limit fmt n s h := by cases h

/-! ## The state -/

/-- The offsets of the payload that were read, and the buffer from its start on. -/
structure PrintState where
  reads : List Nat
  buf : Nat → Fin 256

/-- Calls that read the payload and write the buffer. -/
abbrev PrintM (α : Type) := Prog EmuFault PrintState α

/-- A call that only reads. -/
def reading {α : Type} (x : Reads EmuFault α) : PrintM α :=
  ExceptT.mk fun s => ((x.run.run s.reads).1, { s with reads := (x.run.run s.reads).2 })

/-- The buffer with some characters from an offset on. -/
def putText (buf : Nat → Fin 256) (out : Nat) (text : Name) : Nat → Fin 256 := fun i =>
  if out ≤ i ∧ i < out + text.length then text.getD (i - out) 0 else buf i

/-- Write characters to the buffer. -/
def store (out : Nat) (text : Name) : PrintM Unit :=
  modify fun s => { s with buf := putText s.buf out text }

/-- `snprintf` of a text: what fits is written, with a nul. -/
def snprintf (out len : Nat) (text : Name) : PrintM Int := do
  if len ≠ 0 then store out (text.take (len - 1) ++ [0])
  return toInt32 text.length

/-- `struct cursor`, with the output as an offset in the buffer. -/
structure Cursor where
  inp : Name
  out : Nat
  len : Nat

/-- `advance_out`. -/
def advanceOut (c : Cursor) (n : Nat) : Cursor := { c with out := c.out + n, len := c.len - n }

/-! ## Formats and names -/

/-- The loops that copy the characters up to one that ends them, `n` at most, on those
copied so far, with the errors for the end of the text, a bad character and a long text. -/
def copyLoop (stop : Fin 256) (good : Fin 256 → Bool) (atEnd bad long : EmuFault) (n : Nat) :
    Name → Name → Except EmuFault (Name × Name)
  | _, [] => .error atEnd
  | buf, c :: inp =>
      if c = stop then .ok (buf, c :: inp)
      else if good c = false then .error bad
      else if n ≤ buf.length then .error long
      else copyLoop stop good atEnd bad long n (buf ++ [c]) inp

/-- `parse_printf_format`: the format and the input left. -/
def parsePrintfFormat (buflen : Nat) (inp : Name) : Except EmuFault (Name × Name) := do
  let n := buflen - 1
  if inp.head? = some 123 then throw (.fail "missing format")
  if n < 1 then throw (.fail "no space for arg name")
  -- Always write the first %
  copyLoop 123 (fun _ => true) (.fail "unexpected end of format") (.fail "bad format")
    (.fail "format too long") n (ascii "%") inp

/-- `parse_arg_name`: the name and the input left. -/
def parseArgName (buflen : Nat) (inp : Name) : Except EmuFault (Name × Name) := do
  let n := buflen - 1
  if inp.head? = some 125 then throw (.fail "missing argument name")
  if n < 1 then throw (.fail "no space for arg name")
  copyLoop 125 isalnum (.fail "unexpected end of argument name") (.fail "bad argument name")
    (.fail "argument name too long") n [] inp

/-! ## Arguments -/

/-- The integer of a type in some bytes. -/
def argInt (type : EvArgType) (bytes : List UInt8) : Int :=
  match type with
  | .i8 => (leNat bytes : Int).bmod (2 ^ 8)
  | .i16 => (leNat bytes : Int).bmod (2 ^ 16)
  | .i32 => (leNat bytes : Int).bmod (2 ^ 32)
  | .i64 => (leNat bytes : Int).bmod (2 ^ 64)
  | _ => leNat bytes

/-- The text of some bytes. -/
def textOf (bytes : List UInt8) : Name := bytes.map fun b => Fin.ofNat 256 b.toNat

/-- What is read of the payload for an argument with a format.  The memory has `mapped`
bytes from the payload on. -/
def readArg (p : Printf) (arg : EvArg) (fmt : Name) (ev : EmuEv) (mapped : Nat) :
    Reads EmuFault EvArgData :=
  match ev.payload with
  | none => throw .crash
  | some payload =>
      if arg.type = .str then
        match p.limit fmt with
        | none => do
            let bytes ← readString .crash ⟨payload, mapped⟩ arg.offset
            return .str (textOf bytes)
        | some n => do
            let bytes ← readPrefix .crash ⟨payload, mapped⟩ arg.offset n
            return .str (textOf bytes)
      else do
        let bytes ← readBytes .crash ⟨payload, mapped⟩ arg.offset arg.type.size
        return .int arg.type (argInt arg.type bytes)

/-- `print_arg`. -/
def printArg (p : Printf) (arg : EvArg) (fmt : Name) (c : Cursor) (ev : EmuEv) (mapped : Nat) :
    PrintM Cursor := do
  let data ← reading (readArg p arg fmt ev mapped)
  match p.text fmt data with
  | none => throw .crash
  | some text => do
      let n ← snprintf c.out c.len text
      if (c.len : Int) ≤ n then throw (.fail "no space for argument")
      return advanceOut c n.toNat

/-! ## The description -/

/-- The part of `format_region` that reads an argument between brackets: the argument and
the input left. -/
def parseRegionArg (spec : EvSpec) (inp : Name) : Except EmuFault (EvArg × Name) := do
  if inp.head? ≠ some 123 then throw (.fail "expecting opening bracket")
  let (argname, inp) ← parseArgName 64 inp.tail
  if inp.head? ≠ some 125 then throw (.fail "expecting closing bracket")
  match evSpecFindArg spec argname with
  | none => throw (.fail "cannot find argument")
  | some arg => return (arg, inp.tail)

/-- The part of `format_region` that reads the description after the `%`: the format, when
there is one, the argument and the input left. -/
def parseRegion (spec : EvSpec) (inp : Name) : Except EmuFault (Option Name × EvArg × Name) :=
  if inp.head? = some 123 then do
    let (arg, inp) ← parseRegionArg spec inp
    return (none, arg, inp)
  else do
    let (fmt, inp) ← parsePrintfFormat 64 inp
    let (arg, inp) ← parseRegionArg spec inp
    return (some fmt, arg, inp)

/-- `format_region`. -/
def formatRegion (p : Printf) (spec : EvSpec) (c : Cursor) (ev : EmuEv) (mapped : Nat) :
    PrintM Cursor := do
  if c.len = 0 then throw (.fail "no more room")
  if c.inp.head? ≠ some 37 then throw (.fail "expecting initial %")
  let inp := c.inp.tail
  if inp = [] then throw (.fail "truncated '%' format")
  -- At least len == 1, no check needed here
  if inp.head? = some 37 then
    store c.out (ascii "%")
    return { advanceOut c 1 with inp := inp.tail }
  match parseRegion spec inp with
  | .error e => throw e
  | .ok (fmt, arg, inp) => do
      if fmt = none ∧ 64 ≤ (typeFmt p arg.type).length then throw (.fail "format type too long")
      printArg p arg (fmt.getD (typeFmt p arg.type)) { c with inp } ev mapped

/-- The loop of `ev_spec_print`, where `n` bounds the turns. -/
def printLoop (p : Printf) (spec : EvSpec) (ev : EmuEv) (mapped : Nat) : Nat → Cursor →
    PrintM Cursor
  | 0, c => return c
  | n + 1, c =>
      match c.inp with
      | [] => return c
      | ch :: inp => do
          if c.len = 0 then throw (.fail "description too long for buffer")
          if ch = 37 then do
            -- Begin format region
            let c ← formatRegion p spec c ev mapped
            printLoop p spec ev mapped n c
          else do
            -- Just copy the character in the output
            store c.out [ch]
            printLoop p spec ev mapped n { advanceOut c 1 with inp }

/-- `ev_spec_print` into a buffer of `outlen` bytes. -/
def evSpecPrint (p : Printf) (spec : EvSpec) (ev : EmuEv) (mapped : Nat) (outlen : Int) :
    PrintM Unit := do
  if outlen ≤ 0 then throw (.fail "buffer has no space")
  -- Leave room for the nil
  let c : Cursor := { inp := spec.description, out := 0, len := (outlen - 1).toNat }
  let c ← printLoop p spec ev mapped spec.description.length c
  -- Finish the buffer
  store c.out [0]

/-! ## The caller -/

/-- The `mcv` of an event, as a string. -/
def EmuEv.mcv (ev : EmuEv) : Name :=
  textOf ([ev.m, ev.c, ev.v].takeWhile fun b => b ≠ 0)

/-- `model_evspec_find`. -/
def modelEvspecFind (evspec : List EvSpec) (mcv : Name) : Option EvSpec :=
  evspec.find? fun spec => spec.mcv = mcv

/-- `model_event_print`, where `evspec` has the specifications of each registered model. -/
def modelEventPrint (p : Printf) (evspec : UInt8 → Option (List EvSpec)) (ev : EmuEv)
    (mapped : Nat) (buflen : Int) : PrintM Unit :=
  match evspec ev.m with
  | none => throw (.fail "no model registered")
  | some specs =>
      match modelEvspecFind specs ev.mcv with
      | none => throw (.fail "cannot find event definition")
      | some spec => evSpecPrint p spec ev mapped buflen

end Ovni
