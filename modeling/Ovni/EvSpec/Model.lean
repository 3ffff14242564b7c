import Ovni.Bay.Model
import Ovni.Lib.Strtok
import Ovni.Text

/-!
# Event specifications

The part of `emu/ev_spec.c` that compiles the signature of an event: its MCV, whether it
is a jumbo, and the arguments of its payload.
-/

namespace Ovni

open Ovni.Lib

/-! ## The data -/

/-- `enum ev_arg_type`. -/
inductive EvArgType where
  | u8
  | u16
  | u32
  | u64
  | i8
  | i16
  | i32
  | i64
  | str
  deriving DecidableEq

namespace EvArgType

/-- The types in the order of the enumeration. -/
def all : List EvArgType := [u8, u16, u32, u64, i8, i16, i32, i64, str]

/-- `type_name`. -/
def name : EvArgType → Name
  | u8 => ascii "u8"
  | u16 => ascii "u16"
  | u32 => ascii "u32"
  | u64 => ascii "u64"
  | i8 => ascii "i8"
  | i16 => ascii "i16"
  | i32 => ascii "i32"
  | i64 => ascii "i64"
  | str => ascii "str"

/-- `type_size`; the one of a string has to be computed. -/
def size : EvArgType → Nat
  | u8 => 1
  | u16 => 2
  | u32 => 4
  | u64 => 8
  | i8 => 1
  | i16 => 2
  | i32 => 4
  | i64 => 8
  | str => 0

end EvArgType

/-- `MAX_ARGS`. -/
def maxArgs : Nat := 16

/-- `struct ev_arg`. -/
structure EvArg where
  size : Nat
  offset : Nat
  type : EvArgType
  name : Name

/-- `struct ev_spec`, with its `nargs` arguments. -/
structure EvSpec where
  mcv : Name
  isJumbo : Bool
  args : List EvArg
  payloadSize : Nat
  description : Name

/-- `struct ev_decl`. -/
structure EvDecl where
  signature : Name
  description : Name

/-! ## The compiler -/

/-- `isgraph` in the C locale. -/
def isgraph (c : Fin 256) : Bool := 33 ≤ c ∧ c ≤ 126

/-- `isalnum` in the C locale. -/
def isalnum (c : Fin 256) : Bool :=
  isdigit c || decide (65 ≤ c ∧ c ≤ 90) || decide (97 ≤ c ∧ c ≤ 122)

/-- `parse_type`. -/
def parseType (type : Name) : Except EmuFault EvArgType :=
  match EvArgType.all.find? fun t => type = t.name with
  | some t => .ok t
  | none => .error (.fail "cannot find matching type")

/-- The separators of arguments. -/
def argDelim : Name := ascii ",)"

/-- The separators of words. -/
def wordDelim : Name := ascii " "

/-- `parse_arg`. -/
def parseArg (spec : EvSpec) (arg : Name) : Except EmuFault EvSpec := do
  if maxArgs ≤ spec.args.length then throw (.fail "too many arguments")
  match strtok (fun c => decide (c ∈ wordDelim)) arg with
  | none => throw (.fail "cannot parse type in argument")
  | some (type, saveptr) =>
      match strtok (fun c => decide (c ∈ wordDelim)) saveptr with
      | none => throw (.fail "cannot parse name in argument")
      | some (name, _) => do
          if 64 ≤ name.length then throw (.fail "argument name too long")
          let type ← parseType type
          return { spec with
            args := spec.args ++
              [{ size := type.size, offset := spec.payloadSize, type, name }]
            payloadSize := spec.payloadSize + type.size }

/-- `parse_args` on the text after the parenthesis. -/
def parseArgs (spec : EvSpec) (paren : Name) : Except EmuFault EvSpec :=
  -- Skip jumbo size
  let spec := { spec with payloadSize := if spec.isJumbo then 4 else 0 }
  -- Each argument is cut out before it is parsed
  (tokens (fun c => decide (c ∈ argDelim)) paren).foldlM parseArg spec

/-- `is_mcv_valid`. -/
def isMcvValid (m c v : Fin 256) : Bool := isgraph m && isgraph c && isgraph v

/-- `parse_signature` from the character after the MCV and the mark of a jumbo. -/
def parseSignatureArgs (spec : EvSpec) (next : Name) : Except EmuFault EvSpec :=
  match next with
  | [] => do
      -- No arguments
      if spec.isJumbo then throw (.fail "missing jumbo arguments in signature")
      return spec
  | paren :: args => do
      if paren ≠ 40 then throw (.fail "expecting parenthesis '(' for arguments")
      let spec ← parseArgs spec args
      -- Must have at least one argument
      if spec.args.length = 0 then throw (.fail "empty arguments")
      return spec

/-- `parse_signature`. -/
def parseSignature (spec : EvSpec) (sig : Name) : Except EmuFault EvSpec :=
  match sig with
  | m :: c :: v :: next => do
      if isMcvValid m c v = false then throw (.fail "invalid MCV")
      let spec := { spec with mcv := [m, c, v] }
      -- The next character may be '+' if jumbo
      if next.head? = some 43 then parseSignatureArgs { spec with isJumbo := true } next.tail
      else parseSignatureArgs spec next
  | _ => .error (.fail "signature too short")

/-- The specification after the `memset`. -/
def EvSpec.zero : EvSpec :=
  { mcv := [], isJumbo := false, args := [], payloadSize := 0, description := [] }

/-- `ev_spec_compile`. -/
def evSpecCompile (decl : EvDecl) : Except EmuFault EvSpec := do
  if 256 ≤ decl.signature.length then throw (.fail "signature too long")
  let spec ← parseSignature EvSpec.zero decl.signature
  return { spec with description := decl.description }

/-- `ev_spec_find_arg`. -/
def evSpecFindArg (spec : EvSpec) (name : Name) : Option EvArg :=
  spec.args.find? fun arg => arg.name = name

end Ovni
