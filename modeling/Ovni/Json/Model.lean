import Ovni.Text

/-!
# JSON text

The reader and the writer of `parson.c`, with which the runtime stores the metadata of a thread
and the emulator loads it.

A text is a C string without its end, so at its end there is no character to read.  The doubles
that are numbers are a type `ν`, with what `sprintf` and `strtod` do on them.  Memory is taken
to be available, and a text to be shorter than 2 GiB.
-/

namespace Ovni

/-- A `JSON_Value`. -/
inductive Json (ν : Type) where
  | null
  | boolean (b : Bool)
  | number (x : ν)
  | string (s : Name)
  | array (items : List (Json ν))
  | object (fields : List (Name × Json ν))

/-- The finite doubles: `sprintf` with `FLOAT_FORMAT`, and `strtod` with how many characters it
takes, or nothing when the number is out of range or not finite. -/
structure Doubles (ν : Type) where
  print : ν → Name
  strtod : Name → Option (ν × Nat)

/-- `MAX_NESTING`. -/
def maxNesting : Nat := 2048

/-! ## Strings -/

/-- `hex_char_to_int`. -/
def hexCharToInt (c : Fin 256) : Option Nat :=
  if 48 ≤ c ∧ c ≤ 57 then some (c.val - 48)
  else if 97 ≤ c ∧ c ≤ 102 then some (c.val - 97 + 10)
  else if 65 ≤ c ∧ c ≤ 70 then some (c.val - 65 + 10)
  else none

/-- `parse_utf16_hex`: the number of four digits and the text after them. -/
def parseUtf16Hex : Name → Option (Nat × Name)
  | c1 :: c2 :: c3 :: c4 :: rest => do
      let x1 ← hexCharToInt c1
      let x2 ← hexCharToInt c2
      let x3 ← hexCharToInt c3
      let x4 ← hexCharToInt c4
      return (x1 * 4096 + x2 * 256 + x3 * 16 + x4, rest)
  | _ => none

/-- A byte with some of its bits from a code point. -/
def utf8Byte (mark : Nat) (bits : Nat) : Fin 256 := Fin.ofNat 256 (mark + bits)

/-- `parse_utf16`, on the text after the `u`: the bytes and the text after the escape. -/
def parseUtf16 (s : Name) : Option (Name × Name) := do
  let (cp, s) ← parseUtf16Hex s
  if cp < 0x80 then return ([utf8Byte 0 cp], s)
  else if cp < 0x800 then
    return ([utf8Byte 0xC0 (cp / 64 % 32), utf8Byte 0x80 (cp % 64)], s)
  else if cp < 0xD800 ∨ 0xDFFF < cp then
    return ([utf8Byte 0xE0 (cp / 4096 % 16), utf8Byte 0x80 (cp / 64 % 64),
      utf8Byte 0x80 (cp % 64)], s)
  else if cp ≤ 0xDBFF then
    -- A lead surrogate, which a trail follows
    if s.take 2 = [92, 117] then
      let (trail, s) ← parseUtf16Hex (s.drop 2)
      if trail < 0xDC00 ∨ 0xDFFF < trail then none
      else
        let cp := (cp - 0xD800) % 1024 * 1024 + (trail - 0xDC00) % 1024 + 0x10000
        return ([utf8Byte 0xF0 (cp / 262144 % 8), utf8Byte 0x80 (cp / 4096 % 64),
          utf8Byte 0x80 (cp / 64 % 64), utf8Byte 0x80 (cp % 64)], s)
    else none
  else none

/-- The escapes of one character. -/
def unescape (c : Fin 256) : Option (Fin 256) :=
  if c = 34 then some 34
  else if c = 92 then some 92
  else if c = 47 then some 47
  else if c = 98 then some 8
  else if c = 102 then some 12
  else if c = 110 then some 10
  else if c = 114 then some 13
  else if c = 116 then some 9
  else none

/-- One turn of the loop of `process_string`: the bytes and the text that is left. -/
def processChar : Name → Option (Name × Name)
  | [] => none
  | c :: rest =>
      if c = 92 then
        match rest with
        | [] => none
        | e :: rest =>
            if e = 117 then parseUtf16 rest
            else (unescape e).map fun byte => ([byte], rest)
      else if c < 0x20 then none
      else some ([c], rest)

/-- The loop of `process_string`. -/
def processLoop : Nat → Name → Option Name
  | _, [] => some []
  | 0, _ :: _ => none
  | rounds + 1, s => do
      let (bytes, rest) ← processChar s
      let out ← processLoop rounds rest
      return bytes ++ out

/-- `process_string`. -/
def processString (s : Name) : Option Name := processLoop s.length s

/-- `skip_quotes` after the first quote: the text up to the next one, and after it. -/
def skipQuotes : Name → Option (Name × Name)
  | [] => none
  | c :: rest =>
      if c = 34 then some ([], rest)
      else if c = 92 then
        match rest with
        | [] => none
        | e :: rest => (skipQuotes rest).map fun p => (c :: e :: p.1, p.2)
      else (skipQuotes rest).map fun p => (c :: p.1, p.2)

/-- `get_quoted_string`. -/
def getQuotedString (s : Name) : Option (Name × Name) :=
  if s.head? = some 34 then do
    let (inside, rest) ← skipQuotes s.tail
    return (← processString inside, rest)
  else none

/-! ## UTF-8 -/

/-- `IS_CONT`. -/
def isCont (c : Fin 256) : Bool := 0x80 ≤ c ∧ c < 0xC0

/-- `num_bytes_in_utf8_sequence`. -/
def numBytesInUtf8Sequence (c : Fin 256) : Nat :=
  if c = 0xC0 ∨ c = 0xC1 ∨ 0xF4 < c ∨ isCont c then 0
  else if c < 0x80 then 1
  else if c < 0xE0 then 2
  else if c < 0xF0 then 3
  else if c < 0xF8 then 4
  else 0

/-- The code point of a sequence whose first byte gives some bits. -/
def codePoint (first : Nat) (conts : Name) : Nat :=
  conts.foldl (fun cp c => cp * 64 + c.val % 64) first

/-- `verify_utf8_sequence`, with the length of the sequence. -/
def verifyUtf8Sequence (s : Name) : Option Nat :=
  match s with
  | [] => none
  | c :: rest =>
      let len := numBytesInUtf8Sequence c
      let conts := rest.take (len - 1)
      let cp := codePoint
        (if len = 1 then c.val else if len = 2 then c.val % 32 else if len = 3 then c.val % 16
          else c.val % 8) conts
      if len = 0 ∨ conts.length ≠ len - 1 ∨ !conts.all isCont then none
      -- Overlong encodings
      else if cp < 0x80 ∧ 1 < len ∨ cp < 0x800 ∧ 2 < len ∨ cp < 0x10000 ∧ 3 < len then none
      else if 0x10FFFF < cp ∨ 0xD800 ≤ cp ∧ cp ≤ 0xDFFF then none
      else some len

/-- The loop of `is_valid_utf8`. -/
def validLoop : Nat → Name → Bool
  | _, [] => true
  | 0, _ :: _ => false
  | rounds + 1, s =>
      match verifyUtf8Sequence s with
      | none => false
      | some len => validLoop rounds (s.drop len)

/-- `is_valid_utf8`. -/
def isValidUtf8 (s : Name) : Bool := validLoop s.length s

/-! ## Values -/

/-- `is_decimal`. -/
def isDecimal (s : Name) : Bool :=
  ¬ (1 < s.length ∧ s[0]? = some 48 ∧ s[1]? ≠ some 46) ∧
    ¬ (2 < s.length ∧ s.take 2 = [45, 48] ∧ s[2]? ≠ some 46) ∧ 120 ∉ s ∧ 88 ∉ s

/-- `SKIP_WHITESPACES`. -/
def skipWhitespaces (s : Name) : Name := s.dropWhile isspace

section

variable {ν : Type} (d : Doubles ν)

/-- `parse_number_value`. -/
def parseNumberValue (s : Name) : Option (Json ν × Name) := do
  let (x, n) ← d.strtod s
  if isDecimal (s.take n) then return (.number x, s.drop n) else none

/-- The tokens of `parse_boolean_value` and `parse_null_value`. -/
def parseToken (token : Name) (v : Json ν) (s : Name) : Option (Json ν × Name) :=
  if token <+: s then some (v, s.drop token.length) else none

/-- The loop of `parse_array_value`.  A turn that is not the last one takes a comma. -/
def parseItems (value : Name → Option (Json ν × Name)) :
    Nat → Name → List (Json ν) → Option (Json ν × Name)
  | 0, _, _ => none
  | rounds + 1, s, items => do
      let (v, s) ← value s
      let s := skipWhitespaces s
      if s.head? = some 44 then parseItems value rounds (skipWhitespaces s.tail) (items ++ [v])
      else if s.head? = some 93 then return (.array (items ++ [v]), s.tail)
      else none

/-- `parse_array_value` after the bracket. -/
def parseArrayValue (value : Name → Option (Json ν × Name)) (s : Name) :
    Option (Json ν × Name) :=
  let s := skipWhitespaces s
  if s.head? = some 93 then some (.array [], s.tail) else parseItems value s.length s []

/-- The name of a field, and the text after its colon. -/
def parseKey (s : Name) : Option (Name × Name) := do
  let (key, s) ← getQuotedString s
  let s := skipWhitespaces s
  -- Names with embedded NUL are not supported
  if 0 ∈ key ∨ s.head? ≠ some 58 then none else return (key, s.tail)

/-- The loop of `parse_object_value`. -/
def parseFields (value : Name → Option (Json ν × Name)) :
    Nat → Name → List (Name × Json ν) → Option (Json ν × Name)
  | 0, _, _ => none
  | rounds + 1, s, fields => do
      let (key, s) ← parseKey s
      let (v, s) ← value s
      let s := skipWhitespaces s
      -- `json_object_add`
      if fields.any fun field => field.1 = key then none
      else if s.head? = some 44 then
        parseFields value rounds (skipWhitespaces s.tail) (fields ++ [(key, v)])
      else if s.head? = some 125 then return (.object (fields ++ [(key, v)]), s.tail)
      else none

/-- `parse_object_value` after the bracket. -/
def parseObjectValue (value : Name → Option (Json ν × Name)) (s : Name) :
    Option (Json ν × Name) :=
  let s := skipWhitespaces s
  if s.head? = some 125 then some (.object [], s.tail) else parseFields value s.length s []

/-- `parse_value`, with how many levels are left. -/
def parseValue : Nat → Name → Option (Json ν × Name)
  | 0, _ => none
  | left + 1, s =>
      let s := skipWhitespaces s
      match s with
      | [] => none
      | c :: rest =>
          if c = 123 then parseObjectValue (parseValue left) rest
          else if c = 91 then parseArrayValue (parseValue left) rest
          else if c = 34 then (getQuotedString s).map fun p => (.string p.1, p.2)
          else if c = 102 ∨ c = 116 then
            (parseToken (ascii "true") (.boolean true) s).or
              (parseToken (ascii "false") (.boolean false) s)
          else if c = 45 ∨ isdigit c then parseNumberValue d s
          else if c = 110 then parseToken (ascii "null") .null s
          else none

/-- `json_parse_string`, which passes over a byte order mark. -/
def jsonParseString (s : Name) : Option (Json ν) :=
  let s := if s.take 3 = [0xEF, 0xBB, 0xBF] then s.drop 3 else s
  (parseValue d (maxNesting + 1) s).map Prod.fst

/-! ## Comments -/

/-- `strstr`: where a text has another one first. -/
def strstr (pat : Name) : Name → Option Nat
  | [] => if pat = [] then some 0 else none
  | c :: rest => if pat <+: c :: rest then some 0 else (strstr pat rest).map (· + 1)

/-- The loop of `remove_comments`, with how many characters are still to be overwritten. -/
def removeLoop (start stop : Name) (inString escaped : Bool) : Nat → Name → Name
  | _, [] => []
  | blanks + 1, _ :: rest => 32 :: removeLoop start stop inString false blanks rest
  | 0, c :: rest =>
      if c = 92 ∧ escaped = false then c :: removeLoop start stop inString true 0 rest
      else if c = 34 ∧ escaped = false then c :: removeLoop start stop (!inString) false 0 rest
      else if inString = false ∧ start <+: c :: rest then
        match strstr stop ((c :: rest).drop start.length) with
        | none => List.replicate start.length 32 ++ (c :: rest).drop start.length
        | some n =>
            32 :: removeLoop start stop inString false (start.length + n + stop.length - 1) rest
      else c :: removeLoop start stop inString false 0 rest

/-- `remove_comments`. -/
def removeComments (start stop : Name) (s : Name) : Name := removeLoop start stop false false 0 s

/-- `json_parse_string_with_comments`. -/
def jsonParseStringWithComments (s : Name) : Option (Json ν) :=
  let s := removeComments (ascii "/*") (ascii "*/") s
  let s := removeComments (ascii "//") [10] s
  (parseValue d (maxNesting + 1) s).map Prod.fst

/-- `json_parse_file_with_comments`, with what `read_file` reads. -/
def jsonParseFileWithComments (file : Option Name) : Option (Json ν) :=
  match file with
  | none => none
  | some s => if s = [] then none else jsonParseStringWithComments d s

/-! ## Writing -/

/-- A digit of the escapes in `json_serialize_string`. -/
def hexDigit (n : Nat) : Fin 256 := Fin.ofNat 256 (if n < 10 then 48 + n else 87 + n)

/-- What `json_serialize_string` writes for a character. -/
def serializeChar (c : Fin 256) : Name :=
  if c = 34 then [92, 34]
  else if c = 92 then [92, 92]
  else if c = 8 then [92, 98]
  else if c = 12 then [92, 102]
  else if c = 10 then [92, 110]
  else if c = 13 then [92, 114]
  else if c = 9 then [92, 116]
  else if c < 0x20 then ascii "\\u00" ++ [hexDigit (c.val / 16), hexDigit (c.val % 16)]
  -- `parson_escape_slashes`
  else if c = 47 then [92, 47]
  else [c]

/-- `json_serialize_string`. -/
def jsonSerializeString (s : Name) : Name := [34] ++ s.flatMap serializeChar ++ [34]

/-- `append_indent`. -/
def appendIndent (level : Nat) : Name := List.replicate (4 * level) 32

/-- What is only written when the text is pretty. -/
def onPretty (pretty : Bool) (text : Name) : Name := if pretty then text else []

mutual

/-- `json_serialize_to_buffer_r`. -/
def jsonSerialize (pretty : Bool) (level : Nat) : Json ν → Name
  | .null => ascii "null"
  | .boolean b => if b then ascii "true" else ascii "false"
  | .number x => d.print x
  | .string s => jsonSerializeString s
  | .array [] => [91, 93]
  | .array (v :: items) =>
      [91] ++ onPretty pretty [10] ++ serializeItems pretty level (v :: items) ++
        onPretty pretty (appendIndent level) ++ [93]
  | .object [] => [123, 125]
  | .object (field :: fields) =>
      [123] ++ onPretty pretty [10] ++ serializeFields pretty level (field :: fields) ++
        onPretty pretty (appendIndent level) ++ [125]

def serializeItems (pretty : Bool) (level : Nat) : List (Json ν) → Name
  | [] => []
  | v :: items =>
      onPretty pretty (appendIndent (level + 1)) ++ jsonSerialize pretty (level + 1) v ++
        (if items = [] then [] else [44]) ++ onPretty pretty [10] ++
        serializeItems pretty level items

def serializeFields (pretty : Bool) (level : Nat) : List (Name × Json ν) → Name
  | [] => []
  | (key, v) :: fields =>
      onPretty pretty (appendIndent (level + 1)) ++ jsonSerializeString key ++ [58] ++
        onPretty pretty [32] ++ jsonSerialize pretty (level + 1) v ++
        (if fields = [] then [] else [44]) ++ onPretty pretty [10] ++
        serializeFields pretty level fields

end

end

end Ovni
