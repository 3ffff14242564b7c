import Mathlib.Data.List.DropRight
import Ovni.Json.Strings

/-!
# Values in JSON text

The text that is written for a value, pretty or not and with any text behind it that can follow
a value, is read back as the value, as long as the value is not nested too deep and the names
in each of its objects are distinct.
-/

namespace Ovni

variable {ν : Type}

/-- The values that a reader with so many levels left returns. -/
inductive Json.Fits : Nat → Json ν → Prop where
  | null {left : Nat} : Fits (left + 1) .null
  | boolean {left : Nat} (b : Bool) : Fits (left + 1) (.boolean b)
  | number {left : Nat} (x : ν) : Fits (left + 1) (.number x)
  | string {left : Nat} (s : Name) : Fits (left + 1) (.string s)
  | array {left : Nat} {items : List (Json ν)} (h : ∀ v ∈ items, Fits left v) :
      Fits (left + 1) (.array items)
  | object {left : Nat} {fields : List (Name × Json ν)} (hkeys : (fields.map Prod.fst).Nodup)
      (hnul : ∀ f ∈ fields, 0 ∉ f.1) (h : ∀ f ∈ fields, Fits left f.2) :
      Fits (left + 1) (.object fields)

/-- What can come behind a value. -/
def Ends (rest : Name) : Prop := ∀ c ∈ rest.head?, c = 44 ∨ c = 93 ∨ c = 125 ∨ c = 10

/-- The characters of a number. -/
def isNumberChar (c : Fin 256) : Bool := isdigit c ∨ c = 43 ∨ c = 45 ∨ c = 46 ∨ c = 101

/-- What the C library documents of `sprintf` with 17 digits and of `strtod`: a number is
written with a sign or a digit first and without needless zeros, and is read back. -/
structure Doubles.Documented (d : Doubles ν) : Prop where
  head : ∀ x, ∃ c text, d.print x = c :: text ∧ (c = 45 ∨ isdigit c = true)
  chars : ∀ x, ∀ c ∈ d.print x, isNumberChar c = true
  decimal : ∀ x, isDecimal (d.print x) = true
  read : ∀ x rest, Ends rest → d.strtod (d.print x ++ rest) = some (x, (d.print x).length)

/-! ## White space -/

theorem skipWhitespaces_space {space s : Name} (h : ∀ c ∈ space, isspace c = true) :
    skipWhitespaces (space ++ s) = skipWhitespaces s := List.dropWhile_append_of_pos h

theorem skipWhitespaces_cons {c : Fin 256} (h : isspace c = false) (s : Name) :
    skipWhitespaces (c :: s) = c :: s := by
  unfold skipWhitespaces
  rw [List.dropWhile_cons, h]
  rfl

theorem skipWhitespaces_idem (s : Name) :
    skipWhitespaces (skipWhitespaces s) = skipWhitespaces s := List.dropWhile_idempotent isspace s

theorem isspace_pretty {pretty : Bool} {text : Name} (h : ∀ c ∈ text, isspace c = true) :
    ∀ c ∈ onPretty pretty text, isspace c = true := by
  cases pretty with
  | true => exact h
  | false => simp [onPretty]

theorem isspace_newline : ∀ c ∈ ([10] : Name), isspace c = true := by simp [isspace]

theorem isspace_digit {c : Fin 256} (h : isdigit c = true) : isspace c = false := by
  revert h
  revert c
  decide +kernel

theorem isspace_indent (level : Nat) : ∀ c ∈ appendIndent level, isspace c = true := by
  intro c hc
  rw [List.eq_of_mem_replicate hc]
  rfl

section

variable {d : Doubles ν} {pretty : Bool} {level : Nat}

theorem ends_comma (rest : Name) : Ends (44 :: rest) :=
  fun _ hc => Or.inl (Option.some.inj hc).symm

/-- Behind an item there is no more than a newline, the indent and the bracket. -/
theorem ends_close {close : Fin 256} (hclose : close = 93 ∨ close = 125) (rest : Name) :
    Ends (onPretty pretty [10] ++ (onPretty pretty (appendIndent level) ++ close :: rest)) := by
  intro c hc
  cases pretty with
  | true =>
      obtain rfl : 10 = c := Option.some.inj hc
      simp
  | false =>
      obtain rfl : close = c := Option.some.inj hc
      rcases hclose with h | h <;> simp [h]

theorem skip_close {close : Fin 256} (hclose : isspace close = false) (rest : Name) :
    skipWhitespaces
        (onPretty pretty [10] ++ (onPretty pretty (appendIndent level) ++ close :: rest)) =
      close :: rest := by
  rw [skipWhitespaces_space (isspace_pretty isspace_newline),
    skipWhitespaces_space (isspace_pretty (isspace_indent level)), skipWhitespaces_cons hclose]

/-! ## Scalars -/

/-- A value starts with a character that is no white space, no mark and closes nothing. -/
theorem jsonSerialize_head (hd : d.Documented) (pretty : Bool) (level : Nat) (v : Json ν) :
    ∃ c text, jsonSerialize d pretty level v = c :: text ∧ isspace c = false ∧ c ≠ 93 ∧
      c ≠ 0xEF := by
  cases v with
  | null => exact ⟨_, _, by simp only [jsonSerialize]; rfl, rfl, by decide, by decide⟩
  | boolean b =>
      cases b with
      | true => exact ⟨_, _, by simp only [jsonSerialize]; rfl, rfl, by decide, by decide⟩
      | false => exact ⟨_, _, by simp only [jsonSerialize]; rfl, rfl, by decide, by decide⟩
  | number x =>
      obtain ⟨c, text, htext, hc⟩ := hd.head x
      refine ⟨c, text, by simp only [jsonSerialize]; exact htext, ?_⟩
      rcases hc with rfl | hc
      · exact ⟨rfl, by decide, by decide⟩
      · refine ⟨isspace_digit hc, ?_, ?_⟩
        · rintro rfl
          cases hc
        · rintro rfl
          cases hc
  | string s => exact ⟨_, _, by simp only [jsonSerialize]; rfl, rfl, by decide, by decide⟩
  | array items =>
      cases items with
      | nil => exact ⟨_, _, by simp only [jsonSerialize]; rfl, rfl, by decide, by decide⟩
      | cons v items => exact ⟨_, _, by simp only [jsonSerialize]; rfl, rfl, by decide, by decide⟩
  | object fields =>
      cases fields with
      | nil => exact ⟨_, _, by simp only [jsonSerialize]; rfl, rfl, by decide, by decide⟩
      | cons field fields =>
          exact ⟨_, _, by simp only [jsonSerialize]; rfl, rfl, by decide, by decide⟩

theorem parseValue_skip (left : Nat) (s : Name) :
    parseValue d left (skipWhitespaces s) = parseValue d left s := by
  cases left with
  | zero => rfl
  | succ left =>
      unfold parseValue
      rw [skipWhitespaces_idem]

theorem parseToken_append (token : Name) (v : Json ν) (rest : Name) :
    parseToken token v (token ++ rest) = some (v, rest) := by
  unfold parseToken
  rw [if_pos (List.prefix_append token rest), List.drop_left]

theorem parseNumberValue_print (hd : d.Documented) (x : ν) {rest : Name} (hrest : Ends rest) :
    parseNumberValue d (d.print x ++ rest) = some (.number x, rest) := by
  unfold parseNumberValue
  rw [hd.read x rest hrest]
  simp only [Option.bind_eq_bind, Option.bind_some, List.take_left, List.drop_left, hd.decimal x]
  rfl

/-! ## How many turns a loop takes -/

/-- How many characters of a text are no white space. -/
def inkLength (s : Name) : Nat := s.countP fun c => !isspace c

theorem inkLength_append (s t : Name) : inkLength (s ++ t) = inkLength s + inkLength t :=
  List.countP_append

theorem inkLength_le (s : Name) : inkLength s ≤ (skipWhitespaces s).length := by
  induction s with
  | nil => exact Nat.le_refl 0
  | cons c s ih =>
      by_cases hc : isspace c = true
      · unfold inkLength skipWhitespaces at ih ⊢
        rw [List.dropWhile_cons, if_pos hc, List.countP_cons_of_neg (by simp [hc])]
        exact ih
      · rw [skipWhitespaces_cons (by simpa using hc)]
        exact List.countP_le_length

theorem inkLength_pos (hd : d.Documented) (pretty : Bool) (level : Nat) (v : Json ν) :
    0 < inkLength (jsonSerialize d pretty level v) := by
  obtain ⟨c, text, htext, hc, -⟩ := jsonSerialize_head hd pretty level v
  rw [htext, inkLength, List.countP_cons_of_pos (by simp [hc])]
  exact Nat.succ_pos _

theorem length_items_le (hd : d.Documented) (pretty : Bool) (level : Nat)
    (items : List (Json ν)) :
    items.length ≤ inkLength (serializeItems d pretty level items) := by
  induction items with
  | nil => exact Nat.zero_le _
  | cons v items ih =>
      have hpos := inkLength_pos hd pretty (level + 1) v
      simp only [serializeItems, inkLength_append, List.length_cons]
      omega

theorem length_fields_le (d : Doubles ν) (pretty : Bool) (level : Nat)
    (fields : List (Name × Json ν)) :
    fields.length ≤ inkLength (serializeFields d pretty level fields) := by
  induction fields with
  | nil => exact Nat.zero_le _
  | cons field fields ih =>
      have hpos : inkLength [58] = 1 := rfl
      simp only [serializeFields, inkLength_append, List.length_cons]
      omega

/-! ## Arrays -/

section Items

variable {value : Name → Option (Json ν × Name)} (hskip : ∀ s, value (skipWhitespaces s) = value s)
include hskip

theorem value_space {space : Name} (h : ∀ c ∈ space, isspace c = true) (s : Name) :
    value (space ++ s) = value s := by
  rw [← hskip, skipWhitespaces_space h, hskip]

theorem parseItems_skip (rounds : Nat) (s : Name) (done : List (Json ν)) :
    parseItems value rounds (skipWhitespaces s) done = parseItems value rounds s done := by
  cases rounds with
  | zero => rfl
  | succ rounds => simp only [parseItems, hskip]

theorem parseItems_serialize {v : Json ν} {items : List (Json ν)} {rounds : Nat}
    (hvalue : ∀ w ∈ v :: items, ∀ rest, Ends rest →
      value (jsonSerialize d pretty (level + 1) w ++ rest) = some (w, rest))
    (hrounds : items.length < rounds) (done : List (Json ν)) (rest : Name) :
    parseItems value rounds (serializeItems d pretty level (v :: items) ++
        (onPretty pretty (appendIndent level) ++ 93 :: rest)) done =
      some (.array (done ++ v :: items), rest) := by
  have hindent : ∀ c ∈ onPretty pretty (appendIndent (level + 1)), isspace c = true :=
    isspace_pretty (isspace_indent (level + 1))
  induction items generalizing v rounds done with
  | nil =>
      obtain ⟨rounds, rfl⟩ : ∃ k, rounds = k + 1 := ⟨rounds - 1, by omega⟩
      simp only [serializeItems, List.append_assoc, List.nil_append, if_true]
      rw [parseItems, value_space hskip hindent,
        hvalue v List.mem_cons_self _ (ends_close (Or.inl rfl) rest)]
      simp only [Option.bind_eq_bind, Option.bind_some]
      rw [skip_close rfl]
      rfl
  | cons w items ih =>
      obtain ⟨rounds, rfl⟩ : ∃ k, rounds = k + 1 := ⟨rounds - 1, by omega⟩
      have hnext := ih (v := w) (fun u hu => hvalue u (List.mem_cons_of_mem v hu))
        (show items.length < rounds by simp only [List.length_cons] at hrounds; omega)
        (done ++ [v])
      rw [serializeItems, if_neg (by simp)]
      simp only [List.append_assoc, List.cons_append, List.nil_append] at hnext ⊢
      rw [parseItems, value_space hskip hindent,
        hvalue v List.mem_cons_self _ (ends_comma _)]
      simp only [Option.bind_eq_bind, Option.bind_some]
      rw [skipWhitespaces_cons rfl, List.head?_cons, if_pos rfl, List.tail_cons,
        skipWhitespaces_space (isspace_pretty isspace_newline), parseItems_skip hskip, hnext]

theorem parseArrayValue_serialize (hd : d.Documented) {items : List (Json ν)}
    (hvalue : ∀ w ∈ items, ∀ rest, Ends rest →
      value (jsonSerialize d pretty (level + 1) w ++ rest) = some (w, rest)) (rest : Name) :
    parseArrayValue value ((jsonSerialize d pretty level (.array items)).tail ++ rest) =
      some (.array items, rest) := by
  cases items with
  | nil =>
      simp only [jsonSerialize, List.tail_cons, List.cons_append, List.nil_append]
      rw [parseArrayValue, skipWhitespaces_cons rfl]
      rfl
  | cons v items =>
      have htext : (jsonSerialize d pretty level (.array (v :: items))).tail ++ rest =
          onPretty pretty [10] ++ (serializeItems d pretty level (v :: items) ++
            (onPretty pretty (appendIndent level) ++ 93 :: rest)) := by
        simp [jsonSerialize]
      rw [htext, parseArrayValue, skipWhitespaces_space (isspace_pretty isspace_newline)]
      have hrounds : items.length < (skipWhitespaces (serializeItems d pretty level (v :: items) ++
          (onPretty pretty (appendIndent level) ++ 93 :: rest))).length := by
        have hink := length_items_le hd pretty level (v :: items)
        have hle := inkLength_le (serializeItems d pretty level (v :: items) ++
          (onPretty pretty (appendIndent level) ++ 93 :: rest))
        rw [inkLength_append] at hle
        simp only [List.length_cons] at hink
        omega
      obtain ⟨c, text, hhead, hspace, hne, -⟩ :=
        jsonSerialize_head hd pretty (level + 1) v
      have hfirst : (skipWhitespaces (serializeItems d pretty level (v :: items) ++
          (onPretty pretty (appendIndent level) ++ 93 :: rest))).head? = some c := by
        simp only [serializeItems, List.append_assoc, hhead, List.cons_append]
        rw [skipWhitespaces_space (isspace_pretty (isspace_indent (level + 1))),
          skipWhitespaces_cons hspace, List.head?_cons]
      simp only [hfirst, Option.some.injEq, if_neg hne]
      rw [parseItems_skip hskip]
      exact parseItems_serialize hskip hvalue hrounds [] rest

/-! ## Objects -/

omit hskip in
theorem skip_key (key s : Name) : skipWhitespaces (onPretty pretty (appendIndent level) ++
    (jsonSerializeString key ++ s)) = jsonSerializeString key ++ s := by
  rw [skipWhitespaces_space (isspace_pretty (isspace_indent level))]
  exact skipWhitespaces_cons rfl _

omit hskip in
theorem parseKey_serialize {key : Name} (hnul : 0 ∉ key) (s : Name) :
    parseKey (jsonSerializeString key ++ 58 :: s) = some (key, s) := by
  unfold parseKey
  rw [getQuotedString_serialize]
  simp only [Option.bind_eq_bind, Option.bind_some]
  rw [skipWhitespaces_cons rfl, List.head?_cons, List.tail_cons, if_neg (by simp [hnul])]
  rfl

omit hskip in
/-- `json_object_add` has no other value for the name. -/
theorem any_key {done fields : List (Name × Json ν)} {key : Name} {v : Json ν}
    (hkeys : ((done ++ (key, v) :: fields).map Prod.fst).Nodup) :
    (done.any fun field => decide (field.1 = key)) = false := by
  rw [List.map_append, List.map_cons] at hkeys
  rw [List.any_eq_false]
  intro field hfield hkey
  have hmem : key ∈ done.map Prod.fst :=
    List.mem_map.mpr ⟨field, hfield, of_decide_eq_true hkey⟩
  exact (List.nodup_append.mp hkeys).2.2 key hmem key List.mem_cons_self rfl

theorem parseFields_serialize {key : Name} {v : Json ν} {fields : List (Name × Json ν)}
    {rounds : Nat} (hvalue : ∀ f ∈ (key, v) :: fields, ∀ rest, Ends rest →
      value (jsonSerialize d pretty (level + 1) f.2 ++ rest) = some (f.2, rest))
    (hnul : ∀ f ∈ (key, v) :: fields, 0 ∉ f.1) (hrounds : fields.length < rounds)
    (done : List (Name × Json ν)) (hkeys : ((done ++ (key, v) :: fields).map Prod.fst).Nodup)
    (rest : Name) :
    parseFields value rounds
        (skipWhitespaces (serializeFields d pretty level ((key, v) :: fields) ++
          (onPretty pretty (appendIndent level) ++ 125 :: rest))) done =
      some (.object (done ++ (key, v) :: fields), rest) := by
  have hspace : ∀ c ∈ onPretty pretty [32], isspace c = true := isspace_pretty (by simp [isspace])
  induction fields generalizing key v rounds done with
  | nil =>
      obtain ⟨rounds, rfl⟩ : ∃ k, rounds = k + 1 := ⟨rounds - 1, by omega⟩
      simp only [serializeFields, List.append_assoc, List.nil_append, List.cons_append, if_true]
      rw [skip_key, parseFields, parseKey_serialize (hnul _ List.mem_cons_self)]
      simp only [Option.bind_eq_bind, Option.bind_some]
      rw [value_space hskip hspace,
        hvalue _ List.mem_cons_self _ (ends_close (Or.inr rfl) rest)]
      simp only [Option.bind_some, any_key hkeys]
      rw [skip_close rfl]
      rfl
  | cons field fields ih =>
      obtain ⟨rounds, rfl⟩ : ∃ k, rounds = k + 1 := ⟨rounds - 1, by omega⟩
      have hnext := ih (fun f hf => hvalue f (List.mem_cons_of_mem (key, v) hf))
        (fun f hf => hnul f (List.mem_cons_of_mem (key, v) hf))
        (show fields.length < rounds by simp only [List.length_cons] at hrounds; omega)
        (done ++ [(key, v)]) (by simpa using hkeys)
      rw [serializeFields, if_neg (by simp)]
      simp only [List.append_assoc, List.nil_append, List.cons_append] at hnext ⊢
      rw [skip_key, parseFields, parseKey_serialize (hnul _ List.mem_cons_self)]
      simp only [Option.bind_eq_bind, Option.bind_some]
      rw [value_space hskip hspace, hvalue _ List.mem_cons_self _ (ends_comma _)]
      simp only [Option.bind_some, any_key hkeys]
      rw [skipWhitespaces_cons rfl, List.head?_cons, if_neg (by simp), if_pos rfl, List.tail_cons,
        skipWhitespaces_space (isspace_pretty isspace_newline)]
      exact hnext

theorem parseObjectValue_serialize {fields : List (Name × Json ν)}
    (hvalue : ∀ f ∈ fields, ∀ rest, Ends rest →
      value (jsonSerialize d pretty (level + 1) f.2 ++ rest) = some (f.2, rest))
    (hnul : ∀ f ∈ fields, 0 ∉ f.1) (hkeys : (fields.map Prod.fst).Nodup) (rest : Name) :
    parseObjectValue value ((jsonSerialize d pretty level (.object fields)).tail ++ rest) =
      some (.object fields, rest) := by
  cases fields with
  | nil =>
      simp only [jsonSerialize, List.tail_cons, List.cons_append, List.nil_append]
      rw [parseObjectValue, skipWhitespaces_cons rfl]
      rfl
  | cons field fields =>
      have htext : (jsonSerialize d pretty level (.object (field :: fields))).tail ++ rest =
          onPretty pretty [10] ++ (serializeFields d pretty level (field :: fields) ++
            (onPretty pretty (appendIndent level) ++ 125 :: rest)) := by
        simp [jsonSerialize]
      rw [htext, parseObjectValue, skipWhitespaces_space (isspace_pretty isspace_newline)]
      have hrounds : fields.length < (skipWhitespaces (serializeFields d pretty level
          (field :: fields) ++ (onPretty pretty (appendIndent level) ++ 125 :: rest))).length := by
        have hink := length_fields_le d pretty level (field :: fields)
        have hle := inkLength_le (serializeFields d pretty level (field :: fields) ++
          (onPretty pretty (appendIndent level) ++ 125 :: rest))
        rw [inkLength_append] at hle
        simp only [List.length_cons] at hink
        omega
      have hfirst : (skipWhitespaces (serializeFields d pretty level (field :: fields) ++
          (onPretty pretty (appendIndent level) ++ 125 :: rest))).head? = some 34 := by
        simp only [serializeFields, List.append_assoc]
        rw [skip_key]
        rfl
      rw [if_neg (by rw [hfirst]; simp)]
      exact parseFields_serialize hskip hvalue hnul hrounds [] hkeys rest

end Items

/-! ## Values -/

/-- The brackets of a text. -/
theorem jsonSerialize_array (items : List (Json ν)) : jsonSerialize d pretty level (.array items) =
    91 :: (jsonSerialize d pretty level (.array items)).tail := by
  cases items <;> simp [jsonSerialize]

theorem jsonSerialize_object (fields : List (Name × Json ν)) :
    jsonSerialize d pretty level (.object fields) =
      123 :: (jsonSerialize d pretty level (.object fields)).tail := by
  cases fields <;> simp [jsonSerialize]

theorem number_head {c : Fin 256} (h : c = 45 ∨ isdigit c = true) :
    c ≠ 123 ∧ c ≠ 91 ∧ c ≠ 34 ∧ c ≠ 102 ∧ c ≠ 116 := by
  revert h
  revert c
  decide +kernel

/-- A value is read back from what is written for it. -/
theorem parseValue_serialize (hd : d.Documented) {left : Nat} {v : Json ν} (hv : v.Fits left)
    (level : Nat) {rest : Name} (hrest : Ends rest) :
    parseValue d left (jsonSerialize d pretty level v ++ rest) = some (v, rest) := by
  induction left generalizing v level rest with
  | zero => cases hv
  | succ left ih =>
      obtain ⟨c, text, htext, hspace, -⟩ := jsonSerialize_head hd pretty level v
      have hskip : skipWhitespaces (jsonSerialize d pretty level v ++ rest) =
          jsonSerialize d pretty level v ++ rest := by
        rw [htext]
        exact skipWhitespaces_cons hspace _
      rw [parseValue, hskip]
      cases hv with
      | null =>
          have hnull := parseToken_append (ascii "null") (.null : Json ν) rest
          simp only [jsonSerialize]
          exact hnull
      | boolean b =>
          cases b with
          | true =>
              have htrue := parseToken_append (ascii "true") (.boolean true : Json ν) rest
              simp only [jsonSerialize]
              exact congrArg (Option.or · (parseToken (ascii "false") (.boolean false)
                (ascii "true" ++ rest))) htrue
          | false =>
              have hfalse := parseToken_append (ascii "false") (.boolean false : Json ν) rest
              have htrue : parseToken (ascii "true") (.boolean true : Json ν)
                  (ascii "false" ++ rest) = none := by
                unfold parseToken
                rw [if_neg]
                rintro ⟨text, htext⟩
                cases congrArg List.head? htext
              simp only [jsonSerialize]
              exact (congrArg (Option.or · (parseToken (ascii "false") (.boolean false)
                (ascii "false" ++ rest))) htrue).trans hfalse
      | number x =>
          have hnumber := parseNumberValue_print hd x hrest
          obtain ⟨c, text, htext, hc⟩ := hd.head x
          obtain ⟨h1, h2, h3, h4, h5⟩ := number_head hc
          simp only [jsonSerialize, htext, List.cons_append, if_neg h1, if_neg h2, if_neg h3,
            h4, h5, or_self, if_false] at hnumber ⊢
          rw [if_pos (by simpa using hc)]
          exact hnumber
      | string s =>
          have hstring := getQuotedString_serialize s rest
          simp only [jsonSerialize]
          simp only [jsonSerializeString, List.append_assoc, List.cons_append, List.nil_append]
            at hstring ⊢
          simp [hstring]
      | array h =>
          rename_i items
          rw [jsonSerialize_array, List.cons_append]
          exact parseArrayValue_serialize (parseValue_skip left) hd
            (fun w hw rest hrest => ih (h w hw) (level + 1) hrest) rest
      | object hkeys hnul h =>
          rename_i fields
          rw [jsonSerialize_object, List.cons_append]
          exact parseObjectValue_serialize (parseValue_skip left)
            (fun f hf rest hrest => ih (h f hf) (level + 1) hrest) hnul hkeys rest

end

end Ovni
