import Ovni.Json.Numbers

/-!
# The values that are read

The reader returns only values that it can read back from their own text, and all of them.
Taking comments out of such a text leaves it as it is.
-/

namespace Ovni

variable {ν : Type} {d : Doubles ν}

/-! ## What the reader returns -/

section Loops

variable {value : Name → Option (Json ν × Name)} {left : Nat}

theorem parseItems_fits (hvalue : ∀ s v rest, value s = some (v, rest) → v.Fits left)
    {rounds : Nat} {s rest : Name} {done : List (Json ν)} {v : Json ν}
    (hdone : ∀ w ∈ done, w.Fits left) (h : parseItems value rounds s done = some (v, rest)) :
    v.Fits (left + 1) := by
  induction rounds generalizing s done with
  | zero => cases h
  | succ rounds ih =>
      rw [parseItems, Option.bind_eq_bind, Option.bind_eq_some_iff] at h
      obtain ⟨⟨w, s'⟩, hitem, h⟩ := h
      simp only at h
      have hitems : ∀ u ∈ done ++ [w], u.Fits left := by
        rw [List.forall_mem_append]
        exact ⟨hdone, by simpa using hvalue s w s' hitem⟩
      split at h
      · exact ih hitems h
      · split at h
        · obtain ⟨rfl, -⟩ := Prod.mk.inj (Option.some.inj h)
          exact .array hitems
        · cases h

theorem parseArrayValue_fits (hvalue : ∀ s v rest, value s = some (v, rest) → v.Fits left)
    {s rest : Name} {v : Json ν} (h : parseArrayValue value s = some (v, rest)) :
    v.Fits (left + 1) := by
  unfold parseArrayValue at h
  simp only at h
  split at h
  · obtain ⟨rfl, -⟩ := Prod.mk.inj (Option.some.inj h)
    exact .array (by simp)
  · exact parseItems_fits hvalue (by simp) h

theorem parseKey_nul {s rest key : Name} (h : parseKey s = some (key, rest)) : 0 ∉ key := by
  obtain ⟨⟨key', s₁⟩, -, h⟩ := Option.bind_eq_some_iff.mp h
  simp only at h
  split at h
  · cases h
  next hno =>
    obtain ⟨rfl, -⟩ := Prod.mk.inj (Option.some.inj h)
    exact fun hnul => hno (Or.inl hnul)

theorem parseFields_fits (hvalue : ∀ s v rest, value s = some (v, rest) → v.Fits left)
    {rounds : Nat} {s rest : Name} {done : List (Name × Json ν)} {v : Json ν}
    (hdone : Json.Fits (left + 1) (.object done))
    (h : parseFields value rounds s done = some (v, rest)) : v.Fits (left + 1) := by
  induction rounds generalizing s done with
  | zero => cases h
  | succ rounds ih =>
      rw [parseFields, Option.bind_eq_bind, Option.bind_eq_some_iff] at h
      obtain ⟨⟨key, s₁⟩, hkey, h⟩ := h
      simp only [Option.bind_eq_bind, Option.bind_eq_some_iff] at h
      obtain ⟨⟨w, s₂⟩, hfield, h⟩ := h
      simp only at h
      split at h
      · cases h
      next hnew =>
        cases hdone with
        | object hkeys hnul hfields =>
            have hobject : Json.Fits (left + 1) (.object (done ++ [(key, w)])) := by
              refine .object ?_ ?_ ?_
              · rw [List.map_append, List.nodup_append]
                refine ⟨hkeys, by simp, fun a ha b hb hab => ?_⟩
                obtain rfl : b = key := by simpa using hb
                obtain ⟨field, hmem, rfl⟩ := List.mem_map.mp ha
                exact hnew (List.any_eq_true.mpr ⟨field, hmem, by simpa using hab⟩)
              · rw [List.forall_mem_append]
                exact ⟨hnul, by simpa using parseKey_nul hkey⟩
              · rw [List.forall_mem_append]
                exact ⟨hfields, by simpa using hvalue s₁ w s₂ hfield⟩
            split at h
            · exact ih hobject h
            · split at h
              · obtain ⟨rfl, -⟩ := Prod.mk.inj (Option.some.inj h)
                exact hobject
              · cases h

theorem parseObjectValue_fits (hvalue : ∀ s v rest, value s = some (v, rest) → v.Fits left)
    {s rest : Name} {v : Json ν} (h : parseObjectValue value s = some (v, rest)) :
    v.Fits (left + 1) := by
  have hempty : Json.Fits (left + 1) (.object [] : Json ν) := .object (by simp) (by simp) (by simp)
  unfold parseObjectValue at h
  simp only at h
  split at h
  · obtain ⟨rfl, -⟩ := Prod.mk.inj (Option.some.inj h)
    exact hempty
  · exact parseFields_fits hvalue hempty h

end Loops

theorem parseToken_some {token s rest : Name} {v w : Json ν}
    (h : parseToken token v s = some (w, rest)) : w = v := by
  unfold parseToken at h
  split at h
  · exact (Prod.mk.inj (Option.some.inj h)).1.symm
  · cases h

theorem parseValue_fits {left : Nat} {s rest : Name} {v : Json ν}
    (h : parseValue d left s = some (v, rest)) : v.Fits left := by
  induction left generalizing s v rest with
  | zero => cases h
  | succ left ih =>
      unfold parseValue at h
      simp only at h
      split at h
      · cases h
      next c text _ =>
        by_cases h123 : c = 123
        · rw [if_pos h123] at h
          exact parseObjectValue_fits (fun s v rest => ih) h
        by_cases h91 : c = 91
        · rw [if_neg h123, if_pos h91] at h
          exact parseArrayValue_fits (fun s v rest => ih) h
        by_cases h34 : c = 34
        · rw [if_neg h123, if_neg h91, if_pos h34] at h
          obtain ⟨p, -, hp⟩ := Option.map_eq_some_iff.mp h
          obtain ⟨rfl, -⟩ := Prod.mk.inj hp
          exact .string _
        rw [if_neg h123, if_neg h91, if_neg h34] at h
        split at h
        · rcases Option.or_eq_some_iff.mp h with h | ⟨-, h⟩
          · rw [parseToken_some h]
            exact .boolean true
          · rw [parseToken_some h]
            exact .boolean false
        split at h
        · obtain ⟨⟨x, n⟩, -, h⟩ := Option.bind_eq_some_iff.mp h
          simp only at h
          split at h
          · obtain ⟨rfl, -⟩ := Prod.mk.inj (Option.some.inj h)
            exact .number x
          · cases h
        split at h
        · rw [parseToken_some h]
          exact .null
        · cases h

/-! ## Comments -/

/-- The characters outside of strings that do not start a string or a comment. -/
def isPlain (c : Fin 256) : Bool := c ≠ 0 ∧ c ≠ 34 ∧ c ≠ 47 ∧ c ≠ 92

theorem isPlain_iff {c : Fin 256} : isPlain c = true ↔ c ≠ 0 ∧ c ≠ 34 ∧ c ≠ 47 ∧ c ≠ 92 :=
  decide_eq_true_iff

/-- A text of strings and other characters, of which none starts a comment. -/
inductive Pieces : Name → Prop where
  | nil : Pieces []
  | char {c : Fin 256} {text : Name} (hc : isPlain c = true) (h : Pieces text) : Pieces (c :: text)
  | string {text : Name} (s : Name) (h : Pieces text) : Pieces (jsonSerializeString s ++ text)

theorem Pieces.append {p q : Name} (hp : Pieces p) (hq : Pieces q) : Pieces (p ++ q) := by
  induction hp with
  | nil => exact hq
  | char hc _ ih => exact .char hc ih
  | string s _ ih =>
      rw [List.append_assoc]
      exact .string s ih

theorem Pieces.chars {text : Name} (h : text.all isPlain = true) : Pieces text := by
  induction text with
  | nil => exact .nil
  | cons c text ih =>
      rw [List.all_cons, Bool.and_eq_true] at h
      exact .char h.1 (ih h.2)

theorem Pieces.pretty {pretty : Bool} {text : Name} (h : Pieces text) :
    Pieces (onPretty pretty text) := by
  cases pretty with
  | true => exact h
  | false => exact .nil

theorem Pieces.indent (pretty : Bool) (level : Nat) :
    Pieces (onPretty pretty (appendIndent level)) := by
  refine .pretty (.chars (List.all_eq_true.mpr fun c hc => ?_))
  rw [List.eq_of_mem_replicate hc]
  rfl

theorem isNumberChar_plain {c : Fin 256} (h : isNumberChar c = true) : isPlain c = true := by
  revert h
  revert c
  decide +kernel

section Removed

variable {start stop : Name}

theorem removeLoop_string_plain {c : Fin 256} (hquote : c ≠ 34) (hback : c ≠ 92) (rest : Name) :
    removeLoop start stop true false 0 (c :: rest) =
      c :: removeLoop start stop true false 0 rest := by
  simp [removeLoop, hquote, hback]

theorem removeLoop_string_escape (e : Fin 256) (rest : Name) :
    removeLoop start stop true false 0 (92 :: e :: rest) =
      92 :: e :: removeLoop start stop true false 0 rest := by
  simp [removeLoop]

theorem removeLoop_serializeChar (c : Fin 256) (rest : Name) :
    removeLoop start stop true false 0 (serializeChar c ++ rest) =
      serializeChar c ++ removeLoop start stop true false 0 rest := by
  cases written c with
  | plain h hquote hback _ =>
      rw [h]
      exact removeLoop_string_plain hquote hback rest
  | escape e h =>
      rw [h]
      exact removeLoop_string_escape e rest
  | control h hlow =>
      obtain ⟨hquote1, hback1, -⟩ := hexDigit_ne (n := c.val / 16) (by have := c.isLt; omega)
      obtain ⟨hquote2, hback2, -⟩ := hexDigit_ne (n := c.val % 16) (by omega)
      rw [h]
      simp only [List.cons_append, List.nil_append]
      rw [removeLoop_string_escape, removeLoop_string_plain (by decide) (by decide),
        removeLoop_string_plain (by decide) (by decide), removeLoop_string_plain hquote1 hback1,
        removeLoop_string_plain hquote2 hback2]

theorem removeLoop_string (s rest : Name) :
    removeLoop start stop false false 0 (jsonSerializeString s ++ rest) =
      jsonSerializeString s ++ removeLoop start stop false false 0 rest := by
  have hinside : removeLoop start stop true false 0 (s.flatMap serializeChar ++ 34 :: rest) =
      s.flatMap serializeChar ++ 34 :: removeLoop start stop false false 0 rest := by
    induction s with
    | nil => simp [removeLoop]
    | cons c s ih => rw [List.flatMap_cons, List.append_assoc, removeLoop_serializeChar, ih,
        List.append_assoc]
  have htext : ∀ t, jsonSerializeString s ++ t = 34 :: (s.flatMap serializeChar ++ 34 :: t) :=
    fun t => by simp [jsonSerializeString]
  rw [htext, htext, ← hinside]
  simp [removeLoop]

/-- Nothing is taken out of such a text when the comments start with a slash. -/
theorem Pieces.removed {text : Name} (h : Pieces text) (hstart : start.head? = some 47) :
    removeComments start stop text = text := by
  unfold removeComments
  induction h with
  | nil => rfl
  | @char c text hc _ ih =>
      rw [isPlain_iff] at hc
      have hno : ¬ start <+: c :: text := by
        rintro ⟨rest, hrest⟩
        cases start with
        | nil => cases hstart
        | cons c' start =>
            obtain rfl : c' = 47 := Option.some.inj hstart
            exact hc.2.2.1 (List.cons.inj hrest).1.symm
      simp [removeLoop, hc.2.1, hc.2.2.2, hno, ih]
  | string s _ ih => rw [removeLoop_string, ih]

end Removed

theorem Pieces.no_nul {text : Name} (h : Pieces text) : 0 ∉ text := by
  induction h with
  | nil => simp
  | char hc _ ih =>
      rw [List.mem_cons, not_or]
      exact ⟨Ne.symm (isPlain_iff.mp hc).1, ih⟩
  | string s _ ih =>
      have hchar : ∀ c, 0 ∉ serializeChar c := by
        intro c
        cases written c with
        | plain h _ _ hplain =>
            rw [h, List.mem_singleton]
            rintro rfl
            exact hplain (by decide)
        | escape e h _ hnul =>
            rw [h]
            simp [Ne.symm hnul]
        | control h hlow =>
            obtain ⟨-, -, hnul1⟩ := hexDigit_ne (n := c.val / 16) (by have := c.isLt; omega)
            obtain ⟨-, -, hnul2⟩ := hexDigit_ne (n := c.val % 16) (by omega)
            rw [h]
            simp [Ne.symm hnul1, Ne.symm hnul2]
      simp [jsonSerializeString, ih, hchar]

section Serialized

variable {pretty : Bool}

theorem serializeItems_pieces {items : List (Json ν)} {level : Nat}
    (h : ∀ v ∈ items, Pieces (jsonSerialize d pretty (level + 1) v)) :
    Pieces (serializeItems d pretty level items) := by
  have hnewline : Pieces (onPretty pretty [10]) := .pretty (.chars rfl)
  induction items with
  | nil => exact .nil
  | cons v items ih =>
      rw [List.forall_mem_cons] at h
      have hcomma : Pieces (if items = [] then [] else [44]) := by
        split
        · exact .nil
        · exact .chars rfl
      rw [serializeItems]
      exact (((Pieces.indent pretty (level + 1)).append h.1).append hcomma).append hnewline
        |>.append (ih h.2)

theorem serializeFields_pieces {fields : List (Name × Json ν)} {level : Nat}
    (h : ∀ f ∈ fields, Pieces (jsonSerialize d pretty (level + 1) f.2)) :
    Pieces (serializeFields d pretty level fields) := by
  have hnewline : Pieces (onPretty pretty [10]) := .pretty (.chars rfl)
  have hspace : Pieces (onPretty pretty [32]) := .pretty (.chars rfl)
  have hcolon : Pieces [58] := .chars rfl
  induction fields with
  | nil => exact .nil
  | cons field fields ih =>
      rw [List.forall_mem_cons] at h
      have hkey : Pieces (jsonSerializeString field.1) := by
        simpa using Pieces.string field.1 .nil
      have hcomma : Pieces (if fields = [] then [] else [44]) := by
        split
        · exact .nil
        · exact .chars rfl
      rw [serializeFields]
      exact ((((((Pieces.indent pretty (level + 1)).append hkey).append hcolon).append
        hspace).append h.1).append hcomma).append hnewline |>.append (ih h.2)

/-- What is written for a value is such a text. -/
theorem Json.Fits.pieces (hd : d.Documented) {left : Nat} {v : Json ν} (hv : v.Fits left)
    (level : Nat) : Pieces (jsonSerialize d pretty level v) := by
  have hnewline : Pieces (onPretty pretty [10]) := .pretty (.chars rfl)
  induction hv generalizing level with
  | null =>
      simp only [jsonSerialize]
      exact .chars rfl
  | boolean b =>
      cases b with
      | true =>
          simp only [jsonSerialize]
          exact .chars rfl
      | false =>
          simp only [jsonSerialize]
          exact .chars rfl
  | number x =>
      simp only [jsonSerialize]
      exact .chars (List.all_eq_true.mpr fun c hc => isNumberChar_plain (hd.chars x c hc))
  | string s =>
      simp only [jsonSerialize]
      simpa using Pieces.string s .nil
  | @array _ items _ ih =>
      cases items with
      | nil =>
          simp only [jsonSerialize]
          exact .chars rfl
      | cons v items =>
          have hopen : Pieces [91] := .chars rfl
          have hclose : Pieces [93] := .chars rfl
          simp only [jsonSerialize]
          exact (((hopen.append hnewline).append (serializeItems_pieces fun w hw =>
            ih w hw (level + 1))).append (.indent pretty level)).append hclose
  | @object _ fields _ _ _ ih =>
      cases fields with
      | nil =>
          simp only [jsonSerialize]
          exact .chars rfl
      | cons field fields =>
          have hopen : Pieces [123] := .chars rfl
          have hclose : Pieces [125] := .chars rfl
          simp only [jsonSerialize]
          exact (((hopen.append hnewline).append (serializeFields_pieces fun f hf =>
            ih f hf (level + 1))).append (.indent pretty level)).append hclose

end Serialized

/-! ## Texts -/

theorem Ends.nil : Ends [] := by simp [Ends]

/-- What is written for a value is a C string, and is read back with comments allowed or not. -/
theorem Json.Fits.read_back (hd : d.Documented) {v : Json ν} (hv : v.Fits (maxNesting + 1))
    (pretty : Bool) : 0 ∉ jsonSerialize d pretty 0 v ∧
      jsonParseString d (jsonSerialize d pretty 0 v) = some v ∧
      jsonParseFileWithComments d (some (jsonSerialize d pretty 0 v)) = some v := by
  have hread : parseValue d (maxNesting + 1) (jsonSerialize d pretty 0 v ++ []) = some (v, []) :=
    parseValue_serialize hd hv 0 Ends.nil
  have hpieces : Pieces (jsonSerialize d pretty 0 v) := hv.pieces hd 0
  obtain ⟨c, text, htext, -, -, hmark⟩ := jsonSerialize_head hd pretty 0 v
  rw [List.append_nil] at hread
  refine ⟨hpieces.no_nul, ?_, ?_⟩
  · have hno : (jsonSerialize d pretty 0 v).take 3 ≠ [0xEF, 0xBB, 0xBF] := by
      rw [htext, List.take_succ_cons]
      exact fun h => hmark (List.cons.inj h).1
    rw [jsonParseString, if_neg hno, hread]
    rfl
  · have hne : jsonSerialize d pretty 0 v ≠ [] := by simp [htext]
    rw [jsonParseFileWithComments, if_neg hne, jsonParseStringWithComments, hpieces.removed rfl,
      hpieces.removed rfl, hread]
    rfl

theorem jsonParseString_fits {s : Name} {v : Json ν} (h : jsonParseString d s = some v) :
    v.Fits (maxNesting + 1) := by
  obtain ⟨⟨w, rest⟩, hparse, rfl⟩ := Option.map_eq_some_iff.mp h
  exact parseValue_fits hparse

/-- The values that the reader returns are those that are not nested deeper than `MAX_NESTING`,
with distinct names that have no NUL in each object, and each of them is read back from what is
written for it, with comments allowed or not.  What is written is a C string. -/
theorem json_read_back (hd : d.Documented) (v : Json ν) :
    ((∃ s, jsonParseString d s = some v) ↔ v.Fits (maxNesting + 1)) ∧
      (v.Fits (maxNesting + 1) → ∀ pretty, 0 ∉ jsonSerialize d pretty 0 v ∧
        jsonParseString d (jsonSerialize d pretty 0 v) = some v ∧
        jsonParseFileWithComments d (some (jsonSerialize d pretty 0 v)) = some v) := by
  refine ⟨⟨?_, fun hv => ⟨_, (hv.read_back hd true).2.1⟩⟩, fun hv => hv.read_back hd⟩
  rintro ⟨s, hs⟩
  exact jsonParseString_fits hs

/-- An object with a number, an array and a string that needs escapes. -/
def demoJson : Json Int :=
  .object [(ascii "ovni", .object [(ascii "tid", .number (-7)),
    (ascii "loom", .string [34, 47, 10, 1, 233]), (ascii "cpus", .array [.null, .boolean true])])]

theorem demoJson_fits : demoJson.Fits (maxNesting + 1) := by
  have hcpus : (Json.array [.null, .boolean true] : Json Int).Fits (maxNesting - 1) := by
    refine .array ?_
    rw [List.forall_mem_cons, List.forall_mem_singleton]
    exact ⟨.null, .boolean true⟩
  refine .object (by decide) (by decide +kernel) ?_
  rw [List.forall_mem_singleton]
  refine .object (by decide +kernel) (by decide +kernel) ?_
  rw [List.forall_mem_cons, List.forall_mem_cons, List.forall_mem_singleton]
  exact ⟨.number _, .string _, hcpus⟩

theorem json_read_back_demo : (∃ s, jsonParseString intDoubles s = some demoJson) ∧
    jsonParseFileWithComments intDoubles (some (jsonSerialize intDoubles true 0 demoJson)) =
      some demoJson :=
  have h := json_read_back intDoubles_documented demoJson
  ⟨h.1.mpr demoJson_fits, (h.2 demoJson_fits true).2.2⟩

end Ovni
