import Ovni.Json.RoundTrip

/-!
# The turns of the loops

The loops of the reader take a number of turns, and the length of the text is enough: every
turn but the last one takes a character at least, so the loops end as those of `parson.c` do.
-/

namespace Ovni

variable {ν : Type} {d : Doubles ν}

/-! ## Strings -/

theorem parseUtf16Hex_length {s rest : Name} {n : Nat} (h : parseUtf16Hex s = some (n, rest)) :
    rest.length < s.length := by
  unfold parseUtf16Hex at h
  split at h
  · simp only [Option.bind_eq_bind, Option.bind_eq_some_iff] at h
    obtain ⟨_, -, _, -, _, -, _, -, h⟩ := h
    obtain ⟨-, rfl⟩ := Prod.mk.inj (Option.some.inj h)
    simp only [List.length_cons]
    omega
  · cases h

theorem parseUtf16_length {s rest bytes : Name} (h : parseUtf16 s = some (bytes, rest)) :
    rest.length < s.length := by
  obtain ⟨⟨cp, s₁⟩, hcp, h⟩ := Option.bind_eq_some_iff.mp h
  have hlen := parseUtf16Hex_length hcp
  simp only at h
  split at h
  · obtain ⟨-, rfl⟩ := Prod.mk.inj (Option.some.inj h)
    exact hlen
  split at h
  · obtain ⟨-, rfl⟩ := Prod.mk.inj (Option.some.inj h)
    exact hlen
  split at h
  · obtain ⟨-, rfl⟩ := Prod.mk.inj (Option.some.inj h)
    exact hlen
  split at h
  · split at h
    · obtain ⟨⟨trail, s₂⟩, htrail, h⟩ := Option.bind_eq_some_iff.mp h
      have hlen' := parseUtf16Hex_length htrail
      rw [List.length_drop] at hlen'
      simp only at h
      split at h
      · cases h
      · obtain ⟨-, rfl⟩ := Prod.mk.inj (Option.some.inj h)
        omega
    · cases h
  · cases h

theorem processChar_length {s rest bytes : Name} (h : processChar s = some (bytes, rest)) :
    rest.length < s.length := by
  rw [processChar.eq_def] at h
  split at h
  · cases h
  split at h
  · split at h
    · cases h
    · split at h
      · have hlen := parseUtf16_length h
        simp only [List.length_cons]
        omega
      · obtain ⟨byte, -, h⟩ := Option.map_eq_some_iff.mp h
        obtain ⟨-, rfl⟩ := Prod.mk.inj h
        simp only [List.length_cons]
        omega
  split at h
  · cases h
  · obtain ⟨-, rfl⟩ := Prod.mk.inj (Option.some.inj h)
    exact Nat.lt_succ_self _

/-- The loop of `process_string` ends with the text. -/
theorem processLoop_turns {n m : Nat} {s : Name} (hn : s.length ≤ n) (hm : s.length ≤ m) :
    processLoop n s = processLoop m s := by
  induction n generalizing m s with
  | zero =>
      obtain rfl := List.length_eq_zero_iff.mp (Nat.le_zero.mp hn)
      cases m <;> rfl
  | succ n ih =>
      cases s with
      | nil => cases m <;> rfl
      | cons c s =>
          obtain ⟨m, rfl⟩ : ∃ k, m = k + 1 := ⟨m - 1, by simp at hm; omega⟩
          rw [processLoop.eq_3 _ _ (by simp), processLoop.eq_3 _ _ (by simp)]
          cases hchar : processChar (c :: s) with
          | none => rfl
          | some p =>
              have hlen := processChar_length
                (show processChar (c :: s) = some (p.1, p.2) from hchar)
              simp only [List.length_cons] at hlen hn hm
              simp only [Option.bind_eq_bind, Option.bind_some]
              rw [ih (show p.2.length ≤ n by omega) (show p.2.length ≤ m by omega)]

theorem skipQuotes_length {s inside rest : Name} (h : skipQuotes s = some (inside, rest)) :
    rest.length < s.length := by
  induction hn : s.length using Nat.strong_induction_on generalizing s inside rest with
  | _ n ih =>
      subst hn
      rw [skipQuotes.eq_def] at h
      split at h
      · cases h
      split at h
      · obtain ⟨-, rfl⟩ := Prod.mk.inj (Option.some.inj h)
        exact Nat.lt_succ_self _
      split at h
      · split at h
        · cases h
        next e text =>
          obtain ⟨p, hp, h⟩ := Option.map_eq_some_iff.mp h
          obtain ⟨-, rfl⟩ := Prod.mk.inj h
          have hlen := ih text.length (by simp only [List.length_cons]; omega) hp rfl
          simp only [List.length_cons]
          omega
      next c text _ _ =>
        obtain ⟨p, hp, h⟩ := Option.map_eq_some_iff.mp h
        obtain ⟨-, rfl⟩ := Prod.mk.inj h
        have hlen := ih text.length (Nat.lt_succ_self _) hp rfl
        simp only [List.length_cons]
        omega

theorem getQuotedString_length {s str rest : Name} (h : getQuotedString s = some (str, rest)) :
    rest.length < s.length := by
  unfold getQuotedString at h
  split at h
  · obtain ⟨⟨inside, s₁⟩, hquotes, h⟩ := Option.bind_eq_some_iff.mp h
    obtain ⟨str', -, h⟩ := Option.bind_eq_some_iff.mp h
    obtain ⟨-, rfl⟩ := Prod.mk.inj (Option.some.inj h)
    have hlen := skipQuotes_length hquotes
    rw [List.length_tail] at hlen
    omega
  · cases h

theorem skipWhitespaces_length (s : Name) : (skipWhitespaces s).length ≤ s.length :=
  List.length_dropWhile_le isspace s

theorem parseKey_length {s key rest : Name} (h : parseKey s = some (key, rest)) :
    rest.length < s.length := by
  obtain ⟨⟨key', s₁⟩, hkey, h⟩ := Option.bind_eq_some_iff.mp h
  have hlen := getQuotedString_length hkey
  have hspace := skipWhitespaces_length s₁
  simp only at h
  split at h
  · cases h
  · obtain ⟨-, rfl⟩ := Prod.mk.inj (Option.some.inj h)
    rw [List.length_tail]
    omega

/-! ## Values -/

section Loops

variable {value : Name → Option (Json ν × Name)}

theorem parseItems_length (hvalue : ∀ s v rest, value s = some (v, rest) → rest.length ≤ s.length)
    {rounds : Nat} {s rest : Name} {done : List (Json ν)} {v : Json ν}
    (h : parseItems value rounds s done = some (v, rest)) : rest.length ≤ s.length := by
  induction rounds generalizing s done with
  | zero => cases h
  | succ rounds ih =>
      rw [parseItems, Option.bind_eq_bind, Option.bind_eq_some_iff] at h
      obtain ⟨⟨w, s'⟩, hitem, h⟩ := h
      have hlen := hvalue s w s' hitem
      have hspace := skipWhitespaces_length s'
      simp only at h
      split at h
      · have hrest := ih h
        have hspace' := skipWhitespaces_length (skipWhitespaces s').tail
        rw [List.length_tail] at hspace'
        omega
      · split at h
        · obtain ⟨-, rfl⟩ := Prod.mk.inj (Option.some.inj h)
          rw [List.length_tail]
          omega
        · cases h

theorem parseFields_length
    (hvalue : ∀ s v rest, value s = some (v, rest) → rest.length ≤ s.length)
    {rounds : Nat} {s rest : Name} {done : List (Name × Json ν)} {v : Json ν}
    (h : parseFields value rounds s done = some (v, rest)) : rest.length ≤ s.length := by
  induction rounds generalizing s done with
  | zero => cases h
  | succ rounds ih =>
      rw [parseFields, Option.bind_eq_bind, Option.bind_eq_some_iff] at h
      obtain ⟨⟨key, s₁⟩, hkey, h⟩ := h
      simp only [Option.bind_eq_bind, Option.bind_eq_some_iff] at h
      obtain ⟨⟨w, s₂⟩, hfield, h⟩ := h
      have hlen := parseKey_length hkey
      have hlen' := hvalue s₁ w s₂ hfield
      have hspace := skipWhitespaces_length s₂
      simp only at h
      split at h
      · cases h
      split at h
      · have hrest := ih h
        have hspace' := skipWhitespaces_length (skipWhitespaces s₂).tail
        rw [List.length_tail] at hspace'
        omega
      · split at h
        · obtain ⟨-, rfl⟩ := Prod.mk.inj (Option.some.inj h)
          rw [List.length_tail]
          omega
        · cases h

end Loops

theorem parseToken_length {token s rest : Name} {v w : Json ν}
    (h : parseToken token v s = some (w, rest)) : rest.length ≤ s.length := by
  unfold parseToken at h
  split at h
  · obtain ⟨-, rfl⟩ := Prod.mk.inj (Option.some.inj h)
    rw [List.length_drop]
    omega
  · cases h

theorem parseValue_length {left : Nat} {s rest : Name} {v : Json ν}
    (h : parseValue d left s = some (v, rest)) : rest.length ≤ s.length := by
  induction left generalizing s v rest with
  | zero => cases h
  | succ left ih =>
      have hspace := skipWhitespaces_length s
      unfold parseValue at h
      simp only at h
      split at h
      · cases h
      next c text htext =>
        rw [htext, List.length_cons] at hspace
        have htail := skipWhitespaces_length text
        split at h
        · unfold parseObjectValue at h
          simp only at h
          split at h
          · obtain ⟨-, rfl⟩ := Prod.mk.inj (Option.some.inj h)
            rw [List.length_tail]
            omega
          · have hlen := parseFields_length (fun s v rest => ih) h
            omega
        split at h
        · unfold parseArrayValue at h
          simp only at h
          split at h
          · obtain ⟨-, rfl⟩ := Prod.mk.inj (Option.some.inj h)
            rw [List.length_tail]
            omega
          · have hlen := parseItems_length (fun s v rest => ih) h
            omega
        rw [htext] at h
        split at h
        · obtain ⟨p, hp, h⟩ := Option.map_eq_some_iff.mp h
          obtain ⟨-, rfl⟩ := Prod.mk.inj h
          have hlen := getQuotedString_length
            (show getQuotedString (c :: text) = some (p.1, p.2) from hp)
          rw [List.length_cons] at hlen
          omega
        split at h
        · rcases Option.or_eq_some_iff.mp h with h | ⟨-, h⟩
          · exact (parseToken_length h).trans hspace
          · exact (parseToken_length h).trans hspace
        split at h
        · obtain ⟨⟨x, n⟩, -, h⟩ := Option.bind_eq_some_iff.mp h
          simp only at h
          split at h
          · obtain ⟨-, rfl⟩ := Prod.mk.inj (Option.some.inj h)
            rw [List.length_drop, List.length_cons]
            omega
          · cases h
        split at h
        · exact (parseToken_length h).trans hspace
        · cases h

/-- The loop of `parse_array_value` ends with the text. -/
theorem parseItems_turns {left n m : Nat} {s : Name} (hn : s.length ≤ n) (hm : s.length ≤ m)
    (done : List (Json ν)) :
    parseItems (parseValue d left) n s done = parseItems (parseValue d left) m s done := by
  have hnil : parseValue d left [] = none := by cases left <;> rfl
  induction n generalizing m s done with
  | zero =>
      obtain rfl := List.length_eq_zero_iff.mp (Nat.le_zero.mp hn)
      cases m with
      | zero => rfl
      | succ m =>
          rw [parseItems, parseItems, hnil]
          rfl
  | succ n ih =>
      cases m with
      | zero =>
          obtain rfl := List.length_eq_zero_iff.mp (Nat.le_zero.mp hm)
          rw [parseItems, parseItems, hnil]
          rfl
      | succ m =>
          rw [parseItems, parseItems]
          cases hitem : parseValue d left s with
          | none => rfl
          | some p =>
              have hlen := parseValue_length (show parseValue d left s = some (p.1, p.2) from hitem)
              have hspace := skipWhitespaces_length p.2
              simp only [Option.bind_eq_bind, Option.bind_some]
              by_cases hcomma : (skipWhitespaces p.2).head? = some 44
              · have hpos := List.length_pos_of_mem (List.mem_of_mem_head? hcomma)
                have htail := skipWhitespaces_length (skipWhitespaces p.2).tail
                rw [List.length_tail] at htail
                rw [if_pos hcomma, if_pos hcomma]
                exact ih (by omega) (by omega) _
              · rw [if_neg hcomma, if_neg hcomma]

/-- The loop of `parse_object_value` ends with the text. -/
theorem parseFields_turns {left n m : Nat} {s : Name} (hn : s.length ≤ n) (hm : s.length ≤ m)
    (done : List (Name × Json ν)) :
    parseFields (parseValue d left) n s done = parseFields (parseValue d left) m s done := by
  have hnil : parseKey [] = none := rfl
  induction n generalizing m s done with
  | zero =>
      obtain rfl := List.length_eq_zero_iff.mp (Nat.le_zero.mp hn)
      cases m with
      | zero => rfl
      | succ m =>
          rw [parseFields, parseFields, hnil]
          rfl
  | succ n ih =>
      cases m with
      | zero =>
          obtain rfl := List.length_eq_zero_iff.mp (Nat.le_zero.mp hm)
          rw [parseFields, parseFields, hnil]
          rfl
      | succ m =>
          rw [parseFields, parseFields]
          cases hkey : parseKey s with
          | none => rfl
          | some k =>
              have hlen := parseKey_length (show parseKey s = some (k.1, k.2) from hkey)
              simp only [Option.bind_eq_bind, Option.bind_some]
              cases hfield : parseValue d left k.2 with
              | none => rfl
              | some p =>
                  have hlen' :=
                    parseValue_length (show parseValue d left k.2 = some (p.1, p.2) from hfield)
                  have hspace := skipWhitespaces_length p.2
                  have htail := skipWhitespaces_length (skipWhitespaces p.2).tail
                  rw [List.length_tail] at htail
                  simp only [Option.bind_some]
                  have hnext := ih
                    (show (skipWhitespaces (skipWhitespaces p.2).tail).length ≤ n by omega)
                    (show (skipWhitespaces (skipWhitespaces p.2).tail).length ≤ m by omega)
                    (done ++ [(k.1, p.1)])
                  rw [hnext]

end Ovni
