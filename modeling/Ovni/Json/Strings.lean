import Mathlib.Tactic.IntervalCases
import Ovni.Json.Model

/-!
# Strings in JSON text

What is written for a string is read back, whatever its bytes are: no character of it ends the
string early, and the escapes give the bytes they stand for.
-/

namespace Ovni

/-! ## One character -/

theorem hexCharToInt_hexDigit {n : Nat} (h : n < 16) : hexCharToInt (hexDigit n) = some n := by
  interval_cases n <;> rfl

/-- The escape of a control character. -/
theorem parseUtf16_control {n : Nat} (h : n < 32) (rest : Name) :
    parseUtf16 (48 :: 48 :: hexDigit (n / 16) :: hexDigit (n % 16) :: rest) =
      some ([Fin.ofNat 256 n], rest) := by
  have hzero : hexCharToInt 48 = some 0 := rfl
  have hhigh := hexCharToInt_hexDigit (n := n / 16) (by omega)
  have hlow := hexCharToInt_hexDigit (n := n % 16) (by omega)
  have hcp : 0 * 4096 + 0 * 256 + n / 16 * 16 + n % 16 = n := by omega
  simp only [parseUtf16, parseUtf16Hex, hzero, hhigh, hlow, Option.bind_eq_bind, Option.bind_some,
    Option.pure_def, hcp]
  rw [if_pos (by omega)]
  simp [utf8Byte]

theorem processChar_plain {c : Fin 256} (hescape : c ≠ 92) (hplain : ¬ c < 0x20) (rest : Name) :
    processChar (c :: rest) = some ([c], rest) := by
  rw [processChar.eq_def]
  simp only [if_neg hescape, if_neg hplain]

theorem processChar_escape {e byte : Fin 256} (he : e ≠ 117) (h : unescape e = some byte)
    (rest : Name) : processChar (92 :: e :: rest) = some ([byte], rest) := by
  simp only [processChar, if_true, if_neg he, h, Option.map_some]

/-- What is written for a character: itself, an escape of its own, or its number. -/
inductive Written (c : Fin 256) : Prop where
  | plain (h : serializeChar c = [c]) (hquote : c ≠ 34) (hback : c ≠ 92) (hplain : ¬ c < 0x20)
  | escape (e : Fin 256) (h : serializeChar c = [92, e]) (he : e ≠ 117) (hnul : e ≠ 0)
      (hback : unescape e = some c)
  | control (h : serializeChar c =
      [92, 117, 48, 48, hexDigit (c.val / 16), hexDigit (c.val % 16)]) (hlow : c < 0x20)

theorem written (c : Fin 256) : Written c := by
  have hescape : ∀ e, unescape e = some c → serializeChar c = [92, e] → Written c := by
    intro e hback h
    refine .escape e h ?_ ?_ hback
    · rintro rfl
      cases hback
    · rintro rfl
      cases hback
  by_cases h34 : c = 34
  · subst h34
    exact hescape 34 rfl rfl
  by_cases h92 : c = 92
  · subst h92
    exact hescape 92 rfl rfl
  by_cases h8 : c = 8
  · subst h8
    exact hescape 98 rfl rfl
  by_cases h12 : c = 12
  · subst h12
    exact hescape 102 rfl rfl
  by_cases h10 : c = 10
  · subst h10
    exact hescape 110 rfl rfl
  by_cases h13 : c = 13
  · subst h13
    exact hescape 114 rfl rfl
  by_cases h9 : c = 9
  · subst h9
    exact hescape 116 rfl rfl
  by_cases hlow : c < 0x20
  · refine .control ?_ hlow
    simp only [serializeChar, h34, h92, h8, h12, h10, h13, h9, hlow, if_false, if_true]
    rfl
  by_cases h47 : c = 47
  · subst h47
    exact hescape 47 rfl rfl
  · refine .plain ?_ h34 h92 hlow
    simp only [serializeChar, h34, h92, h8, h12, h10, h13, h9, hlow, h47, if_false]

/-- The reader takes what is written for a character back to it. -/
theorem processChar_serializeChar (c : Fin 256) (rest : Name) :
    processChar (serializeChar c ++ rest) = some ([c], rest) := by
  cases written c with
  | plain h _ hback hplain =>
      rw [h]
      exact processChar_plain hback hplain rest
  | escape e h he _ hback =>
      rw [h]
      exact processChar_escape he hback rest
  | control h hlow =>
      have hcontrol := parseUtf16_control (n := c.val) hlow rest
      rw [Fin.ofNat_val_eq_self] at hcontrol
      rw [h]
      exact hcontrol

/-! ## Whole strings -/

theorem processLoop_serialize (s : Name) {rounds : Nat}
    (h : (s.flatMap serializeChar).length ≤ rounds) :
    processLoop rounds (s.flatMap serializeChar) = some s := by
  induction s generalizing rounds with
  | nil => cases rounds <;> rfl
  | cons c s ih =>
      rw [List.flatMap_cons] at h ⊢
      have hne : serializeChar c ≠ [] := by
        cases written c with
        | plain h => simp [h]
        | escape e h => simp [h]
        | control h => simp [h]
      have hlen := List.length_pos_iff.mpr hne
      rw [List.length_append] at h
      obtain ⟨rounds, rfl⟩ : ∃ k, rounds = k + 1 := ⟨rounds - 1, by omega⟩
      have hrest := ih (show (s.flatMap serializeChar).length ≤ rounds by omega)
      rw [processLoop.eq_3 _ _ (by simp [hne]), processChar_serializeChar]
      simp only [Option.bind_eq_bind, Option.bind_some, hrest]
      rfl

theorem skipQuotes_plain {c : Fin 256} (hquote : c ≠ 34) (hback : c ≠ 92) (rest : Name) :
    skipQuotes (c :: rest) = (skipQuotes rest).map fun p => (c :: p.1, p.2) := by
  rw [skipQuotes.eq_def]
  simp only [if_neg hquote, if_neg hback]

theorem skipQuotes_escape (e : Fin 256) (rest : Name) :
    skipQuotes (92 :: e :: rest) = (skipQuotes rest).map fun p => (92 :: e :: p.1, p.2) := by
  rw [skipQuotes.eq_def]
  rfl

theorem hexDigit_ne {n : Nat} (h : n < 16) :
    hexDigit n ≠ 34 ∧ hexDigit n ≠ 92 ∧ hexDigit n ≠ 0 := by
  interval_cases n <;> decide

/-- The text of a character does not close the string. -/
theorem skipQuotes_serializeChar (c : Fin 256) (rest : Name) :
    skipQuotes (serializeChar c ++ rest) =
      (skipQuotes rest).map fun p => (serializeChar c ++ p.1, p.2) := by
  cases written c with
  | plain h hquote hback _ =>
      rw [h]
      exact skipQuotes_plain hquote hback rest
  | escape e h =>
      rw [h]
      exact skipQuotes_escape e rest
  | control h hlow =>
      obtain ⟨hquote1, hback1, -⟩ := hexDigit_ne (n := c.val / 16) (by have := c.isLt; omega)
      obtain ⟨hquote2, hback2, -⟩ := hexDigit_ne (n := c.val % 16) (by omega)
      rw [h]
      simp only [List.cons_append, List.nil_append]
      rw [skipQuotes_escape, skipQuotes_plain (by decide) (by decide),
        skipQuotes_plain (by decide) (by decide), skipQuotes_plain hquote1 hback1,
        skipQuotes_plain hquote2 hback2]
      simp only [Option.map_map]
      rfl

theorem skipQuotes_serialize (s rest : Name) :
    skipQuotes (s.flatMap serializeChar ++ 34 :: rest) = some (s.flatMap serializeChar, rest) := by
  induction s with
  | nil =>
      rw [List.flatMap_nil, List.nil_append, skipQuotes.eq_def]
      rfl
  | cons c s ih =>
      rw [List.flatMap_cons, List.append_assoc, skipQuotes_serializeChar, ih]
      rfl

/-- A string is read back from what is written for it. -/
theorem getQuotedString_serialize (s rest : Name) :
    getQuotedString (jsonSerializeString s ++ rest) = some (s, rest) := by
  have htext : jsonSerializeString s ++ rest = 34 :: (s.flatMap serializeChar ++ 34 :: rest) := by
    simp [jsonSerializeString]
  rw [htext, getQuotedString, List.head?_cons, if_pos rfl, List.tail_cons, skipQuotes_serialize]
  simp only [Option.bind_eq_bind, Option.bind_some, processString,
    processLoop_serialize s (Nat.le_refl _)]
  rfl

end Ovni
