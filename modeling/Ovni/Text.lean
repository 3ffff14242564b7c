import Mathlib.Algebra.Group.Int.Defs
import Mathlib.Algebra.GroupWithZero.Nat
import Mathlib.Data.List.Basic
import Mathlib.Data.Fin.Basic

/-!
# Text in C

What the emulator uses of the C library to read text: lines with `fgets` and decimal
numbers with `strtol` and `strtoll`.
-/

namespace Ovni

instance neZeroByte : NeZero (256 : Nat) := ⟨by decide⟩

instance lawfulBEqByte : LawfulBEq (Fin 256) := instLawfulBEq

/-- A C string without its end; `strcmp` is the order of the lists. -/
abbrev Name := List (Fin 256)

/-- `MAX_PCF_LABEL`, the bytes that a label of the trace can have, with its end. -/
def maxPcfLabel : Nat := 512

/-- The bytes of an ASCII string. -/
def ascii (s : String) : Name := s.toList.map fun c => Fin.ofNat 256 c.toNat

/-- `isspace` in the C locale. -/
def isspace (c : Fin 256) : Bool := c = 32 ∨ 9 ≤ c ∧ c ≤ 13

/-! ## Lines -/

/-- At most `n` bytes of a text, up to its first newline and with it, and the rest. -/
def takeLine : Nat → Name → Name × Name
  | 0, text => ([], text)
  | _ + 1, [] => ([], [])
  | n + 1, c :: text =>
      if c = 10 then ([c], text)
      else (c :: (takeLine n text).1, (takeLine n text).2)

/-- `fgets` with a buffer of `size` bytes: the line and what is left to read. -/
def fgets (size : Nat) (text : Name) : Option (Name × Name) :=
  if text = [] then none else some (takeLine (size - 1) text)

/-- The lines of a text: all but the last end with a newline, and they fit in the buffer. -/
inductive TextLines : List Name → Prop where
  | nil : TextLines []
  | last {body : Name} (hne : body ≠ []) (hno : 10 ∉ body) (hlen : body.length < 1023) :
      TextLines [body]
  | line {body : Name} {lines : List Name} (hno : 10 ∉ body) (hlen : body.length < 1023)
      (h : TextLines lines) : TextLines ((body ++ [10]) :: lines)

theorem takeLine_line {n : Nat} {body rest : Name} (hno : 10 ∉ body) (hlen : body.length < n) :
    takeLine n (body ++ 10 :: rest) = (body ++ [10], rest) := by
  induction body generalizing n with
  | nil =>
      obtain ⟨n, rfl⟩ : ∃ k, n = k + 1 := ⟨n - 1, by simp at hlen; omega⟩
      simp [takeLine]
  | cons c body ih =>
      obtain ⟨n, rfl⟩ : ∃ k, n = k + 1 := ⟨n - 1, by simp at hlen; omega⟩
      rw [List.mem_cons, not_or] at hno
      rw [List.cons_append, takeLine, if_neg (Ne.symm hno.1), ih hno.2 (by simpa using hlen)]
      rfl

theorem takeLine_last {n : Nat} {body : Name} (hno : 10 ∉ body) (hlen : body.length < n) :
    takeLine n body = (body, []) := by
  induction body generalizing n with
  | nil =>
      obtain ⟨n, rfl⟩ : ∃ k, n = k + 1 := ⟨n - 1, by simp at hlen; omega⟩
      rfl
  | cons c body ih =>
      obtain ⟨n, rfl⟩ : ∃ k, n = k + 1 := ⟨n - 1, by simp at hlen; omega⟩
      rw [List.mem_cons, not_or] at hno
      rw [takeLine, if_neg (Ne.symm hno.1), ih hno.2 (by simpa using hlen)]

/-- `fgets` reads one line after the other. -/
theorem fgets_cons {line : Name} {lines : List Name} (h : TextLines (line :: lines)) :
    fgets 1024 (line :: lines).flatten = some (line, lines.flatten) ∧ TextLines lines := by
  cases h with
  | last hne hno hlen =>
      refine ⟨?_, .nil⟩
      unfold fgets
      rw [List.flatten_cons, List.flatten_nil, List.append_nil, if_neg hne,
        takeLine_last hno hlen]
  | line hno hlen h =>
      refine ⟨?_, h⟩
      unfold fgets
      rw [List.flatten_cons, List.append_assoc, List.cons_append, List.nil_append,
        if_neg (by simp), takeLine_line hno hlen]

theorem TextLines.length_le {lines : List Name} (h : TextLines lines) :
    lines.length ≤ lines.flatten.length := by
  induction h with
  | nil => simp
  | last hne _ _ =>
      have hpos := List.length_pos_iff.mpr hne
      simp only [List.length_singleton, List.flatten_cons, List.flatten_nil, List.append_nil]
      omega
  | line _ _ _ ih =>
      rw [List.length_cons, List.flatten_cons, List.length_append, List.length_append]
      simp only [List.length_singleton]
      omega

/-- A line that starts with a newline is empty. -/
theorem TextLines.head_newline {line : Name} {lines : List Name} (h : TextLines (line :: lines)) :
    line.head? = some 10 ↔ line = [10] := by
  cases h with
  | @last body hne hno hlen =>
      constructor
      · intro hhead
        exact absurd (List.mem_of_mem_head? hhead) hno
      · intro heq
        exact absurd (heq ▸ List.mem_singleton.mpr rfl) hno
  | @line body _ hno hlen h =>
      cases body with
      | nil => simp
      | cons c body =>
          rw [List.mem_cons, not_or] at hno
          simp [Ne.symm hno.1]

/-! ## Numbers -/

/-- `isdigit` in the C locale. -/
def isdigit (c : Fin 256) : Bool := 48 ≤ c ∧ c ≤ 57

def decimal (digits : Name) : Nat := digits.foldl (fun n c => 10 * n + (c.val - 48)) 0

/-- `strtoll`, and `strtol`, in base 10: the number and the text after it, or nothing when
there is no number or `errno` says that it is out of range. -/
def strtoll (str : Name) : Option (Int × Name) :=
  let s := str.dropWhile isspace
  let negative := s.head? = some 45
  let s := if s.head? = some 45 ∨ s.head? = some 43 then s.tail else s
  let digits := s.takeWhile isdigit
  let n : Int := if negative then -(decimal digits : Int) else decimal digits
  if digits = [] ∨ n < -2 ^ 63 ∨ 2 ^ 63 ≤ n then none
  else some (n, s.dropWhile isdigit)

/-- A number that is not negative as `printf` writes it in base 10. -/
def itoa (n : Nat) : Name := (Nat.toDigits 10 n).map fun c => Fin.ofNat 256 c.toNat

theorem isDigit_bounds {c : Char} (h : c.isDigit = true) : 48 ≤ c.toNat ∧ c.toNat ≤ 57 := by
  simp only [Char.isDigit, Bool.and_eq_true, decide_eq_true_eq, ge_iff_le,
    UInt32.le_iff_toNat_le] at h
  change 48 ≤ c.toNat ∧ c.toNat ≤ 57 at h
  exact h

theorem itoa_digit {n : Nat} {b : Fin 256} (h : b ∈ itoa n) : isdigit b = true := by
  obtain ⟨c, hc, rfl⟩ := List.mem_map.mp h
  have hdigit := isDigit_bounds (Nat.isDigit_of_mem_toDigits (by decide) (by decide) hc)
  have hval : (Fin.ofNat 256 c.toNat).val = c.toNat := Nat.mod_eq_of_lt (by omega)
  unfold isdigit
  simp only [Fin.le_def, hval, decide_eq_true_eq]
  exact hdigit

/-- A number is read back from its digits. -/
theorem decimal_itoa (n : Nat) : decimal (itoa n) = n := by
  have hdigits : ∀ (l : List Char) (acc : Nat), (∀ c ∈ l, c.isDigit = true) →
      (l.map fun c => Fin.ofNat 256 c.toNat).foldl (fun n b => 10 * n + (b.val - 48)) acc =
        Nat.ofDigitChars 10 l acc := by
    intro l
    induction l with
    | nil => exact fun _ _ => rfl
    | cons c l ih =>
        intro acc hl
        have hbounds := isDigit_bounds (hl c List.mem_cons_self)
        have hval : (Fin.ofNat 256 c.toNat).val = c.toNat := Nat.mod_eq_of_lt (by omega)
        rw [List.map_cons, List.foldl_cons, hval, ih _ fun c hc => hl c (List.mem_cons_of_mem _ hc)]
        rfl
  unfold decimal itoa
  rw [hdigits _ _ fun c hc => Nat.isDigit_of_mem_toDigits (by decide) (by decide) hc]
  exact Nat.ofDigitChars_ten_toDigits

theorem itoa_inj {n k : Nat} (h : itoa n = itoa k) : n = k := by
  rw [← decimal_itoa n, h, decimal_itoa]

theorem itoa_length {n k : Nat} (hk : 0 < k) (h : n < 10 ^ k) : (itoa n).length ≤ k := by
  rw [itoa, List.length_map]
  exact (Nat.length_toDigits_le_iff (by decide) hk).mpr h

end Ovni
