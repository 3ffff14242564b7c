import Ovni.Json.Values

/-!
# Numbers without a fraction

The numbers that the runtime stores are integers.  `sprintf` writes one of at most 17 digits in
base 10, and `strtod` reads it back.
-/

namespace Ovni

/-- What is written for an integer. -/
def printInt (n : Int) : Name := if n < 0 then 45 :: itoa n.natAbs else itoa n.natAbs

/-- A sign and some digits at the start of a text. -/
def readInt (s : Name) : Int × Nat :=
  let negative := s.head? = some 45
  let digits := (if negative then s.tail else s).takeWhile isdigit
  if digits = [] then (0, 0)
  else if negative then (-(decimal digits : Int), digits.length + 1)
  else (decimal digits, digits.length)

/-- The numbers without a fraction. -/
def intDoubles : Doubles Int := { print := printInt, strtod := fun s => some (readInt s) }

theorem itoa_ne_nil (n : Nat) : itoa n ≠ [] := by
  unfold itoa
  simp [Nat.toDigits_ne_nil]

theorem decimal_lt {digits : Name} (h : ∀ c ∈ digits, isdigit c = true) :
    decimal digits < 10 ^ digits.length := by
  have hfold : ∀ (digits : Name) (n k : Nat), (∀ c ∈ digits, isdigit c = true) → n < 10 ^ k →
      digits.foldl (fun n c => 10 * n + (c.val - 48)) n < 10 ^ (k + digits.length) := by
    intro digits
    induction digits with
    | nil => exact fun n k _ hn => hn
    | cons c digits ih =>
        intro n k hd hn
        rw [List.forall_mem_cons] at hd
        have hc : c.val ≤ 57 := by
          have := of_decide_eq_true hd.1
          exact this.2
        have hnext : 10 * n + (c.val - 48) < 10 ^ (k + 1) := by
          rw [Nat.pow_succ]
          omega
        have hrest := ih _ (k + 1) hd.2 hnext
        rwa [List.foldl_cons, List.length_cons, show k + (digits.length + 1) =
          k + 1 + digits.length by omega]
  have hzero := hfold digits 0 0 h (by simp)
  rwa [Nat.zero_add] at hzero

/-- A number has no needless zeros. -/
theorem itoa_zero {n : Nat} {rest : Name} (h : itoa n = 48 :: rest) : rest = [] := by
  by_contra hne
  have hdigits : ∀ c ∈ rest, isdigit c = true :=
    fun c hc => itoa_digit (h ▸ List.mem_cons_of_mem _ hc)
  have hvalue : n = decimal rest := by
    rw [← decimal_itoa n, h]
    rfl
  have hlen := List.length_pos_iff.mpr hne
  have hbound := itoa_length hlen (hvalue ▸ decimal_lt hdigits)
  rw [h, List.length_cons] at hbound
  omega

theorem takeWhile_itoa (n : Nat) {rest : Name} (hrest : Ends rest) :
    (itoa n ++ rest).takeWhile isdigit = itoa n := by
  rw [List.takeWhile_append_of_pos fun c hc => itoa_digit hc]
  cases rest with
  | nil => simp
  | cons c rest =>
      have hc : isdigit c = false := by
        rcases hrest c rfl with rfl | rfl | rfl | rfl <;> rfl
      rw [List.takeWhile_cons, hc]
      simp

theorem printInt_cases (n : Int) : printInt n = itoa n.natAbs ∧ 0 ≤ n ∨
    printInt n = 45 :: itoa n.natAbs ∧ n < 0 := by
  by_cases h : n < 0
  · exact Or.inr ⟨if_pos h, h⟩
  · exact Or.inl ⟨if_neg h, by omega⟩

theorem itoa_head (n : Nat) : ∃ c text, itoa n = c :: text ∧ isdigit c = true := by
  obtain ⟨c, text, h⟩ := List.exists_cons_of_ne_nil (itoa_ne_nil n)
  exact ⟨c, text, h, itoa_digit (h ▸ List.mem_cons_self)⟩

theorem isDecimal_printInt (n : Int) : isDecimal (printInt n) = true := by
  obtain ⟨c, text, hhead, hc⟩ := itoa_head n.natAbs
  have hlone : c = 48 → text = [] := by
    rintro rfl
    exact itoa_zero hhead
  have hx : ∀ b, isdigit b = false → b ∉ c :: text := by
    intro b hb hmem
    rw [itoa_digit (hhead ▸ hmem)] at hb
    cases hb
  have hsign : c ≠ 45 := by
    rintro rfl
    cases hc
  unfold isDecimal
  rw [decide_eq_true_iff]
  rcases printInt_cases n with ⟨h, -⟩ | ⟨h, -⟩
  · rw [h, hhead]
    refine ⟨?_, ?_, hx 120 rfl, hx 88 rfl⟩
    · rintro ⟨hlen, hzero, -⟩
      rw [hlone (Option.some.inj hzero)] at hlen
      simp at hlen
    · rintro ⟨-, htake, -⟩
      exact hsign (List.cons.inj htake).1
  · rw [h, hhead]
    refine ⟨?_, ?_, ?_, ?_⟩
    · rintro ⟨-, hzero, -⟩
      cases Option.some.inj hzero
    · rintro ⟨hlen, htake, -⟩
      rw [hlone (List.cons.inj (List.cons.inj htake).2).1] at hlen
      simp at hlen
    · rw [List.mem_cons, not_or]
      exact ⟨by decide, hx 120 rfl⟩
    · rw [List.mem_cons, not_or]
      exact ⟨by decide, hx 88 rfl⟩

theorem readInt_printInt (n : Int) {rest : Name} (hrest : Ends rest) :
    readInt (printInt n ++ rest) = (n, (printInt n).length) := by
  have hdigits := takeWhile_itoa n.natAbs hrest
  obtain ⟨c, text, hhead, hc⟩ := itoa_head n.natAbs
  have hsign : c ≠ 45 := by
    rintro rfl
    cases hc
  unfold readInt
  rcases printInt_cases n with ⟨h, hn⟩ | ⟨h, hn⟩
  · have hfirst : (itoa n.natAbs ++ rest).head? ≠ some 45 := by
      rw [hhead]
      simpa using hsign
    simp only [h, hfirst, if_false, hdigits, decimal_itoa, if_neg (itoa_ne_nil n.natAbs)]
    rw [show ((n.natAbs : Nat) : Int) = n by omega]
  · simp only [h, List.cons_append, List.head?_cons, List.tail_cons, if_true, hdigits, decimal_itoa,
      if_neg (itoa_ne_nil n.natAbs), List.length_cons]
    rw [show -((n.natAbs : Nat) : Int) = n by omega]

theorem intDoubles_documented : intDoubles.Documented where
  head n := by
    obtain ⟨c, text, hhead, hc⟩ := itoa_head n.natAbs
    rcases printInt_cases n with ⟨h, -⟩ | ⟨h, -⟩
    · exact ⟨c, text, h.trans hhead, Or.inr hc⟩
    · exact ⟨45, _, h, Or.inl rfl⟩
  chars n := by
    have hdigit : ∀ c ∈ itoa n.natAbs, isNumberChar c = true := fun c hc => by
      simp [isNumberChar, itoa_digit hc]
    intro c hc
    change c ∈ printInt n at hc
    rcases printInt_cases n with ⟨h, -⟩ | ⟨h, -⟩
    · rw [h] at hc
      exact hdigit c hc
    · rw [h] at hc
      rcases List.mem_cons.mp hc with rfl | hc
      · rfl
      · exact hdigit c hc
  decimal := isDecimal_printInt
  read n rest hrest := congrArg some (readInt_printInt n hrest)

end Ovni
