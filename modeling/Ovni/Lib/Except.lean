/-!
# Runs that do not fail

A computation in `Except` that succeeds is taken apart step by step: the first
action succeeds with some value, and the rest does with that value.
-/

namespace Ovni.Lib

variable {ε α β : Type} {e : ε} {a : α} {b : β}

theorem ok_bind (a : α) (f : α → Except ε β) : (Except.ok a >>= f) = f a := rfl

theorem bind_ok {x : Except ε α} {f : α → Except ε β} (h : (x >>= f) = .ok b) :
    ∃ a, x = .ok a ∧ f a = .ok b := by
  cases x with
  | error e => cases h
  | ok a => exact ⟨a, rfl, h⟩

/-- A check that did not throw. -/
theorem guard_ok {p : Prop} [Decidable p] {rest : Except ε α}
    (h : (do
      if p then throw e
      rest : Except ε α) = .ok a) : ¬ p ∧ rest = .ok a := by
  by_cases hp : p
  · simp only [hp, if_true] at h
    cases h
  · simp only [hp, if_false] at h
    exact ⟨hp, h⟩

theorem guard_iff {p : Prop} [Decidable p] {rest : Except ε α} :
    (do
      if p then throw e
      rest : Except ε α) = .ok a ↔ ¬ p ∧ rest = .ok a := by
  constructor
  · exact guard_ok
  · rintro ⟨hp, hrest⟩
    simp only [hp, if_false]
    exact hrest

/-- What every step of a loop keeps. -/
theorem foldlM_kept {σ : Type} {step : σ → α → Except ε σ} {P : σ → Prop} {l : List α} {s s' : σ}
    (hstep : ∀ s a s', P s → step s a = .ok s' → P s') (hs : P s)
    (hfold : l.foldlM step s = .ok s') : P s' := by
  induction l generalizing s with
  | nil =>
      cases hfold
      exact hs
  | cons a l ih =>
      rw [List.foldlM_cons] at hfold
      obtain ⟨s₁, hs₁, hfold⟩ := bind_ok hfold
      exact ih (hstep s a s₁ hs hs₁) hfold

/-! ## Runs that do not fail in one way -/

theorem bind_ne_error {x : Except ε α} {f : α → Except ε β} (hx : x ≠ .error e)
    (hf : ∀ a, x = .ok a → f a ≠ .error e) : (x >>= f) ≠ .error e := by
  cases x with
  | error e' =>
      intro h
      injection h with h
      exact hx (congrArg _ h)
  | ok a => exact hf a rfl

theorem guard_ne_error {p : Prop} [Decidable p] {e' : ε} {rest : Except ε α} (he : e' ≠ e)
    (hrest : rest ≠ .error e) :
    (do
      if p then throw e'
      rest : Except ε α) ≠ .error e := by
  by_cases hp : p
  · simp only [hp, if_true]
    intro h
    injection h with h
    exact he h
  · simp only [hp, if_false]
    exact hrest

end Ovni.Lib
