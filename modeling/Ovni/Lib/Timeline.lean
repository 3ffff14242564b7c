import Mathlib.Data.List.Basic

/-!
# Timelines

A record of timed entries with the latest one first.  What holds at a time is the
latest entry of a kind that is not later than it.
-/

namespace Ovni.Lib

variable {α : Type} (sel : α → Bool) (time : α → Int)

/-- The latest entry of a kind up to a time. -/
def lastAt (l : List α) (t : Int) : Option α := l.find? fun x => sel x && decide (time x ≤ t)

/-- Entries after the time do not count. -/
theorem lastAt_append_of_lt {new l : List α} {t : Int} (h : ∀ x ∈ new, t < time x) :
    lastAt sel time (new ++ l) t = lastAt sel time l t := by
  unfold lastAt
  rw [List.find?_append, List.find?_eq_none.mpr, Option.none_or]
  intro x hx
  have := h x hx
  simp only [Bool.and_eq_true, decide_eq_true_eq, not_and]
  omega

/-- When no entry is after the time, it is the latest one. -/
theorem lastAt_eq_find {l : List α} {t : Int} (h : ∀ x ∈ l, time x ≤ t) :
    lastAt sel time l t = l.find? sel := by
  induction l with
  | nil => rfl
  | cons x l ih =>
      have hx := h x List.mem_cons_self
      have hl := ih fun y hy => h y (List.mem_cons_of_mem x hy)
      unfold lastAt at hl ⊢
      rw [List.find?_cons, List.find?_cons, hl]
      simp only [hx, decide_true, Bool.and_true]

end Ovni.Lib
