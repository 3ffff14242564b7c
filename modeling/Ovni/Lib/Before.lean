import Mathlib.Data.List.Basic

/-!
# The order of two elements of a list

In a list without duplicates that only grows at its end, an element that is before
another one stays before it.
-/

namespace Ovni.Lib

variable {α : Type} {x y a : α} {l r : List α}

/-- The list has `x`, and `y` after it. -/
def Before (x y : α) (l : List α) : Prop := [x, y].Sublist l

theorem Before.left (h : Before x y l) : x ∈ l := h.subset List.mem_cons_self

theorem Before.right (h : Before x y l) : y ∈ l :=
  h.subset (List.mem_cons_of_mem _ List.mem_cons_self)

theorem Before.append (h : Before x y l) (r : List α) : Before x y (l ++ r) :=
  h.trans (List.sublist_append_left l r)

theorem before_append (hx : x ∈ l) (hy : y ∈ r) : Before x y (l ++ r) :=
  (List.singleton_sublist.mpr hx).append (List.singleton_sublist.mpr hy)

/-- The second element comes from a shorter list, or is the last one. -/
theorem Before.concat (h : Before x y (l ++ [a])) : Before x y l ∨ x ∈ l ∧ y = a := by
  obtain ⟨l₁, l₂, heq, h₁, h₂⟩ := List.sublist_append_iff.mp h
  rcases List.sublist_singleton.mp h₂ with rfl | rfl
  · rw [List.append_nil] at heq
    rw [← heq] at h₁
    exact .inl h₁
  · have hl₁ : [x] = l₁ := List.append_inj_left' (show [x] ++ [y] = l₁ ++ [a] from heq) rfl
    have hy : [y] = [a] := List.append_inj_right' (show [x] ++ [y] = l₁ ++ [a] from heq) rfl
    exact .inr ⟨List.singleton_sublist.mp (hl₁ ▸ h₁), by simpa using hy⟩

/-- Nothing is before the first element. -/
theorem not_before_head (hnodup : (y :: l).Nodup) : ¬ Before x y (y :: l) := by
  intro h
  have hy := (List.nodup_cons.mp hnodup).1
  cases h with
  | cons _ h => exact hy (h.subset (List.mem_cons_of_mem _ List.mem_cons_self))
  | cons_cons _ h => exact hy (List.singleton_sublist.mp h)

/-- What is before an element is in the part of the list in front of it. -/
theorem Before.mem_take (hnodup : l.Nodup) (h : Before x y l) {i : Nat} (hi : l[i]? = some y) :
    x ∈ l.take i := by
  induction l generalizing i with
  | nil => cases hi
  | cons z l ih =>
      cases i with
      | zero =>
          obtain rfl : z = y := by simpa using hi
          exact absurd h (not_before_head hnodup)
      | succ i =>
          rw [List.take_succ_cons, List.mem_cons]
          cases h with
          | cons _ h => exact .inr (ih (List.nodup_cons.mp hnodup).2 h (by simpa using hi))
          | cons_cons _ h => exact .inl rfl

/-- What is after an element is not in the part of the list up to it. -/
theorem Before.not_mem_take (hnodup : l.Nodup) (h : Before x y l) {i : Nat}
    (hi : l[i]? = some x) : y ∉ l.take (i + 1) := by
  intro hy
  obtain ⟨hlt, hx⟩ := List.getElem?_eq_some_iff.mp hi
  obtain ⟨j, hj, hget⟩ := List.mem_take_iff_getElem.mp hy
  have hjl : j < l.length := by omega
  have hx' := h.mem_take hnodup (i := j) (List.getElem?_eq_some_iff.mpr ⟨hjl, hget⟩)
  obtain ⟨k, hk, hget'⟩ := List.mem_take_iff_getElem.mp hx'
  have hki : k = i := (List.getElem_inj hnodup).mp (hget'.trans hx.symm)
  omega

end Ovni.Lib
