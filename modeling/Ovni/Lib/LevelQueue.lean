import Mathlib.Data.List.Basic

/-!
# Queues filled level by level

A queue is read from its front while elements are added at its end.  When every
element that is added comes one level after the one being read, the queue stays
ordered by levels and nothing that was read is added again.  Elements outside
`rel` may be anywhere.
-/

namespace Ovni.Lib

variable {α : Type} {rel : α → Prop} {lev : α → Nat} {q : List α} {i : Nat} {c o : α}

/-- A queue in level order, read up to position `i`. -/
structure LevelQueue (rel : α → Prop) (lev : α → Nat) (q : List α) (i : Nat) : Prop where
  sorted : q.Pairwise fun x y => rel x → rel y → lev x ≤ lev y
  front : ∀ x ∈ q, ∀ y ∈ q.drop i, rel x → rel y → lev x ≤ lev y + 1

namespace LevelQueue

/-- A queue on one level. -/
theorem start (h : ∀ x ∈ q, rel x → lev x = 0) : LevelQueue rel lev q 0 := by
  constructor
  · refine List.Pairwise.imp_of_mem (R := fun _ _ => True) ?_
      (List.pairwise_of_forall fun _ _ => trivial)
    intro x y hx _ _ hrx _
    rw [h x hx hrx]
    exact Nat.zero_le _
  · intro x hx y _ hrx _
    rw [h x hx hrx]
    exact Nat.zero_le _

theorem advance (h : LevelQueue rel lev q i) : LevelQueue rel lev q (i + 1) := by
  refine ⟨h.sorted, fun x hx y hy => h.front x hx y ?_⟩
  rw [← List.drop_drop] at hy
  exact List.mem_of_mem_drop hy

/-- What was read is not after what is being read. -/
theorem le_of_mem_take (h : LevelQueue rel lev q i) (hc : q[i]? = some c) {x : α}
    (hx : x ∈ q.take (i + 1)) (hrx : rel x) (hrc : rel c) : lev x ≤ lev c := by
  obtain ⟨hi, hget⟩ := List.getElem?_eq_some_iff.mp hc
  rw [List.take_succ_eq_append_getElem hi, List.mem_append, List.mem_singleton, hget] at hx
  rcases hx with hx | rfl
  · have hsplit := h.sorted
    rw [← List.take_append_drop i q, List.pairwise_append] at hsplit
    refine hsplit.2.2 x hx c ?_ hrx hrc
    rw [List.drop_eq_getElem_cons hi, hget]
    exact List.mem_cons_self
  · exact Nat.le_refl _

/-- The next level was not read yet. -/
theorem not_mem_take (h : LevelQueue rel lev q i) (hc : q[i]? = some c) (hrc : rel c)
    (hro : rel o) (hlev : lev o = lev c + 1) : o ∉ q.take (i + 1) := by
  intro hmem
  have := h.le_of_mem_take hc hmem hro hrc
  omega

/-- Adding an element of the next level. -/
theorem push (h : LevelQueue rel lev q i) (hc : q[i]? = some c)
    (ho : rel o → rel c ∧ lev o = lev c + 1) : LevelQueue rel lev (q ++ [o]) i := by
  obtain ⟨hi, hget⟩ := List.getElem?_eq_some_iff.mp hc
  have hcmem : c ∈ q.drop i := by
    rw [List.drop_eq_getElem_cons hi, hget]
    exact List.mem_cons_self
  have hlater : ∀ y ∈ q.drop i, rel c → rel y → lev c ≤ lev y := by
    intro y hy hrc hry
    rw [List.drop_eq_getElem_cons hi, hget, List.mem_cons] at hy
    rcases hy with rfl | hy
    · exact Nat.le_refl _
    · have hsplit := h.sorted
      rw [← List.take_append_drop i q, List.drop_eq_getElem_cons hi, hget,
        List.pairwise_append, List.pairwise_cons] at hsplit
      exact hsplit.2.1.1 y hy hrc hry
  constructor
  · rw [List.pairwise_append]
    refine ⟨h.sorted, by simp, fun x hx y hy hrx hry => ?_⟩
    rw [List.mem_singleton.mp hy] at hry ⊢
    obtain ⟨hrc, hlev⟩ := ho hry
    rw [hlev]
    exact h.front x hx c hcmem hrx hrc
  · intro x hx y hy hrx hry
    rw [List.drop_append_of_le_length (Nat.le_of_lt hi)] at hy
    rcases List.mem_append.mp hx with hx | hx
    · rcases List.mem_append.mp hy with hy | hy
      · exact h.front x hx y hy hrx hry
      · rw [List.mem_singleton.mp hy] at hry ⊢
        obtain ⟨hrc, hlev⟩ := ho hry
        have := h.front x hx c hcmem hrx hrc
        omega
    · rw [List.mem_singleton.mp hx] at hrx ⊢
      obtain ⟨hrc, hlev⟩ := ho hrx
      rcases List.mem_append.mp hy with hy | hy
      · have := hlater y hy hrc hry
        omega
      · rw [List.mem_singleton.mp hy]
        exact Nat.le_succ _

/-- Adding elements outside `rel`. -/
theorem append (h : LevelQueue rel lev q i) (hi : i < q.length) {l : List α}
    (hl : ∀ x ∈ l, ¬ rel x) : LevelQueue rel lev (q ++ l) i := by
  induction l generalizing q with
  | nil => simpa using h
  | cons x l ih =>
      have hx := h.push (List.getElem?_eq_getElem hi) (o := x)
        fun hrel => absurd hrel (hl x List.mem_cons_self)
      have := ih hx (by rw [List.length_append]; omega)
        fun y hy => hl y (List.mem_cons_of_mem x hy)
      rwa [List.append_assoc] at this

end LevelQueue

end Ovni.Lib
