import Ovni.Lib.LinkedTree
import Mathlib.Data.Set.Basic
import Mathlib.Order.Defs.Unbundled

/-!
# Heap order on positions

The order half of a binary heap, for any transitive relation `r` on the nodes:
`r x y` reads "`x` does not go above `y`".  `UpOrdered` and `DownOrdered` are
the heap order with one position out of place, while a node moves towards the
root or away from it.  Every exchange of a node with its parent moves that
position by one level.
-/

namespace Ovni.Lib.HeapOrder

open Ovni.Lib.LinkedTree

variable {ν : Type} {r : ν → ν → Prop} {s : Nat → ν} {n k q : Nat}

/-- Every node is below its parent. -/
def Ordered (r : ν → ν → Prop) (s : Nat → ν) (n : Nat) : Prop :=
  ∀ i, 2 ≤ i → i ≤ n → r (s i) (s (i / 2))

/-- Only the node at `k` may belong further up. -/
structure UpOrdered (r : ν → ν → Prop) (s : Nat → ν) (n k : Nat) : Prop where
  pairs : ∀ i, 2 ≤ i → i ≤ n → i ≠ k → r (s i) (s (i / 2))
  above : 2 ≤ k → ∀ i, i ≤ n → i / 2 = k → r (s i) (s (k / 2))

/-- Only the node at `q` may belong further down. -/
structure DownOrdered (r : ν → ν → Prop) (s : Nat → ν) (n q : Nat) : Prop where
  pairs : ∀ i, 2 ≤ i → i ≤ n → i / 2 ≠ q → r (s i) (s (i / 2))
  above : 2 ≤ q → ∀ i, i ≤ n → i / 2 = q → r (s i) (s (q / 2))

/-! ## The nodes of a tree -/

/-- The nodes at positions `1, …, n`. -/
def nodes (s : Nat → ν) (n : Nat) : Set ν := { x | ∃ i, 1 ≤ i ∧ i ≤ n ∧ s i = x }

theorem mem_nodes {i : Nat} (hi : 1 ≤ i) (hn : i ≤ n) : s i ∈ nodes s n := ⟨i, hi, hn, rfl⟩

@[simp] theorem nodes_zero (s : Nat → ν) : nodes s 0 = ∅ := by
  rw [Set.eq_empty_iff_forall_notMem]
  rintro x ⟨i, hi, hin, -⟩
  omega

theorem nodes_one (s : Nat → ν) : nodes s 1 = {s 1} := by
  ext x
  constructor
  · rintro ⟨i, hi, hin, rfl⟩
    obtain rfl : i = 1 := by omega
    rfl
  · rintro rfl
    exact mem_nodes le_rfl le_rfl

theorem nodes_swap (hq : 1 ≤ q) (hqn : q ≤ n) (hk : 1 ≤ k) (hkn : k ≤ n) :
    nodes (fun i => s (swapPos q k i)) n = nodes s n := by
  have hpos : ∀ i, 1 ≤ i → i ≤ n → 1 ≤ swapPos q k i ∧ swapPos q k i ≤ n := by
    intro i hi hin
    unfold swapPos
    split_ifs <;> omega
  have hinv : ∀ i, swapPos q k (swapPos q k i) = i := by
    intro i
    unfold swapPos
    split_ifs <;> omega
  ext x
  constructor
  · rintro ⟨i, hi, hin, rfl⟩
    exact mem_nodes (hpos i hi hin).1 (hpos i hi hin).2
  · rintro ⟨i, hi, hin, rfl⟩
    exact ⟨swapPos q k i, (hpos i hi hin).1, (hpos i hi hin).2, by simp only [hinv]⟩

theorem nodes_append (x : ν) :
    nodes (Function.update s (n + 1) x) (n + 1) = insert x (nodes s n) := by
  ext y
  constructor
  · rintro ⟨i, hi, hin, rfl⟩
    by_cases hlast : i = n + 1
    · exact .inl (by rw [hlast, Function.update_self])
    · exact .inr ⟨i, hi, by omega, by rw [Function.update_of_ne hlast]⟩
  · rintro (rfl | ⟨i, hi, hin, rfl⟩)
    · exact ⟨n + 1, by omega, le_rfl, Function.update_self ..⟩
    · exact ⟨i, hi, by omega, Function.update_of_ne (by omega) ..⟩

theorem nodes_dropRoot (hn : 2 ≤ n)
    (hinj : ∀ i j, 1 ≤ i → i ≤ n → 1 ≤ j → j ≤ n → s i = s j → i = j) :
    nodes (Function.update s 1 (s n)) (n - 1) = nodes s n \ {s 1} := by
  ext y
  constructor
  · rintro ⟨i, hi, hin, rfl⟩
    by_cases hi1 : i = 1
    · rw [hi1, Function.update_self]
      refine ⟨mem_nodes (by omega) le_rfl, fun heq => ?_⟩
      have := hinj n 1 (by omega) le_rfl le_rfl (by omega) heq
      omega
    · rw [Function.update_of_ne hi1]
      refine ⟨mem_nodes hi (by omega), fun heq => ?_⟩
      exact hi1 (hinj i 1 hi (by omega) le_rfl (by omega) heq)
  · rintro ⟨⟨i, hi, hin, rfl⟩, hne⟩
    have hi1 : i ≠ 1 := fun h1 => hne (by rw [h1]; rfl)
    by_cases hlast : i = n
    · exact ⟨1, le_rfl, by omega, by rw [hlast, Function.update_self]⟩
    · exact ⟨i, hi, by omega, Function.update_of_ne hi1 ..⟩

/-! ## Moving up -/

theorem UpOrdered.of_append {x : ν} (h : Ordered r s n) :
    UpOrdered r (Function.update s (n + 1) x) (n + 1) (n + 1) where
  pairs i hi hin hne := by
    rw [Function.update_of_ne hne, Function.update_of_ne (by omega)]
    exact h i hi (by omega)
  above _ i hin heq := by omega

theorem UpOrdered.swap [IsTrans ν r] (h : UpOrdered r s n k) (hk : 2 ≤ k) (hkn : k ≤ n)
    (hlt : r (s (k / 2)) (s k)) :
    UpOrdered r (fun i => s (swapPos (k / 2) k i)) n (k / 2) := by
  have hup : ∀ i, i ≠ k / 2 → i ≠ k → swapPos (k / 2) k i = i := by
    intro i h1 h2
    simp [swapPos, h1, h2]
  have hself : swapPos (k / 2) k (k / 2) = k := by simp [swapPos]
  have hchild : swapPos (k / 2) k k = k / 2 := by
    unfold swapPos
    split_ifs <;> omega
  refine ⟨fun i hi hin hne => ?_, fun hk2 i hin heq => ?_⟩
  · by_cases hik : i = k
    · simp only [hik, hchild, hself]
      exact hlt
    · rw [hup i hne hik]
      by_cases hsib : i / 2 = k / 2
      · -- The sibling was below the old parent, which is below the node now above it
        rw [hsib, hself]
        have hpair := h.pairs i hi hin hik
        rw [hsib] at hpair
        exact IsTrans.trans _ _ _ hpair hlt
      · by_cases hch : i / 2 = k
        · rw [hch, hchild]
          exact h.above hk i hin hch
        · rw [hup _ hsib hch]
          exact h.pairs i hi hin hik
  · have hgrand : r (s (k / 2)) (s (k / 2 / 2)) := h.pairs _ hk2 (by omega) (by omega)
    rw [hup (k / 2 / 2) (by omega) (by omega)]
    by_cases hik : i = k
    · rw [hik, hchild]
      exact hgrand
    · rw [hup i (by omega) hik]
      have hpair := h.pairs i (by omega) hin hik
      rw [heq] at hpair
      exact IsTrans.trans _ _ _ hpair hgrand

theorem UpOrdered.ordered (h : UpOrdered r s n k) (hk : 2 ≤ k → r (s k) (s (k / 2))) :
    Ordered r s n := by
  intro i hi hin
  by_cases hik : i = k
  · rw [hik] at hi ⊢
    exact hk hi
  · exact h.pairs i hi hin hik

/-! ## Moving down -/

theorem DownOrdered.of_dropRoot (h : Ordered r s n) :
    DownOrdered r (Function.update s 1 (s n)) (n - 1) 1 where
  pairs i hi hin hne := by
    rw [Function.update_of_ne (by omega), Function.update_of_ne (by omega)]
    exact h i hi (by omega)
  above h2 := by omega

theorem DownOrdered.swap (h : DownOrdered r s n q) (_hq : 1 ≤ q)
    (hc : k = 2 * q ∨ k = 2 * q + 1) (hkn : k ≤ n)
    (hlt : r (s q) (s k)) (hsib : ∀ i, i ≤ n → i / 2 = q → r (s i) (s k)) :
    DownOrdered r (fun i => s (swapPos q k i)) n k := by
  have hup : ∀ i, i ≠ q → i ≠ k → swapPos q k i = i := by
    intro i h1 h2
    simp [swapPos, h1, h2]
  have hself : swapPos q k q = k := by simp [swapPos]
  have hchild : swapPos q k k = q := by
    unfold swapPos
    split_ifs <;> omega
  have hkq : k / 2 = q := by omega
  refine ⟨fun i hi hin hne => ?_, fun _ i hin heq => ?_⟩
  · by_cases hiq : i = q
    · rw [hiq, hself, hup _ (by omega) (by omega)]
      have habove := h.above (by omega) k hkn hkq
      exact habove
    · by_cases hik : i = k
      · simp only [hik, hkq, hchild, hself]
        exact hlt
      · rw [hup i hiq hik]
        by_cases hsq : i / 2 = q
        · rw [hsq, hself]
          exact hsib i hin hsq
        · rw [hup _ hsq hne]
          exact h.pairs i hi hin hsq
  · rw [hkq, hself, hup i (by omega) (by omega)]
    have hpair := h.pairs i (by omega) hin (by omega)
    rwa [heq] at hpair

theorem DownOrdered.ordered (h : DownOrdered r s n q)
    (hq : ∀ i, 2 ≤ i → i ≤ n → i / 2 = q → r (s i) (s q)) : Ordered r s n := by
  intro i hi hin
  by_cases hiq : i / 2 = q
  · rw [hiq]
    exact hq i hi hin hiq
  · exact h.pairs i hi hin hiq

/-! ## The root -/

/-- In heap order every node is below the root. -/
theorem Ordered.le_root [IsTrans ν r] (h : Ordered r s n) (hrefl : 1 ≤ n → r (s 1) (s 1)) :
    ∀ i, 1 ≤ i → i ≤ n → r (s i) (s 1) := by
  intro i
  induction i using Nat.strongRecOn with
  | ind i ih =>
      intro hi hin
      by_cases hi1 : i = 1
      · rw [hi1]
        exact hrefl (by omega)
      · have hpar := ih (i / 2) (by omega) (by omega) (by omega)
        exact IsTrans.trans _ _ _ (h i (by omega) hin) hpar

end Ovni.Lib.HeapOrder
