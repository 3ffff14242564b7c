import Ovni.Heap.Links
import Ovni.Lib.HeapOrder

/-!
# What the heap operations do

The comparison only has to be a total preorder on the nodes that are in the
heap.  `IsHeap` ties the pointers, the size and the order to the set of nodes,
each operation has one specification lemma over it, and `Run` is any sequence
of operations from `heap_init`, with keys that may change while a node is out
of the heap.
-/

namespace Ovni.Heap

open Ovni.Lib.LinkedTree Ovni.Lib.HeapOrder

variable {ν : Type}

/-- The comparison orders the nodes of `S` totally. -/
structure TotalPreorder (cmp : Compare ν) (S : Set ν) : Prop where
  flip : ∀ a ∈ S, ∀ b ∈ S, 0 < cmp a b ↔ cmp b a < 0
  trans : ∀ a ∈ S, ∀ b ∈ S, ∀ c ∈ S, cmp a b ≤ 0 → cmp b c ≤ 0 → cmp a c ≤ 0

/-- Nodes of `S` of which the first is not larger. -/
structure NotAbove (cmp : Compare ν) (S : Set ν) (a b : ν) : Prop where
  left : a ∈ S
  right : b ∈ S
  le : cmp a b ≤ 0

namespace TotalPreorder

variable {cmp : Compare ν} {S : Set ν}

theorem isTrans (h : TotalPreorder cmp S) : IsTrans ν (NotAbove cmp S) :=
  ⟨fun a b c hab hbc =>
    ⟨hab.left, hbc.right, h.trans a hab.left b hab.right c hbc.right hab.le hbc.le⟩⟩

theorem notAbove_of_pos (h : TotalPreorder cmp S) {a b : ν} (ha : a ∈ S) (hb : b ∈ S)
    (hlt : 0 < cmp a b) : NotAbove cmp S b a :=
  ⟨hb, ha, ((h.flip a ha b hb).1 hlt).le⟩

theorem refl (h : TotalPreorder cmp S) {a : ν} (ha : a ∈ S) : NotAbove cmp S a a := by
  refine ⟨ha, ha, ?_⟩
  have := h.flip a ha a ha
  omega

theorem nonneg (h : TotalPreorder cmp S) {a b : ν} (hab : NotAbove cmp S a b) :
    0 ≤ cmp b a := by
  have := h.flip a hab.left b hab.right
  have := hab.le
  omega

theorem mono (h : TotalPreorder cmp S) {T : Set ν} (hT : T ⊆ S) : TotalPreorder cmp T where
  flip a ha b hb := h.flip a (hT ha) b (hT hb)
  trans a ha b hb c hc := h.trans a (hT ha) b (hT hb) c (hT hc)

end TotalPreorder

/-- The nodes of `S` are linked as a complete tree of `head->size` nodes, in
heap order from the root. -/
def IsHeap (cmp : Compare ν) (h : HeapHead ν) (S : Set ν) : Prop :=
  ∃ s, Linked h.node s h.size ∧ h.root = slot s h.size 1 ∧
    Ordered (NotAbove cmp S) s h.size ∧ nodes s h.size = S

variable [DecidableEq ν]

/-! ## Sifting down -/

section Heapify

variable {cmp : Compare ν} {S : Set ν} {m : Store ν} {s : Nat → ν} {n q : Nat}

omit [DecidableEq ν] in
/-- A node before and after a comparison: the larger of the two is picked. -/
theorem larger_spec (hcmp : TotalPreorder cmp S) {a b : ν} (ha : a ∈ S) (hb : b ∈ S) :
    NotAbove cmp S a (if 0 < cmp a b then a else b) ∧
      NotAbove cmp S b (if 0 < cmp a b then a else b) := by
  split
  · rename_i hlt
    exact ⟨hcmp.refl ha, hcmp.notAbove_of_pos ha hb hlt⟩
  · rename_i hle
    exact ⟨⟨ha, hb, by omega⟩, hcmp.refl hb⟩

omit [DecidableEq ν] in
/-- The node picked is `a` or one of its children, and no child is above it. -/
theorem largestOf_spec (hcmp : TotalPreorder cmp S) (hl : Linked m s n)
    (hS : nodes s n = S) (hq : 1 ≤ q) (hqn : q ≤ n) :
    ∃ k, largestOf m cmp (s q) = s k ∧ k ≤ n ∧ (k = q ∨ k = 2 * q ∨ k = 2 * q + 1) ∧
      NotAbove cmp S (s q) (s k) ∧
      ∀ i, 2 ≤ i → i ≤ n → i / 2 = q → NotAbove cmp S (s i) (s k) := by
  have := hcmp.isTrans
  have hmem : ∀ i, 1 ≤ i → i ≤ n → s i ∈ S := fun i hi hin => hS ▸ mem_nodes hi hin
  unfold largestOf
  rw [hl.left q hq hqn, hl.right q hq hqn]
  by_cases h2 : 2 * q ≤ n
  · rw [slot_of_le (by omega) h2]
    obtain ⟨hleft, hself⟩ :=
      larger_spec hcmp (hmem (2 * q) (by omega) h2) (hmem q hq hqn)
    -- The larger of the node and its left child, as a position
    obtain ⟨j, hj, hjn, hjc⟩ : ∃ j, (if 0 < cmp (s (2 * q)) (s q) then s (2 * q) else s q) =
        s j ∧ j ≤ n ∧ (j = q ∨ j = 2 * q) := by
      split
      · exact ⟨2 * q, rfl, h2, .inr rfl⟩
      · exact ⟨q, rfl, hqn, .inl rfl⟩
    simp only [hj] at hleft hself ⊢
    by_cases h3 : 2 * q + 1 ≤ n
    · rw [slot_of_le (by omega) h3]
      obtain ⟨hright, hprev⟩ :=
        larger_spec hcmp (hmem (2 * q + 1) (by omega) h3) (hmem j (by omega) hjn)
      obtain ⟨k, hk, hkn, hkc⟩ : ∃ k, (if 0 < cmp (s (2 * q + 1)) (s j) then s (2 * q + 1)
          else s j) = s k ∧ k ≤ n ∧ (k = j ∨ k = 2 * q + 1) := by
        split
        · exact ⟨2 * q + 1, rfl, h3, .inr rfl⟩
        · exact ⟨j, rfl, hjn, .inl rfl⟩
      simp only [hk] at hright hprev ⊢
      refine ⟨k, rfl, hkn, by omega, IsTrans.trans _ _ _ hself hprev, fun i hi hin hc => ?_⟩
      obtain rfl | rfl : i = 2 * q ∨ i = 2 * q + 1 := by omega
      · exact IsTrans.trans _ _ _ hleft hprev
      · exact hright
    · rw [slot_of_lt (by omega)]
      refine ⟨j, rfl, hjn, by omega, hself, fun i hi hin hc => ?_⟩
      obtain rfl : i = 2 * q := by omega
      exact hleft
  · rw [slot_of_lt (by omega), slot_of_lt (by omega)]
    exact ⟨q, rfl, hqn, .inl rfl, hcmp.refl (hmem q hq hqn), fun i hi hin hc => by omega⟩

/-- `heap_max_heapify` restores the heap order below the node it is given. -/
theorem heapMaxHeapify_spec (hcmp : TotalPreorder cmp S) (fuel : Nat) (h : HeapHead ν)
    (hl : Linked h.node s h.size) (hS : nodes s h.size = S) (hroot : h.root = some (s 1))
    (hq : 1 ≤ q) (hqn : q ≤ h.size) (hdown : DownOrdered (NotAbove cmp S) s h.size q)
    (hfuel : h.size < fuel + q) :
    ∃ h', heapMaxHeapify cmp fuel (decide (q = 1)) h (s q) = .ok h' ∧ h'.size = h.size ∧
      IsHeap cmp h' S := by
  induction fuel generalizing h s q with
  | zero => omega
  | succ fuel ih =>
      obtain ⟨k, hk, hkn, hkc, hself, hkids⟩ := largestOf_spec hcmp hl hS hq hqn
      rw [heapMaxHeapify, hk]
      by_cases hkq : k = q
      · rw [hkq] at hkids ⊢
        refine ⟨h, if_pos rfl, rfl, s, hl, ?_, hdown.ordered hkids, hS⟩
        rw [hroot, slot_of_le le_rfl (by omega)]
      · have hc : k = 2 * q ∨ k = 2 * q + 1 := by omega
        have hne : s k ≠ s q := by
          rw [Ne, hl.node_eq (by omega) hkn hq hqn]
          exact hkq
        rw [if_neg hne]
        -- The head after the exchange, with the new root on the first level
        obtain ⟨h1, hh1, hnode, hsize, hroot1⟩ : ∃ h1,
            (if decide (q = 1) = true then
              { h with node := exchangeDown h.node (s q) (s k), root := some (s k) }
              else { h with node := exchangeDown h.node (s q) (s k) }) = h1 ∧
            h1.node = exchangeDown h.node (s q) (s k) ∧ h1.size = h.size ∧
            h1.root = some (s (swapPos q k 1)) := by
          refine ⟨_, rfl, ?_⟩
          by_cases hq1 : q = 1
          · simp [hq1, swapPos]
          · have hk1 : 1 ≠ k := by omega
            have hq1' : 1 ≠ q := by omega
            simp [hq1, hk1, hq1', swapPos, hroot]
        have hplace : s q = s (swapPos q k k) := by simp [swapPos, hkq]
        have hhead : decide (k = 1) = false := decide_eq_false (by omega)
        have hrec := ih h1 (s := fun i => s (swapPos q k i)) (q := k)
          (by rw [hnode, hsize]; exact exchangeDown_linked hl hq hkn hc)
          (by rw [hsize, nodes_swap hq hqn (by omega) hkn, hS]) hroot1 (by omega)
          (by omega)
          (by
            rw [hsize]
            exact hdown.swap hq hc hkn hself fun i hin hi => hkids i (by omega) hin hi)
          (by omega)
        simp only [hh1]
        simp only [hhead, ← hplace, hsize] at hrec
        exact hrec

end Heapify

/-! ## Bubbling up -/

/-- The loop of `heap_insert` restores the heap order above the new node, and
ends at the null parent exactly when the new node is the root. -/
theorem bubbleUp_spec {cmp : Compare ν} {S : Set ν} {n : Nat} (hcmp : TotalPreorder cmp S)
    (fuel : Nat) {m : Store ν} {s : Nat → ν} {k : Nat} (hl : Linked m s n)
    (hS : nodes s n = S) (hk : 1 ≤ k) (hkn : k ≤ n)
    (hup : UpOrdered (NotAbove cmp S) s n k) (hfuel : k ≤ fuel + 1) :
    ∃ m' last s', bubbleUp cmp (s k) fuel m (slot s n (k / 2)) = .ok (m', last) ∧
      Linked m' s' n ∧ Ordered (NotAbove cmp S) s' n ∧ nodes s' n = S ∧
      ((last = none ∧ s' 1 = s k) ∨ (last ≠ none ∧ 2 ≤ k ∧ s' 1 = s 1)) := by
  have := hcmp.isTrans
  induction fuel generalizing m s k with
  | zero =>
      obtain rfl : k = 1 := by omega
      exact ⟨m, none, s, by simp [bubbleUp], hl, hup.ordered (by omega), hS, .inl ⟨rfl, rfl⟩⟩
  | succ fuel ih =>
      by_cases hk1 : k = 1
      · rw [hk1] at hup ⊢
        exact ⟨m, none, s, by simp [bubbleUp], hl, hup.ordered (by omega), hS,
          .inl ⟨rfl, rfl⟩⟩
      · have hp1 : 1 ≤ k / 2 := by omega
        have hpn : k / 2 ≤ n := by omega
        have hmk : s k ∈ S := hS ▸ mem_nodes hk hkn
        have hmp : s (k / 2) ∈ S := hS ▸ mem_nodes hp1 hpn
        rw [slot_of_le hp1 hpn, bubbleUp]
        by_cases hlt : 0 < cmp (s k) (s (k / 2))
        · rw [if_pos hlt]
          have hlink := exchangeUp_linked hl hp1 hkn (by omega)
          have hplace : s (swapPos (k / 2) k (k / 2)) = s k := by simp [swapPos]
          have hpar := hlink.parent (k / 2) hp1 hpn
          simp only [hplace] at hpar
          obtain ⟨m', last, s', hrun, hl', hord, hS', hlast⟩ :=
            ih hlink (by rw [nodes_swap hp1 hpn hk hkn, hS]) hp1 hpn
              (hup.swap (by omega) hkn (hcmp.notAbove_of_pos hmk hmp hlt)) (by omega)
          simp only [hplace, hpar] at hrun ⊢
          refine ⟨m', last, s', hrun, hl', hord, hS', ?_⟩
          rcases hlast with ⟨hnone, hroot⟩ | ⟨hsome, hk2, hroot⟩
          · exact .inl ⟨hnone, by rw [hroot, hplace]⟩
          · refine .inr ⟨hsome, by omega, ?_⟩
            rw [hroot]
            have h1 : 1 ≠ k / 2 := by omega
            have h2 : 1 ≠ k := by omega
            simp [swapPos, h1, h2]
        · rw [if_neg hlt]
          exact ⟨m, _, s, rfl, hl, hup.ordered fun _ => ⟨hmk, hmp, by omega⟩, hS,
            .inr ⟨by simp, by omega, rfl⟩⟩

/-! ## heap_insert -/

section Operations

variable {cmp cmp' : Compare ν} {S : Set ν} {h : HeapHead ν}

omit [DecidableEq ν] in
/-- The order of the heap only depends on the nodes in it. -/
theorem IsHeap.congr (hh : IsHeap cmp h S) (heq : ∀ a ∈ S, ∀ b ∈ S, cmp' a b = cmp a b) :
    IsHeap cmp' h S := by
  obtain ⟨s, hl, hroot, hord, hS⟩ := hh
  refine ⟨s, hl, hroot, fun i hi hin => ?_, hS⟩
  obtain ⟨hleft, hright, hle⟩ := hord i hi hin
  exact ⟨hleft, hright, by rwa [heq _ hleft _ hright]⟩

/-- The pointers of a node before it is linked. -/
def clearNode (m : Store ν) (x : ν) : Store ν :=
  setParent (setRight (setLeft m x none) x none) x none

theorem clearNode_self (m : Store ν) (x : ν) : clearNode m x x = ⟨none, none, none⟩ := by
  ext1 <;> simp [clearNode]

theorem clearNode_of_ne (m : Store ν) {x y : ν} (hne : y ≠ x) : clearNode m x y = m y := by
  ext1 <;> simp [clearNode, hne]

theorem heapInsert_spec {x : ν} (hh : IsHeap cmp h S) (hx : x ∉ S)
    (hcmp : TotalPreorder cmp (insert x S)) :
    ∃ h', heapInsert h x cmp = .ok h' ∧ h'.size = h.size + 1 ∧
      IsHeap cmp h' (insert x S) := by
  obtain ⟨s, hl, hroot, hord, hS⟩ := hh
  obtain ⟨root, n, m⟩ := h
  simp only at hl hroot hord hS
  have hfresh : ∀ i, 1 ≤ i → i ≤ n → s i ≠ x := by
    rintro i hi hin rfl
    exact hx (hS ▸ mem_nodes hi hin)
  have hclear : Linked (clearNode m x) s n :=
    hl.congr fun i hi hin => clearNode_of_ne m (hfresh i hi hin)
  have hnew : nodes (Function.update s (n + 1) x) (n + 1) = insert x S := by
    rw [nodes_append, hS]
  by_cases hn : n = 0
  · subst hn
    rw [slot_of_lt (by omega)] at hroot
    have hrun : heapInsert ⟨root, 0, m⟩ x cmp = .ok ⟨some x, 1, clearNode m x⟩ := by
      rw [hroot]
      rfl
    refine ⟨_, hrun, rfl, Function.update s 1 x, Linked.single ?_, ?_, ?_, hnew⟩
    · rw [Function.update_self]
      exact clearNode_self m x
    · simp [slot]
    · intro i hi hin
      simp only at hin
      omega
  · rw [slot_of_le le_rfl (by omega)] at hroot
    have hget := heapGet_eq (h := ⟨some (s 1), n + 1, clearNode m x⟩) (s := s) (n := n)
      (r := (n + 1) / 2) hclear (slot_of_le le_rfl (by omega)).symm (by omega) (by omega)
    obtain ⟨m1, hhang, hlink⟩ :=
      hangLeaf_linked hclear (by omega) hfresh (clearNode_self m x)
    have hordx : Ordered (NotAbove cmp (insert x S)) s n := by
      intro i hi hin
      obtain ⟨hleft, hright, hle⟩ := hord i hi hin
      exact ⟨.inr hleft, .inr hright, hle⟩
    obtain ⟨m', last, s', hrun, hl', hord', hS', hlast⟩ :=
      bubbleUp_spec hcmp (n + 1) hlink hnew (by omega) le_rfl
        (UpOrdered.of_append hordx) (by omega)
    have hleaf : Function.update s (n + 1) x (n + 1) = x := Function.update_self ..
    have hpar : Function.update s (n + 1) x ((n + 1) / 2) = s ((n + 1) / 2) :=
      Function.update_of_ne (by omega) ..
    have hfirst : Function.update s (n + 1) x 1 = s 1 := Function.update_of_ne (by omega) ..
    rw [slot_of_le (by omega) (by omega), hleaf, hpar] at hrun
    rw [hleaf, hfirst] at hlast
    have hins : heapInsert ⟨root, n, m⟩ x cmp = .ok
        (if last = none then ⟨some x, n + 1, m'⟩ else ⟨some (s 1), n + 1, m'⟩) := by
      simp only [heapInsert, hroot]
      simp only [clearNode] at hget hhang
      simp only [hget, hhang, hrun, bind, Except.bind, pure, Except.pure]
    refine ⟨_, hins, by split <;> rfl, s', ?_⟩
    rcases hlast with ⟨hnone, hs1⟩ | ⟨hsome, -, hs1⟩
    · rw [if_pos hnone]
      exact ⟨hl', by rw [slot_of_le le_rfl (by simp), hs1], hord', hS'⟩
    · rw [if_neg hsome]
      exact ⟨hl', by rw [slot_of_le le_rfl (by simp), hs1], hord', hS'⟩

/-! ## heap_pop_max -/

theorem heapPopMax_spec (hh : IsHeap cmp h S) (hcmp : TotalPreorder cmp S) :
    (S = ∅ ∧ heapPopMax h cmp = .ok (none, h)) ∨
      ∃ x h', heapPopMax h cmp = .ok (some x, h') ∧ x ∈ S ∧
        (∀ y ∈ S, NotAbove cmp S y x) ∧ h.size = h'.size + 1 ∧ IsHeap cmp h' (S \ {x}) := by
  have := hcmp.isTrans
  obtain ⟨s, hl, hroot, hord, hS⟩ := hh
  obtain ⟨root, n, m⟩ := h
  simp only at hl hroot hord hS
  by_cases hn : n = 0
  · subst hn
    refine .inl ⟨by rw [← hS, nodes_zero], ?_⟩
    rw [hroot, slot_of_lt (by omega)]
    rfl
  · have hmem1 : s 1 ∈ S := hS ▸ mem_nodes le_rfl (by omega)
    have hmax : ∀ y ∈ S, NotAbove cmp S y (s 1) := by
      intro y hy
      rw [← hS] at hy
      obtain ⟨i, hi, hin, rfl⟩ := hy
      exact hord.le_root (fun _ => hcmp.refl hmem1) i hi hin
    have hget := heapGet_eq (h := ⟨root, n, m⟩) hl hroot (by omega) le_rfl
    have hpar := hl.parent n (by omega) le_rfl
    rw [slot_of_le le_rfl (by omega)] at hroot
    by_cases hn1 : n = 1
    · -- Special case: the popped node was alone
      subst hn1
      have hrun : heapPopMax ⟨root, 1, m⟩ cmp = .ok (some (s 1), ⟨none, 0, m⟩) := by
        rw [Nat.div_eq_of_lt (by omega), slot_zero] at hpar
        simp only [heapPopMax, hroot] at hget ⊢
        simp only [hget, hpar, bind, Except.bind, pure, Except.pure, if_true]
      refine .inr ⟨s 1, _, hrun, hmem1, hmax, rfl, s, Linked.empty _ _, ?_, ?_, ?_⟩
      · rw [slot_of_lt (by simp)]
      · intro i hi hin
        simp only at hin
        omega
      · rw [← hS, nodes_zero, nodes_one, Set.sdiff_self]
    · obtain ⟨m1, hrep, hlink⟩ := replaceRoot_linked hl (by omega)
      have hrest : nodes (Function.update s 1 (s n)) (n - 1) = S \ {s 1} := by
        rw [nodes_dropRoot (by omega) hl.inj, hS]
      have hne : (m (s n)).parent ≠ none := by
        rw [hpar, slot_of_le (by omega) (by omega)]
        simp
      have hdown : DownOrdered (NotAbove cmp (S \ {s 1})) (Function.update s 1 (s n))
          (n - 1) 1 := by
        refine ⟨fun i hi hin hc => ?_, fun h2 => by omega⟩
        have hle := ((DownOrdered.of_dropRoot hord).pairs i hi hin hc).le
        exact ⟨hrest ▸ mem_nodes (by omega) hin, hrest ▸ mem_nodes (by omega) (by omega), hle⟩
      have hnew : Function.update s 1 (s n) 1 = s n := Function.update_self ..
      obtain ⟨h', hheap, hsize, hh'⟩ := heapMaxHeapify_spec (q := 1)
        (hcmp.mono (S := S) (T := S \ {s 1}) Set.sdiff_subset) n ⟨some (s n), n - 1, m1⟩
        hlink hrest (by rw [hnew]) le_rfl (by simp only; omega) hdown (by simp only; omega)
      have hrun : heapPopMax ⟨root, n, m⟩ cmp = .ok (some (s 1), h') := by
        have hhead : decide (1 = 1) = true := rfl
        rw [hnew, hhead] at hheap
        simp only [heapPopMax, hroot] at hget ⊢
        simp only [hget, hne, hrep, hheap, bind, Except.bind, pure, Except.pure, if_false]
      refine .inr ⟨s 1, h', hrun, hmem1, hmax, ?_, hh'⟩
      simp only at hsize ⊢
      omega

end Operations

/-! ## Runs -/

/-- The states reached from `heap_init` by inserting nodes that are out of the
heap and popping, with the nodes inserted and not popped since.  The keys of
the nodes out of the heap may change: each insertion brings a comparison that
agrees with the one before on the nodes in the heap. -/
inductive Run : HeapHead ν → Set ν → Compare ν → Prop where
  | init (node : Store ν) (cmp : Compare ν) : Run (heapInit node) ∅ cmp
  | insert {h h' : HeapHead ν} {S : Set ν} {cmp cmp' : Compare ν} {x : ν}
      (before : Run h S cmp) (fresh : x ∉ S)
      (agree : ∀ a ∈ S, ∀ b ∈ S, cmp' a b = cmp a b)
      (preorder : TotalPreorder cmp' (insert x S))
      (run : heapInsert h x cmp' = .ok h') : Run h' (insert x S) cmp'
  | pop {h h' : HeapHead ν} {S : Set ν} {cmp : Compare ν} {x : ν}
      (before : Run h S cmp) (run : heapPopMax h cmp = .ok (some x, h')) :
      Run h' (S \ {x}) cmp
  | popEmpty {h h' : HeapHead ν} {S : Set ν} {cmp : Compare ν}
      (before : Run h S cmp) (run : heapPopMax h cmp = .ok (none, h')) : Run h' S cmp

omit [DecidableEq ν] in
theorem heapInit_isHeap (node : Store ν) (cmp : Compare ν) (x : ν) :
    IsHeap cmp (heapInit node) ∅ := by
  refine ⟨fun _ => x, Linked.empty _ _, by simp [heapInit, slot], ?_, nodes_zero _⟩
  intro i hi hin
  simp only [heapInit] at hin
  omega

theorem Run.isHeap [Nonempty ν] {h : HeapHead ν} {S : Set ν} {cmp : Compare ν}
    (hrun : Run h S cmp) : IsHeap cmp h S ∧ TotalPreorder cmp S := by
  induction hrun with
  | init node cmp =>
      exact ⟨heapInit_isHeap node cmp (Classical.arbitrary ν), by simp, by simp⟩
  | insert before fresh agree preorder run ih =>
      obtain ⟨h', hok, -, hh'⟩ := heapInsert_spec (ih.1.congr agree) fresh preorder
      rw [run] at hok
      cases hok
      exact ⟨hh', preorder⟩
  | pop before run ih =>
      rcases heapPopMax_spec ih.1 ih.2 with ⟨-, hnone⟩ | ⟨x, h', hok, -, -, -, hh'⟩
      · rw [run] at hnone
        simp at hnone
      · rw [run] at hok
        cases hok
        exact ⟨hh', ih.2.mono Set.sdiff_subset⟩
  | popEmpty before run ih =>
      rcases heapPopMax_spec ih.1 ih.2 with ⟨-, hnone⟩ | ⟨x, h', hok, -⟩
      · rw [run] at hnone
        cases hnone
        exact ih
      · rw [run] at hok
        simp at hok

/-- In every run the linked nodes are a complete tree in heap order of exactly
the nodes inserted and not popped, the next insertion and the next pop never
die, and a pop takes a largest node of the heap. -/
theorem heap_run_safe [Nonempty ν] {h : HeapHead ν} {S : Set ν} {cmp : Compare ν}
    (hrun : Run h S cmp) :
    (∃ s, Linked h.node s h.size ∧ h.root = slot s h.size 1 ∧ nodes s h.size = S ∧
      ∀ i, 2 ≤ i → i ≤ h.size → 0 ≤ cmp (s (i / 2)) (s i)) ∧
    (∀ x cmp', x ∉ S → (∀ a ∈ S, ∀ b ∈ S, cmp' a b = cmp a b) →
      TotalPreorder cmp' (insert x S) → ∃ h', heapInsert h x cmp' = .ok h') ∧
    ∃ max h', heapPopMax h cmp = .ok (max, h') ∧ (max = none ↔ S = ∅) ∧
      ∀ x, max = some x → x ∈ S ∧ ∀ y ∈ S, 0 ≤ cmp x y := by
  obtain ⟨hheap, hcmp⟩ := hrun.isHeap
  refine ⟨?_, fun x cmp' hx hagree hpre => ?_, ?_⟩
  · obtain ⟨s, hl, hroot, hord, hS⟩ := hheap
    exact ⟨s, hl, hroot, hS, fun i hi hin => hcmp.nonneg (hord i hi hin)⟩
  · obtain ⟨h', hok, -⟩ := heapInsert_spec (hheap.congr hagree) hx hpre
    exact ⟨h', hok⟩
  · rcases heapPopMax_spec hheap hcmp with ⟨hS, hok⟩ | ⟨x, h', hok, hx, hmax, -⟩
    · exact ⟨none, h, hok, by simp [hS], by simp⟩
    · refine ⟨some x, h', hok, ?_, ?_⟩
      · simp only [reduceCtorEq, false_iff]
        rintro rfl
        exact hx
      · intro y hy
        cases hy
        exact ⟨hx, fun z hz => hcmp.nonneg (hmax z hz)⟩

/-- Nodes that are their own keys. -/
def keyCompare : Compare Nat := fun a b => (a : Int) - b

theorem keyCompare_totalPreorder (S : Set Nat) : TotalPreorder keyCompare S := by
  constructor
  · intro a _ b _
    unfold keyCompare
    omega
  · intro a _ b _ c _
    unfold keyCompare
    omega

/-- After inserting 5 and 7, the next pop takes 7. -/
theorem heap_run_safe_pair :
    ∃ h h', Run h {7, 5} keyCompare ∧ heapPopMax h keyCompare = .ok (some 7, h') := by
  have hone : Run ⟨some 5, 1, clearNode (fun _ => ⟨none, none, none⟩) 5⟩ (insert 5 ∅)
      keyCompare :=
    .insert (.init (fun _ => ⟨none, none, none⟩) keyCompare) (by simp) (by simp)
      (keyCompare_totalPreorder _) rfl
  obtain ⟨-, hins, -⟩ := heap_run_safe hone
  obtain ⟨h, hok⟩ :=
    hins 7 keyCompare (by simp) (fun _ _ _ _ => rfl) (keyCompare_totalPreorder _)
  have htwo : Run h {7, 5} keyCompare := by
    have := Run.insert hone (x := 7) (by simp) (fun _ _ _ _ => rfl)
      (keyCompare_totalPreorder _) hok
    rwa [insert_empty_eq] at this
  obtain ⟨-, -, max, h', hpop, hnone, hmax⟩ := heap_run_safe htwo
  obtain hm | ⟨x, rfl⟩ := Option.eq_none_or_eq_some max
  · exact absurd (hnone.1 hm) (Set.insert_nonempty _ _).ne_empty
  · obtain ⟨hx, hle⟩ := hmax x rfl
    have h7 := hle 7 (by simp)
    unfold keyCompare at h7
    rcases hx with rfl | rfl
    · exact ⟨h, h', htwo, hpop⟩
    · omega

end Ovni.Heap
