import Ovni.Heap.Model

/-!
# The pointers of the heap

Each block of pointer assignments of `heap.h` keeps the tree linked in level
order.  The two exchanges are compared with the renaming that swaps the two
nodes, node by node and field by field; the remaining blocks add or take the
last position.
-/

namespace Ovni.Heap

open Ovni.Lib.LinkedTree

variable {ν : Type} [DecidableEq ν]

/-! ## The exchanges -/

section ReplaceChild

variable (m : Store ν) (p : Option ν) (old new x : ν)

@[simp] theorem replaceChild_parent :
    (replaceChild m p old new x).parent = (m x).parent := by
  unfold replaceChild
  split
  · rfl
  · split <;> simp

@[simp] theorem replaceChild_left :
    (replaceChild m p old new x).left =
      if p = some x ∧ (m x).left = some old then some new else (m x).left := by
  unfold replaceChild
  split
  · simp
  · split <;> simp <;> grind

@[simp] theorem replaceChild_right :
    (replaceChild m p old new x).right =
      if p = some x ∧ (m x).left ≠ some old then some new else (m x).right := by
  unfold replaceChild
  split
  · simp
  · split <;> simp <;> grind

end ReplaceChild

section Exchange

variable {m : Store ν} {s : Nat → ν} {n q k i : Nat}

/-- How comparisons of pointers around a node at `q` and its child at `k` are
decided by positions. -/
structure Around (s : Nat → ν) (n q k i : Nat) : Prop where
  qn : q ≤ n
  k1 : 1 ≤ k
  ne : s q ≠ s k
  iq : s i = s q ↔ i = q
  ik : s i = s k ↔ i = k
  sq : ∀ j, slot s n j = some (s q) ↔ j = q
  sk : ∀ j, slot s n j = some (s k) ↔ j = k
  si : ∀ j, slot s n j = some (s i) ↔ j = i
  gq : q / 2 ≠ q
  gk : q / 2 ≠ k
  nodeq : some (s q) = slot s n q
  nodek : some (s k) = slot s n k

omit [DecidableEq ν] in
theorem around (h : Linked m s n) (hq : 1 ≤ q) (hk : k ≤ n)
    (hc : k = 2 * q ∨ k = 2 * q + 1) (hi : 1 ≤ i) (hin : i ≤ n) : Around s n q k i := by
  have hqn : q ≤ n := by omega
  have hk1 : 1 ≤ k := by omega
  refine ⟨hqn, hk1, ?_, h.node_eq hi hin hq hqn, h.node_eq hi hin hk1 hk,
    fun j => h.slot_eq_some hq hqn, fun j => h.slot_eq_some hk1 hk,
    fun j => h.slot_eq_some hi hin, by omega, by omega, (slot_of_le hq hqn).symm,
    (slot_of_le hk1 hk).symm⟩
  rw [Ne, h.node_eq hq hqn hk1 hk]
  omega

/-- `heap_max_heapify` exchanges a node with one of its children. -/
theorem exchangeDown_eq (h : Linked m s n) (hq : 1 ≤ q) (hk : k ≤ n)
    (hc : k = 2 * q ∨ k = 2 * q + 1) (hi : 1 ≤ i) (hin : i ≤ n) :
    exchangeDown m (s q) (s k) (s i) = rename (Equiv.swap (s q) (s k)) m (s i) := by
  have a := around h hq hk hc hi hin
  have hpq := h.parent q hq a.qn
  have hlq := h.left q hq a.qn
  have hrq := h.right q hq a.qn
  have hlk := h.left k a.k1 hk
  have hrk := h.right k a.k1 hk
  have hpi := h.parent i hi hin
  have hli := h.left i hi hin
  have hri := h.right i hi hin
  rw [rename_swap_node h hq a.qn a.k1 hk hi hin]
  -- Which child it is decides the branch; then every field is a case split on
  -- the position of the node
  rcases hc with rfl | rfl
  · ext1 <;>
      simp [exchangeDown, a.ne, hpq, hlq, hrq, hlk, hrk, hpi, hli, hri, a.sq, a.sk,
        a.si, a.iq, a.ik, a.gq, a.gk] <;>
      simp only [a.nodeq, a.nodek, swapPos] <;> split_ifs <;> first | rfl | (exfalso; omega)
  · ext1 <;>
      simp [exchangeDown, a.ne, hpq, hlq, hlk, hrk, hpi, hli, hri, a.sq, a.sk,
        a.si, a.iq, a.ik, a.gq, a.gk] <;>
      simp only [a.nodeq, a.nodek, swapPos] <;> split_ifs <;> first | rfl | (exfalso; omega)

/-- A round of `heap_insert` exchanges a node with its parent. -/
theorem exchangeUp_eq (h : Linked m s n) (hq : 1 ≤ q) (hk : k ≤ n)
    (hc : k = 2 * q ∨ k = 2 * q + 1) (hi : 1 ≤ i) (hin : i ≤ n) :
    exchangeUp m (s k) (s q) (s i) = rename (Equiv.swap (s q) (s k)) m (s i) := by
  have a := around h hq hk hc hi hin
  have hpq := h.parent q hq a.qn
  have hlq := h.left q hq a.qn
  have hrq := h.right q hq a.qn
  have hlk := h.left k a.k1 hk
  have hrk := h.right k a.k1 hk
  have hpi := h.parent i hi hin
  have hli := h.left i hi hin
  have hri := h.right i hi hin
  rw [rename_swap_node h hq a.qn a.k1 hk hi hin]
  rcases hc with rfl | rfl
  · ext1 <;>
      simp [exchangeUp, a.ne.symm, hpq, hlq, hrq, hlk, hrk, hpi, hli, hri, a.sq, a.sk,
        a.si, a.iq, a.ik, a.gq, a.gk] <;>
      simp only [a.nodeq, a.nodek, swapPos] <;> split_ifs <;> first | rfl | (exfalso; omega)
  · ext1 <;>
      simp [exchangeUp, a.ne.symm, hpq, hlq, hlk, hrk, hpi, hli, hri, a.sq, a.sk,
        a.si, a.iq, a.ik, a.gq, a.gk] <;>
      simp only [a.nodeq, a.nodek, swapPos] <;> split_ifs <;> first | rfl | (exfalso; omega)

theorem exchangeDown_linked (h : Linked m s n) (hq : 1 ≤ q) (hk : k ≤ n)
    (hc : k = 2 * q ∨ k = 2 * q + 1) :
    Linked (exchangeDown m (s q) (s k)) (fun i => s (swapPos q k i)) n :=
  h.swap hq (by omega) (by omega) hk fun _ hi hin => exchangeDown_eq h hq hk hc hi hin

theorem exchangeUp_linked (h : Linked m s n) (hq : 1 ≤ q) (hk : k ≤ n)
    (hc : k = 2 * q ∨ k = 2 * q + 1) :
    Linked (exchangeUp m (s k) (s q)) (fun i => s (swapPos q k i)) n :=
  h.swap hq (by omega) (by omega) hk fun _ hi hin => exchangeUp_eq h hq hk hc hi hin

end Exchange

/-! ## heap_get -/

/-- One move of `heap_get` enters the child that holds the node, with the
node's number in that child's subtree. -/
theorem heapGetMove_spec {r : Nat} (hr : 2 ≤ r) :
    1 ≤ (heapGetMove r).1 ∧ Nat.log2 (heapGetMove r).1 + 1 = Nat.log2 r ∧
      ∀ p, descend (if (heapGetMove r).2 then 2 * p + 1 else 2 * p) (heapGetMove r).1 =
        descend p r := by
  have hr0 : r ≠ 0 := by omega
  have hlo := Nat.log2_self_le hr0
  have hhi : r < 2 ^ (Nat.log2 r + 1) := Nat.lt_log2_self
  obtain ⟨l, hl⟩ : ∃ l, Nat.log2 r = l + 1 := by
    have : Nat.log2 r ≠ 0 := by
      intro h0
      rw [h0] at hhi
      omega
    exact ⟨Nat.log2 r - 1, by omega⟩
  have hshift : ((64 - leadingZeros r - 1 : Int)).toNat = l + 1 := by
    unfold leadingZeros
    rw [hl]
    omega
  have hpow : 2 ^ (l + 1) = 2 * 2 ^ l := by ring
  have hpow2 : 2 ^ (l + 1 + 1) = 4 * 2 ^ l := by ring
  have hpos : 0 < 2 ^ l := Nat.two_pow_pos l
  rw [hl] at hlo hhi
  unfold heapGetMove
  simp only [hshift]
  have hhalf : 2 ^ (l + 1) / 2 = 2 ^ l := by omega
  rw [hhalf]
  -- The move strips the second bit of the node number
  split
  · rename_i hleft
    have hlog : Nat.log2 (r - 2 ^ l) = l := by
      rw [Nat.log2_eq_iff (by omega)]
      omega
    refine ⟨by simp only; omega, by rw [hlog, hl], fun p => ?_⟩
    simp only [descend, hlog, hl, Bool.false_eq_true, if_false]
    rw [hpow]
    have : 2 * p * 2 ^ l = p * (2 * 2 ^ l) := by ring
    omega
  · rename_i hright
    have hlog : Nat.log2 (r - 2 ^ l - 2 ^ l) = l := by
      rw [Nat.log2_eq_iff (by omega)]
      omega
    refine ⟨by simp only; omega, by rw [hlog, hl], fun p => ?_⟩
    simp only [descend, hlog, hl, if_true]
    rw [hpow]
    have : (2 * p + 1) * 2 ^ l = p * (2 * 2 ^ l) + 2 ^ l := by ring
    omega

theorem eq_one_of_log2 {r : Nat} (hr : 1 ≤ r) (hlog : Nat.log2 r = 0) : r = 1 := by
  have hhi : r < 2 ^ (Nat.log2 r + 1) := Nat.lt_log2_self
  rw [hlog] at hhi
  omega

omit [DecidableEq ν] in
/-- From the node at `p`, `heap_get` descends to the `r`-th node below it, one move for
each digit of `r` after the first. -/
theorem heapGetLoop_eq {m : Store ν} {s : Nat → ν} {n : Nat} (h : Linked m s n)
    (fuel p r : Nat) (hp : 1 ≤ p) (hr : 1 ≤ r) (hfuel : Nat.log2 r ≤ fuel)
    (hn : descend p r ≤ n) :
    heapGetLoop m fuel (slot s n p) r = .ok (some (s (descend p r))) := by
  induction fuel generalizing p r with
  | zero =>
      obtain rfl : r = 1 := eq_one_of_log2 hr (by omega)
      rw [descend_one_right] at hn ⊢
      rw [slot_of_le hp hn, heapGetLoop, if_pos rfl]
  | succ fuel ih =>
      have hpn : p ≤ n := (le_descend p r).trans hn
      rw [slot_of_le hp hpn, heapGetLoop]
      by_cases hr1 : r = 1
      · rw [if_pos hr1, hr1, descend_one_right]
      · obtain ⟨hlo, hlog, hdesc⟩ := heapGetMove_spec (r := r) (by omega)
        rw [if_neg hr1]
        simp only [h.left p hp hpn, h.right p hp hpn]
        have hchild := hdesc p
        cases hmove : (heapGetMove r).2 with
        | false =>
            simp only [hmove, Bool.false_eq_true, if_false] at hchild ⊢
            rw [ih (2 * p) _ (by omega) hlo (by omega) (by omega), hchild]
        | true =>
            simp only [hmove, if_true] at hchild ⊢
            rw [ih (2 * p + 1) _ (by omega) hlo (by omega) (by omega), hchild]

omit [DecidableEq ν] in
/-- `heap_get` returns the node at the given position. -/
theorem heapGet_eq {h : HeapHead ν} {s : Nat → ν} {n r : Nat} (hl : Linked h.node s n)
    (hroot : h.root = slot s n 1) (hr : 1 ≤ r) (hn : r ≤ n) :
    heapGet h r = .ok (some (s r)) := by
  have hr0 : r ≠ 0 := by omega
  have := heapGetLoop_eq hl r 1 r (by omega) hr (Nat.log2_le_self r)
    (by rwa [descend_one_left hr0])
  unfold heapGet
  rw [hroot, this, descend_one_left hr0]

/-! ## The last position -/

section Last

variable {m : Store ν} {s : Nat → ν} {n : Nat}

/-- The new leaf goes to the position after the last one, which is free. -/
theorem hangLeaf_linked {x : ν} (h : Linked m s n) (hn : 1 ≤ n)
    (hx : ∀ i, 1 ≤ i → i ≤ n → s i ≠ x) (hclear : m x = ⟨none, none, none⟩) :
    ∃ m', hangLeaf m (n + 1) (s ((n + 1) / 2)) x = .ok m' ∧
      Linked (setParent m' x (some (s ((n + 1) / 2)))) (Function.update s (n + 1) x)
        (n + 1) := by
  have hp1 : 1 ≤ (n + 1) / 2 := by omega
  have hpn : (n + 1) / 2 ≤ n := by omega
  have hpx : s ((n + 1) / 2) ≠ x := hx _ hp1 hpn
  have hsp : ∀ i, 1 ≤ i → i ≤ n → (s i = s ((n + 1) / 2) ↔ i = (n + 1) / 2) :=
    fun i hi hin => h.node_eq hi hin hp1 hpn
  unfold hangLeaf
  by_cases hodd : (n + 1) % 2 = 1
  · have hfree : (m (s ((n + 1) / 2))).right = none := by
      rw [h.right _ hp1 hpn, slot_of_lt (by omega)]
    rw [if_pos hodd, if_neg (by rw [hfree]; exact not_not.mpr rfl)]
    refine ⟨_, rfl, h.append hn hx ?_ ?_ ?_ ?_⟩
    · ext1 <;> simp [hclear, hpx.symm]
    · intro i hi hin
      rw [setParent_parent, if_neg (hx i hi hin), setRight_parent]
    · intro i hi hin
      rw [setParent_left, setRight_left, if_neg (by omega)]
    · intro i hi hin
      have hpos : i = (n + 1) / 2 ↔ 2 * i + 1 = n + 1 := by omega
      simp only [setParent_right, setRight_right, hsp i hi hin, hpos]
  · have hfree : (m (s ((n + 1) / 2))).left = none := by
      rw [h.left _ hp1 hpn, slot_of_lt (by omega)]
    rw [if_neg hodd, if_neg (by rw [hfree]; exact not_not.mpr rfl)]
    refine ⟨_, rfl, h.append hn hx ?_ ?_ ?_ ?_⟩
    · ext1 <;> simp [hclear, hpx.symm]
    · intro i hi hin
      rw [setParent_parent, if_neg (hx i hi hin), setLeft_parent]
    · intro i hi hin
      have hpos : i = (n + 1) / 2 ↔ 2 * i = n + 1 := by omega
      simp only [setParent_left, setLeft_left, hsp i hi hin, hpos]
    · intro i hi hin
      rw [setParent_right, setLeft_right, if_neg (by omega)]

/-- What taking the last position away leaves at position `i`. -/
def slotButLast (s : Nat → ν) (n i : Nat) : Option ν :=
  if i = 1 then some (s n) else if i = n then none else slot s n i

/-- `heap_pop_max` links the last node where the root was. -/
theorem replaceRoot_eq (h : Linked m s n) (hn : 2 ≤ n) :
    ∃ m', replaceRoot m n (s 1) (s n) = .ok m' ∧
      m' (s n) = ⟨none, slotButLast s n 2, slotButLast s n 3⟩ ∧
      ∀ i, 2 ≤ i → i < n → m' (s i) =
        ⟨slotButLast s n (i / 2), slotButLast s n (2 * i), slotButLast s n (2 * i + 1)⟩ := by
  have hpn := h.parent n (by omega) le_rfl
  have hln : (m (s n)).left = none := by
    rw [h.left n (by omega) le_rfl, slot_of_lt (by omega)]
  have hrn : (m (s n)).right = none := by
    rw [h.right n (by omega) le_rfl, slot_of_lt (by omega)]
  have hl1 := h.left 1 le_rfl (by omega)
  have hr1 := h.right 1 le_rfl (by omega)
  have hs1 : ∀ j, slot s n j = some (s 1) ↔ j = 1 := fun j => h.slot_eq_some le_rfl (by omega)
  have hsn : ∀ j, slot s n j = some (s n) ↔ j = n :=
    fun j => h.slot_eq_some (by omega) le_rfl
  have h1n : s 1 ≠ s n := by
    rw [Ne, h.node_eq le_rfl (by omega) (by omega) le_rfl]
    omega
  have hsi : ∀ i, 2 ≤ i → i < n → ∀ j, slot s n j = some (s i) ↔ j = i :=
    fun i hi hin j => h.slot_eq_some (by omega) (by omega)
  have hin : ∀ i, 2 ≤ i → i < n → s i ≠ s n := by
    intro i hi hin
    rw [Ne, h.node_eq (by omega) (by omega) (by omega) le_rfl]
    omega
  unfold replaceRoot slotButLast
  by_cases hpar : n / 2 = 1
  · rw [if_pos (by rw [hpn, hs1]; exact hpar)]
    by_cases hodd : n % 2 = 1
    · obtain rfl : n = 3 := by omega
      refine ⟨_, rfl, ?_, fun i hi hi3 => ?_⟩
      · ext1 <;> simp [hl1, hrn]
      · obtain rfl : i = 2 := by omega
        ext1 <;>
          simp [hl1, hin 2 (by omega) (by omega), hsi 2 (by omega) (by omega),
            h.left 2 (by omega) (by omega), h.right 2 (by omega) (by omega)]
    · obtain rfl : n = 2 := by omega
      refine ⟨_, rfl, ?_, fun i hi hi2 => by omega⟩
      ext1 <;> simp [hr1, hln]
  · have hp1 : 2 ≤ n / 2 := by omega
    have hpl : n / 2 < n := by omega
    have hp : (m (s n)).parent = some (s (n / 2)) := by
      rw [hpn, slot_of_le (by omega) (by omega)]
    have hnp : s n ≠ s (n / 2) := (hin _ hp1 hpl).symm
    have h1p : s 1 ≠ s (n / 2) := by
      rw [Ne, h.node_eq le_rfl (by omega) (by omega) (by omega)]
      omega
    have hip : ∀ i, 2 ≤ i → i < n → (s i = s (n / 2) ↔ i = n / 2) :=
      fun i hi hin => h.node_eq (by omega) (by omega) (by omega) (by omega)
    rw [if_neg (by rw [hpn, hs1]; exact hpar)]
    simp only [hp]
    by_cases hodd : n % 2 = 1
    · simp only [if_pos hodd, setRight_left, setRight_right, hln, hrn, hnp, if_false, ne_eq,
        not_true]
      refine ⟨_, rfl, ?_, fun i hi hi3 => ?_⟩
      · ext1 <;> simp [hl1, hr1, h1p] <;> grind
      · ext1 <;> simp [hl1, hr1, h1p, hin i hi hi3, hsi i hi hi3, hip i hi hi3,
          h.parent i (by omega) (by omega), h.left i (by omega) (by omega),
          h.right i (by omega) (by omega)] <;> grind
    · simp only [if_neg hodd, setLeft_left, setLeft_right, hln, hrn, hnp, if_false, ne_eq,
        not_true]
      refine ⟨_, rfl, ?_, fun i hi hi3 => ?_⟩
      · ext1 <;> simp [hl1, hr1, h1p] <;> grind
      · ext1 <;> simp [hl1, hr1, h1p, hin i hi hi3, hsi i hi hi3, hip i hi hi3,
          h.parent i (by omega) (by omega), h.left i (by omega) (by omega),
          h.right i (by omega) (by omega)] <;> grind

/-- The tree without its root and with the last node in its place. -/
theorem replaceRoot_linked (h : Linked m s n) (hn : 2 ≤ n) :
    ∃ m', replaceRoot m n (s 1) (s n) = .ok m' ∧
      Linked m' (Function.update s 1 (s n)) (n - 1) := by
  obtain ⟨m', hok, hroot, hrest⟩ := replaceRoot_eq h hn
  have hnew : Function.update s 1 (s n) 1 = s n := by simp
  have hold : ∀ i, i ≠ 1 → Function.update s 1 (s n) i = s i :=
    fun i hi => Function.update_of_ne hi _ _
  have hslot : ∀ i, slot (Function.update s 1 (s n)) (n - 1) i = slotButLast s n i := by
    intro i
    unfold slot slotButLast
    by_cases hi : i = 1
    · rw [hi, if_pos (by omega), if_pos rfl, hnew]
    · rw [hold i hi, if_neg hi]
      unfold slot
      split_ifs <;> first | rfl | omega
  have hnode : ∀ i, 1 ≤ i → i ≤ n - 1 → m' (Function.update s 1 (s n) i) =
      ⟨if i = 1 then none else slotButLast s n (i / 2), slotButLast s n (2 * i),
        slotButLast s n (2 * i + 1)⟩ := by
    intro i hi hin
    by_cases hi1 : i = 1
    · rw [hi1, hnew, hroot, if_pos rfl]
    · rw [hold i hi1, hrest i (by omega) (by omega), if_neg hi1]
  refine ⟨m', hok, fun i j hi hin hj hjn heq => ?_, fun i hi hin => ?_, fun i hi hin => ?_,
    fun i hi hin => ?_⟩
  · by_cases hi1 : i = 1 <;> by_cases hj1 : j = 1
    · omega
    · rw [hi1, hnew, hold j hj1] at heq
      have := h.inj n j (by omega) le_rfl hj (by omega) heq
      omega
    · rw [hj1, hnew, hold i hi1] at heq
      have := h.inj i n hi (by omega) (by omega) le_rfl heq
      omega
    · rw [hold i hi1, hold j hj1] at heq
      exact h.inj i j hi (by omega) hj (by omega) heq
  · rw [hnode i hi hin]
    split
    · rename_i hi1
      rw [hi1, Nat.div_eq_of_lt (by omega), slot_zero]
    · rw [hslot]
  · rw [hnode i hi hin, hslot]
  · rw [hnode i hi hin, hslot]

end Last

end Ovni.Heap
