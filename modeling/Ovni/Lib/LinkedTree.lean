import Mathlib.Logic.Equiv.Basic
import Mathlib.Tactic.Ring

/-!
# Linked binary trees in level order

A store of nodes with `parent`, `left` and `right` pointers.  `Linked m s n`
says that the nodes `s 1, …, s n` are linked as the complete binary tree that
is filled in level order: the children of position `i` are the positions `2i`
and `2i + 1`.  Exchanging two nodes of such a tree is a renaming of the store,
so a pointer-by-pointer exchange is verified by comparing it with `rename`.
-/

namespace Ovni.Lib.LinkedTree

/-- The three pointers of a node, with `none` for the null pointer. -/
@[ext] structure Node (ν : Type) where
  parent : Option ν
  left : Option ν
  right : Option ν

/-- The pointers of every node. -/
abbrev Store (ν : Type) := ν → Node ν

variable {ν : Type}

section Updates

variable [DecidableEq ν]

def setParent (m : Store ν) (x : ν) (v : Option ν) : Store ν := fun y =>
  if y = x then { m y with parent := v } else m y

def setLeft (m : Store ν) (x : ν) (v : Option ν) : Store ν := fun y =>
  if y = x then { m y with left := v } else m y

def setRight (m : Store ν) (x : ν) (v : Option ν) : Store ν := fun y =>
  if y = x then { m y with right := v } else m y

/-- Set the parent of a node that may be null. -/
def setParentOf (m : Store ν) (x : Option ν) (v : Option ν) : Store ν :=
  match x with
  | none => m
  | some x => setParent m x v

/-! ## One field of one node -/

variable (m : Store ν) (x y : ν) (o v : Option ν)

@[simp] theorem setParent_parent :
    (setParent m x v y).parent = if y = x then v else (m y).parent := by
  unfold setParent; split <;> rfl

@[simp] theorem setParent_left : (setParent m x v y).left = (m y).left := by
  unfold setParent; split <;> rfl

@[simp] theorem setParent_right : (setParent m x v y).right = (m y).right := by
  unfold setParent; split <;> rfl

@[simp] theorem setLeft_parent : (setLeft m x v y).parent = (m y).parent := by
  unfold setLeft; split <;> rfl

@[simp] theorem setLeft_left :
    (setLeft m x v y).left = if y = x then v else (m y).left := by
  unfold setLeft; split <;> rfl

@[simp] theorem setLeft_right : (setLeft m x v y).right = (m y).right := by
  unfold setLeft; split <;> rfl

@[simp] theorem setRight_parent : (setRight m x v y).parent = (m y).parent := by
  unfold setRight; split <;> rfl

@[simp] theorem setRight_left : (setRight m x v y).left = (m y).left := by
  unfold setRight; split <;> rfl

@[simp] theorem setRight_right :
    (setRight m x v y).right = if y = x then v else (m y).right := by
  unfold setRight; split <;> rfl

@[simp] theorem setParentOf_parent :
    (setParentOf m o v y).parent = if o = some y then v else (m y).parent := by
  cases o with
  | none => simp [setParentOf]
  | some x => simp [setParentOf, eq_comm]

@[simp] theorem setParentOf_left : (setParentOf m o v y).left = (m y).left := by
  cases o <;> simp [setParentOf]

@[simp] theorem setParentOf_right : (setParentOf m o v y).right = (m y).right := by
  cases o <;> simp [setParentOf]

end Updates

/-! ## Level order -/

/-- The node at position `i` of a tree of `n` nodes. -/
def slot (s : Nat → ν) (n i : Nat) : Option ν :=
  if 1 ≤ i ∧ i ≤ n then some (s i) else none

@[simp] theorem slot_zero (s : Nat → ν) (n : Nat) : slot s n 0 = none := by
  simp [slot]

theorem slot_of_le {s : Nat → ν} {n i : Nat} (hi : 1 ≤ i) (hn : i ≤ n) :
    slot s n i = some (s i) := if_pos ⟨hi, hn⟩

theorem slot_of_lt {s : Nat → ν} {n i : Nat} (hn : n < i) : slot s n i = none :=
  if_neg (by omega)

/-- The nodes `s 1, …, s n` are distinct and linked as a complete tree. -/
structure Linked (m : Store ν) (s : Nat → ν) (n : Nat) : Prop where
  inj : ∀ i j, 1 ≤ i → i ≤ n → 1 ≤ j → j ≤ n → s i = s j → i = j
  parent : ∀ i, 1 ≤ i → i ≤ n → (m (s i)).parent = slot s n (i / 2)
  left : ∀ i, 1 ≤ i → i ≤ n → (m (s i)).left = slot s n (2 * i)
  right : ∀ i, 1 ≤ i → i ≤ n → (m (s i)).right = slot s n (2 * i + 1)

namespace Linked

variable {m m' : Store ν} {s : Nat → ν} {n : Nat}

theorem slot_eq_some (h : Linked m s n) {i j : Nat} (hi : 1 ≤ i) (hn : i ≤ n) :
    slot s n j = some (s i) ↔ j = i := by
  unfold slot
  constructor
  · intro heq
    split at heq
    · rename_i hj
      exact h.inj j i hj.1 hj.2 hi hn (Option.some.inj heq)
    · cases heq
  · rintro rfl
    rw [if_pos ⟨hi, hn⟩]

theorem node_eq (h : Linked m s n) {i j : Nat} (hi : 1 ≤ i) (hin : i ≤ n) (hj : 1 ≤ j)
    (hjn : j ≤ n) : s i = s j ↔ i = j :=
  ⟨h.inj i j hi hin hj hjn, fun h => by rw [h]⟩

/-- Only the linked nodes matter. -/
theorem congr (h : Linked m s n) (heq : ∀ i, 1 ≤ i → i ≤ n → m' (s i) = m (s i)) :
    Linked m' s n where
  inj := h.inj
  parent i hi hn := by rw [heq i hi hn, h.parent i hi hn]
  left i hi hn := by rw [heq i hi hn, h.left i hi hn]
  right i hi hn := by rw [heq i hi hn, h.right i hi hn]

theorem empty (m : Store ν) (s : Nat → ν) : Linked m s 0 :=
  ⟨fun _ _ _ _ _ _ _ => by omega, fun _ _ _ => by omega, fun _ _ _ => by omega,
    fun _ _ _ => by omega⟩

theorem single (hm : m (s 1) = ⟨none, none, none⟩) : Linked m s 1 := by
  refine ⟨fun i j hi hin hj hjn _ => by omega, fun i hi hin => ?_, fun i hi hin => ?_,
    fun i hi hin => ?_⟩ <;> obtain rfl : i = 1 := by omega
  · rw [hm, Nat.div_eq_of_lt (by omega), slot_zero]
  · rw [hm, slot_of_lt (by omega)]
  · rw [hm, slot_of_lt (by omega)]

/-- The positions beyond `n` are free to hold anything. -/
theorem congr_nodes {s' : Nat → ν} (h : Linked m s n)
    (heq : ∀ i, 1 ≤ i → i ≤ n → s' i = s i) : Linked m s' n := by
  have hslot : ∀ i, slot s' n i = slot s n i := by
    intro i
    unfold slot
    split
    · rename_i hi
      rw [heq i hi.1 hi.2]
    · rfl
  refine ⟨fun i j hi hin hj hjn he => ?_, fun i hi hn => ?_, fun i hi hn => ?_,
    fun i hi hn => ?_⟩
  · rw [heq i hi hin, heq j hj hjn] at he
    exact h.inj i j hi hin hj hjn he
  · rw [heq i hi hn, hslot, h.parent i hi hn]
  · rw [heq i hi hn, hslot, h.left i hi hn]
  · rw [heq i hi hn, hslot, h.right i hi hn]

end Linked

/-! ## A new last leaf -/

section Append

variable {m m' : Store ν} {s : Nat → ν} {n : Nat} {x : ν}

theorem update_last_of_le {i : Nat} (hi : i ≤ n) : Function.update s (n + 1) x i = s i :=
  Function.update_of_ne (by omega) _ _

theorem slot_update_last (i : Nat) :
    slot (Function.update s (n + 1) x) (n + 1) i =
      if i = n + 1 then some x else slot s n i := by
  by_cases hi : i = n + 1
  · rw [hi, slot_of_le (by omega) le_rfl, Function.update_self, if_pos rfl]
  · rw [if_neg hi]
    unfold slot
    split_ifs with h1 h2 h2
    · rw [update_last_of_le h2.2]
    · omega
    · omega
    · rfl

/-- A store that only differs by a leaf at the first free position. -/
theorem Linked.append (h : Linked m s n) (hn : 1 ≤ n) (hx : ∀ i, 1 ≤ i → i ≤ n → s i ≠ x)
    (hnode : m' x = ⟨some (s ((n + 1) / 2)), none, none⟩)
    (hparent : ∀ i, 1 ≤ i → i ≤ n → (m' (s i)).parent = (m (s i)).parent)
    (hleft : ∀ i, 1 ≤ i → i ≤ n →
      (m' (s i)).left = if 2 * i = n + 1 then some x else (m (s i)).left)
    (hright : ∀ i, 1 ≤ i → i ≤ n →
      (m' (s i)).right = if 2 * i + 1 = n + 1 then some x else (m (s i)).right) :
    Linked m' (Function.update s (n + 1) x) (n + 1) := by
  have hcases : ∀ i, i ≤ n + 1 → i = n + 1 ∨ i ≤ n := fun i hi => by omega
  constructor
  case inj =>
    intro i j hi hin hj hjn heq
    rcases hcases i hin with rfl | hin
    · rcases hcases j hjn with rfl | hjn
      · rfl
      · rw [Function.update_self, update_last_of_le hjn] at heq
        exact absurd heq.symm (hx j hj hjn)
    · rcases hcases j hjn with rfl | hjn
      · rw [Function.update_self, update_last_of_le hin] at heq
        exact absurd heq (hx i hi hin)
      · rw [update_last_of_le hin, update_last_of_le hjn] at heq
        exact h.inj i j hi hin hj hjn heq
  case parent =>
    intro i hi hin
    rw [slot_update_last, if_neg (by omega)]
    rcases hcases i hin with rfl | hin
    · rw [Function.update_self, hnode, slot_of_le (by omega) (by omega)]
    · rw [update_last_of_le hin, hparent i hi hin, h.parent i hi hin]
  case left =>
    intro i hi hin
    rw [slot_update_last]
    rcases hcases i hin with rfl | hin
    · rw [Function.update_self, hnode, if_neg (by omega), slot_of_lt (by omega)]
    · rw [update_last_of_le hin, hleft i hi hin, h.left i hi hin]
  case right =>
    intro i hi hin
    rw [slot_update_last]
    rcases hcases i hin with rfl | hin
    · rw [Function.update_self, hnode, if_neg (by omega), slot_of_lt (by omega)]
    · rw [update_last_of_le hin, hright i hi hin, h.right i hi hin]

end Append

/-! ## Renaming -/

/-- Apply a renaming to every pointer of a node. -/
def Node.map (f : ν → ν) (x : Node ν) : Node ν :=
  ⟨x.parent.map f, x.left.map f, x.right.map f⟩

/-- The store in which `π x` stands where `x` stood. -/
def rename (π : Equiv.Perm ν) (m : Store ν) : Store ν := fun x => (m (π.symm x)).map π

theorem slot_map (π : Equiv.Perm ν) (s : Nat → ν) (n i : Nat) :
    (slot s n i).map π = slot (π ∘ s) n i := by
  unfold slot
  split <;> rfl

theorem Linked.rename {m : Store ν} {s : Nat → ν} {n : Nat} (h : Linked m s n)
    (π : Equiv.Perm ν) : Linked (rename π m) (π ∘ s) n where
  inj i j hi hin hj hjn heq := h.inj i j hi hin hj hjn (π.injective heq)
  parent i hi hn := by
    simp only [LinkedTree.rename, Function.comp_apply, Equiv.symm_apply_apply, Node.map,
      h.parent i hi hn, slot_map]
  left i hi hn := by
    simp only [LinkedTree.rename, Function.comp_apply, Equiv.symm_apply_apply, Node.map,
      h.left i hi hn, slot_map]
  right i hi hn := by
    simp only [LinkedTree.rename, Function.comp_apply, Equiv.symm_apply_apply, Node.map,
      h.right i hi hn, slot_map]

/-! ## Exchanging two positions -/

/-- The position a node takes when positions `q` and `k` are exchanged. -/
def swapPos (q k i : Nat) : Nat := if i = q then k else if i = k then q else i

section Swap

variable [DecidableEq ν] {m : Store ν} {s : Nat → ν} {n q k i : Nat}

theorem slot_map_swap (h : Linked m s n) (hq : 1 ≤ q) (hqn : q ≤ n) (hk : 1 ≤ k)
    (hkn : k ≤ n) (j : Nat) :
    (slot s n j).map (Equiv.swap (s q) (s k)) = slot s n (swapPos q k j) := by
  unfold swapPos
  by_cases hj : 1 ≤ j ∧ j ≤ n
  · have hjq := h.node_eq hj.1 hj.2 hq hqn
    have hjk := h.node_eq hj.1 hj.2 hk hkn
    simp only [slot_of_le hj.1 hj.2, Option.map_some, Equiv.swap_apply_def, hjq, hjk]
    split_ifs
    · rw [slot_of_le hk hkn]
    · rw [slot_of_le hq hqn]
    · rw [slot_of_le hj.1 hj.2]
  · have hnone : slot s n j = none := if_neg hj
    rw [hnone, if_neg (by omega), if_neg (by omega), hnone]
    rfl

theorem swap_node (h : Linked m s n) (hq : 1 ≤ q) (hqn : q ≤ n) (hk : 1 ≤ k)
    (hkn : k ≤ n) (hi : 1 ≤ i) (hin : i ≤ n) :
    Equiv.swap (s q) (s k) (s i) = s (swapPos q k i) := by
  have hpos : 1 ≤ swapPos q k i ∧ swapPos q k i ≤ n := by
    unfold swapPos
    split_ifs <;> omega
  have hmap := slot_map_swap h hq hqn hk hkn i
  rwa [slot_of_le hi hin, slot_of_le hpos.1 hpos.2, Option.map_some, Option.some.injEq] at hmap

/-- The pointers of a node after positions `q` and `k` are exchanged. -/
theorem rename_swap_node (h : Linked m s n) (hq : 1 ≤ q) (hqn : q ≤ n) (hk : 1 ≤ k)
    (hkn : k ≤ n) (hi : 1 ≤ i) (hin : i ≤ n) :
    rename (Equiv.swap (s q) (s k)) m (s i) =
      ⟨slot s n (swapPos q k (swapPos q k i / 2)),
        slot s n (swapPos q k (2 * swapPos q k i)),
        slot s n (swapPos q k (2 * swapPos q k i + 1))⟩ := by
  have hpos : 1 ≤ swapPos q k i ∧ swapPos q k i ≤ n := by
    unfold swapPos
    split_ifs <;> omega
  simp only [rename, Equiv.symm_swap, Node.map, swap_node h hq hqn hk hkn hi hin,
    h.parent _ hpos.1 hpos.2, h.left _ hpos.1 hpos.2, h.right _ hpos.1 hpos.2,
    slot_map_swap h hq hqn hk hkn]

/-- A store that agrees with the renaming on every linked node is linked with
the two nodes exchanged. -/
theorem Linked.swap {m' : Store ν} (h : Linked m s n) (hq : 1 ≤ q) (hqn : q ≤ n)
    (hk : 1 ≤ k) (hkn : k ≤ n)
    (heq : ∀ i, 1 ≤ i → i ≤ n → m' (s i) = LinkedTree.rename (Equiv.swap (s q) (s k)) m (s i)) :
    Linked m' (fun i => s (swapPos q k i)) n := by
  have hpos : ∀ i, 1 ≤ i → i ≤ n → 1 ≤ swapPos q k i ∧ swapPos q k i ≤ n := by
    intro i hi hin
    unfold swapPos
    split_ifs <;> omega
  have hren := h.rename (Equiv.swap (s q) (s k))
  refine (hren.congr_nodes ?_).congr ?_
  · intro i hi hin
    exact (swap_node h hq hqn hk hkn hi hin).symm
  · intro i hi hin
    exact heq _ (hpos i hi hin).1 (hpos i hi hin).2

end Swap

/-! ## Descending from the root -/

/-- The position of the `r`-th node, in level order, of the subtree at `p`. -/
def descend (p r : Nat) : Nat := p * 2 ^ Nat.log2 r + (r - 2 ^ Nat.log2 r)

theorem descend_one_left {r : Nat} (hr : r ≠ 0) : descend 1 r = r := by
  have := Nat.log2_self_le hr
  unfold descend
  omega

theorem descend_one_right (p : Nat) : descend p 1 = p := by
  have hlog : Nat.log2 1 = 0 := by decide
  simp [descend, hlog]

theorem le_descend (p r : Nat) : p ≤ descend p r := by
  have hpow : 0 < 2 ^ Nat.log2 r := Nat.two_pow_pos _
  have := Nat.le_mul_of_pos_right p hpow
  unfold descend
  omega

end Ovni.Lib.LinkedTree
