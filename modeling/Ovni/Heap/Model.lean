import Ovni.Lib.LinkedTree

/-!
# The intrusive heap

`include/heap.h`, pointer by pointer: every assignment of the source is one
update of the node store, in the source's order.  Following a null pointer and
the `die()` branches are errors.  The loops take their number of rounds from
the heap size; running out of it is an error as well.
-/

namespace Ovni.Heap

open Ovni.Lib.LinkedTree

/-- `heap_head_t` together with the nodes it points into. -/
structure HeapHead (ν : Type) where
  root : Option ν
  size : Nat
  node : Store ν

/-- `heap_node_compare_t`: positive when the first node is larger. -/
abbrev Compare (ν : Type) := ν → ν → Int

variable {ν : Type} [DecidableEq ν]

omit [DecidableEq ν] in
/-- `heap_init`. -/
def heapInit (node : Store ν) : HeapHead ν := { root := none, size := 0, node }

/-! ## heap_max_heapify -/

/-- The largest of a node and its children, as `heap_max_heapify` picks it. -/
def largestOf (m : Store ν) (cmp : Compare ν) (a : ν) : ν :=
  let largest := match (m a).left with
    | some l => if 0 < cmp l a then l else a
    | none => a
  match (m a).right with
  | some r => if 0 < cmp r largest then r else largest
  | none => largest

/-- Make the parent of `old`, if any, point to `new` instead. -/
def replaceChild (m : Store ν) (parent : Option ν) (old new : ν) : Store ν :=
  match parent with
  | none => m
  | some p =>
      if (m p).left = some old then setLeft m p (some new) else setRight m p (some new)

/-- The exchange of `a` with its larger child in `heap_max_heapify`. -/
def exchangeDown (m : Store ν) (a largest : ν) : Store ν :=
  let m := setParent m largest (m a).parent
  let m := replaceChild m (m a).parent a largest
  let m := setParent m a (some largest)
  if (m a).left = some largest then
    let m := setLeft m a (m largest).left
    let m := setParentOf m (m a).left (some a)
    let m := setLeft m largest (some a)
    -- heap_swap(a->right, largest->right)
    let aux := (m a).right
    let m := setRight m a (m largest).right
    let m := setRight m largest aux
    let m := setParentOf m (m a).right (some a)
    setParentOf m (m largest).right (some largest)
  else
    let m := setRight m a (m largest).right
    let m := setParentOf m (m a).right (some a)
    let m := setRight m largest (some a)
    -- heap_swap(a->left, largest->left)
    let aux := (m a).left
    let m := setLeft m a (m largest).left
    let m := setLeft m largest aux
    let m := setParentOf m (m a).left (some a)
    setParentOf m (m largest).left (some largest)

/-- `heap_max_heapify`.  The root is updated on the first level only, where the
head is passed. -/
def heapMaxHeapify (cmp : Compare ν) : Nat → Bool → HeapHead ν → ν → Except String (HeapHead ν)
  | 0, _, _, _ => .error "heap_max_heapify out of rounds"
  | fuel + 1, head, h, a =>
      let largest := largestOf h.node cmp a
      if largest = a then .ok h
      else
        let h := { h with node := exchangeDown h.node a largest }
        let h := if head then { h with root := some largest } else h
        heapMaxHeapify cmp fuel false h a

/-! ## heap_get -/

/-- `leading_zeros` of a `size_t` of 64 bits. -/
def leadingZeros (x : Nat) : Int := 63 - Nat.log2 x

/-- `heap_get_move`: the new node number and whether the move is to the right. -/
def heapGetMove (node : Nat) : Nat × Bool :=
  -- Round to previous po2
  let shift := 64 - leadingZeros node - 1
  let base := 2 ^ shift.toNat
  let auxNode := node - base / 2
  if auxNode < base then (auxNode, false) else (auxNode - base / 2, true)

omit [DecidableEq ν] in
/-- The loop of `heap_get`. -/
def heapGetLoop (m : Store ν) : Nat → Option ν → Nat → Except String (Option ν)
  | 0, current, node => if node = 1 then .ok current else .error "heap_get out of rounds"
  | fuel + 1, current, node =>
      if node = 1 then .ok current
      else
        match current with
        | none => .error "NULL dereference in heap_get"
        | some c =>
            let move := heapGetMove node
            heapGetLoop m fuel (if move.2 then (m c).right else (m c).left) move.1

omit [DecidableEq ν] in
/-- `heap_get`. -/
def heapGet (h : HeapHead ν) (node : Nat) : Except String (Option ν) :=
  heapGetLoop h.node node h.root node

/-! ## heap_pop_max -/

/-- Put `change` in the place of the popped root `max`. -/
def replaceRoot (m : Store ν) (size : Nat) (max change : ν) : Except String (Store ν) :=
  if (m change).parent = some max then
    if size % 2 = 1 then
      -- Right child
      let m := setLeft m change (m max).left
      let m := setParentOf m (m change).left (some change)
      .ok (setParent m change none)
    else
      let m := setRight m change (m max).right
      let m := setParentOf m (m change).right (some change)
      .ok (setParent m change none)
  else
    match (m change).parent with
    | none => .error "NULL dereference in heap_pop_max"
    | some p =>
        let m := if size % 2 = 1 then setRight m p none else setLeft m p none
        if (m change).left ≠ none then .error "change->left not NULL"
        else if (m change).right ≠ none then .error "change->right not NULL"
        else
          let m := setLeft m change (m max).left
          let m := setParentOf m (m change).left (some change)
          let m := setRight m change (m max).right
          let m := setParentOf m (m change).right (some change)
          .ok (setParent m change none)

/-- `heap_pop_max`. -/
def heapPopMax (h : HeapHead ν) (cmp : Compare ν) : Except String (Option ν × HeapHead ν) :=
  match h.root with
  | none => .ok (none, h)
  | some max => do
      let size := h.size
      match ← heapGet h size with
      | none => .error "heap_get() failed"
      | some change =>
          let h := { h with size := h.size - 1 }
          if (h.node change).parent = none then
            -- Special case
            return (some max, { h with root := none })
          let m ← replaceRoot h.node size max change
          let h ← heapMaxHeapify cmp size true { h with node := m, root := some change } change
          return (some max, h)

/-! ## heap_insert -/

/-- One round of the loop of `heap_insert`: `node` changes place with its
parent. -/
def exchangeUp (m : Store ν) (node parent : ν) : Store ν :=
  let m := setParent m node (m parent).parent
  let m := setParent m parent (some node)
  let m := replaceChild m (m node).parent parent node
  if (m parent).left = some node then
    let m := setLeft m parent (m node).left
    let m := setParentOf m (m parent).left (some parent)
    let m := setLeft m node (some parent)
    -- heap_swap(node->right, parent->right)
    let aux := (m node).right
    let m := setRight m node (m parent).right
    let m := setRight m parent aux
    let m := setParentOf m (m node).right (some node)
    setParentOf m (m parent).right (some parent)
  else
    let m := setRight m parent (m node).right
    let m := setParentOf m (m parent).right (some parent)
    let m := setRight m node (some parent)
    -- heap_swap(node->left, parent->left)
    let aux := (m node).left
    let m := setLeft m node (m parent).left
    let m := setLeft m parent aux
    let m := setParentOf m (m node).left (some node)
    setParentOf m (m parent).left (some parent)

/-- The loop of `heap_insert`: the store and the final `parent`. -/
def bubbleUp (cmp : Compare ν) (node : ν) :
    Nat → Store ν → Option ν → Except String (Store ν × Option ν)
  | _, m, none => .ok (m, none)
  | 0, _, some _ => .error "heap_insert out of rounds"
  | fuel + 1, m, some parent =>
      if 0 < cmp node parent then
        let m := exchangeUp m node parent
        bubbleUp cmp node fuel m (m node).parent
      else .ok (m, some parent)

/-- Hang a new leaf from `parent`, to the right in a tree of odd size. -/
def hangLeaf (m : Store ν) (size : Nat) (parent node : ν) : Except String (Store ν) :=
  if size % 2 = 1 then
    if (m parent).right ≠ none then .error "parent->right already set"
    else .ok (setRight m parent (some node))
  else
    if (m parent).left ≠ none then .error "parent->left already set"
    else .ok (setLeft m parent (some node))

/-- `heap_insert`. -/
def heapInsert (h : HeapHead ν) (node : ν) (cmp : Compare ν) : Except String (HeapHead ν) := do
  let m := setLeft h.node node none
  let m := setRight m node none
  let m := setParent m node none
  let h := { h with node := m, size := h.size + 1 }
  match h.root with
  | none => return { h with root := some node }
  | some _ =>
      -- Insert on size's parent
      match ← heapGet h (h.size / 2) with
      | none => .error "NULL dereference in heap_insert"
      | some parent =>
          let m ← hangLeaf h.node h.size parent node
          let m := setParent m node (some parent)
          let (m, last) ← bubbleUp cmp node h.size m (some parent)
          let h := { h with node := m }
          return if last = none then { h with root := some node } else h

end Ovni.Heap
