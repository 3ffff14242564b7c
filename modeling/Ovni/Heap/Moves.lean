import Mathlib.Data.Nat.Size
import Ovni.Heap.Links

/-!
# The way to a node

`heap_get_move` on a `size_t` strips the digit after the first one of a node number, and
`heap_get` follows these digits from the root.
-/

namespace Ovni.Heap

open Ovni.Lib.LinkedTree

/-! ## On a `size_t` -/

/-- `heap_get_move` on a `size_t` of 64 bits. -/
def heapGetMove64 (node : UInt64) : UInt64 × Bool :=
  -- Round to previous po2
  let shift := 64 - leadingZeros node.toNat - 1
  let base : UInt64 := 1 <<< UInt64.ofNat shift.toNat
  let auxNode := node - base / 2
  if auxNode < base then (auxNode, false) else (auxNode - base / 2, true)

/-- The loop of `heap_get` on a `size_t`. -/
def heapGetLoop64 {ν : Type} (m : Store ν) :
    Nat → Option ν → UInt64 → Except String (Option ν)
  | 0, current, node => if node = 1 then .ok current else .error "heap_get out of rounds"
  | fuel + 1, current, node =>
      if node = 1 then .ok current
      else
        match current with
        | none => .error "NULL dereference in heap_get"
        | some c =>
            let move := heapGetMove64 node
            heapGetLoop64 m fuel (if move.2 then (m c).right else (m c).left) move.1

/-- No step of `heap_get_move` overflows, so it does what it does on numbers. -/
theorem heapGetMove64_eq {node : UInt64} (hnode : node ≠ 0) :
    (heapGetMove64 node).1.toNat = (heapGetMove node.toNat).1 ∧
      (heapGetMove64 node).2 = (heapGetMove node.toNat).2 := by
  have hpos : node.toNat ≠ 0 := by
    intro hzero
    exact hnode (UInt64.toNat_inj.mp hzero)
  have hlog : Nat.log2 node.toNat < 64 := (Nat.log2_lt hpos).mpr node.toNat_lt
  have hlo := Nat.log2_self_le hpos
  have hshift : (64 - leadingZeros node.toNat - 1).toNat = Nat.log2 node.toNat := by
    unfold leadingZeros
    omega
  have hbase : ((1 : UInt64) <<< UInt64.ofNat (Nat.log2 node.toNat)).toNat =
      2 ^ Nat.log2 node.toNat := by
    have hpow : 2 ^ Nat.log2 node.toNat < 2 ^ 64 := Nat.pow_lt_pow_right (by decide) hlog
    rw [UInt64.toNat_shiftLeft, UInt64.toNat_ofNat', UInt64.toNat_one, Nat.one_shiftLeft]
    rw [Nat.mod_eq_of_lt (a := Nat.log2 node.toNat) (by omega), Nat.mod_eq_of_lt hlog,
      Nat.mod_eq_of_lt hpow]
  unfold heapGetMove64 heapGetMove
  simp only [hshift]
  generalize (1 : UInt64) <<< UInt64.ofNat (Nat.log2 node.toNat) = base at hbase ⊢
  rw [← hbase] at hlo ⊢
  have hhalf : (base / 2).toNat = base.toNat / 2 := UInt64.toNat_div base 2
  have haux : (node - base / 2).toNat = node.toNat - base.toNat / 2 := by
    rw [UInt64.toNat_sub_of_le, hhalf]
    rw [UInt64.le_iff_toNat_le, hhalf]
    omega
  by_cases hleft : node.toNat - base.toNat / 2 < base.toNat
  · have hleft' : node - base / 2 < base := by rwa [UInt64.lt_iff_toNat_lt, haux]
    simp only [hleft, hleft', if_true]
    exact ⟨haux, trivial⟩
  · have hleft' : ¬ node - base / 2 < base := by rwa [UInt64.lt_iff_toNat_lt, haux]
    simp only [hleft, hleft', if_false]
    refine ⟨?_, trivial⟩
    rw [UInt64.toNat_sub_of_le, hhalf, haux]
    rw [UInt64.le_iff_toNat_le, hhalf, haux]
    omega

theorem heapGetMove64_ne_zero {node : UInt64} (hnode : node ≠ 0) :
    (heapGetMove64 node).1 ≠ 0 := by
  intro hzero
  have hmove := (heapGetMove64_eq hnode).1
  rw [hzero, UInt64.toNat_zero] at hmove
  by_cases hone : node.toNat = 1
  · rw [hone] at hmove
    exact absurd hmove (by decide)
  · have hpos : node.toNat ≠ 0 := fun h => hnode (UInt64.toNat_inj.mp h)
    have := (heapGetMove_spec (r := node.toNat) (by omega)).1
    omega

/-- `heap_get` follows the moves of the number. -/
theorem heapGetLoop64_eq {ν : Type} (m : Store ν) (fuel : Nat) (current : Option ν)
    {node : UInt64} (hnode : node ≠ 0) :
    heapGetLoop64 m fuel current node = heapGetLoop m fuel current node.toNat := by
  have hone : node = 1 ↔ node.toNat = 1 := UInt64.toNat_inj.symm
  induction fuel generalizing current node with
  | zero => simp only [heapGetLoop64, heapGetLoop, hone]
  | succ fuel ih =>
      unfold heapGetLoop64 heapGetLoop
      simp only [hone]
      by_cases hstop : node.toNat = 1
      · rw [if_pos hstop, if_pos hstop]
      · rw [if_neg hstop, if_neg hstop]
        cases current with
        | none => rfl
        | some c =>
            obtain ⟨hnext, hmove⟩ := heapGetMove64_eq hnode
            simp only [hmove]
            rw [ih _ (heapGetMove64_ne_zero hnode) UInt64.toNat_inj.symm, hnext]

/-! ## The moves -/

/-- The node number after some moves. -/
def nodeAfter (m : Nat) (k : Nat) : Nat := (fun node => (heapGetMove node).1)^[k] m

/-- The first moves from a node number. -/
def firstMoves (m : Nat) (k : Nat) : List Bool :=
  (List.range k).map fun i => (heapGetMove (nodeAfter m i)).2

theorem nodeAfter_succ (m k : Nat) : nodeAfter m (k + 1) = nodeAfter (heapGetMove m).1 k := by
  unfold nodeAfter
  rw [Function.iterate_succ_apply]

theorem firstMoves_succ (m k : Nat) :
    firstMoves m (k + 1) = (heapGetMove m).2 :: firstMoves (heapGetMove m).1 k := by
  unfold firstMoves
  rw [List.range_succ_eq_map, List.map_cons, List.map_map]
  rfl

theorem two_le_of_log2 {m : Nat} (hm : 1 ≤ m) (hlog : Nat.log2 m ≠ 0) : 2 ≤ m := by
  by_contra hlt
  obtain rfl : m = 1 := by omega
  exact hlog (by decide)

/-- Each move takes one digit, up to the last. -/
theorem log2_nodeAfter {m k : Nat} (hm : 1 ≤ m) (hk : k ≤ Nat.log2 m) :
    1 ≤ nodeAfter m k ∧ Nat.log2 (nodeAfter m k) + k = Nat.log2 m := by
  induction k generalizing m with
  | zero => exact ⟨hm, rfl⟩
  | succ k ih =>
      have hm2 : 2 ≤ m := two_le_of_log2 hm (by omega)
      obtain ⟨hpos, hlog, -⟩ := heapGetMove_spec hm2
      obtain ⟨hpos', hlog'⟩ := ih hpos (by omega)
      rw [nodeAfter_succ]
      exact ⟨hpos', by omega⟩

/-- The moves write the number after its first digit. -/
theorem foldl_firstMoves {m : Nat} (hm : 1 ≤ m) (p : Nat) :
    (firstMoves m (Nat.log2 m)).foldl (fun n b => Nat.bit b n) p = descend p m := by
  induction hk : Nat.log2 m generalizing m p with
  | zero =>
      rw [eq_one_of_log2 hm hk, descend_one_right]
      rfl
  | succ k ih =>
      have hm2 : 2 ≤ m := two_le_of_log2 hm (by omega)
      obtain ⟨hpos, hlog, hdesc⟩ := heapGetMove_spec hm2
      have hbit : Nat.bit (heapGetMove m).2 p =
          if (heapGetMove m).2 then 2 * p + 1 else 2 * p := by
        cases (heapGetMove m).2 <;> rfl
      rw [firstMoves_succ, List.foldl_cons, ih hpos _ (by omega), hbit, hdesc]

theorem bits_foldl (moves : List Bool) {n : Nat} (hn : n ≠ 0) :
    (moves.foldl (fun n b => Nat.bit b n) n).bits = moves.reverse ++ n.bits := by
  induction moves generalizing n with
  | nil => rfl
  | cons b moves ih =>
      have hbit : Nat.bit b n ≠ 0 := by
        rw [Nat.bit_val]
        omega
      rw [List.foldl_cons, ih hbit, Nat.bits_append_bit n b fun h => absurd h hn,
        List.reverse_cons, List.append_assoc, List.singleton_append]

/-! ## heap_get -/

/-- The loop ends after as many moves as the number has digits after the first. -/
theorem heapGetLoop_rounds {ν : Type} (m : Store ν) {fuel r : Nat} (hr : 1 ≤ r)
    (hfuel : Nat.log2 r ≤ fuel) (current : Option ν) :
    heapGetLoop m fuel current r ≠ .error "heap_get out of rounds" := by
  induction fuel generalizing current r with
  | zero =>
      rw [eq_one_of_log2 hr (by omega), heapGetLoop, if_pos rfl]
      simp
  | succ fuel ih =>
      unfold heapGetLoop
      by_cases hstop : r = 1
      · rw [if_pos hstop]
        simp
      · rw [if_neg hstop]
        cases current with
        | none => simp
        | some c =>
            obtain ⟨hpos, hlog, -⟩ := heapGetMove_spec (r := r) (by omega)
            exact ih hpos (by omega) _

/-- The node number after some moves. -/
def nodeAfter64 (m : UInt64) (k : Nat) : UInt64 := (fun node => (heapGetMove64 node).1)^[k] m

theorem nodeAfter64_eq {m : UInt64} (hm : m ≠ 0) (k : Nat) :
    nodeAfter64 m k ≠ 0 ∧ (nodeAfter64 m k).toNat = nodeAfter m.toNat k := by
  induction k generalizing m with
  | zero => exact ⟨hm, rfl⟩
  | succ k ih =>
      have hnext : nodeAfter64 m (k + 1) = nodeAfter64 (heapGetMove64 m).1 k := by
        unfold nodeAfter64
        rw [Function.iterate_succ_apply]
      rw [hnext, nodeAfter_succ, ← (heapGetMove64_eq hm).1]
      exact ih (heapGetMove64_ne_zero hm)

/-- The moves from a node number are its binary digits after the first, and `heap_get` ends
with the node of that number in level order. -/
theorem heap_get_moves {ν : Type} (h : HeapHead ν) (m : UInt64) (hm : 1 ≤ m) :
    let depth := Nat.log2 m.toNat
    let moves := (List.range depth).map fun k => (heapGetMove64 (nodeAfter64 m k)).2
    nodeAfter64 m depth = 1 ∧ (∀ k < depth, nodeAfter64 m k ≠ 1) ∧
      m.toNat.bits.reverse = true :: moves ∧
      ∀ fuel, depth ≤ fuel →
        heapGetLoop64 h.node fuel h.root m ≠ .error "heap_get out of rounds" ∧
        ∀ s n, Linked h.node s n → h.root = slot s n 1 → m.toNat ≤ n →
          heapGetLoop64 h.node fuel h.root m = .ok (some (s m.toNat)) := by
  intro depth moves
  have hpos : 1 ≤ m.toNat := UInt64.le_iff_toNat_le.mp hm
  have hne : m ≠ 0 := by
    rintro rfl
    exact absurd hpos (by decide)
  have hone : ∀ k, nodeAfter64 m k = 1 ↔ nodeAfter m.toNat k = 1 := by
    intro k
    rw [← (nodeAfter64_eq hne k).2]
    exact UInt64.toNat_inj.symm
  have hmoves : moves = firstMoves m.toNat depth := by
    apply List.map_congr_left
    intro k _
    obtain ⟨hk, hnat⟩ := nodeAfter64_eq hne k
    rw [(heapGetMove64_eq hk).2, hnat]
  refine ⟨?_, ?_, ?_, ?_⟩
  · obtain ⟨hlast, hlog⟩ := log2_nodeAfter hpos (le_refl depth)
    rw [hone]
    exact eq_one_of_log2 hlast (by omega)
  · intro k hk hstop
    obtain ⟨-, hlog⟩ := log2_nodeAfter hpos (le_of_lt hk)
    have hzero : Nat.log2 1 = 0 := by decide
    rw [(hone k).mp hstop, hzero] at hlog
    omega
  · have hnumber : (firstMoves m.toNat depth).foldl (fun n b => Nat.bit b n) 1 = m.toNat := by
      rw [foldl_firstMoves hpos, descend_one_left (by omega)]
    have hbits := bits_foldl (firstMoves m.toNat depth) Nat.one_ne_zero
    rw [hnumber, Nat.one_bits] at hbits
    rw [hbits, hmoves, List.reverse_append, List.reverse_reverse]
    rfl
  · intro fuel hfuel
    rw [heapGetLoop64_eq h.node fuel h.root hne]
    refine ⟨heapGetLoop_rounds h.node hpos hfuel h.root, fun s n hlinked hroot hn => ?_⟩
    have hdescend : descend 1 m.toNat = m.toNat := descend_one_left (by omega)
    have hget := heapGetLoop_eq hlinked fuel 1 m.toNat (le_refl 1) hpos hfuel
      (by rw [hdescend]; exact hn)
    rw [hroot, hget, hdescend]

/-- Six nodes from 11 on, in level order. -/
def sixNodes : HeapHead Nat :=
  let place : Nat → Option Nat := slot (10 + ·) 6
  { root := place 1, size := 6
    node := fun x =>
      { parent := place ((x - 10) / 2), left := place (2 * (x - 10))
        right := place (2 * (x - 10) + 1) } }

theorem sixNodes_linked : Linked sixNodes.node (10 + ·) 6 where
  inj i j _ _ _ _ h := Nat.add_left_cancel h
  parent i _ _ := by simp [sixNodes]
  left i _ _ := by simp [sixNodes]
  right i _ _ := by simp [sixNodes]

/-- To the sixth node, right and then left. -/
theorem heap_get_moves_six :
    nodeAfter64 6 2 = 1 ∧ [true, true, false] = true ::
        ((List.range 2).map fun k => (heapGetMove64 (nodeAfter64 6 k)).2) ∧
      heapGetLoop64 sixNodes.node 2 sixNodes.root 6 = .ok (some 16) := by
  obtain ⟨hlast, -, hbits, hget⟩ := heap_get_moves sixNodes 6 (by decide)
  obtain ⟨-, hsix⟩ := hget 2 (by decide)
  exact ⟨hlast, hbits, hsix (10 + ·) 6 sixNodes_linked rfl (by decide)⟩

end Ovni.Heap
