import Mathlib.Data.List.Induction
import Mathlib.Data.List.Sort
import Ovni.Bay.Model

/-!
# Replacing a value in a sorted array

`sort_replace` of `emu/sort.c`.  It removes one copy of a value and inserts
another by shifting what lies between them, so the array stays sorted without
sorting it again.
-/

namespace Ovni

/-! ## sort_replace -/

/-- The loop that skips what is below `old`, on the rest of the array from `i` on. -/
def skipUntilOld (old : Int) : List Int → Nat → Except EmuFault Nat
  | [], _ => .error .crash
  | x :: rest, i => if x < old then skipUntilOld old rest (i + 1) else .ok i

/-- The loop that copies to the left while the next value is not above `new`, for
at most as many rounds as there are places to the right. -/
def shiftLeft (new : Int) : Nat → Nat → List Int → Nat × List Int
  | 0, i, arr => (i, arr)
  | left + 1, i, arr =>
      match arr[i + 1]? with
      | none => (i, arr)
      | some x => if x ≤ new then shiftLeft new left (i + 1) (arr.set i x) else (i, arr)

/-- The loop that copies to the right while the previous value is above `new`. -/
def shiftRight (new : Int) : Nat → List Int → Nat × List Int
  | 0, arr => (0, arr)
  | i + 1, arr =>
      match arr[i]? with
      | none => (i + 1, arr)
      | some x => if new < x then shiftRight new i (arr.set (i + 1) x) else (i + 1, arr)

/-- `sort_replace`. -/
def sortReplace (arr : List Int) (old new : Int) : Except EmuFault (List Int) := do
  if old = new then throw (.die "old == new")
  -- Remove the old first then insert the new
  if old < new then
    -- Quick jump to middle if less than old
    let m := arr.length / 2
    let start ← match arr[m]? with
      | none => throw .crash
      | some x => pure (if x < old then m else 0)
    let i ← skipUntilOld old (arr.drop start) start
    let (i, arr) := shiftLeft new (arr.length - 1 - i) i arr
    return arr.set i new
  else
    -- Find old, must be found
    let i ← skipUntilOld old arr 0
    let (i, arr) := shiftRight new i arr
    return arr.set i new

/-! ## The loops -/

theorem skipUntilOld_eq {old : Int} {below rest : List Int} {x : Int} (i : Nat)
    (hbelow : ∀ y ∈ below, y < old) (hx : ¬ x < old) :
    skipUntilOld old (below ++ x :: rest) i = .ok (i + below.length) := by
  induction below generalizing i with
  | nil => simp [skipUntilOld, hx]
  | cons y below ih =>
      rw [List.cons_append, skipUntilOld, if_pos (hbelow y List.mem_cons_self),
        ih (i + 1) fun z hz => hbelow z (List.mem_cons_of_mem y hz)]
      simp only [List.length_cons]
      congr 1
      omega

theorem set_append_cons {pre post : List Int} (x y : Int) :
    (pre ++ x :: post).set pre.length y = pre ++ y :: post := by
  rw [List.set_append_right _ _ (Nat.le_refl _), Nat.sub_self, List.set_cons_zero]

/-- The values up to `new` move one place to the left. -/
theorem shiftLeft_eq {new : Int} {small large : List Int} (pre : List Int) (x : Int)
    (hsmall : ∀ y ∈ small, y ≤ new) (hlarge : ∀ y ∈ large.head?, new < y) (left : Nat)
    (hleft : left = small.length + large.length) :
    ∃ z, shiftLeft new left pre.length (pre ++ x :: (small ++ large)) =
      (pre.length + small.length, pre ++ small ++ z :: large) := by
  induction small generalizing pre x left with
  | nil =>
      refine ⟨x, ?_⟩
      cases left with
      | zero => simp [shiftLeft]
      | succ left =>
          cases large with
          | nil => simp at hleft
          | cons y large =>
              have hy : ¬ y ≤ new := by
                have := hlarge y rfl
                omega
              simp [shiftLeft, hy]
  | cons y small ih =>
      obtain ⟨left, rfl⟩ : ∃ k, left = k + 1 := ⟨left - 1, by simp at hleft; omega⟩
      have hy : y ≤ new := hsmall y List.mem_cons_self
      obtain ⟨z, hz⟩ := ih (pre ++ [y]) y
        (fun z hz => hsmall z (List.mem_cons_of_mem y hz)) left
        (by simp at hleft; omega)
      refine ⟨z, ?_⟩
      have hget : (pre ++ x :: (y :: small ++ large))[pre.length + 1]? = some y := by
        rw [List.getElem?_append_right (by omega)]
        simp
      rw [shiftLeft, hget]
      simp only [hy, if_true, set_append_cons]
      simp only [List.append_assoc, List.length_append, List.length_cons, List.length_nil,
        List.cons_append, List.nil_append] at hz ⊢
      rw [hz]
      congr 1
      omega

/-- The values above `new` move one place to the right. -/
theorem shiftRight_eq {new : Int} {small large : List Int} (post : List Int) (x : Int)
    (hsmall : ∀ y ∈ small.getLast?, y ≤ new) (hlarge : ∀ y ∈ large, new < y) :
    ∃ z, shiftRight new (small ++ large).length (small ++ large ++ x :: post) =
      (small.length, small ++ z :: large ++ post) := by
  induction large using List.reverseRecOn generalizing x post with
  | nil =>
      refine ⟨x, ?_⟩
      rw [List.append_nil]
      rcases List.eq_nil_or_concat small with rfl | ⟨small, y, rfl⟩
      · simp [shiftRight]
      · have hy : ¬ new < y := by
          have := hsmall y (by simp)
          omega
        have hget : (small ++ [y] ++ x :: post)[small.length]? = some y := by
          rw [List.append_assoc, List.getElem?_append_right (by omega)]
          simp
        rw [List.concat_eq_append, List.length_append, List.length_singleton, shiftRight, hget]
        simp [hy]
  | append_singleton large y ih =>
      have hy : new < y := hlarge y (by simp)
      obtain ⟨z, hz⟩ := ih (y :: post) y fun z hz => hlarge z (by simp [hz])
      refine ⟨z, ?_⟩
      have hget : (small ++ (large ++ [y]) ++ x :: post)[(small ++ large).length]? = some y := by
        rw [← List.append_assoc, List.append_assoc _ [y], List.getElem?_append_right (by omega)]
        simp
      have hlen : (small ++ (large ++ [y])).length = (small ++ large).length + 1 := by
        simp only [List.length_append, List.length_singleton]
        omega
      rw [hlen, shiftRight, hget]
      simp only [hy, if_true]
      have hset : (small ++ (large ++ [y]) ++ x :: post).set ((small ++ large).length + 1) y =
          small ++ large ++ y :: y :: post := by
        rw [← hlen, set_append_cons]
        simp
      rw [hset, hz]
      simp

/-! ## The result -/

/-- A sorted list around the first copy of a value. -/
theorem sorted_split {arr : List Int} {old : Int} (hsorted : arr.Pairwise (· ≤ ·))
    (hold : old ∈ arr) :
    ∃ pre post, arr = pre ++ old :: post ∧ (∀ y ∈ pre, y < old) ∧
      ∀ y ∈ post, old ≤ y := by
  obtain ⟨pre, post, rfl, hpre⟩ := List.eq_append_cons_of_mem hold
  rw [List.pairwise_append, List.pairwise_cons] at hsorted
  refine ⟨pre, post, rfl, fun y hy => ?_, hsorted.2.1.1⟩
  have hle := hsorted.2.2 y hy old List.mem_cons_self
  have hne : y ≠ old := by
    rintro rfl
    exact hpre hy
  omega

/-- Starting in the middle when it is below `old` finds the same place. -/
theorem skipUntilOld_start {pre post : List Int} {old : Int} (hpre : ∀ y ∈ pre, y < old)
    (hpost : ∀ y ∈ post, old ≤ y) {m : Nat} {x : Int}
    (hm : (pre ++ old :: post)[m]? = some x) :
    skipUntilOld old ((pre ++ old :: post).drop (if x < old then m else 0))
      (if x < old then m else 0) = .ok pre.length := by
  by_cases hx : x < old
  · simp only [hx, if_true]
    have hlt : m < pre.length := by
      by_contra hge
      rw [List.getElem?_append_right (by omega)] at hm
      have := List.mem_of_getElem? hm
      rcases List.mem_cons.mp this with rfl | hmem
      · omega
      · have := hpost x hmem
        omega
    rw [List.drop_append_of_le_length (by omega),
      skipUntilOld_eq m (fun y hy => hpre y (List.mem_of_mem_drop hy)) (by omega)]
    congr 1
    rw [List.length_drop]
    omega
  · simp only [hx, if_false, List.drop_zero]
    rw [skipUntilOld_eq 0 hpre (by omega), Nat.zero_add]

theorem sortReplace_up {pre small large : List Int} {old new : Int} (hlt : old < new)
    (hpre : ∀ y ∈ pre, y < old) (hpost : ∀ y ∈ small ++ large, old ≤ y)
    (hsmall : ∀ y ∈ small, y ≤ new) (hlarge : ∀ y ∈ large.head?, new < y) :
    sortReplace (pre ++ old :: (small ++ large)) old new = .ok (pre ++ small ++ new :: large) := by
  have hm : (pre ++ old :: (small ++ large)).length / 2 <
      (pre ++ old :: (small ++ large)).length := by
    simp only [List.length_append, List.length_cons]
    omega
  obtain ⟨z, hz⟩ := shiftLeft_eq pre old hsmall hlarge _ rfl
  unfold sortReplace
  simp only [bind, Except.bind, pure, Except.pure]
  rw [if_neg (by omega), if_pos hlt, List.getElem?_eq_getElem hm]
  simp only
  rw [skipUntilOld_start hpre hpost (List.getElem?_eq_getElem hm)]
  have hleft : (pre ++ old :: (small ++ large)).length - 1 - pre.length =
      small.length + large.length := by
    simp only [List.length_append, List.length_cons]
    omega
  simp only [hleft, hz]
  rw [← List.length_append, set_append_cons]

theorem sortReplace_down {small large post : List Int} {old new : Int} (hlt : new < old)
    (hpre : ∀ y ∈ small ++ large, y < old) (hsmall : ∀ y ∈ small.getLast?, y ≤ new)
    (hlarge : ∀ y ∈ large, new < y) :
    sortReplace (small ++ large ++ old :: post) old new = .ok (small ++ new :: large ++ post) := by
  obtain ⟨z, hz⟩ := shiftRight_eq post old hsmall hlarge
  unfold sortReplace
  simp only [bind, Except.bind, pure, Except.pure]
  rw [if_neg (by omega), if_neg (by omega), skipUntilOld_eq 0 hpre (by omega)]
  simp only [Nat.zero_add, hz]
  rw [List.append_assoc, List.cons_append, set_append_cons, List.append_assoc,
    List.cons_append]

/-- A sorted list splits at any value. -/
theorem sorted_split_le {l : List Int} (hsorted : l.Pairwise (· ≤ ·)) (v : Int) :
    ∃ small large, l = small ++ large ∧ (∀ y ∈ small, y ≤ v) ∧ ∀ y ∈ large, v < y := by
  induction l with
  | nil => exact ⟨[], [], rfl, by simp, by simp⟩
  | cons x l ih =>
      rw [List.pairwise_cons] at hsorted
      by_cases hx : x ≤ v
      · obtain ⟨small, large, rfl, hsmall, hlarge⟩ := ih hsorted.2
        refine ⟨x :: small, large, rfl, fun y hy => ?_, hlarge⟩
        rcases List.mem_cons.mp hy with rfl | hy
        · exact hx
        · exact hsmall y hy
      · refine ⟨[], x :: l, rfl, by simp, fun y hy => ?_⟩
        rcases List.mem_cons.mp hy with rfl | hy
        · omega
        · have := hsorted.1 y hy
          omega

/-- Inserting a value where it belongs keeps the list sorted. -/
theorem sorted_insert {small large : List Int} {v : Int}
    (hsorted : (small ++ large).Pairwise (· ≤ ·)) (hsmall : ∀ y ∈ small, y ≤ v)
    (hlarge : ∀ y ∈ large, v < y) : (small ++ v :: large).Pairwise (· ≤ ·) := by
  rw [List.pairwise_append] at hsorted ⊢
  refine ⟨hsorted.1, List.pairwise_cons.mpr ⟨fun y hy => Int.le_of_lt (hlarge y hy),
    hsorted.2.1⟩, fun y hy z hz => ?_⟩
  rcases List.mem_cons.mp hz with rfl | hz
  · exact hsmall y hy
  · exact hsorted.2.2 y hy z hz

/-- `sort_replace` on a sorted array that holds `old`: one copy of it is replaced and
the array is sorted again. -/
theorem sortReplace_spec {arr : List Int} {old new : Int} (hsorted : arr.Pairwise (· ≤ ·))
    (hold : old ∈ arr) (hne : old ≠ new) :
    ∃ arr', sortReplace arr old new = .ok arr' ∧ arr'.Pairwise (· ≤ ·) ∧
      arr'.Perm (new :: arr.erase old) := by
  obtain ⟨pre, post, rfl, hpre, hpost⟩ := sorted_split hsorted hold
  have hrest : (pre ++ post).Pairwise (· ≤ ·) :=
    hsorted.sublist ((List.Sublist.refl pre).append (List.sublist_cons_self old post))
  have herase : (pre ++ old :: post).erase old = pre ++ post := by
    rw [List.erase_append_right _ fun hmem => Int.lt_irrefl _ (hpre old hmem),
      List.erase_cons_head]
  rw [herase]
  obtain ⟨hsp, hsq, -⟩ := List.pairwise_append.mp hrest
  rcases Int.lt_or_gt_of_ne hne with hlt | hlt
  · obtain ⟨small, large, rfl, hsmall, hlarge⟩ := sorted_split_le hsq new
    refine ⟨_, sortReplace_up hlt hpre hpost hsmall
      (fun y hy => hlarge y (List.mem_of_mem_head? hy)), ?_, ?_⟩
    · refine sorted_insert (by simpa using hrest) (fun y hy => ?_) hlarge
      rcases List.mem_append.mp hy with hy | hy
      · have := hpre y hy
        omega
      · exact hsmall y hy
    · rw [← List.append_assoc pre small large]
      exact List.perm_middle
  · obtain ⟨small, large, rfl, hsmall, hlarge⟩ := sorted_split_le hsp new
    refine ⟨_, sortReplace_down hlt hpre
      (fun y hy => hsmall y (List.mem_of_getLast? hy)) hlarge, ?_, ?_⟩
    · rw [List.append_assoc, List.cons_append]
      apply sorted_insert (by simpa using hrest) hsmall
      intro y hy
      rcases List.mem_append.mp hy with hy | hy
      · exact hlarge y hy
      · have := hpost y hy
        omega
    · rw [List.append_assoc, List.append_assoc, List.cons_append]
      exact List.perm_middle

end Ovni
