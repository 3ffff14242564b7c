import Mathlib.Data.Finset.Card
import Mathlib.Data.Finset.Range
import Mathlib.Data.List.Lex
import Mathlib.Data.List.Nodup
import Mathlib.Data.List.Perm.Basic
import Mathlib.Data.List.Sort

/-!
# Lists with keys

Lists whose elements have different keys: an element is found and replaced by its key,
two of them with the same elements are permutations of each other, and sorting them by
the key gives the same list.  Keys that are numbers below their count are all of them.
-/

namespace Ovni.Lib

variable {α β κ : Type} {l l' : List α} {key : α → κ} {x y : α}

/-! ## Elements by their keys -/

theorem eq_of_key (hnodup : (l.map key).Nodup) (hx : x ∈ l) (hy : y ∈ l) (h : key x = key y) :
    x = y :=
  List.inj_on_of_nodup_map hnodup hx hy h

/-- Two lists with keys are permutations of each other when they have the same elements. -/
theorem perm_of_keys (hnodup : (l.map key).Nodup) (hnodup' : (l'.map key).Nodup)
    (hmem : ∀ x ∈ l, x ∈ l') (hmem' : ∀ x ∈ l', x ∈ l) : l.Perm l' :=
  (List.perm_ext_iff_of_nodup hnodup.of_map hnodup'.of_map).mpr
    fun x => ⟨hmem x, hmem' x⟩

variable [DecidableEq κ]

/-- Lists with the same keys are the same, as far as it is known from the key. -/
theorem perm_map_of_key {g : α → β} (hkeys : (l.map key).Perm (l'.map key))
    (hnodup : (l'.map key).Nodup)
    (hg : ∀ x ∈ l, ∀ x' ∈ l', key x = key x' → g x = g x') : (l.map g).Perm (l'.map g) := by
  -- both lists are read through their keys, by the element of `l'` with the key
  let read : κ → Option β := fun a => (l'.find? fun y => key y = a).map g
  have hread : ∀ x, (∃ x' ∈ l', key x' = key x) → (∀ y ∈ l', key y = key x → g y = g x) →
      read (key x) = some (g x) := by
    rintro x ⟨x', hx', hkey⟩ hall
    cases hcase : l'.find? fun y => key y = key x with
    | none => exact absurd hkey (by simpa using List.find?_eq_none.mp hcase x' hx')
    | some y =>
        have hy : key y = key x := by simpa using List.find?_some hcase
        simp only [read, hcase, Option.map_some]
        rw [hall y (List.mem_of_find?_eq_some hcase) hy]
  have hl : l.map (some ∘ g) = l.map (read ∘ key) := by
    refine List.map_congr_left fun x hx => (hread x ?_ fun y hy hkey => ?_).symm
    · exact List.mem_map.mp (hkeys.mem_iff.mp (List.mem_map_of_mem hx))
    · exact (hg x hx y hy hkey.symm).symm
  have hl' : l'.map (some ∘ g) = l'.map (read ∘ key) := by
    refine List.map_congr_left fun x hx => (hread x ⟨x, hx, rfl⟩ fun y hy hkey => ?_).symm
    rw [eq_of_key hnodup hy hx hkey]
  apply (List.map_perm_map_iff (Option.some_injective β)).mp
  rw [List.map_map, List.map_map, hl, hl', ← List.map_map, ← List.map_map]
  exact hkeys.map read

/-- The element in the place of the one with its key, or at the end. -/
def put (key : α → κ) (x : α) (l : List α) : List α :=
  if l.any fun y => key y = key x then l.map fun y => if key y = key x then x else y
  else l ++ [x]

theorem mem_put : y ∈ put key x l ↔ y = x ∨ y ∈ l ∧ key y ≠ key x := by
  unfold put
  split
  · rename_i hany
    obtain ⟨z, hz, hkey⟩ := List.any_eq_true.mp hany
    rw [List.mem_map]
    constructor
    · rintro ⟨w, hw, rfl⟩
      split
      · exact Or.inl rfl
      · rename_i hne
        exact Or.inr ⟨hw, hne⟩
    · rintro (rfl | ⟨hy, hne⟩)
      · exact ⟨z, hz, if_pos (by simpa using hkey)⟩
      · exact ⟨y, hy, if_neg hne⟩
  · rename_i hany
    rw [List.mem_append, List.mem_singleton]
    constructor
    · rintro (hy | rfl)
      · refine Or.inr ⟨hy, fun hkey => hany ?_⟩
        exact List.any_eq_true.mpr ⟨y, hy, by simpa using hkey⟩
      · exact Or.inl rfl
    · rintro (rfl | ⟨hy, -⟩)
      · exact Or.inr rfl
      · exact Or.inl hy

theorem find_put : (put key x l).find? (fun y => key y = key x) = some x := by
  unfold put
  split
  · rename_i hany
    obtain ⟨y, hy, hkey⟩ := List.any_eq_true.mp hany
    have hsome : (l.find? fun y => key y = key x).isSome = true := by
      rw [List.find?_isSome]
      exact ⟨y, hy, hkey⟩
    have hcomp : ((fun y => decide (key y = key x)) ∘ fun y => if key y = key x then x else y) =
        fun y => decide (key y = key x) := by
      funext y
      by_cases h : key y = key x <;> simp [h]
    obtain ⟨z, hz⟩ := Option.isSome_iff_exists.mp hsome
    have hkeyz : key z = key x := by simpa using List.find?_some hz
    rw [List.find?_map, hcomp, hz, Option.map_some, if_pos hkeyz]
  · rename_i hany
    have hnone : (l.find? fun y => key y = key x) = none := by
      simpa using hany
    rw [List.find?_append, hnone]
    simp

theorem find_put_of_ne {k : κ} (h : k ≠ key x) :
    (put key x l).find? (fun y => key y = k) = l.find? fun y => key y = k := by
  unfold put
  split
  · have hcomp : ((fun y => decide (key y = k)) ∘ fun y => if key y = key x then x else y) =
        fun y => decide (key y = k) := by
      funext y
      by_cases hy : key y = key x
      · simp [hy, h.symm]
      · simp [hy]
    rw [List.find?_map, hcomp]
    cases hfind : l.find? fun y => key y = k with
    | none => rfl
    | some y =>
        have hkey : key y = k := by simpa using List.find?_some hfind
        rw [Option.map_some, if_neg (by rw [hkey]; exact h)]
  · rw [List.find?_append]
    simp [h.symm]

theorem nodup_put (hnodup : (l.map key).Nodup) : ((put key x l).map key).Nodup := by
  unfold put
  split
  · have hmap : (l.map fun y => if key y = key x then x else y).map key = l.map key := by
      rw [List.map_map]
      apply List.map_congr_left
      intro y _
      simp only [Function.comp_apply]
      split
      · rename_i hkey
        exact hkey.symm
      · rfl
    rw [hmap]
    exact hnodup
  · rename_i hany
    rw [List.map_append, List.nodup_append]
    refine ⟨hnodup, by simp, fun k hk k' hk' heq => hany ?_⟩
    obtain ⟨y, hy, rfl⟩ := List.mem_map.mp hk
    have hx : k' = key x := by simpa using hk'
    exact List.any_eq_true.mpr ⟨y, hy, by simp [heq, hx]⟩

/-! ## Sorting -/

/-- The comparison of two elements by their keys, as a C function has it. -/
def cmpKey [LT κ] [DecidableLT κ] (key : α → κ) (x y : α) : Int :=
  if key x < key y then -1 else if key y < key x then 1 else 0

/-- A stable sort by a comparison function. -/
def sortCmp (cmp : α → α → Int) (l : List α) : List α :=
  l.insertionSort fun x y => cmp x y ≤ 0

theorem sortCmp_perm (cmp : α → α → Int) (l : List α) : (sortCmp cmp l).Perm l :=
  List.perm_insertionSort _ l

/-- A map that does not change the comparison can be done before or after the sort. -/
theorem map_sortCmp (cmp : α → α → Int) (cmp' : β → β → Int) (f : α → β)
    (hcmp : ∀ x y, cmp' (f x) (f y) = cmp x y) (l : List α) :
    (sortCmp cmp l).map f = sortCmp cmp' (l.map f) :=
  List.map_insertionSort _ _ f l fun x _ y _ => by rw [hcmp]

theorem cmpKey_le [LinearOrder β] [DecidableLT β] {key : α → β} :
    cmpKey key x y ≤ 0 ↔ key x ≤ key y := by
  unfold cmpKey
  rcases lt_trichotomy (key x) (key y) with h | h | h
  · simp [h, h.le]
  · simp [h]
  · simp [h, not_lt_of_gt h, not_le_of_gt h]

theorem sortCmp_sorted [LinearOrder β] [DecidableLT β] (key : α → β) (l : List α) :
    (sortCmp (cmpKey key) l).Pairwise fun x y => key x ≤ key y := by
  have htotal : Std.Total fun x y : α => cmpKey key x y ≤ 0 :=
    ⟨fun x y => by simpa only [cmpKey_le] using le_total _ _⟩
  have htrans : IsTrans α fun x y => cmpKey key x y ≤ 0 :=
    ⟨fun x y z => by simpa only [cmpKey_le] using le_trans⟩
  have hsorted := List.pairwise_insertionSort (fun x y : α => cmpKey key x y ≤ 0) l
  exact hsorted.imp cmpKey_le.mp

theorem sortCmp_idem [LinearOrder β] [DecidableLT β] (key : α → β) (l : List α) :
    sortCmp (cmpKey key) (sortCmp (cmpKey key) l) = sortCmp (cmpKey key) l :=
  List.Pairwise.insertionSort_eq ((sortCmp_sorted key l).imp cmpKey_le.mpr)

/-- Two lists with the same elements are sorted to the same list when their keys differ. -/
theorem sortCmp_eq [LinearOrder β] [DecidableLT β] {key : α → β} (hperm : l.Perm l')
    (hnodup : (l.map key).Nodup) : sortCmp (cmpKey key) l = sortCmp (cmpKey key) l' := by
  refine List.Perm.eq_of_pairwise (fun x y hx hy hxy hyx => ?_) (sortCmp_sorted key l)
    (sortCmp_sorted key l') ((sortCmp_perm _ l).trans (hperm.trans (sortCmp_perm _ l').symm))
  have hx' := (sortCmp_perm _ l).mem_iff.mp hx
  have hy' := hperm.mem_iff.mpr ((sortCmp_perm _ l').mem_iff.mp hy)
  exact eq_of_key hnodup hx' hy' (le_antisymm hxy hyx)

/-! ## Keys that are indices -/

/-- Distinct numbers below their count are all the numbers below it. -/
theorem mem_of_lt_length {l : List Nat} (hnodup : l.Nodup) (hlt : ∀ x ∈ l, x < l.length)
    {i : Nat} (hi : i < l.length) : i ∈ l := by
  have hsub : l.toFinset ⊆ Finset.range l.length := by
    intro x hx
    rw [List.mem_toFinset] at hx
    exact Finset.mem_range.mpr (hlt x hx)
  have hcard : (Finset.range l.length).card ≤ l.toFinset.card := by
    rw [Finset.card_range, List.toFinset_card_of_nodup hnodup]
  have heq := Finset.eq_of_subset_of_card_le hsub hcard
  rw [← List.mem_toFinset, heq]
  exact Finset.mem_range.mpr hi

end Ovni.Lib
