import Mathlib
import Ovni.Lib.Accesses
import Ovni.Lib.Except
import Ovni.Patch.Replace

/-!
# Replacing a value in place

`sort_replace` of `emu/sort.c`, access by access: the indices are integers, and one that
is not in the array is a fault.  It does to the array what `sortReplace` says, without
leaving it.
-/

namespace Ovni

open Ovni.Lib

/-! ## The loops -/

/-- The loop that skips content until `old`. -/
def skipContent (old : Int) : Nat → Int → ArrayProg EmuFault Int Int
  | 0, _ => throw .rounds
  | fuel + 1, i => do
      if (← loadAt .crash i) < old then skipContent old fuel (i + 1)
      else return i

/-- The loop that copies the middle section. -/
def copyMiddle (n new : Int) : Nat → Int → ArrayProg EmuFault Int Int
  | 0, _ => throw .rounds
  | fuel + 1, i => do
      if i < n - 1 then
        if (← loadAt .crash (i + 1)) ≤ new then
          let x ← loadAt .crash (i + 1)
          storeAt .crash i x
          copyMiddle n new fuel (i + 1)
        else return i
      else return i

/-- The loop that shifts right. -/
def shiftContent (new : Int) : Nat → Int → ArrayProg EmuFault Int Int
  | 0, _ => throw .rounds
  | fuel + 1, i => do
      if 0 < i then
        if new < (← loadAt .crash (i - 1)) then
          let x ← loadAt .crash (i - 1)
          storeAt .crash i x
          shiftContent new fuel (i - 1)
        else return i
      else return i

/-- `sort_replace` on an array of `n` elements, with `n + 1` rounds for each loop. -/
def sortReplaceInPlace (n old new : Int) : ArrayProg EmuFault Int Unit := do
  if old = new then throw (.die "old == new")
  let fuel := n.toNat + 1
  if old < new then
    -- Quick jump to middle if less than old
    let m := n.tdiv 2
    let i := if (← loadAt .crash m) < old then m else 0
    -- Skip content until old, no need to copy
    let i ← skipContent old fuel i
    -- Copy middle section replacing old
    let i ← copyMiddle n new fuel i
    -- Place new
    storeAt .crash i new
  else
    -- Find old, must be found
    let i ← skipContent old fuel 0
    -- Shift right to replace old
    let i ← shiftContent new fuel i
    -- Place new
    storeAt .crash i new

section

variable {old new : Int} {fuel i j : Nat} {s : Accessed Int}
  {post : Except EmuFault Int → Accessed Int → Prop}

theorem ensures_skipContent (hskip : skipUntilOld old (s.arr.drop i) i = .ok j)
    (hfuel : s.arr.length < fuel + i) (hs : s.Inside)
    (hpost : ∀ s' : Accessed Int, s'.arr = s.arr → s'.Inside → post (.ok j) s') :
    Ensures (skipContent old fuel i) s post := by
  induction fuel generalizing i s with
  | zero =>
      rw [List.drop_eq_nil_of_le (by omega)] at hskip
      cases hskip
  | succ fuel ih =>
      by_cases hi : i < s.arr.length
      · rw [List.drop_eq_getElem_cons hi, skipUntilOld] at hskip
        simp only [skipContent, ensures_bind]
        apply ensures_loadAt hs hi
        intro s' harr hs'
        rw [next_ok, ensures_ite]
        constructor
        · intro hlt
          rw [if_pos hlt, ← harr] at hskip
          have hnext : (i : Int) + 1 = ((i + 1 : Nat) : Int) := by omega
          rw [hnext]
          apply ih hskip (by rw [harr]; omega) hs'
          intro s'' harr' hs''
          exact hpost s'' (harr'.trans harr) hs''
        · intro hlt
          rw [if_neg hlt] at hskip
          cases hskip
          exact hpost s' harr hs'
      · rw [List.drop_eq_nil_of_le (by omega)] at hskip
        cases hskip

theorem shiftLeft_bounds (new : Int) (i left : Nat) (arr : List Int) :
    (shiftLeft new left i arr).1 ≤ i + left ∧
      (shiftLeft new left i arr).2.length = arr.length := by
  induction left generalizing i arr with
  | zero => exact ⟨le_refl i, rfl⟩
  | succ left ih =>
      unfold shiftLeft
      cases arr[i + 1]? with
      | none => exact ⟨Nat.le_add_right i _, rfl⟩
      | some x =>
          by_cases hx : x ≤ new
          · obtain ⟨hle, hlen⟩ := ih (i + 1) (arr.set i x)
            simp only [hx, if_true]
            exact ⟨by omega, by rw [hlen, List.length_set]⟩
          · simp only [hx, if_false]
            exact ⟨Nat.le_add_right i _, trivial⟩

theorem ensures_copyMiddle {left : Nat} (hlen : i + left + 1 = s.arr.length)
    (hfuel : left < fuel) (hs : s.Inside)
    (hpost : ∀ s' : Accessed Int, s'.arr = (shiftLeft new left i s.arr).2 → s'.Inside →
      post (.ok (shiftLeft new left i s.arr).1) s') :
    Ensures (copyMiddle s.arr.length new fuel i) s post := by
  induction left generalizing fuel i s with
  | zero =>
      obtain ⟨fuel, rfl⟩ : ∃ k, fuel = k + 1 := ⟨fuel - 1, by omega⟩
      have hlast : ¬ (i : Int) < (s.arr.length : Int) - 1 := by omega
      simp only [copyMiddle, hlast, if_false, ensures_pure]
      exact hpost s rfl hs
  | succ left ih =>
      obtain ⟨fuel, rfl⟩ : ∃ k, fuel = k + 1 := ⟨fuel - 1, by omega⟩
      have hmore : (i : Int) < (s.arr.length : Int) - 1 := by omega
      have hnext : (i : Int) + 1 = ((i + 1 : Nat) : Int) := by omega
      have hi : i + 1 < s.arr.length := by omega
      simp only [copyMiddle, hmore, if_true, ensures_bind, hnext]
      apply ensures_loadAt hs hi
      intro s₁ h₁ hs₁
      rw [shiftLeft, List.getElem?_eq_getElem hi] at hpost
      rw [next_ok, ensures_ite]
      constructor
      · intro hle
        simp only [hle, if_true] at hpost
        rw [ensures_bind]
        have hi₁ : i + 1 < s₁.arr.length := by rw [h₁]; exact hi
        apply ensures_loadAt hs₁ hi₁
        intro s₂ h₂ hs₂
        rw [next_ok, ensures_bind]
        have hi₂ : i < s₂.arr.length := by rw [h₂, h₁]; omega
        apply ensures_storeAt hs₂ hi₂
        intro s₃ h₃ hs₃
        have harr : s₃.arr = s.arr.set i s.arr[i + 1] := by
          rw [h₃]
          simp only [h₂, h₁]
        have hlen₃ : s₃.arr.length = s.arr.length := by rw [harr, List.length_set]
        rw [next_ok, ← hlen₃]
        apply ih (by omega) (by omega) hs₃
        rw [harr]
        exact hpost
      · intro hle
        simp only [hle, if_false] at hpost
        exact hpost s₁ h₁ hs₁

theorem shiftRight_bounds (new : Int) (i : Nat) (arr : List Int) :
    (shiftRight new i arr).1 ≤ i ∧ (shiftRight new i arr).2.length = arr.length := by
  induction i generalizing arr with
  | zero => exact ⟨le_refl 0, rfl⟩
  | succ i ih =>
      unfold shiftRight
      cases arr[i]? with
      | none => exact ⟨le_refl _, rfl⟩
      | some x =>
          by_cases hx : new < x
          · obtain ⟨hle, hlen⟩ := ih (arr.set (i + 1) x)
            simp only [hx, if_true]
            exact ⟨by omega, by rw [hlen, List.length_set]⟩
          · simp only [hx, if_false]
            exact ⟨le_refl _, trivial⟩

theorem ensures_shiftContent (hi : i < s.arr.length) (hfuel : i < fuel) (hs : s.Inside)
    (hpost : ∀ s' : Accessed Int, s'.arr = (shiftRight new i s.arr).2 → s'.Inside →
      post (.ok (shiftRight new i s.arr).1) s') :
    Ensures (shiftContent new fuel i) s post := by
  induction i generalizing fuel s with
  | zero =>
      obtain ⟨fuel, rfl⟩ : ∃ k, fuel = k + 1 := ⟨fuel - 1, by omega⟩
      have hlast : ¬ (0 : Int) < ((0 : Nat) : Int) := by omega
      simp only [shiftContent, hlast, if_false, ensures_pure]
      exact hpost s rfl hs
  | succ i ih =>
      obtain ⟨fuel, rfl⟩ : ∃ k, fuel = k + 1 := ⟨fuel - 1, by omega⟩
      have hmore : (0 : Int) < ((i + 1 : Nat) : Int) := by omega
      have hprev : ((i + 1 : Nat) : Int) - 1 = (i : Int) := by omega
      have hlt : i < s.arr.length := by omega
      simp only [shiftContent, hmore, if_true, ensures_bind, hprev]
      apply ensures_loadAt hs hlt
      intro s₁ h₁ hs₁
      rw [shiftRight, List.getElem?_eq_getElem hlt] at hpost
      rw [next_ok, ensures_ite]
      constructor
      · intro hgt
        simp only [hgt, if_true] at hpost
        rw [ensures_bind]
        have hi₁ : i < s₁.arr.length := by rw [h₁]; exact hlt
        apply ensures_loadAt hs₁ hi₁
        intro s₂ h₂ hs₂
        rw [next_ok, ensures_bind]
        have hi₂ : i + 1 < s₂.arr.length := by rw [h₂, h₁]; exact hi
        apply ensures_storeAt hs₂ hi₂
        intro s₃ h₃ hs₃
        have harr : s₃.arr = s.arr.set (i + 1) s.arr[i] := by
          rw [h₃]
          simp only [h₂, h₁]
        have hlen₃ : s₃.arr.length = s.arr.length := by rw [harr, List.length_set]
        rw [next_ok]
        apply ih (by omega) (by omega) hs₃
        rw [harr]
        exact hpost
      · intro hgt
        simp only [hgt, if_false] at hpost
        exact hpost s₁ h₁ hs₁

end

/-! ## The result -/

theorem skipUntilOld_bounds {old : Int} {rest : List Int} {i j : Nat}
    (h : skipUntilOld old rest i = .ok j) : i ≤ j ∧ j < i + rest.length := by
  induction rest generalizing i with
  | nil => cases h
  | cons x rest ih =>
      rw [skipUntilOld] at h
      rw [List.length_cons]
      by_cases hx : x < old
      · rw [if_pos hx] at h
        have := ih h
        omega
      · rw [if_neg hx] at h
        cases h
        omega

/-- A larger value is put where the old one is found from the middle on. -/
theorem sortReplaceInPlace_up {arr arr' : List Int} {old new : Int} (hlt : old < new)
    (h : sortReplace arr old new = .ok arr') :
    Ensures (sortReplaceInPlace arr.length old new) ⟨arr, []⟩ fun r s =>
      r = .ok () ∧ s.arr = arr' ∧ s.Inside := by
  obtain ⟨hne, h⟩ := guard_ok h
  unfold sortReplaceInPlace
  simp only [hne, if_false, Int.toNat_natCast]
  simp only [hlt, if_true] at h ⊢
  have hlen : arr.length / 2 < arr.length := by
    by_contra hge
    rw [List.getElem?_eq_none (not_lt.mp hge)] at h
    cases h
  rw [List.getElem?_eq_getElem hlen] at h
  simp only at h
  rw [pure_bind] at h
  obtain ⟨i, hskip, h⟩ := bind_ok h
  cases h
  have hhalf : (arr.length : Int).tdiv 2 = ((arr.length / 2 : Nat) : Int) := by
    rw [Int.tdiv_eq_ediv_of_nonneg (Int.natCast_nonneg _)]
    rfl
  rw [hhalf, ensures_bind]
  apply ensures_loadAt (Accessed.inside_nil arr) hlen
  intro s₁ h₁ hs₁
  simp only at h₁
  have hcast : (if arr[arr.length / 2] < old then ((arr.length / 2 : Nat) : Int) else 0) =
      ((if arr[arr.length / 2] < old then arr.length / 2 else 0 : Nat) : Int) := by
    by_cases hx : arr[arr.length / 2] < old
    · simp only [hx, if_true]
    · simp only [hx, if_false]
      rfl
  have hi : i < arr.length := by
    have hbounds := skipUntilOld_bounds hskip
    rw [List.length_drop] at hbounds
    by_cases hx : arr[arr.length / 2] < old
    · simp only [hx, if_true] at hbounds
      omega
    · simp only [hx, if_false] at hbounds
      omega
  rw [next_ok, hcast, ensures_bind]
  apply ensures_skipContent (by rw [h₁]; exact hskip) (by rw [h₁]; omega) hs₁
  intro s₂ h₂ hs₂
  have harr₂ : s₂.arr = arr := h₂.trans h₁
  have hleft : i + (arr.length - 1 - i) + 1 = s₂.arr.length := by
    rw [harr₂]
    omega
  obtain ⟨hle, hlen₃⟩ := shiftLeft_bounds new i (arr.length - 1 - i) arr
  rw [next_ok, ensures_bind, ← congrArg List.length harr₂]
  apply ensures_copyMiddle hleft (by omega) hs₂
  rw [harr₂]
  intro s₃ h₃ hs₃
  rw [next_ok]
  apply ensures_storeAt hs₃
  · rw [h₃, hlen₃]
    omega
  · intro s₄ h₄ hs₄
    exact ⟨rfl, by rw [h₄, h₃], hs₄⟩

/-- A smaller value is put where the old one is found from the start on. -/
theorem sortReplaceInPlace_down {arr arr' : List Int} {old new : Int} (hlt : ¬ old < new)
    (h : sortReplace arr old new = .ok arr') :
    Ensures (sortReplaceInPlace arr.length old new) ⟨arr, []⟩ fun r s =>
      r = .ok () ∧ s.arr = arr' ∧ s.Inside := by
  obtain ⟨hne, h⟩ := guard_ok h
  unfold sortReplaceInPlace
  simp only [hne, if_false, Int.toNat_natCast]
  simp only [hlt, if_false] at h ⊢
  obtain ⟨i, hskip, h⟩ := bind_ok h
  cases h
  have hi : i < arr.length := by
    have hbounds := skipUntilOld_bounds hskip
    omega
  rw [ensures_bind]
  apply ensures_skipContent (i := 0) hskip (by simp only; omega) (Accessed.inside_nil arr)
  intro s₁ h₁ hs₁
  rw [next_ok, ensures_bind]
  simp only at h₁
  apply ensures_shiftContent (by rw [h₁]; exact hi) (by omega) hs₁
  intro s₂ h₂ hs₂
  rw [h₁] at h₂
  obtain ⟨hle, hlen₂⟩ := shiftRight_bounds new i arr
  rw [next_ok, h₁]
  apply ensures_storeAt hs₂
  · rw [h₂, hlen₂]
    omega
  · intro s₃ h₃ hs₃
    exact ⟨rfl, by rw [h₃, h₂], hs₃⟩

/-- What is done in place is what `sortReplace` does, and no access leaves the array. -/
theorem sortReplaceInPlace_refines {arr arr' : List Int} {old new : Int}
    (h : sortReplace arr old new = .ok arr') :
    Ensures (sortReplaceInPlace arr.length old new) ⟨arr, []⟩ fun r s =>
      r = .ok () ∧ s.arr = arr' ∧ s.Inside := by
  by_cases hlt : old < new
  · exact sortReplaceInPlace_up hlt h
  · exact sortReplaceInPlace_down hlt h

/-- `sort_replace` on a sorted array with the old value: it ends, no access leaves the array,
and the array is the sort of its values with one of the old ones replaced. -/
theorem sort_replace_sorts (arr : List Int) (old new : Int) (hsorted : arr.Pairwise (· ≤ ·))
    (hold : old ∈ arr) (hne : old ≠ new) :
    Ensures (sortReplaceInPlace arr.length old new) ⟨arr, []⟩ fun r s =>
      r = .ok () ∧ (∀ i ∈ s.log, 0 ≤ i ∧ i < arr.length) ∧
        s.arr = (new ::ₘ (arr : Multiset Int).erase old).sort := by
  obtain ⟨arr', hreplace, hsorted', hperm⟩ := sortReplace_spec hsorted hold hne
  have hsort : arr' = (new ::ₘ (arr : Multiset Int).erase old).sort := by
    rw [Multiset.coe_erase, Multiset.cons_coe]
    apply List.Perm.eq_of_pairwise' hsorted' (Multiset.pairwise_sort _ _)
    rw [Multiset.coe_sort]
    exact hperm.trans (List.mergeSort_perm _ _).symm
  have hlen : arr'.length = arr.length := by
    rw [hperm.length_eq, List.length_cons, List.length_erase_of_mem hold]
    have := List.length_pos_of_mem hold
    omega
  apply (sortReplaceInPlace_refines hreplace).mono
  intro r s h
  obtain ⟨hok, harr, hinside⟩ := h
  refine ⟨hok, ?_, by rw [harr, hsort]⟩
  rw [← hlen, ← harr]
  exact hinside

/-- In an array with repeated values the first of them is replaced. -/
theorem sort_replace_sorts_repeated :
    Ensures (sortReplaceInPlace 4 3 8) ⟨[1, 3, 3, 9], []⟩ fun r s =>
      r = .ok () ∧ (∀ i ∈ s.log, 0 ≤ i ∧ i < 4) ∧ s.arr = [1, 3, 8, 9] := by
  apply (sort_replace_sorts [1, 3, 3, 9] 3 8 (by decide) (by decide) (by decide)).mono
  intro r s h
  refine ⟨h.1, h.2.1, h.2.2.trans ?_⟩
  apply List.Perm.eq_of_pairwise' (Multiset.pairwise_sort _ _) (by decide)
  rw [← Multiset.coe_eq_coe, Multiset.sort_eq]
  decide

end Ovni
