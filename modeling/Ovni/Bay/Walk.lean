import Mathlib.Data.List.Basic
import Ovni.Bay.Spec
import Ovni.Lib.Except

/-!
# Walks of the bay

Both loops of a propagation go over a list that may change meanwhile: the dirty
list grows, and callbacks come and go in the list of the channel whose callbacks
are being called.  The two rules here reduce them to one step each.
-/

namespace Ovni

section After

variable {κ : Type} [DecidableEq κ] {k k' x : κ} {l : List κ}

theorem cbsAfter_cons_self (k : κ) (l : List κ) : cbsAfter k (k :: l) = l := by
  simp [cbsAfter]

theorem cbsAfter_cons_of_ne (h : x ≠ k) (l : List κ) : cbsAfter k (x :: l) = cbsAfter k l := by
  simp [cbsAfter, h]

theorem mem_of_mem_cbsAfter (h : x ∈ cbsAfter k l) : x ∈ l :=
  (List.dropWhile_suffix _).subset (List.mem_of_mem_tail h)

/-- The walk goes on with the callbacks after the next one. -/
theorem cbsAfter_next (hnodup : l.Nodup) (h : (cbsAfter k l).head? = some k') :
    cbsAfter k l = k' :: cbsAfter k' l := by
  induction l with
  | nil => simp [cbsAfter] at h
  | cons y l ih =>
      obtain ⟨hy, hl⟩ := List.nodup_cons.mp hnodup
      by_cases hk : y = k
      · subst hk
        rw [cbsAfter_cons_self] at h ⊢
        cases l with
        | nil => simp at h
        | cons z l =>
            obtain rfl : z = k' := by simpa using h
            have hne : y ≠ z := by
              rintro rfl
              exact hy List.mem_cons_self
            rw [cbsAfter_cons_of_ne hne, cbsAfter_cons_self]
      · rw [cbsAfter_cons_of_ne hk] at h ⊢
        have hmem : k' ∈ l := mem_of_mem_cbsAfter (List.mem_of_mem_head? h)
        have hne : y ≠ k' := by
          rintro rfl
          exact hy hmem
        rw [ih hl h, cbsAfter_cons_of_ne hne]

theorem cbsAfter_head (h : l.head? = some k) : l = k :: cbsAfter k l := by
  cases l with
  | nil => simp at h
  | cons y l =>
      obtain rfl : y = k := by simpa using h
      rw [cbsAfter_cons_self]

/-- A callback added at the end is still to come. -/
theorem mem_cbsAfter_append (h : x ∈ cbsAfter k l) (y : κ) : x ∈ cbsAfter k (l ++ [y]) := by
  induction l with
  | nil => simp [cbsAfter] at h
  | cons z l ih =>
      by_cases hz : z = k
      · subst hz
        rw [cbsAfter_cons_self] at h
        rw [List.cons_append, cbsAfter_cons_self]
        exact List.mem_append_left _ h
      · rw [cbsAfter_cons_of_ne hz] at h
        rw [List.cons_append, cbsAfter_cons_of_ne hz]
        exact ih h

/-- Removing another callback does not skip any. -/
theorem mem_cbsAfter_erase (h : x ∈ cbsAfter k l) {y : κ} (hx : x ≠ y) (hk : k ≠ y) :
    x ∈ cbsAfter k (l.erase y) := by
  induction l with
  | nil => simp [cbsAfter] at h
  | cons z l ih =>
      by_cases hz : z = k
      · subst hz
        rw [cbsAfter_cons_self] at h
        rw [List.erase_cons_tail (by simpa using hk), cbsAfter_cons_self]
        exact (List.mem_erase_of_ne hx).mpr h
      · rw [cbsAfter_cons_of_ne hz] at h
        by_cases hzy : z = y
        · subst hzy
          rw [List.erase_cons_head]
          exact h
        · rw [List.erase_cons_tail (by simpa using hzy), cbsAfter_cons_of_ne hz]
          exact ih h

/-- Two callbacks are not after each other. -/
theorem cbsAfter_asymm {y : κ} (hnodup : l.Nodup)
    (hxy : x ∈ cbsAfter y l) (hyx : y ∈ cbsAfter x l) : False := by
  induction l with
  | nil => cases hxy
  | cons z l ih =>
      obtain ⟨hz, hl⟩ := List.nodup_cons.mp hnodup
      by_cases hzy : z = y
      · subst hzy
        by_cases hzx : z = x
        · subst hzx
          rw [cbsAfter_cons_self] at hxy
          exact hz hxy
        · rw [cbsAfter_cons_of_ne hzx] at hyx
          exact hz (mem_of_mem_cbsAfter hyx)
      · rw [cbsAfter_cons_of_ne hzy] at hxy
        by_cases hzx : z = x
        · subst hzx
          exact hz (mem_of_mem_cbsAfter hxy)
        · rw [cbsAfter_cons_of_ne hzx] at hyx
          exact ih hl hxy hyx

theorem not_mem_cbsAfter_self (hnodup : l.Nodup) : x ∉ cbsAfter x l :=
  fun h => cbsAfter_asymm hnodup h h

end After

/-! ## Callback lists -/

section Lists

variable {χ κ : Type} [DecidableEq χ] [DecidableEq κ] {b : Bay χ κ} {ty ty' : BayCbType}
  {c c' : χ} {k x : κ}

theorem nodup_disableCb (h : ∀ ty c, (b.cb ty c).Nodup) :
    ∀ ty' c', ((b.disableCb ty c k).cb ty' c').Nodup := by
  intro ty' c'
  unfold Bay.disableCb
  split
  · exact h ty' c'
  · simp only
    split
    · exact (h ty' c').erase k
    · exact h ty' c'

/-- Another callback is where it was. -/
theorem mem_disableCb_of_ne (hx : x ≠ k) :
    x ∈ (b.disableCb ty c k).cb ty' c' ↔ x ∈ b.cb ty' c' := by
  unfold Bay.disableCb
  split
  · rfl
  · simp only
    split
    · exact List.mem_erase_of_ne hx
    · rfl

theorem not_mem_disableCb (hnodup : ∀ ty c, (b.cb ty c).Nodup)
    (hown : ∀ ty' c', k ∈ b.cb ty' c' → b.enabled k = true ∧ ty' = ty ∧ c' = c) :
    k ∉ (b.disableCb ty c k).cb ty' c' := by
  unfold Bay.disableCb
  split
  · rename_i hoff
    intro hmem
    rw [(hown ty' c' hmem).1] at hoff
    cases hoff
  · simp only
    split
    · exact (hnodup ty' c').not_mem_erase
    · rename_i hother
      exact fun hmem => hother (hown ty' c' hmem).2

theorem enabled_disableCb (x : κ) :
    (b.disableCb ty c k).enabled x = if x = k then false else b.enabled x := by
  unfold Bay.disableCb
  split
  · split
    · rename_i hoff hx
      rw [hx, hoff]
    · rfl
  · simp only [Function.update_apply]

theorem nodup_enableCb (h : ∀ ty c, (b.cb ty c).Nodup) (hk : ∀ ty c, k ∈ b.cb ty c →
    b.enabled k = true) : ∀ ty' c', ((b.enableCb ty c k).cb ty' c').Nodup := by
  intro ty' c'
  unfold Bay.enableCb
  split
  · exact h ty' c'
  · rename_i hoff
    simp only
    split
    · rw [List.nodup_append]
      refine ⟨h ty' c', by simp, fun a ha y hy => ?_⟩
      rw [List.mem_singleton.mp hy]
      rintro rfl
      exact hoff (hk ty' c' ha)
    · exact h ty' c'

theorem mem_enableCb_of_ne (hx : x ≠ k) :
    x ∈ (b.enableCb ty c k).cb ty' c' ↔ x ∈ b.cb ty' c' := by
  unfold Bay.enableCb
  split
  · rfl
  · simp only
    split
    · simp [hx]
    · rfl

theorem mem_enableCb_self (hoff : b.enabled k = false) (hk : k ∉ b.cb ty' c') :
    k ∈ (b.enableCb ty c k).cb ty' c' ↔ ty' = ty ∧ c' = c := by
  unfold Bay.enableCb
  rw [if_neg (by simp [hoff])]
  simp only
  split
  · rename_i hthis
    simp [hthis]
  · rename_i hother
    simp [hother, hk]

theorem enabled_enableCb (x : κ) :
    (b.enableCb ty c k).enabled x = if x = k then true else b.enabled x := by
  unfold Bay.enableCb
  split
  · split
    · rename_i hon hx
      rw [hx, hon]
    · rfl
  · simp only [Function.update_apply]

@[simp] theorem chan_disableCb : (b.disableCb ty c k).chan = b.chan := by
  unfold Bay.disableCb
  split <;> rfl

@[simp] theorem dirty_disableCb : (b.disableCb ty c k).dirty = b.dirty := by
  unfold Bay.disableCb
  split <;> rfl

@[simp] theorem state_disableCb : (b.disableCb ty c k).state = b.state := by
  unfold Bay.disableCb
  split <;> rfl

@[simp] theorem chan_enableCb : (b.enableCb ty c k).chan = b.chan := by
  unfold Bay.enableCb
  split <;> rfl

@[simp] theorem dirty_enableCb : (b.enableCb ty c k).dirty = b.dirty := by
  unfold Bay.enableCb
  split <;> rfl

@[simp] theorem state_enableCb : (b.enableCb ty c k).state = b.state := by
  unfold Bay.enableCb
  split <;> rfl

/-- Disabling a callback does not skip another one in a walk. -/
theorem cbsAfter_disableCb {y : κ} (hx : x ≠ k) (hy : y ≠ k)
    (h : x ∈ cbsAfter y (b.cb ty' c')) : x ∈ cbsAfter y ((b.disableCb ty c k).cb ty' c') := by
  unfold Bay.disableCb
  split
  · exact h
  · simp only
    split
    · exact mem_cbsAfter_erase h hx hy
    · exact h

theorem cbsAfter_enableCb {y : κ} (h : x ∈ cbsAfter y (b.cb ty' c')) :
    x ∈ cbsAfter y ((b.enableCb ty c k).cb ty' c') := by
  unfold Bay.enableCb
  split
  · exact h
  · simp only
    split
    · exact mem_cbsAfter_append h k
    · exact h

end Lists

section Walk

variable {χ κ σ : Type} [DecidableEq κ]
  {call : κ → χ → World χ κ σ → Except EmuFault (World χ κ σ)}

/-- The callbacks still to be called when the walk stands at `cur`. -/
def cbsFrom (cur : Option κ) (cbs : List κ) : List κ :=
  match cur with
  | none => []
  | some k => k :: cbsAfter k cbs

theorem cbsFrom_head (l : List κ) : cbsFrom l.head? l = l := by
  cases hhead : l.head? with
  | none =>
      rw [List.head?_eq_none_iff] at hhead
      rw [hhead]
      rfl
  | some k => exact (cbsAfter_head hhead).symm

theorem cbsFrom_next {l : List κ} (hnodup : l.Nodup) (k : κ) :
    cbsFrom (cbsAfter k l).head? l = cbsAfter k l := by
  cases hhead : (cbsAfter k l).head? with
  | none =>
      rw [List.head?_eq_none_iff] at hhead
      rw [hhead]
      rfl
  | some k' => exact (cbsAfter_next hnodup hhead).symm

/-- What each callback preserves, given those still to be called, holds after all of
them. -/
theorem propagateChan_inv {ty : BayCbType} {c : χ} (P : List κ → World χ κ σ → Prop)
    (hnodup : ∀ R w, P R w → (w.bay.cb ty c).Nodup)
    (hstep : ∀ k w w', P (k :: cbsAfter k (w.bay.cb ty c)) w → call k c w = .ok w' →
      P (cbsAfter k (w'.bay.cb ty c)) w')
    {fuel : Nat} {cur : Option κ} {w w' : World χ κ σ} (h : P (cbsFrom cur (w.bay.cb ty c)) w)
    (hrun : propagateChan call ty c fuel cur w = .ok w') : P [] w' := by
  induction fuel generalizing cur w with
  | zero =>
      cases cur with
      | none =>
          rw [propagateChan] at hrun
          rw [← Except.ok.inj hrun]
          exact h
      | some k => cases hrun
  | succ fuel ih =>
      cases cur with
      | none =>
          rw [propagateChan] at hrun
          rw [← Except.ok.inj hrun]
          exact h
      | some k =>
          rw [propagateChan] at hrun
          obtain ⟨w1, hcall, hrun⟩ := Lib.bind_ok hrun
          have hP := hstep k w w1 h hcall
          refine ih ?_ hrun
          rwa [cbsFrom_next (hnodup _ _ hP)]

/-- What the visit of each dirty channel preserves holds when the list ends. -/
theorem propagateList_inv {ty : BayCbType} (P : Nat → World χ κ σ → Prop)
    (hstep : ∀ fuel i c w w', P i w → w.bay.dirty[i]? = some c →
      propagateChan call ty c fuel (w.bay.cb ty c).head? w = .ok w' → P (i + 1) w')
    {fuel i : Nat} {w w' : World χ κ σ} (h : P i w)
    (hrun : propagateList call ty fuel i w = .ok w') :
    ∃ j, P j w' ∧ w'.bay.dirty[j]? = none := by
  induction fuel generalizing i w with
  | zero => cases hrun
  | succ fuel ih =>
      rw [propagateList] at hrun
      cases hc : w.bay.dirty[i]? with
      | none =>
          rw [hc] at hrun
          rw [← Except.ok.inj hrun]
          exact ⟨i, h, hc⟩
      | some c =>
          rw [hc] at hrun
          obtain ⟨w1, hchan, hrun⟩ := Lib.bind_ok hrun
          exact ih (hstep fuel i c w w1 h hc hchan) hrun

end Walk

end Ovni
