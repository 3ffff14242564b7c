import Ovni.Lib.Except
import Ovni.Mux.Wiring

/-!
# How the callback lists change

A callback of a mux takes at most one callback of its own inputs out of the lists
and adds at most one at the end of a list.  The callback of its select channel is
in front of those of its inputs from the start, so in the walk over the callbacks
of one channel none is called twice.
-/

namespace Ovni

open Ovni.Lib

section Lists

variable {μ ν : Type} [DecidableEq μ] [DecidableEq ν] {m : μ} {l l' : List (Cb μ ν)}
  {k x : Cb μ ν}

/-- A list before and after a callback of mux `m`. -/
def Moved (m : μ) (l l' : List (Cb μ ν)) : Prop :=
  ∃ l1, (l1 = l ∨ ∃ j, l1 = l.erase (.input m j)) ∧ (l' = l1 ∨ ∃ i, l' = l1 ++ [.input m i])

theorem Moved.refl (m : μ) (l : List (Cb μ ν)) : Moved m l l := ⟨l, Or.inl rfl, Or.inl rfl⟩

theorem Moved.mem_iff (h : Moved m l l') (hx : ∀ j, x ≠ .input m j) : x ∈ l' ↔ x ∈ l := by
  obtain ⟨l1, hl1, hl'⟩ := h
  have h1 : x ∈ l1 ↔ x ∈ l := by
    rcases hl1 with rfl | ⟨j, rfl⟩
    · rfl
    · exact List.mem_erase_of_ne (hx j)
  rw [← h1]
  rcases hl' with rfl | ⟨i, rfl⟩
  · rfl
  · simp [hx i]

theorem Moved.mem (h : Moved m l l') (hx : x ∈ l') : x ∈ l ∨ ∃ j, x = .input m j := by
  by_cases hin : ∃ j, x = .input m j
  · exact Or.inr hin
  · exact Or.inl ((h.mem_iff fun j hj => hin ⟨j, hj⟩).mp hx)

theorem mem_cbsAfter_of_append {y : Cb μ ν} (h : x ∈ cbsAfter k (l ++ [y])) :
    x ∈ cbsAfter k l ∨ x = y := by
  induction l with
  | nil =>
      have := mem_of_mem_cbsAfter h
      exact Or.inr (by simpa using this)
  | cons z l ih =>
      by_cases hz : z = k
      · subst hz
        rw [List.cons_append, cbsAfter_cons_self, List.mem_append, List.mem_singleton] at h
        rw [cbsAfter_cons_self]
        exact h
      · rw [List.cons_append, cbsAfter_cons_of_ne hz] at h
        rw [cbsAfter_cons_of_ne hz]
        exact ih h

theorem mem_cbsAfter_of_erase {y : Cb μ ν} (hk : k ≠ y) (h : x ∈ cbsAfter k (l.erase y)) :
    x ∈ cbsAfter k l := by
  induction l with
  | nil => exact h
  | cons z l ih =>
      by_cases hz : z = k
      · subst hz
        rw [List.erase_cons_tail (by simpa using hk), cbsAfter_cons_self] at h
        rw [cbsAfter_cons_self]
        exact List.mem_of_mem_erase h
      · rw [cbsAfter_cons_of_ne hz]
        by_cases hzy : z = y
        · subst hzy
          rw [List.erase_cons_head] at h
          exact h
        · rw [List.erase_cons_tail (by simpa using hzy), cbsAfter_cons_of_ne hz] at h
          exact ih h

/-- What is left to call afterwards was left before or is an input of the mux. -/
theorem Moved.after (h : Moved m l l') (hk : ∀ j, k ≠ .input m j) (hx : x ∈ cbsAfter k l') :
    x ∈ cbsAfter k l ∨ ∃ j, x = .input m j := by
  obtain ⟨l1, hl1, hl'⟩ := h
  have h1 : x ∈ cbsAfter k l1 ∨ ∃ j, x = .input m j := by
    rcases hl' with rfl | ⟨i, rfl⟩
    · exact Or.inl hx
    · exact (mem_cbsAfter_of_append hx).imp_right fun he => ⟨i, he⟩
  apply h1.imp_left
  intro hx
  rcases hl1 with rfl | ⟨j, rfl⟩
  · exact hx
  · exact mem_cbsAfter_of_erase (hk j) hx

theorem mem_cbsAfter_last (hk : k ∈ l) (y : Cb μ ν) : y ∈ cbsAfter k (l ++ [y]) := by
  induction l with
  | nil => cases hk
  | cons z l ih =>
      by_cases hz : z = k
      · subst hz
        rw [List.cons_append, cbsAfter_cons_self]
        simp
      · rw [List.cons_append, cbsAfter_cons_of_ne hz]
        exact ih ((List.mem_cons.mp hk).resolve_left fun h => hz h.symm)

/-- The callback of the select channel comes before those of the inputs. -/
def SelectFirst (l : List (Cb μ ν)) : Prop :=
  ∀ m j, .select m ∈ l → .input m j ∈ l → .input m j ∈ cbsAfter (.select m) l

theorem SelectFirst.moved (hfirst : SelectFirst l) (hnodup : l.Nodup) (h : Moved m l l') :
    SelectFirst l' := by
  obtain ⟨l1, hl1, hl'⟩ := h
  have h1 : SelectFirst l1 := by
    rcases hl1 with rfl | ⟨j0, rfl⟩
    · exact hfirst
    · intro m' j hsel hin
      have hne : (.input m' j : Cb μ ν) ≠ .input m j0 := by
        intro heq
        rw [heq] at hin
        exact hnodup.not_mem_erase hin
      exact mem_cbsAfter_erase (hfirst m' j (List.mem_of_mem_erase hsel)
        (List.mem_of_mem_erase hin)) hne (by simp)
  rcases hl' with rfl | ⟨i, rfl⟩
  · exact h1
  · intro m' j hsel hin
    have hsel1 : .select m' ∈ l1 := by simpa using hsel
    rcases List.mem_append.mp hin with hin | hin
    · exact mem_cbsAfter_append (h1 m' j hsel1 hin) _
    · rw [List.mem_singleton.mp hin]
      exact mem_cbsAfter_last hsel1 _

end Lists

/-! ## The callbacks of a mux -/

section Mux

variable {χ μ ν τ : Type} [DecidableEq χ] [DecidableEq μ] [DecidableEq ν]
  {net : Net χ μ ν τ} {w w' : MuxWorld χ μ ν τ} {m : μ}

theorem clearSelected_lists (h : clearSelected net m w = .ok w') (ty : BayCbType) (c : χ) :
    w'.bay.cb ty c = w.bay.cb ty c ∨ ∃ j, w'.bay.cb ty c = (w.bay.cb ty c).erase (.input m j) := by
  unfold clearSelected at h
  split at h
  · simp only at h
    split at h
    · cases h
    · rw [← Except.ok.inj h]
      simp only [World.setSelected, Bay.disableCb]
      split
      · exact Or.inl rfl
      · simp only
        split
        · exact Or.inr ⟨_, rfl⟩
        · exact Or.inl rfl
  · rw [← Except.ok.inj h]
    exact Or.inl rfl

theorem enableSelected_lists {choice : Option Nat} {v : Value}
    (h : enableSelected net m choice w = .ok (w', v)) (ty : BayCbType) (c : χ) :
    w'.bay.cb ty c = w.bay.cb ty c ∨ ∃ i, w'.bay.cb ty c = w.bay.cb ty c ++ [.input m i] := by
  unfold enableSelected at h
  split at h
  · simp only [Except.ok.injEq, Prod.mk.injEq] at h
    rw [← h.1]
    exact Or.inl rfl
  · split at h
    · cases h
    · simp only [Except.ok.injEq, Prod.mk.injEq] at h
      rw [← h.1]
      simp only [World.setSelected, Bay.enableCb]
      split
      · exact Or.inl rfl
      · simp only
        split
        · exact Or.inr ⟨_, rfl⟩
        · exact Or.inl rfl

omit [DecidableEq μ] [DecidableEq ν] in
theorem World.chanSet_cbs {c : χ} {v : Value} (h : w.chanSet c v = .ok w') :
    w'.bay.cb = w.bay.cb ∧ w'.bay.enabled = w.bay.enabled := by
  obtain ⟨b, hb, rfl⟩ := World.chanSet_bay h
  obtain ⟨-, -, hres⟩ := Bay.chanSet_ok hb
  rcases hres with ⟨rfl, -⟩ | ⟨rfl, -⟩
  · exact ⟨rfl, rfl⟩
  · exact ⟨rfl, rfl⟩

/-! ## Faults of the operations -/

omit [DecidableEq μ] [DecidableEq ν] in
theorem Bay.setDirty_ne_error {κ : Type} {b : Bay χ κ} {c : χ} {e : EmuFault}
    (he : ∀ msg, .fail msg ≠ e) : b.setDirty c ≠ .error e := by
  unfold setDirty cbChanIsDirty
  split
  · split <;> simp [he]
  · split <;> simp [he]

omit [DecidableEq μ] [DecidableEq ν] in
/-- `chan_set` only fails with a message. -/
theorem Bay.chanSet_ne_error {κ : Type} {b : Bay χ κ} {c : χ} {v : Value} {e : EmuFault}
    (he : ∀ msg, .fail msg ≠ e) : b.chanSet c v ≠ .error e := by
  unfold chanSet
  refine guard_ne_error (he _) (guard_ne_error (he _) (bind_ne_error ?_ fun go _ => ?_))
  · unfold checkDup
    split
    · split <;> simp [he]
    · simp
  · cases go with
    | true => exact setDirty_ne_error he
    | false => simp [pure, Except.pure]

omit [DecidableEq μ] [DecidableEq ν] in
theorem World.chanSet_ne_error {c : χ} {v : Value} {e : EmuFault} (he : ∀ msg, .fail msg ≠ e) :
    w.chanSet c v ≠ .error e := by
  unfold World.chanSet
  exact bind_ne_error (Bay.chanSet_ne_error he) fun b _ => by simp [pure, Except.pure]

omit [DecidableEq χ] in
theorem selectInput_ne_error {mux : Mux χ} {read : χ → Value} {key : Value} {e : EmuFault}
    (he : ∀ msg, .fail msg ≠ e) : selectInput mux read key ≠ .error e := by
  unfold selectInput
  split
  · cases defaultSelect mux.inputs.length read key <;> simp [Except.mapError, he]
  · rename_i f _
    cases f mux.inputs.length read key <;> simp [Except.mapError, he]

/-- The callback of the select channel moves callbacks of its inputs. -/
theorem cbSelect_moved {c : χ} (h : cbSelect net m c w = .ok w') (ty : BayCbType) (x : χ) :
    Moved m (w.bay.cb ty x) (w'.bay.cb ty x) := by
  unfold cbSelect at h
  obtain ⟨w1, hclear, h⟩ := bind_ok h
  obtain ⟨choice, -, h⟩ := bind_ok h
  obtain ⟨⟨w2, v⟩, hen, h⟩ := bind_ok h
  refine ⟨w1.bay.cb ty x, clearSelected_lists hclear ty x, ?_⟩
  rw [(World.chanSet_cbs h).1]
  exact enableSelected_lists hen ty x

omit [DecidableEq μ] [DecidableEq ν] in
/-- No callback of a mux touches those of other modules or of select channels. -/
theorem cbInput_lists {c : χ} (h : cbInput net m c w = .ok w') :
    w'.bay.cb = w.bay.cb ∧ w'.bay.enabled = w.bay.enabled :=
  World.chanSet_cbs h

omit [DecidableEq μ] [DecidableEq ν] in
theorem World.chanSet_mod {c : χ} {v : Value} (h : w.chanSet c v = .ok w') : w'.mod = w.mod := by
  obtain ⟨b, -, rfl⟩ := World.chanSet_bay h
  rfl

/-- No callback of a mux touches the state of other modules. -/
theorem cbSelect_other {c : χ} (h : cbSelect net m c w = .ok w') :
    w'.mod.other = w.mod.other := by
  unfold cbSelect at h
  obtain ⟨w1, hclear, h⟩ := bind_ok h
  obtain ⟨choice, -, h⟩ := bind_ok h
  obtain ⟨⟨w2, v⟩, hen, h⟩ := bind_ok h
  have h1 : w1.mod.other = w.mod.other := by
    unfold clearSelected at hclear
    split at hclear
    · simp only at hclear
      split at hclear
      · cases hclear
      · rw [← Except.ok.inj hclear]
        rfl
    · rw [← Except.ok.inj hclear]
  have h2 : w2.mod.other = w1.mod.other := by
    unfold enableSelected at hen
    split at hen
    · simp only [Except.ok.injEq, Prod.mk.injEq] at hen
      rw [← hen.1]
    · split at hen
      · cases hen
      · simp only [Except.ok.injEq, Prod.mk.injEq] at hen
        rw [← hen.1]
        rfl
  rw [World.chanSet_mod h, h2, h1]

end Mux

end Ovni
