import Ovni.Bay.Walk
import Ovni.Mux.Model

/-!
# The wiring of the muxes

The callback of the select channel of each connected mux is always in the list of
that channel, and of its inputs only the selected one may be in a list.  A callback
of a mux writes its output and moves the callbacks of its own inputs, so for the
other muxes nothing else changes.
-/

namespace Ovni

/-- The channel is the select channel or an input of the mux. -/
def Mux.HasPort {χ : Type} (mux : Mux χ) (c : χ) : Prop :=
  c = mux.select ∨ ∃ i, mux.input i = some c

variable {χ μ ν τ : Type} [DecidableEq χ]
  {net : Net χ μ ν τ} {ms : List μ} {w w' : MuxWorld χ μ ν τ} {m : μ}

/-- The callback lists agree with what each connected mux has selected. -/
structure Wired (net : Net χ μ ν τ) (ms : List μ) (w : MuxWorld χ μ ν τ) : Prop where
  nodup : ∀ ty c, (w.bay.cb ty c).Nodup
  select_mem : ∀ m ty c, .select m ∈ w.bay.cb ty c ↔
    m ∈ ms ∧ ty = .dirty ∧ c = (net.mux m).select
  input_mem : ∀ m i ty c, .input m i ∈ w.bay.cb ty c ↔
    ty = .dirty ∧ (net.mux m).input i = some c ∧ w.bay.enabled (.input m i) = true
  selected : ∀ m i, w.bay.enabled (.input m i) = true → m ∈ ms ∧ w.mod.selected m = i
  output : ∀ m ∈ ms, (w.bay.chan (net.mux m).output).allowDup = true

/-! ## Writing the output -/

/-- The channels are those of `b` with the output of the mux written. -/
def OutputSet (mux : Mux χ) (v : Value) (b b' : Bay χ (Cb μ ν)) : Prop :=
  (b.chan mux.output).type = .single ∧
    b'.chan = (b.touch mux.output { b.chan mux.output with value := v }).chan ∧
    b'.dirty = (b.touch mux.output { b.chan mux.output with value := v }).dirty

section Write

variable {v : Value}

/-- `chan_set` only changes the bay. -/
theorem World.chanSet_bay {c : χ} (h : w.chanSet c v = .ok w') :
    ∃ b, w.bay.chanSet c v = .ok b ∧ w' = { w with bay := b } := by
  obtain ⟨b, hb, h⟩ := Lib.bind_ok h
  exact ⟨b, hb, (Except.ok.inj h).symm⟩

/-- Writing the output of a connected mux always takes the value. -/
theorem chanSet_output (h : Wired net ms w) (hm : m ∈ ms)
    (hset : w.chanSet (net.mux m).output v = .ok w') :
    ∃ b', w' = { w with bay := b' } ∧ b'.cb = w.bay.cb ∧ b'.enabled = w.bay.enabled ∧
      b'.state = w.bay.state ∧ OutputSet (net.mux m) v w.bay b' := by
  obtain ⟨b', hb, rfl⟩ := World.chanSet_bay hset
  obtain ⟨htype, -, hres⟩ := Bay.chanSet_ok hb
  rcases hres with ⟨-, hdup, -⟩ | ⟨htouch, -⟩
  · rw [h.output m hm] at hdup
    cases hdup
  · refine ⟨b', rfl, ?_⟩
    rw [htouch]
    exact ⟨rfl, rfl, rfl, htype, rfl, rfl⟩

theorem OutputSet.read_output {mux : Mux χ} {b b' : Bay χ (Cb μ ν)} (h : OutputSet mux v b b') :
    b'.read mux.output = v := by
  unfold Bay.read
  rw [h.2.1, Bay.touch_chan_self]
  simp [chanRead, h.1]

theorem OutputSet.read_of_ne {mux : Mux χ} {b b' : Bay χ (Cb μ ν)} (h : OutputSet mux v b b')
    {c : χ} (hc : c ≠ mux.output) : b'.read c = b.read c := by
  unfold Bay.read
  rw [h.2.1, Bay.touch_chan_of_ne _ hc]

theorem OutputSet.dirtyOk {mux : Mux χ} {b b' : Bay χ (Cb μ ν)} (h : OutputSet mux v b b')
    (hd : b.DirtyOk) : b'.DirtyOk := by
  have := hd.touch (c := mux.output) { b.chan mux.output with value := v }
  exact ⟨h.2.2 ▸ this.nodup, h.2.2 ▸ h.2.1 ▸ this.mem_iff⟩

/-- The configuration of the outputs survives a write. -/
theorem OutputSet.allowDup {mux : Mux χ} {b b' : Bay χ (Cb μ ν)} (h : OutputSet mux v b b')
    (c : χ) : (b'.chan c).allowDup = (b.chan c).allowDup := by
  rw [h.2.1]
  by_cases hc : c = mux.output
  · subst hc
    rw [Bay.touch_chan_self]
  · rw [Bay.touch_chan_of_ne _ hc]

/-- A write of an output keeps the wiring. -/
theorem Wired.write {b' : Bay χ (Cb μ ν)} {mux : Mux χ} (h : Wired net ms w)
    (hcb : b'.cb = w.bay.cb) (henabled : b'.enabled = w.bay.enabled)
    (hwrote : OutputSet mux v w.bay b') : Wired net ms { w with bay := b' } := by
  refine ⟨?_, ?_, ?_, ?_, fun m hm => ?_⟩
  · simpa only [hcb] using h.nodup
  · simpa only [hcb] using h.select_mem
  · simpa only [hcb, henabled] using h.input_mem
  · simpa only [henabled] using h.selected
  · rw [← h.output m hm]
    exact hwrote.allowDup _

end Write

/-! ## cb_input -/

variable [DecidableEq μ] [DecidableEq ν]

/-- The effect of a callback `k` of mux `m` on everything else. -/
structure MuxStep (net : Net χ μ ν τ) (m : μ) (k : Cb μ ν) (w w' : MuxWorld χ μ ν τ) : Prop where
  selected : ∀ m', m' ≠ m → w'.mod.selected m' = w.mod.selected m'
  enabled : ∀ m' i, m' ≠ m → w'.bay.enabled (.input m' i) = w.bay.enabled (.input m' i)
  after : ∀ ty c x, (∀ i, x ≠ .input m i) → x ∈ cbsAfter k (w.bay.cb ty c) →
    x ∈ cbsAfter k (w'.bay.cb ty c)
  state : w'.bay.state = w.bay.state

/-- What the callback of an input does. -/
theorem cbInput_ok (h : Wired net ms w) (hm : m ∈ ms) {c : χ} (i : Nat)
    (hrun : cbInput net m c w = .ok w') :
    Wired net ms w' ∧ MuxStep net m (.input m i) w w' ∧
      OutputSet (net.mux m) (w.bay.read c) w.bay w'.bay ∧ w'.mod = w.mod ∧
      w'.bay.enabled = w.bay.enabled ∧ w'.bay.cb = w.bay.cb := by
  obtain ⟨b', rfl, hcb, henabled, hstate, hwrote⟩ := chanSet_output h hm hrun
  refine ⟨h.write hcb henabled hwrote, ⟨fun _ _ => rfl, ?_, ?_, hstate⟩, hwrote, rfl, henabled,
    hcb⟩
  · intro m' j _
    simp only [henabled]
  · intro ty c x _ hx
    simpa only [hcb] using hx

/-! ## cb_select -/

section Select

/-- The selected input is disabled and the mux is left without one. -/
theorem Wired.disable {i : Nat} {c : χ} (h : Wired net ms w) (hin : (net.mux m).input i = some c)
    (hoff : ∀ j, (w.bay.disableCb .dirty c (.input m i)).enabled (.input m j) = false) :
    Wired net ms (World.setSelected { w with bay := w.bay.disableCb .dirty c (.input m i) } m
      (-1)) := by
  constructor
  case nodup =>
    exact nodup_disableCb h.nodup
  case select_mem =>
    intro m' ty c'
    rw [← h.select_mem]
    exact mem_disableCb_of_ne (by simp)
  case input_mem =>
    intro m' j ty c'
    simp only [World.setSelected]
    by_cases hk : (Cb.input m' j : Cb μ ν) = .input m i
    · simp only [hk]
      rw [enabled_disableCb, if_pos rfl]
      simp only [Bool.false_eq_true, and_false, iff_false]
      apply not_mem_disableCb h.nodup
      intro ty c' hmem
      obtain ⟨rfl, hc', hon⟩ := (h.input_mem m i ty c').mp hmem
      exact ⟨hon, rfl, Option.some.inj (hc'.symm.trans hin)⟩
    · rw [mem_disableCb_of_ne hk, enabled_disableCb, if_neg hk]
      exact h.input_mem m' j ty c'
  case selected =>
    intro m' j hon
    simp only [World.setSelected] at hon ⊢
    by_cases hm' : m' = m
    · subst hm'
      rw [hoff j] at hon
      cases hon
    · rw [Function.update_of_ne hm']
      rw [enabled_disableCb, if_neg (by simp [hm'])] at hon
      exact h.selected m' j hon
  case output =>
    intro m' hm'
    simp only [World.setSelected, chan_disableCb]
    exact h.output m' hm'

theorem MuxStep.disable {i : Nat} {c : χ} :
    MuxStep net m (.select m) w
      (World.setSelected { w with bay := w.bay.disableCb .dirty c (.input m i) } m (-1)) := by
  constructor
  case selected =>
    intro m' hm'
    simp only [World.setSelected, Function.update_of_ne hm']
  case enabled =>
    intro m' j hm'
    simp only [World.setSelected]
    rw [enabled_disableCb, if_neg (by simp [hm'])]
  case after =>
    intro ty c' x hx hafter
    exact cbsAfter_disableCb (hx i) (by simp) hafter
  case state =>
    simp [World.setSelected]

omit [DecidableEq χ] in
theorem MuxStep.refl {k : Cb μ ν} : MuxStep net m k w w :=
  ⟨fun _ _ => rfl, fun _ _ _ => rfl, fun _ _ _ _ hx => hx, rfl⟩

/-- Clearing the selection disables the inputs of the mux. -/
theorem clearSelected_ok (h : Wired net ms w) (hrun : clearSelected net m w = .ok w') :
    Wired net ms w' ∧ MuxStep net m (.select m) w w' ∧ w'.mod.selected m < 0 ∧
      (∀ i, w'.bay.enabled (.input m i) = false) ∧ w'.bay.chan = w.bay.chan ∧
      w'.bay.dirty = w.bay.dirty := by
  unfold clearSelected at hrun
  by_cases hsel : 0 ≤ w.mod.selected m
  · rw [if_pos hsel] at hrun
    simp only at hrun
    set old := (w.mod.selected m).toNat with hold
    cases hin : (net.mux m).input old with
    | none =>
        rw [hin] at hrun
        cases hrun
    | some c =>
        rw [hin] at hrun
        rw [← Except.ok.inj hrun]
        have hoff : ∀ i, (w.bay.disableCb .dirty c (.input m old)).enabled (.input m i) =
            false := by
          intro i
          rw [enabled_disableCb]
          split
          · rfl
          · rename_i hne
            by_contra hon
            have := (h.selected m i (by simpa using hon)).2
            exact hne (by rw [hold, this]; rfl)
        refine ⟨h.disable hin hoff, .disable, ?_, hoff, ?_, ?_⟩
        · simp [World.setSelected]
        · simp [World.setSelected]
        · simp [World.setSelected]
  · rw [if_neg hsel] at hrun
    rw [← Except.ok.inj hrun]
    refine ⟨h, .refl, by omega, ?_, rfl, rfl⟩
    intro i
    by_contra hon
    have := (h.selected m i (by simpa using hon)).2
    omega

/-- The value that the output gets when this input, or none, is chosen. -/
def Mux.choose (mux : Mux χ) (read : χ → Value) (choice : Option Nat) : Value :=
  match choice with
  | none => mux.def_
  | some i =>
      match mux.input i with
      | none => .null
      | some c => read c

/-- An input of a mux that has none enabled is enabled and selected. -/
theorem Wired.enable {i : Nat} {c : χ} (h : Wired net ms w) (hm : m ∈ ms)
    (hin : (net.mux m).input i = some c) (hoff : ∀ j, w.bay.enabled (.input m j) = false) :
    Wired net ms (World.setSelected { w with bay := w.bay.enableCb .dirty c (.input m i) } m
      i) := by
  have hout : ∀ ty c', (.input m i : Cb μ ν) ∉ w.bay.cb ty c' := by
    intro ty c' hmem
    have := ((h.input_mem m i ty c').mp hmem).2.2
    rw [hoff i] at this
    cases this
  constructor
  case nodup =>
    exact nodup_enableCb h.nodup fun ty c' hmem => absurd hmem (hout ty c')
  case select_mem =>
    intro m' ty c'
    rw [← h.select_mem]
    exact mem_enableCb_of_ne (by simp)
  case input_mem =>
    intro m' j ty c'
    simp only [World.setSelected]
    by_cases hk : (Cb.input m' j : Cb μ ν) = .input m i
    · simp only [hk]
      rw [mem_enableCb_self (hoff i) (hout ty c'), enabled_enableCb, if_pos rfl]
      simp only [Cb.input.injEq] at hk
      rw [hk.1, hk.2, hin]
      simp [eq_comm]
    · rw [mem_enableCb_of_ne hk, enabled_enableCb, if_neg hk]
      exact h.input_mem m' j ty c'
  case selected =>
    intro m' j hon
    simp only [World.setSelected] at hon ⊢
    rw [enabled_enableCb] at hon
    by_cases hk : (Cb.input m' j : Cb μ ν) = .input m i
    · simp only [Cb.input.injEq] at hk
      rw [hk.1, hk.2]
      exact ⟨hm, Function.update_self ..⟩
    · rw [if_neg hk] at hon
      have hm' : m' ≠ m := by
        rintro rfl
        rw [hoff j] at hon
        cases hon
      rw [Function.update_of_ne hm']
      exact h.selected m' j hon
  case output =>
    intro m' hm'
    simp only [World.setSelected, chan_enableCb]
    exact h.output m' hm'

theorem MuxStep.enable {i : Nat} {c : χ} :
    MuxStep net m (.select m) w
      (World.setSelected { w with bay := w.bay.enableCb .dirty c (.input m i) } m i) := by
  constructor
  case selected =>
    intro m' hm'
    simp only [World.setSelected, Function.update_of_ne hm']
  case enabled =>
    intro m' j hm'
    simp only [World.setSelected]
    rw [enabled_enableCb, if_neg (by simp [hm'])]
  case after =>
    intro ty c' x _ hafter
    exact cbsAfter_enableCb hafter
  case state =>
    simp [World.setSelected]

/-- Enabling the chosen input of a mux that has none enabled. -/
theorem enableSelected_ok {choice : Option Nat} {v : Value} (h : Wired net ms w) (hm : m ∈ ms)
    (hneg : w.mod.selected m < 0) (hoff : ∀ i, w.bay.enabled (.input m i) = false)
    (hrun : enableSelected net m choice w = .ok (w', v)) :
    Wired net ms w' ∧ MuxStep net m (.select m) w w' ∧
      (∀ i, choice = some i → w'.mod.selected m = i ∧ w'.bay.enabled (.input m i) = true ∧
        ∃ c, (net.mux m).input i = some c) ∧
      (choice = none → w'.mod.selected m < 0) ∧
      v = (net.mux m).choose w.bay.read choice ∧ w'.bay.chan = w.bay.chan ∧
      w'.bay.dirty = w.bay.dirty := by
  unfold enableSelected at hrun
  cases choice with
  | none =>
      simp only [Except.ok.injEq, Prod.mk.injEq] at hrun
      obtain ⟨rfl, rfl⟩ := hrun
      exact ⟨h, .refl, by simp, fun _ => hneg, rfl, rfl, rfl⟩
  | some i =>
      simp only at hrun
      cases hin : (net.mux m).input i with
      | none =>
          rw [hin] at hrun
          cases hrun
      | some c =>
          rw [hin] at hrun
          simp only [Except.ok.injEq, Prod.mk.injEq] at hrun
          obtain ⟨rfl, rfl⟩ := hrun
          refine ⟨h.enable hm hin hoff, .enable, ?_, by simp, ?_, ?_, ?_⟩
          · intro j hj
            obtain rfl : i = j := by simpa using hj
            refine ⟨Function.update_self .., ?_, c, hin⟩
            simp only [World.setSelected]
            rw [enabled_enableCb, if_pos rfl]
          · simp only [Mux.choose, hin]
          · simp [World.setSelected]
          · simp [World.setSelected]

omit [DecidableEq χ] in
theorem MuxStep.trans {k : Cb μ ν} {w1 w2 w3 : MuxWorld χ μ ν τ} (h : MuxStep net m k w1 w2)
    (h' : MuxStep net m k w2 w3) : MuxStep net m k w1 w3 where
  selected m' hm' := (h'.selected m' hm').trans (h.selected m' hm')
  enabled m' i hm' := (h'.enabled m' i hm').trans (h.enabled m' i hm')
  after ty c x hx hafter := h'.after ty c x hx (h.after ty c x hx hafter)
  state := h'.state.trans h.state

/-- What the callback of the select channel does. -/
theorem cbSelect_ok (h : Wired net ms w) (hm : m ∈ ms) {c : χ}
    (hrun : cbSelect net m c w = .ok w') :
    ∃ choice, selectInput (net.mux m) w.bay.read (w.bay.read c) = .ok choice ∧
      Wired net ms w' ∧ MuxStep net m (.select m) w w' ∧
      (∀ i, choice = some i → w'.mod.selected m = i ∧ w'.bay.enabled (.input m i) = true ∧
        ∃ c, (net.mux m).input i = some c) ∧
      (choice = none → w'.mod.selected m < 0) ∧
      OutputSet (net.mux m) ((net.mux m).choose w.bay.read choice) w.bay w'.bay := by
  obtain ⟨w1, hclear, hrun⟩ := Lib.bind_ok hrun
  obtain ⟨choice, hsel, hrun⟩ := Lib.bind_ok hrun
  obtain ⟨⟨w2, v⟩, hen, hrun⟩ := Lib.bind_ok hrun
  obtain ⟨hw1, hstep1, hneg, hoff, hchan1, hdirty1⟩ := clearSelected_ok h hclear
  have hread1 : w1.bay.read = w.bay.read := by
    unfold Bay.read
    rw [hchan1]
  obtain ⟨hw2, hstep2, hsome, hnone, hv, hchan2, hdirty2⟩ :=
    enableSelected_ok hw1 hm hneg hoff hen
  obtain ⟨b', rfl, hcb, henabled, hstate, htype, hchan, hdirty⟩ := chanSet_output hw2 hm hrun
  have hset : OutputSet (net.mux m) v w.bay b' := by
    refine ⟨?_, ?_, ?_⟩
    · rw [← hchan1, ← hchan2]
      exact htype
    · rw [hchan]
      simp only [Bay.touch, Bay.put, hchan2, hchan1]
    · rw [hdirty]
      simp only [Bay.touch, hchan2, hchan1, hdirty2, hdirty1]
  rw [hread1] at hsel hv
  refine ⟨choice, hsel, hw2.write hcb henabled ⟨htype, hchan, hdirty⟩, ?_, ?_, hnone, ?_⟩
  · refine (hstep1.trans hstep2).trans ⟨fun _ _ => rfl, ?_, ?_, hstate⟩
    · intro m' i _
      simp only [henabled]
    · intro ty c' x _ hx
      simpa only [hcb] using hx
  · simpa only [henabled] using hsome
  · rw [← hv]
    exact hset

end Select

end Ovni
