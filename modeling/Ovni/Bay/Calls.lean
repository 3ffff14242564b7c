import Ovni.Bay.Walk
import Ovni.Lib.Except

/-!
# The calls of a propagation

What a propagation does step by step: the channels that each walk visits, the
callbacks it calls on each one, and the world at each call.  A propagation that
does not fail is taken apart in its three phases.
-/

namespace Ovni

open Ovni.Lib

/-! ## More operations on channels -/

section Ops

variable {χ κ : Type} [DecidableEq χ]

/-- `chan_dirty`. -/
def Bay.chanDirty (b : Bay χ κ) (c : χ) : Except EmuFault (Bay χ κ) :=
  -- Nothing to do, already dirty
  if (b.chan c).isDirty then .ok b else b.setDirty c

/-- What is done to a channel from outside the bay. -/
inductive BayOp (χ : Type) where
  | write (op : ChanOp χ)
  | dirty (c : χ)

/-- The operation in the bay. -/
def BayOp.run (op : BayOp χ) (b : Bay χ κ) : Except EmuFault (Bay χ κ) :=
  match op with
  | .write op => op.run b
  | .dirty c => b.chanDirty c

/-- The channel of an operation. -/
def BayOp.chan : BayOp χ → χ
  | .write op => op.chan
  | .dirty c => c

theorem BayOp.run_ok {op : BayOp χ} {b b' : Bay χ κ} (h : op.run b = .ok b') :
    b' = b ∨ ∃ chan, Chan.Like (b.chan op.chan) chan ∧ b' = b.touch op.chan chan := by
  cases op with
  | write op => exact op.run_ok h
  | dirty c =>
      unfold run Bay.chanDirty at h
      simp only at h
      split at h
      · exact Or.inl (Except.ok.inj h).symm
      · refine Or.inr ⟨b.chan c, Chan.Like.refl _, Bay.setDirty_put rfl ?_⟩
        have hput : b.put c (b.chan c) = b := by simp [Bay.put]
        show (b.put c (b.chan c)).setDirty c = .ok b'
        rw [hput]
        exact h

/-- The channels that can be registered: any history of a channel that is in no bay. -/
inductive Unregistered : Chan → Prop where
  | init (type : ChanType) : Unregistered (chanInit type)
  | prop {chan : Chan} (dirtyWrite allowDup ignoreDup : Bool) (h : Unregistered chan) :
      Unregistered { chan with dirtyWrite, allowDup, ignoreDup }
  | op {chan : Chan} {op : BayOp Unit} {b : Bay Unit Empty} (h : Unregistered chan)
      (hrun : op.run (Bay.init fun _ => chan) = .ok b) : Unregistered (b.chan ())
  | flush {chan : Chan} {b : Bay Unit Empty} (h : Unregistered chan)
      (hrun : (Bay.init fun _ => chan).chanFlush () = .ok b) : Unregistered (b.chan ())

/-- A clean channel was flushed with the value it has. -/
theorem Unregistered.lastValue {chan : Chan} (h : Unregistered chan)
    (hclean : chan.isDirty = false) : chan.lastValue = chanRead chan := by
  induction h with
  | init type => cases type <;> rfl
  | prop _ _ _ _ ih => exact ih hclean
  | op _ hrun ih =>
      rcases BayOp.run_ok hrun with rfl | ⟨chan', -, rfl⟩
      · exact ih hclean
      · rw [Bay.touch_chan_self] at hclean
        cases hclean
  | flush _ hrun _ =>
      unfold Bay.chanFlush at hrun
      split at hrun
      · cases hrun
      · rw [← Except.ok.inj hrun]
        simp only [Bay.put, Bay.read, Bay.init, Function.update_self]
        rfl

end Ops

/-! ## The calls -/

section Calls

variable {χ κ σ : Type} [DecidableEq κ]
  (call : κ → χ → World χ κ σ → Except EmuFault (World χ κ σ))

/-- The callbacks that `propagate_chan` calls from `cur` on, with the world at each
call. -/
def chanCalls (ty : BayCbType) (c : χ) : Nat → Option κ → World χ κ σ → List (κ × World χ κ σ)
  | fuel + 1, some k, w =>
      (k, w) :: match call k c w with
        | .ok w' => chanCalls ty c fuel (cbsAfter k (w'.bay.cb ty c)).head? w'
        | .error _ => []
  | _, _, _ => []

/-- The channels that the walk over the dirty list visits from position `i` on, with
the callbacks called on each. -/
def listCalls (ty : BayCbType) : Nat → Nat → World χ κ σ → List (χ × List (κ × World χ κ σ))
  | 0, _, _ => []
  | fuel + 1, i, w =>
      match w.bay.dirty[i]? with
      | none => []
      | some c =>
          (c, chanCalls call ty c fuel (w.bay.cb ty c).head? w) ::
            match propagateChan call ty c fuel (w.bay.cb ty c).head? w with
            | .ok w' => listCalls ty fuel (i + 1) w'
            | .error _ => []

variable {call} {ty : BayCbType} {c : χ}

/-- What each callback preserves holds whenever one is called. -/
theorem chanCalls_inv (P : List κ → World χ κ σ → Prop)
    (hnodup : ∀ R w, P R w → (w.bay.cb ty c).Nodup)
    (hstep : ∀ k w w', P (k :: cbsAfter k (w.bay.cb ty c)) w → call k c w = .ok w' →
      P (cbsAfter k (w'.bay.cb ty c)) w')
    {fuel : Nat} {cur : Option κ} {w : World χ κ σ} (h : P (cbsFrom cur (w.bay.cb ty c)) w) :
    ∀ kw ∈ chanCalls call ty c fuel cur w, P (kw.1 :: cbsAfter kw.1 (kw.2.bay.cb ty c)) kw.2 := by
  induction fuel generalizing cur w with
  | zero => simp [chanCalls]
  | succ fuel ih =>
      cases cur with
      | none => simp [chanCalls]
      | some k =>
          intro kw hkw
          rw [chanCalls, List.mem_cons] at hkw
          rcases hkw with rfl | hkw
          · exact h
          · cases hcall : call k c w with
            | error e => simp [hcall] at hkw
            | ok w1 =>
                rw [hcall] at hkw
                have hP := hstep k w w1 h hcall
                refine ih ?_ kw hkw
                rwa [cbsFrom_next (hnodup _ _ hP)]

/-- What each visit preserves holds whenever a channel is visited. -/
theorem listCalls_inv (P : Nat → World χ κ σ → Prop)
    (hstep : ∀ fuel i c w w', P i w → w.bay.dirty[i]? = some c →
      propagateChan call ty c fuel (w.bay.cb ty c).head? w = .ok w' → P (i + 1) w')
    {fuel i : Nat} {w : World χ κ σ} (h : P i w) :
    ∀ visit ∈ listCalls call ty fuel i w, ∃ j w0 fuel', P j w0 ∧
      w0.bay.dirty[j]? = some visit.1 ∧
      visit.2 = chanCalls call ty visit.1 fuel' (w0.bay.cb ty visit.1).head? w0 := by
  induction fuel generalizing i w with
  | zero => simp [listCalls]
  | succ fuel ih =>
      intro visit hvisit
      rw [listCalls] at hvisit
      cases hc : w.bay.dirty[i]? with
      | none => simp [hc] at hvisit
      | some c =>
          rw [hc] at hvisit
          simp only [List.mem_cons] at hvisit
          rcases hvisit with rfl | hvisit
          · exact ⟨i, w, fuel, h, hc, rfl⟩
          · cases hchan : propagateChan call ty c fuel (w.bay.cb ty c).head? w with
            | error e => simp [hchan] at hvisit
            | ok w1 =>
                rw [hchan] at hvisit
                exact ih (hstep fuel i c w w1 h hc hchan) visit hvisit

/-- The phases of a propagation. -/
theorem bayPropagate_ok [DecidableEq χ] {fuel : Nat} {w w' : World χ κ σ}
    (h : bayPropagate call fuel w = .ok w') :
    ∃ w1 w2, propagateList call .dirty fuel 0 (w.setState .propagating) = .ok w1 ∧
      propagateList call .emit fuel 0 (w1.setState .emitting) = .ok w2 ∧
      w' = { w2 with bay := { w2.bay with
        chan := fun c => if c ∈ w2.bay.dirty then Bay.flushed (w2.bay.chan c) else w2.bay.chan c
        dirty := []
        state := .ready } } := by
  unfold bayPropagate at h
  obtain ⟨w1, hdirty, h⟩ := bind_ok h
  obtain ⟨w2, hemit, h⟩ := bind_ok h
  obtain ⟨b, hflush, h⟩ := bind_ok h
  refine ⟨w1, w2, hdirty, hemit, ?_⟩
  rw [← Except.ok.inj h, Bay.flushAll_ok hflush]
  rfl

end Calls

end Ovni
