import Ovni.Lib.Before
import Ovni.Patch.Feed

/-!
# Muxes with the same select channel

The callbacks of a select channel are called in the order in which the muxes were
connected, since only those of inputs are ever moved.
-/

namespace Ovni

open Ovni.Lib

variable {χ μ ς ρ φ : Type} [DecidableEq χ] [DecidableEq μ] [DecidableEq ς] [DecidableEq ρ]
  [DecidableEq φ] {p : Patch χ μ ς ρ φ} {parts : List (Part μ ς ρ)}
  {w w' : PatchWorld χ μ ς ρ φ} {m m' : μ} {c x : χ} {i : Nat} {k : Cb μ (Hook ς ρ)}

/-- On the channel the callback of mux `m` is called before that of `m'`. -/
def SelectBefore (m m' : μ) (c : χ) (w : PatchWorld χ μ ς ρ φ) : Prop :=
  Before (.select m) (.select m') (w.bay.cb .dirty c)

/-! ## Callbacks -/

omit [DecidableEq χ] in
theorem Moved.before {l l' : List (Cb μ (Hook ς ρ))} {m0 : μ} (h : Moved m0 l l')
    (hb : Before (.select m) (.select m') l) : Before (.select m) (.select m') l' := by
  obtain ⟨l1, hl1, hl'⟩ := h
  have h1 : Before (.select m) (.select m') l1 := by
    rcases hl1 with rfl | ⟨j, rfl⟩
    · exact hb
    · have herase := List.Sublist.erase (.input m0 j) hb
      rwa [List.erase_of_not_mem (by simp)] at herase
  rcases hl' with rfl | ⟨j, rfl⟩
  · exact h1
  · exact h1.append _

/-- The callbacks keep the order. -/
theorem SelectBefore.call (h : SelectBefore m m' x w) (hd : w.bay.DirtyOk)
    (hrun : p.net.call k c w = .ok w') : SelectBefore m m' x w' := by
  unfold SelectBefore at h ⊢
  cases k with
  | select m0 => exact (cbSelect_moved hrun .dirty x).before h
  | input m0 j =>
      rw [(cbInput_lists hrun).1]
      exact h
  | other k =>
      rw [(hook_ok hd hrun).2.1]
      exact h

/-- When a callback is called, the one before it is not left. -/
theorem Before.not_after {κ : Type} [DecidableEq κ] {l : List κ} {x y : κ} (hnodup : l.Nodup)
    (h : Before x y l) : x ∉ cbsAfter y l := by
  induction l with
  | nil => cases h
  | cons z l ih =>
      obtain ⟨hz, hl⟩ := List.nodup_cons.mp hnodup
      by_cases hzy : z = y
      · subst hzy
        exact absurd h (not_before_head hnodup)
      · rw [cbsAfter_cons_of_ne hzy]
        cases h with
        | cons _ h => exact ih hl h
        | cons_cons _ h => exact fun hmem => hz (mem_of_mem_cbsAfter hmem)

/-! ## Connecting -/

/-- Connecting a part adds at most one callback at the end of a list. -/
theorem connectPart_before {part : Part μ ς ρ} (h : SelectBefore m m' c w)
    (hrun : connectPart p w part = .ok w') : SelectBefore m m' c w' := by
  have henable : ∀ (b : Bay χ (Cb μ (Hook ς ρ))) ty x k, b.cb = w.bay.cb →
      Before (.select m) (.select m') ((b.enableCb ty x k).cb .dirty c) := by
    intro b ty x k hb
    unfold Bay.enableCb
    split
    · rw [hb]
      exact h
    · simp only
      split
      · rw [hb]
        exact Before.append h _
      · rw [hb]
        exact h
  unfold SelectBefore
  cases part with
  | mux m0 =>
      obtain ⟨-, -, rfl⟩ := muxInit_eq hrun
      exact henable _ _ _ _ rfl
  | sort s =>
      rw [connectPart] at hrun
      rw [← Except.ok.inj hrun, (sortInit_frame s).1]
      exact h
  | sortInput s index =>
      obtain ⟨x, -, -, rfl⟩ := sortSetInput_ok hrun
      exact henable _ _ _ _ rfl
  | prv r =>
      obtain ⟨id, -, -, -, rfl⟩ := prvRegister_ok hrun
      exact henable _ _ _ _ rfl

omit [DecidableEq μ] [DecidableEq ς] [DecidableEq ρ] [DecidableEq φ] in
theorem cb_enableCb_self {κ : Type} [DecidableEq κ] {b : Bay χ κ} {ty : BayCbType} {k : κ}
    (hoff : b.enabled k = false) : (b.enableCb ty c k).cb ty c = b.cb ty c ++ [k] := by
  unfold Bay.enableCb
  simp [hoff]

/-- Muxes are called in the order in which they were connected. -/
theorem SelectBefore.connect {chan : χ → Chan} (hsel : (p.mux m).select = c)
    (hsel' : (p.mux m').select = c) (horder : Before (.mux m) (.mux m') parts)
    (hclean : ∀ c, (chan c).isDirty = false) (honce : parts.Nodup)
    (hrun : connectParts p parts (patchInit chan) = .ok w) : SelectBefore m m' c w := by
  have hstep : ∀ (done : List (Part μ ς ρ)) part (w w' : PatchWorld χ μ ς ρ φ),
      PatchConnected p done w → Registered p done w.mod.other →
      (done.Nodup → Before (.mux m) (.mux m') done → SelectBefore m m' c w) →
      connectPart p w part = .ok w' → (done ++ [part]).Nodup →
      Before (.mux m) (.mux m') (done ++ [part]) → SelectBefore m m' c w' := by
    intro done part w w' hconn hreg hprev hpart hnodup hb
    obtain ⟨hdone, -, hapart⟩ := List.nodup_append.mp hnodup
    rcases hb.concat with hb | ⟨hm, rfl⟩
    · exact connectPart_before (hprev hdone hb) hpart
    -- The callback of the second mux goes to the end of the list
    have hnew : m' ∉ partMuxes done := fun hmem =>
      hapart _ (mem_partMuxes.mp hmem) _ (List.mem_singleton.mpr rfl) rfl
    have hoff := hconn.connected.select m' hnew
    have hmem : .select m ∈ w.bay.cb .dirty c :=
      (hconn.connected.wired.select_mem m .dirty c).mpr ⟨mem_partMuxes.mpr hm, rfl, hsel.symm⟩
    obtain ⟨-, -, rfl⟩ := muxInit_eq hpart
    have hc : (p.net.mux m').select = c := hsel'
    unfold SelectBefore World.setSelected
    simp only
    rw [hc, cb_enableCb_self (show (w.bay.put _ _).enabled (.select m') = false from hoff)]
    exact before_append hmem (List.mem_singleton.mpr rfl)
  obtain ⟨hinit, hreg⟩ := patchInit_connected (p := p) hclean
  obtain ⟨-, -, hall⟩ := connectParts_inv
    (fun done w => done.Nodup → Before (.mux m) (.mux m') done → SelectBefore m m' c w) hstep
    hinit hreg (fun _ hb => by cases hb.left) (by simpa using honce) hrun
  exact hall honce horder

/-- A propagation keeps the order. -/
theorem SelectBefore.propagate {fuel : Nat} (hready : PatchReady p parts w)
    (h : SelectBefore m m' c w) (hrun : bayPropagate p.net.call fuel w = .ok w') :
    SelectBefore m m' c w' := by
  obtain ⟨w1, w2, hdirty, -, -, -, -, hsame, rfl⟩ := hready.phases hrun
  have hw : PatchWired p parts (w.setState .propagating) :=
    hready.wired.bay rfl rfl fun c => Chan.Like.refl _
  have h1 : SelectBefore m m' c w1 := (hw.walk (SelectBefore m m' c)
    (fun k c w w' _ hd hP _ _ hcall => hP.call hd hcall)
    ⟨hready.dirtyOk.nodup, hready.dirtyOk.mem_iff⟩ h hdirty).2.2
  unfold SelectBefore at h1 ⊢
  simp only [hsame]
  exact h1

end Ovni
