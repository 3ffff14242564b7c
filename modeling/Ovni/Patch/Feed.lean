import Ovni.Mux.Reading
import Ovni.Patch.Settle

/-!
# What the muxes write in a dirty phase

A mux writes its output when its select channel or the input that it has enabled is
visited, and at no other time.  So the output is dirty after the dirty phase if one of
these is, and only if some port of the mux is.
-/

namespace Ovni

open Ovni.Lib

variable {χ μ ς ρ φ : Type} [DecidableEq χ] [DecidableEq μ] [DecidableEq ς] [DecidableEq ρ]
  [DecidableEq φ] {p : Patch χ μ ς ρ φ} {parts : List (Part μ ς ρ)}
  {w w' : PatchWorld χ μ ς ρ φ} {m : μ} {c : χ} {i : Nat} {k : Cb μ (Hook ς ρ)}

/-! ## Visits -/

/-- What holds between two visits and is kept by each callback, given those of the
channel that are still to be called, holds after the dirty phase. -/
theorem PatchWired.visits (P : Nat → List (Cb μ (Hook ς ρ)) → PatchWorld χ μ ς ρ φ → Prop)
    (hstart : ∀ i c w, PatchWired p parts w → w.bay.DirtyOk → w.bay.dirty[i]? = some c →
      P i [] w → P (i + 1) (w.bay.cb .dirty c) w)
    (hcall : ∀ i c k w w', PatchWired p parts w → w.bay.DirtyOk → w.bay.dirty[i]? = some c →
      k ∈ w.bay.cb .dirty c → P (i + 1) (k :: cbsAfter k (w.bay.cb .dirty c)) w →
      p.net.call k c w = .ok w' → P (i + 1) (cbsAfter k (w'.bay.cb .dirty c)) w')
    (h : PatchWired p parts w) (hd : w.bay.DirtyOk) (hP : P 0 [] w) {fuel : Nat}
    (hrun : propagateList p.net.call .dirty fuel 0 w = .ok w') :
    ∃ n, w'.bay.dirty.length ≤ n ∧ P n [] w' := by
  let Q : PatchWorld χ μ ς ρ φ → Prop := fun w => PatchWired p parts w ∧ w.bay.DirtyOk
  have hvisit : ∀ (fuel i : Nat) c w w', Q w ∧ P i [] w → w.bay.dirty[i]? = some c →
      propagateChan p.net.call .dirty c fuel (w.bay.cb .dirty c).head? w = .ok w' →
      Q w' ∧ P (i + 1) [] w' := by
    rintro fuel i c w w' ⟨⟨hw, hd⟩, hP⟩ hc hchan
    have hend := propagateChan_inv (fun R w => (Q w ∧ P (i + 1) R w) ∧
      w.bay.dirty[i]? = some c ∧ ∀ k ∈ R, k ∈ w.bay.cb .dirty c)
      (fun R w h => h.1.1.1.wired.nodup .dirty c) ?_
      (by rw [cbsFrom_head]
          exact ⟨⟨⟨hw, hd⟩, hstart i c w hw hd hc hP⟩, hc, fun k hk => hk⟩) hchan
    · exact hend.1
    rintro k w1 w2 ⟨⟨⟨hw1, hd1⟩, hP1⟩, hc1, hleft⟩ hrun1
    have hk := hleft k List.mem_cons_self
    obtain ⟨hw2, hg2, -⟩ := hw1.call hd1 hk hrun1
    obtain ⟨l, hl, -⟩ := hg2.dirty
    refine ⟨⟨⟨hw2, hg2.dirtyOk⟩, hcall i c k w1 w2 hw1 hd1 hc1 hk hP1 hrun1⟩, ?_,
      fun x hx => mem_of_mem_cbsAfter hx⟩
    rw [hl, List.getElem?_append_left (List.getElem?_eq_some_iff.mp hc1).1]
    exact hc1
  obtain ⟨n, ⟨-, hn⟩, hend⟩ := propagateList_inv (fun i w => Q w ∧ P i [] w) hvisit
    ⟨⟨h, hd⟩, hP⟩ hrun
  exact ⟨n, List.getElem?_eq_none_iff.mp hend, hn⟩

/-! ## Callbacks of one mux and of the others -/

omit [DecidableEq μ] [DecidableEq ς] [DecidableEq ρ] [DecidableEq φ] in
theorem OutputSet.mem_dirty {mux : Mux χ} {v : Value} {b b' : Bay χ (Cb μ (Hook ς ρ))}
    (h : OutputSet mux v b b') (hd : b.DirtyOk) : mux.output ∈ b'.dirty := by
  rw [h.2.2, Bay.touch_dirty]
  split
  · rename_i hdirty
    exact (hd.mem_iff _).mpr hdirty
  · exact List.mem_append_right _ (List.mem_singleton.mpr rfl)

/-- The callback belongs to the mux. -/
def Cb.Of {ν : Type} (m : μ) : Cb μ ν → Prop
  | .select m' => m' = m
  | .input m' _ => m' = m
  | .other _ => False

/-- A callback of the mux writes its output. -/
theorem PatchWired.call_own (h : PatchWired p parts w) (hd : w.bay.DirtyOk)
    (hk : k ∈ w.bay.cb .dirty c) (hof : k.Of m) (hrun : p.net.call k c w = .ok w') :
    (p.mux m).HasPort c ∧ (p.mux m).output ∈ w'.bay.dirty := by
  cases k with
  | select m' =>
      obtain rfl : m' = m := hof
      obtain ⟨hm, -, rfl⟩ := (h.wired.select_mem m' .dirty c).mp hk
      obtain ⟨choice, -, -, -, -, -, hset⟩ := cbSelect_ok h.wired hm hrun
      exact ⟨Or.inl rfl, hset.mem_dirty hd⟩
  | input m' j =>
      obtain rfl : m' = m := hof
      obtain ⟨-, hin, hon⟩ := (h.wired.input_mem m' j .dirty c).mp hk
      obtain ⟨-, -, hset, -⟩ := cbInput_ok h.wired (h.wired.selected m' j hon).1 j hrun
      exact ⟨Or.inr ⟨j, hin⟩, hset.mem_dirty hd⟩
  | other k => exact hof.elim

/-- A callback that does not belong to the mux leaves it as it was, and those of the mux
that are still to be called. -/
theorem PatchWired.call_apart (h : PatchWired p parts w) (hd : w.bay.DirtyOk)
    (hk : k ∈ w.bay.cb .dirty c) (hof : ¬ k.Of m) (hrun : p.net.call k c w = .ok w') :
    (∀ j, w'.bay.enabled (.input m j) = w.bay.enabled (.input m j)) ∧
      ∀ x : Cb μ (Hook ς ρ), x.Of m → x ∉ cbsAfter k (w'.bay.cb .dirty c) →
        x ∉ k :: cbsAfter k (w.bay.cb .dirty c) := by
  have hne : ∀ x : Cb μ (Hook ς ρ), x.Of m → x ≠ k := by
    rintro x hx rfl
    exact hof hx
  cases k with
  | select m' =>
      obtain ⟨hm, -, rfl⟩ := (h.wired.select_mem m' .dirty c).mp hk
      obtain ⟨-, -, -, hstep, -⟩ := cbSelect_ok h.wired hm hrun
      have hmm : m ≠ m' := fun heq => hof heq.symm
      refine ⟨fun j => hstep.enabled m j hmm, fun x hx hout hmem => ?_⟩
      rcases List.mem_cons.mp hmem with rfl | hmem
      · exact hne _ hx rfl
      · refine hout (hstep.after .dirty _ x (fun j heq => ?_) hmem)
        subst heq
        exact hmm hx.symm
  | input m' j =>
      obtain ⟨-, -, hon⟩ := (h.wired.input_mem m' j .dirty c).mp hk
      obtain ⟨-, -, -, -, hen, hcb⟩ := cbInput_ok h.wired (h.wired.selected m' j hon).1 j hrun
      refine ⟨fun j => by rw [hen], fun x hx hout hmem => ?_⟩
      rcases List.mem_cons.mp hmem with rfl | hmem
      · exact hne _ hx rfl
      · exact hout (hcb ▸ hmem)
  | other k =>
      obtain ⟨-, hcb, hen, -⟩ := hook_ok hd hrun
      refine ⟨fun j => by rw [hen], fun x hx hout hmem => ?_⟩
      rcases List.mem_cons.mp hmem with rfl | hmem
      · exact hne _ hx rfl
      · exact hout (hcb ▸ hmem)

/-- No other part of the bay writes the output of the mux. -/
structure MuxAlone (p : Patch χ μ ς ρ φ) (parts : List (Part μ ς ρ)) (m : μ) : Prop where
  mem : m ∈ partMuxes parts
  mux : ∀ m' ∈ partMuxes parts, (p.mux m').output = (p.mux m).output → m' = m
  sort : ¬ p.sortOut (p.mux m).output

omit [DecidableEq χ] [DecidableEq μ] [DecidableEq ς] [DecidableEq ρ] [DecidableEq φ] in
theorem Bay.Grown.old {κ : Type} {src : χ → Prop} {b b' : Bay χ κ} (h : Bay.Grown src b b')
    (hc : ¬ src c) (hmem : c ∈ b'.dirty) : c ∈ b.dirty := by
  obtain ⟨l, hl, hsrc⟩ := h.dirty
  rw [hl, List.mem_append] at hmem
  exact hmem.resolve_right fun hmem => hc (hsrc c hmem)

/-- A callback that does not belong to the mux does not write its output. -/
theorem PatchWired.call_quiet (ha : MuxAlone p parts m) (h : PatchWired p parts w)
    (hd : w.bay.DirtyOk) (hk : k ∈ w.bay.cb .dirty c) (hof : ¬ k.Of m)
    (hrun : p.net.call k c w = .ok w') :
    w'.bay.read (p.mux m).output = w.bay.read (p.mux m).output ∧
      ((p.mux m).output ∈ w'.bay.dirty → (p.mux m).output ∈ w.bay.dirty) := by
  have hgrown : ∃ src : χ → Prop, Bay.Grown src w.bay w'.bay ∧ ¬ src (p.mux m).output := by
    cases k with
    | select m' =>
        obtain ⟨hm, -, rfl⟩ := (h.wired.select_mem m' .dirty c).mp hk
        obtain ⟨choice, -, -, hstep, -, -, hset⟩ := cbSelect_ok h.wired hm hrun
        exact ⟨_, hset.grown hd hstep.state, fun heq => hof (ha.mux m' hm heq.symm)⟩
    | input m' j =>
        obtain ⟨-, -, hon⟩ := (h.wired.input_mem m' j .dirty c).mp hk
        have hm := (h.wired.selected m' j hon).1
        obtain ⟨-, hstep, hset, -⟩ := cbInput_ok h.wired hm j hrun
        exact ⟨_, hset.grown hd hstep.state, fun heq => hof (ha.mux m' hm heq.symm)⟩
    | other k =>
        refine ⟨_, (hook_ok hd hrun).1, fun hout => ?_⟩
        cases k with
        | sort s index => exact ha.sort ⟨s, hout⟩
        | prv r => exact hout
  obtain ⟨src, hg, hsrc⟩ := hgrown
  exact ⟨hg.read_of_not_src hsrc, hg.old hsrc⟩

/-! ## The output is written -/

/-- The mux has written its output for the first `i` dirty channels, up to the callbacks
`R` of the last of them. -/
structure Fed (p : Patch χ μ ς ρ φ) (m : μ) (i : Nat) (R : List (Cb μ (Hook ς ρ)))
    (w : PatchWorld χ μ ς ρ φ) : Prop where
  select : (p.mux m).select ∈ w.bay.dirty.take i → .select m ∉ R →
    (p.mux m).output ∈ w.bay.dirty
  input : ∀ j c, w.bay.enabled (.input m j) = true → (p.mux m).input j = some c →
    c ∈ w.bay.dirty.take i → .input m j ∉ R → (p.mux m).output ∈ w.bay.dirty

theorem Fed.start (hm : m ∈ partMuxes parts) (hw : PatchWired p parts w)
    (hc : w.bay.dirty[i]? = some c) (h : Fed p m i [] w) :
    Fed p m (i + 1) (w.bay.cb .dirty c) w := by
  obtain ⟨hi, hget⟩ := List.getElem?_eq_some_iff.mp hc
  have htake : ∀ x, x ∈ w.bay.dirty.take (i + 1) → x ≠ c → x ∈ w.bay.dirty.take i := by
    intro x hx hne
    rw [List.take_succ_eq_append_getElem hi, hget, List.mem_append, List.mem_singleton] at hx
    exact hx.resolve_right hne
  refine ⟨fun hsel hcb => ?_, fun j x hon hin hx hcb => ?_⟩
  · refine h.select (htake _ hsel ?_) (by simp)
    rintro rfl
    exact hcb ((hw.wired.select_mem m .dirty _).mpr ⟨hm, rfl, rfl⟩)
  · refine h.input j x hon hin (htake _ hx ?_) (by simp)
    rintro rfl
    exact hcb ((hw.wired.input_mem m j .dirty _).mpr ⟨rfl, hin, hon⟩)

theorem Fed.call (hw : PatchWired p parts w) (hd : w.bay.DirtyOk)
    (hc : w.bay.dirty[i]? = some c) (hk : k ∈ w.bay.cb .dirty c)
    (h : Fed p m (i + 1) (k :: cbsAfter k (w.bay.cb .dirty c)) w)
    (hrun : p.net.call k c w = .ok w') :
    Fed p m (i + 1) (cbsAfter k (w'.bay.cb .dirty c)) w' := by
  by_cases hof : k.Of m
  · have hout := (hw.call_own hd hk hof hrun).2
    exact ⟨fun _ _ => hout, fun _ _ _ _ _ _ => hout⟩
  obtain ⟨hi, -⟩ := List.getElem?_eq_some_iff.mp hc
  obtain ⟨hen, hleft⟩ := hw.call_apart hd hk hof hrun
  obtain ⟨-, hg, -⟩ := hw.call hd hk hrun
  obtain ⟨l, hl, -⟩ := hg.dirty
  have htake : w'.bay.dirty.take (i + 1) = w.bay.dirty.take (i + 1) := by
    rw [hl, List.take_append_of_le_length hi]
  refine ⟨fun hsel hcb => ?_, fun j x hon hin hx hcb => ?_⟩
  · exact hg.mono (h.select (htake ▸ hsel) (hleft _ rfl hcb))
  · exact hg.mono (h.input j x (hen j ▸ hon) hin (htake ▸ hx) (hleft _ rfl hcb))

/-- A mux has written its output when its select channel was visited, and is not the channel
that is being visited. -/
theorem Fed.visited (hw : PatchWired p parts w) (hk : k ∈ w.bay.cb .dirty c)
    (h : Fed p m i (k :: cbsAfter k (w.bay.cb .dirty c)) w) (hne : (p.mux m).select ≠ c)
    (hsel : (p.mux m).select ∈ w.bay.dirty.take i) : (p.mux m).output ∈ w.bay.dirty := by
  apply h.select hsel
  intro hmem
  have hcb : .select m ∈ w.bay.cb .dirty c := by
    rcases List.mem_cons.mp hmem with rfl | hmem
    · exact hk
    · exact mem_of_mem_cbsAfter hmem
  exact hne ((hw.wired.select_mem m .dirty c).mp hcb).2.2.symm

/-- After the dirty phase the output is dirty if the select channel or the input that is
enabled is. -/
theorem PatchWired.fed (hm : m ∈ partMuxes parts) (h : PatchWired p parts w)
    (hd : w.bay.DirtyOk) {fuel : Nat}
    (hrun : propagateList p.net.call .dirty fuel 0 w = .ok w')
    (hdirty : (p.mux m).select ∈ w'.bay.dirty ∨ ∃ j c, w'.bay.enabled (.input m j) = true ∧
      (p.mux m).input j = some c ∧ c ∈ w'.bay.dirty) :
    (p.mux m).output ∈ w'.bay.dirty := by
  obtain ⟨n, hn, hfed⟩ := h.visits (fun i R w => Fed p m i R w)
    (fun i c w hw _ hc hfed => hfed.start hm hw hc)
    (fun i c k w w' hw hd hc hk hfed hrun => hfed.call hw hd hc hk hrun) hd
    ⟨fun hsel => by simp at hsel, fun _ _ _ _ hx => by simp at hx⟩ hrun
  have htake : w'.bay.dirty.take n = w'.bay.dirty := List.take_of_length_le hn
  rcases hdirty with hsel | ⟨j, c, hon, hin, hc⟩
  · exact hfed.select (htake.symm ▸ hsel) (by simp)
  · exact hfed.input j c hon hin (htake.symm ▸ hc) (by simp)

/-- The output of the mux is only dirty when one of its ports is. -/
def Caused (p : Patch χ μ ς ρ φ) (m : μ) (w : PatchWorld χ μ ς ρ φ) : Prop :=
  (p.mux m).output ∈ w.bay.dirty → ∃ x ∈ w.bay.dirty, (p.mux m).HasPort x

theorem Caused.call (ha : MuxAlone p parts m) (hw : PatchWired p parts w) (hd : w.bay.DirtyOk)
    (hc : c ∈ w.bay.dirty) (hk : k ∈ w.bay.cb .dirty c) (h : Caused p m w)
    (hrun : p.net.call k c w = .ok w') : Caused p m w' := by
  obtain ⟨-, hg, -⟩ := hw.call hd hk hrun
  intro hout
  by_cases hof : k.Of m
  · exact ⟨c, hg.mono hc, (hw.call_own hd hk hof hrun).1⟩
  · obtain ⟨x, hx, hport⟩ := h ((hw.call_quiet ha hd hk hof hrun).2 hout)
    exact ⟨x, hg.mono hx, hport⟩

/-! ## The end of a propagation -/

/-- The emit phase and the flush keep what a mux has chosen and copied. -/
theorem PatchReady.settled_end {w1 : PatchWorld χ μ ς ρ φ} {fuel : Nat}
    (h : PatchReady p parts w)
    (hdirty : propagateList p.net.call .dirty fuel 0 (w.setState .propagating) = .ok w1)
    (hrun : bayPropagate p.net.call fuel w = .ok w') :
    (∀ c, w'.bay.read c = w1.bay.read c) ∧ w'.bay.enabled = w1.bay.enabled ∧
      w'.choice m = w1.choice m := by
  obtain ⟨w1', w2, hdirty', hemit, hw1, hg, -, hsame, rfl⟩ := h.phases hrun
  obtain rfl : w1' = w1 := Except.ok.inj (hdirty'.symm.trans hdirty)
  have hsel : w2.mod.selected = w1'.mod.selected := by
    have hw : PatchWired p parts (w1'.setState .emitting) :=
      hw1.bay rfl rfl fun c => Chan.Like.refl _
    refine (hw.walk (fun w2 => w2.mod.selected = w1'.mod.selected) ?_
      ⟨hg.dirtyOk.nodup, hg.dirtyOk.mem_iff⟩ rfl hemit).2.2
    intro k c w3 w4 hw3 hd3 hP hk _ hcall
    cases k with
    | select m => exact absurd ((hw3.wired.select_mem m .emit c).mp hk).2.1 (by simp)
    | input m j => exact absurd ((hw3.wired.input_mem m j .emit c).mp hk).1 (by simp)
    | other k => rw [(hook_ok hd3 hcall).2.2.2, hP]
  refine ⟨fun c => ?_, ?_, ?_⟩
  · have hchan : w2.bay.chan c = w1'.bay.chan c := by
      rw [hsame]
      rfl
    unfold Bay.read
    rw [← hchan]
    simp only
    split
    · rfl
    · rfl
  · simp only [hsame]
    rfl
  · exact World.choice_congr (by rw [hsel])

end Ovni
