import Ovni.Patch.Run

/-!
# Muxes at rest in a bay with other modules

Sort modules and traces do not disturb the muxes, so those whose select channel was
ever dirty are settled between propagations.  The others were never called: none of
their inputs is enabled and their output is as it was registered.
-/

namespace Ovni

open Ovni.Lib

variable {χ μ ς ρ φ : Type} {p : Patch χ μ ς ρ φ} {parts : List (Part μ ς ρ)}
  {w w' : PatchWorld χ μ ς ρ φ} {m : μ} {c : χ}

/-! ## The other modules -/

/-- The outputs of sort modules. -/
def Patch.sortOut (p : Patch χ μ ς ρ φ) (c : χ) : Prop := ∃ s, c ∈ (p.sort s).outputs

section Other

variable [DecidableEq χ]

/-- What the loop over the outputs of a sort module leaves alone. -/
structure OutputsStep {κ : Type} (outs : χ → Prop) (b b' : Bay χ κ) : Prop where
  cb : b'.cb = b.cb
  enabled : b'.enabled = b.enabled
  state : b'.state = b.state
  chan : ∀ c, ¬ outs c → b'.chan c = b.chan c
  dirty : ∃ l, b'.dirty = b.dirty ++ l ∧ ∀ c ∈ l, outs c
  dirtyOk : b.DirtyOk → b'.DirtyOk

theorem OutputsStep.chanSet {κ : Type} {outs : χ → Prop} {b b' : Bay χ κ} {v : Value}
    (hc : outs c) (h : b.chanSet c v = .ok b') : OutputsStep outs b b' := by
  obtain ⟨-, -, ⟨rfl, -⟩ | ⟨rfl, -⟩⟩ := Bay.chanSet_ok h
  · exact ⟨rfl, rfl, rfl, fun _ _ => rfl, ⟨[], by simp, by simp⟩, id⟩
  · refine ⟨rfl, rfl, rfl, fun x hx => ?_, ?_, fun hd => hd.touch _⟩
    · apply Bay.touch_chan_of_ne _
      rintro rfl
      exact hx hc
    · rw [Bay.touch_dirty]
      split
      · exact ⟨[], by simp, by simp⟩
      · exact ⟨[c], rfl, by simpa using hc⟩

omit [DecidableEq χ] in
theorem OutputsStep.trans {κ : Type} {outs : χ → Prop} {b b' b'' : Bay χ κ}
    (h : OutputsStep outs b b') (h' : OutputsStep outs b' b'') : OutputsStep outs b b'' := by
  obtain ⟨l, hl, hlo⟩ := h.dirty
  obtain ⟨l', hl', hlo'⟩ := h'.dirty
  refine ⟨h'.cb.trans h.cb, h'.enabled.trans h.enabled, h'.state.trans h.state,
    fun c hc => (h'.chan c hc).trans (h.chan c hc), ⟨l ++ l', ?_, fun c hc => ?_⟩,
    fun hd => h'.dirtyOk (h.dirtyOk hd)⟩
  · rw [hl', hl, List.append_assoc]
  · exact (List.mem_append.mp hc).elim (hlo c) (hlo' c)

theorem OutputsStep.sortOutputs {κ : Type} {outs : χ → Prop} {b b' : Bay χ κ}
    {rows : List (χ × Int)} (hrows : ∀ row ∈ rows, outs row.1)
    (h : sortOutputs rows b = .ok b') : OutputsStep outs b b' := by
  induction rows generalizing b with
  | nil =>
      rw [Ovni.sortOutputs] at h
      rw [← Except.ok.inj h]
      exact ⟨rfl, rfl, rfl, fun _ _ => rfl, ⟨[], by simp, by simp⟩, id⟩
  | cons row rows ih =>
      obtain ⟨out, v⟩ := row
      have hrest := fun row hrow => hrows row (List.mem_cons_of_mem _ hrow)
      rw [Ovni.sortOutputs] at h
      split at h
      · exact ih hrest h
      · obtain ⟨b1, hset, h⟩ := bind_ok h
        exact (OutputsStep.chanSet (hrows (out, v) List.mem_cons_self) hset).trans (ih hrest h)

/-- The hooks write outputs of sort modules only. -/
theorem patch_other [DecidableEq μ] [DecidableEq ς] [DecidableEq ρ] [DecidableEq φ]
    {k : Hook ς ρ} (h : p.net.other k c w = .ok w') : OtherStep p.sortOut w w' := by
  cases k with
  | sort s index =>
      obtain ⟨old, -, ⟨-, rfl⟩ | ⟨-, sorted, b', -, hb', rfl⟩⟩ := sortCbInput_ok h
      · exact ⟨rfl, rfl, rfl, rfl, fun _ _ => rfl, ⟨[], by simp, by simp⟩, id⟩
      · have hstep : OutputsStep p.sortOut w.bay b' :=
          .sortOutputs (fun row hrow => ⟨s, (List.of_mem_zip hrow).1⟩) hb'
        exact ⟨rfl, hstep.cb, hstep.enabled, hstep.state, hstep.chan, hstep.dirty, hstep.dirtyOk⟩
  | prv r =>
      obtain ⟨hbay, hsel, -⟩ := emit_bay (show emit p r w = .ok w' from h)
      refine ⟨hsel, by rw [hbay], by rw [hbay], by rw [hbay], fun _ _ => by rw [hbay],
        ⟨[], by simp [hbay], by simp⟩, fun hd => hbay ▸ hd⟩

end Other

/-! ## Muxes that were never called -/

/-- The mux was never called: its output is as `chan`. -/
structure IdleMux (p : Patch χ μ ς ρ φ) (m : μ) (chan : Chan) (w : PatchWorld χ μ ς ρ φ) :
    Prop where
  off : ∀ i, w.bay.enabled (.input m i) = false
  out : w.bay.chan (p.mux m).output = chan

section Idle

variable [DecidableEq χ] [DecidableEq μ] [DecidableEq ς] [DecidableEq ρ] [DecidableEq φ]
  {tracked : μ → Prop} {rel reach ever : χ → Prop} {lev : χ → Nat} {chan : χ → Chan}

/-- A callback of a channel that does not select the mux. -/
theorem IdleMux.call (hl : Layers p.net (partMuxes parts) tracked rel reach lev p.sortOut)
    (hm : tracked m) {chan : Chan} (h : IdleMux p m chan w) (hw : PatchWired p parts w)
    (hc : c ≠ (p.mux m).select) {k : Cb μ (Hook ς ρ)} (hk : k ∈ w.bay.cb .dirty c)
    (hrun : p.net.call k c w = .ok w') : IdleMux p m chan w' := by
  -- The output of another mux is another channel
  have hother : ∀ m' v, m' ∈ partMuxes parts → m' ≠ m →
      OutputSet (p.mux m') v w.bay w'.bay → w'.bay.chan (p.mux m).output = chan := by
    intro m' v hm' hne hset
    have hout : (p.mux m).output ≠ (p.mux m').output := fun heq =>
      hne (hl.alone m hm m' hm' heq.symm)
    rw [hset.2.1, Bay.touch_chan_of_ne _ hout]
    exact h.out
  cases k with
  | select m' =>
      obtain ⟨hm', -, rfl⟩ := (hw.wired.select_mem m' .dirty c).mp hk
      have hne : m' ≠ m := fun heq => hc (heq ▸ rfl)
      obtain ⟨choice, -, -, hstep, -, -, hset⟩ := cbSelect_ok hw.wired hm' hrun
      exact ⟨fun i => (hstep.enabled m i hne.symm).trans (h.off i), hother m' _ hm' hne hset⟩
  | input m' j =>
      obtain ⟨-, -, hon⟩ := (hw.wired.input_mem m' j .dirty c).mp hk
      have hne : m' ≠ m := by
        rintro rfl
        rw [h.off j] at hon
        cases hon
      have hm' := (hw.wired.selected m' j hon).1
      obtain ⟨-, hstep, hset, -⟩ := cbInput_ok hw.wired hm' j hrun
      exact ⟨fun i => (hstep.enabled m i hne.symm).trans (h.off i), hother m' _ hm' hne hset⟩
  | other k =>
      have hstep := patch_other hrun
      have hout : ¬ p.sortOut (p.mux m).output := fun hout =>
        (hl.apart _ hout).2 m (hl.on m hm) rfl
      exact ⟨fun i => by rw [hstep.enabled]; exact h.off i, (hstep.chan _ hout).trans h.out⟩

/-- A dirty phase in which the select channel is not dirty. -/
theorem IdleMux.dirty (hl : Layers p.net (partMuxes parts) tracked rel reach lev p.sortOut)
    (hm : tracked m) {chan : Chan} (h : IdleMux p m chan w) (hw : PatchWired p parts w)
    (hd : w.bay.DirtyOk) {fuel : Nat}
    (hrun : propagateList p.net.call .dirty fuel 0 w = .ok w')
    (hsel : (p.mux m).select ∉ w'.bay.dirty) : IdleMux p m chan w' := by
  refine (hw.walk (fun w1 => (p.mux m).select ∉ w1.bay.dirty → IdleMux p m chan w1) ?_ hd
    (fun _ => h) hrun).2.2 hsel
  intro k c w1 w2 hw1 hd1 hidle hk hmem hcall hsel2
  obtain ⟨-, hg, -⟩ := hw1.call hd1 hk hcall
  have hsel1 : (p.mux m).select ∉ w1.bay.dirty := fun hmem => hsel2 (hg.mono hmem)
  refine (hidle hsel1).call hl hm hw1 ?_ hk hcall
  rintro rfl
  exact hsel1 hmem

/-! ## Between propagations -/

/-- A bay at rest: the tracked muxes whose select channel was `ever` dirty are settled,
the others were not called, and the channels that were never dirty are as `chan`. -/
structure PatchRest (p : Patch χ μ ς ρ φ) (parts : List (Part μ ς ρ)) (tracked : μ → Prop)
    (chan : χ → Chan) (ever : χ → Prop) (w : PatchWorld χ μ ς ρ φ) : Prop where
  ready : PatchReady p parts w
  quiet : Quiet p.net (partMuxes parts) tracked ever w
  off : ∀ m, tracked m → ¬ ever (p.mux m).select → ∀ i, w.bay.enabled (.input m i) = false
  out : ∀ m, tracked m → ¬ ever (p.mux m).select →
    w.bay.read (p.mux m).output = chanRead (chan (p.mux m).output)
  kept : ∀ c, ¬ p.Out parts c → ¬ p.sortOut c → ¬ ever c → w.bay.read c = chanRead (chan c)

/-- The bay just connected. -/
theorem PatchRest.connect (tracked : μ → Prop)
    (hapart : ∀ m, tracked m → ¬ p.sortOut (p.mux m).output)
    (hchan : ∀ c, Unregistered (chan c))
    (hclean : ∀ c, (chan c).isDirty = false) (honce : parts.Nodup)
    (hrun : connectParts p parts (patchInit chan) = .ok w) :
    PatchRest p parts tracked chan (fun _ => False) w := by
  have hstep : ∀ (done : List (Part μ ς ρ)) part (w w' : PatchWorld χ μ ς ρ φ),
      PatchConnected p done w → Registered p done w.mod.other →
      (∀ c, ¬ p.sortOut c → w.bay.read c = chanRead (chan c)) → connectPart p w part = .ok w' →
      ∀ c, ¬ p.sortOut c → w'.bay.read c = chanRead (chan c) := by
    intro done part w w' _ _ hread hpart c hc
    rw [← hread c hc]
    unfold Bay.read
    have hsort : ∀ s, c ∉ (p.sort s).outputs := fun s hmem => hc ⟨s, hmem⟩
    cases part with
    | mux m =>
        obtain ⟨-, -, rfl⟩ := muxInit_eq hpart
        simp only [World.setSelected, chan_enableCb, Bay.put]
        by_cases heq : c = (p.net.mux m).output
        · rw [heq, Function.update_self]
          rfl
        · rw [Function.update_of_ne heq]
    | sort s => rw [connectPart_other (hsort s) hpart]
    | sortInput s index => rw [connectPart_other (hsort s) hpart]
    | prv r => rw [connectPart_other List.not_mem_nil hpart]
  obtain ⟨hinit, hreg⟩ := patchInit_connected (p := p) hclean
  obtain ⟨hconn, -, hread⟩ := connectParts_inv
    (fun _ w => ∀ c, ¬ p.sortOut c → w.bay.read c = chanRead (chan c)) hstep hinit hreg
    (fun c _ => rfl) (by simpa using honce) hrun
  rw [List.nil_append] at hconn
  have hcon := hconn.connected
  exact ⟨PatchReady.connect hchan hclean honce hrun,
    ⟨hcon.wired, hcon.ready, hcon.nodirty, hcon.clean, fun _ _ h => h.elim⟩,
    fun m _ _ => hcon.input m, fun m hm _ => hread _ (hapart m hm), fun c _ hc _ => hread c hc⟩

/-- Some writes of channels that are no outputs, and a propagation. -/
theorem PatchRest.propagate
    (hl : Layers p.net (partMuxes parts) tracked rel reach lev p.sortOut)
    (h : PatchRest p parts tracked chan ever w) {b : Bay χ (Cb μ (Hook ς ρ))}
    (hready : PatchReady p parts { w with bay := b })
    (hb : Bay.Written (fun c => ¬ p.Out parts c) w.bay b)
    (hstart : ∀ c ∈ b.dirty, rel c → reach c ∧ lev c = 0) {fuel : Nat}
    (hrun : bayPropagate p.net.call fuel { w with bay := b } = .ok w') :
    ∃ w1, propagateList p.net.call .dirty fuel 0
        (World.setState { w with bay := b } .propagating) = .ok w1 ∧
      Bay.Grown (p.Out parts) (World.setState { w with bay := b } .propagating).bay w1.bay ∧
      PatchRest p parts tracked chan (fun c => ever c ∨ c ∈ w1.bay.dirty) w' := by
  have hout : ∀ m, tracked m → ¬ ¬ p.Out parts (p.net.mux m).output := fun m hm hnot =>
    hnot (Or.inl ⟨m, hl.on m hm, rfl⟩)
  obtain ⟨w1, hdirty, hquiet, -⟩ := h.quiet.propagate hl hb hout hstart hrun
  have hready' := (hready.propagate hrun).1
  obtain ⟨w1', w2, hdirty', -, -, hg, -, hsame, rfl⟩ := hready.phases hrun
  obtain rfl : w1' = w1 := Except.ok.inj (hdirty'.symm.trans hdirty)
  have hchan : w2.bay.chan = w1'.bay.chan := by
    rw [hsame]
    rfl
  have hread : ∀ c, chanRead (if c ∈ w2.bay.dirty then Bay.flushed (w2.bay.chan c)
      else w2.bay.chan c) = w1'.bay.read c := by
    intro c
    rw [Bay.chanRead_ite_flushed, hchan]
    rfl
  -- A mux that was not selected in this propagation either
  have hidle : ∀ m, tracked m → ¬ (ever (p.mux m).select ∨ (p.mux m).select ∈ w1'.bay.dirty) →
      IdleMux p m (w.bay.chan (p.mux m).output) w1' := by
    intro m hm hever
    rw [not_or] at hever
    have hstart : IdleMux p m (w.bay.chan (p.mux m).output)
        (World.setState { w with bay := b } .propagating) :=
      ⟨fun i => by rw [← h.off m hm hever.1 i, ← hb.enabled]; rfl, hb.apart _ (hout m hm)⟩
    exact hstart.dirty hl hm (hready.wired.bay rfl rfl fun c => Chan.Like.refl _)
      ⟨hready.dirtyOk.nodup, hready.dirtyOk.mem_iff⟩ hdirty hever.2
  refine ⟨w1', hdirty, hg, hready', hquiet, fun m hm hever i => ?_,
    fun m hm hever => ?_, fun c hc hsort hever => ?_⟩
  · simp only [hsame]
    exact (hidle m hm hever).off i
  · apply (hread _).trans
    rw [← h.out m hm (not_or.mp hever).1]
    unfold Bay.read
    rw [(hidle m hm hever).out]
  · apply (hread c).trans
    rw [not_or] at hever
    have hbread : w1'.bay.read c = b.read c := hg.read_of_not_src hc
    rw [hbread, hb.read_of_not_mem fun hmem => hever.2 (hg.mono hmem)]
    exact h.kept c hc hsort hever.1

end Idle

end Ovni
