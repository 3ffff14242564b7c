import Ovni.Bay.Calls
import Ovni.Mux.Settle

/-!
# Whole propagations

The emit callbacks and the flush keep what the dirty phase settled, so a bay that
was at rest is at rest again after some writes and a propagation.
-/

namespace Ovni

open Ovni.Lib

section Propagate

variable {χ μ ν τ : Type} {net : Net χ μ ν τ} {ms : List μ} {tracked : μ → Prop}
  {rel reach outs : χ → Prop} {lev : χ → Nat} {ever : χ → Prop} {w w' : MuxWorld χ μ ν τ} {m : μ}
  {c : χ} {i : Nat} {v : Value} {chan : χ → Chan}

variable [DecidableEq χ] [DecidableEq μ] [DecidableEq ν]

/-! ## The emit phase and the flush -/

omit [DecidableEq χ] [DecidableEq μ] [DecidableEq ν] in
theorem Rested.other_module (hl : Layers net ms tracked rel reach lev outs)
    (h : Rested net ms tracked outs chan ever w) (hstep : OtherStep outs w w') :
    Rested net ms tracked outs chan ever w' := by
  have hread : ∀ x, ¬ outs x → w'.bay.read x = w.bay.read x := by
    intro x hx
    unfold Bay.read
    rw [hstep.chan x hx]
  refine ⟨hl.wired_other h.wired hstep, hstep.dirtyOk h.dirtyOk, fun x hx => ?_,
    fun m hm hever => ?_⟩
  · rw [hstep.chan x hx.2]
    exact h.source x hx
  · obtain ⟨hselected, hcopied⟩ := h.settled m hm hever
    have hport : ∀ x, (net.mux m).HasPort x → w'.bay.read x = w.bay.read x :=
      fun x hx => hread x fun hout => (hl.apart x hout).1 (hl.port m x hm hx)
    exact ⟨hselected.frame (hl.pure m hm) (by rw [hstep.selected])
        (fun _ => by rw [hstep.enabled]) (hport _ (Or.inl rfl)),
      hcopied.frame (by rw [hstep.selected])
        (hread _ fun hout => (hl.apart _ hout).2 m (hl.on m hm) rfl)
        fun j x _ hx => hport x (Or.inr ⟨j, hx⟩)⟩

/-- The emit callbacks belong to other modules. -/
theorem propagateList_emit (hl : Layers net ms tracked rel reach lev outs) {fuel : Nat}
    (h : Rested net ms tracked outs chan ever w)
    (hrun : propagateList net.call .emit fuel 0 w = .ok w') :
    Rested net ms tracked outs chan ever w' := by
  have hvisit : ∀ (fuel i : Nat) c w w', Rested net ms tracked outs chan ever w →
      w.bay.dirty[i]? = some c →
      propagateChan net.call .emit c fuel (w.bay.cb .emit c).head? w = .ok w' →
      Rested net ms tracked outs chan ever w' := by
    intro fuel _ c w w' h _ hchan
    refine (propagateChan_inv (fun R w => Rested net ms tracked outs chan ever w ∧
      ∀ k ∈ R, k ∈ w.bay.cb .emit c) (fun R w h => h.1.wired.nodup .emit c) ?_
      ⟨h, by rw [cbsFrom_head]; exact fun k hk => hk⟩ hchan).1
    rintro k w w' ⟨h, hleft⟩ hcall
    have hk := hleft k List.mem_cons_self
    cases k with
    | select m => exact absurd ((h.wired.select_mem m .emit c).mp hk).2.1 (by simp)
    | input m j => exact absurd ((h.wired.input_mem m j .emit c).mp hk).1 (by simp)
    | other k =>
        exact ⟨h.other_module hl (hl.other k c w w' hcall),
          fun x hx => mem_of_mem_cbsAfter hx⟩
  obtain ⟨-, h', -⟩ := propagateList_inv
    (fun _ w => Rested net ms tracked outs chan ever w) hvisit h hrun
  exact h'

/-- A bay between two propagations. -/
structure Quiet (net : Net χ μ ν τ) (ms : List μ) (tracked : μ → Prop) (ever : χ → Prop)
    (w : MuxWorld χ μ ν τ) : Prop where
  wired : Wired net ms w
  ready : w.bay.state = .ready
  nodirty : w.bay.dirty = []
  clean : ∀ c, (w.bay.chan c).isDirty = false
  settled : ∀ m, tracked m → ever (net.mux m).select → Selected net w m ∧ Copied net w m

omit [DecidableEq χ] [DecidableEq μ] [DecidableEq ν] in
theorem Quiet.dirtyOk (h : Quiet net ms tracked ever w) : w.bay.DirtyOk := by
  refine ⟨h.nodirty ▸ List.nodup_nil, fun c => ?_⟩
  rw [h.nodirty, h.clean c]
  simp

omit [DecidableEq μ] [DecidableEq ν] in
/-- Flushing keeps the values. -/
theorem Rested.flush (h : Rested net ms tracked outs chan ever w)
    (hpure : ∀ m, tracked m → ∀ read v,
      selectInput (net.mux m) read v = selectInput (net.mux m) (fun _ => .null) v) :
    Quiet net ms tracked ever { w with bay := { w.bay with
      chan := fun c => if c ∈ w.bay.dirty then Bay.flushed (w.bay.chan c) else w.bay.chan c
      dirty := []
      state := .ready } } := by
  have hread : ∀ c, chanRead (if c ∈ w.bay.dirty then Bay.flushed (w.bay.chan c)
      else w.bay.chan c) = w.bay.read c := fun c => Bay.chanRead_ite_flushed _ _
  refine ⟨⟨h.wired.nodup, h.wired.select_mem, h.wired.input_mem, h.wired.selected,
    fun m hm => ?_⟩, rfl, rfl, fun c => ?_, fun m hm hever => ?_⟩
  · have := h.wired.output m hm
    simp only
    split
    · exact this
    · exact this
  · simp only
    split
    · rfl
    · rename_i hc
      rw [h.dirtyOk.mem_iff] at hc
      simpa using hc
  · obtain ⟨hselected, hcopied⟩ := h.settled m hm hever
    exact ⟨hselected.frame (hpure m hm) rfl (fun _ => rfl) (hread _),
      hcopied.frame rfl (hread _) fun _ c _ _ => hread c⟩

/-! ## A whole propagation -/

section Start

variable {src : χ → Prop} {b : Bay χ (Cb μ ν)}

omit [DecidableEq χ] [DecidableEq μ] [DecidableEq ν] in
/-- The dirty phase starts with the written channels. -/
theorem Quiet.start (h : Quiet net ms tracked ever w) (hb : Bay.Written src w.bay b)
    (hstart : ∀ c ∈ b.dirty, rel c → reach c ∧ lev c = 0) :
    Visited net ms rel reach lev outs b.chan 0
      (World.setState { w with bay := b } .propagating) := by
  have hw := h.wired
  refine ⟨⟨?_, ?_, ?_, ?_, fun m hm => ?_⟩, ⟨hb.dirtyOk.nodup, hb.dirtyOk.mem_iff⟩,
    fun _ _ => rfl, LevelQueue.start fun c hc hrel => (hstart c hc hrel).2,
    fun c hc hrel => (hstart c hc hrel).1⟩
  · simpa only [World.setState, hb.cb] using hw.nodup
  · simpa only [World.setState, hb.cb] using hw.select_mem
  · simpa only [World.setState, hb.cb, hb.enabled] using hw.input_mem
  · simpa only [World.setState, hb.enabled] using hw.selected
  · rw [← hw.output m hm]
    exact (hb.like _).allowDup

omit [DecidableEq χ] [DecidableEq μ] [DecidableEq ν] in
/-- A mux none of whose ports was written is as it was. -/
theorem Quiet.settling (hl : Layers net ms tracked rel reach lev outs)
    (h : Quiet net ms tracked ever w) (hb : Bay.Written src w.bay b)
    (hsrc : ∀ m, tracked m → ¬ src (net.mux m).output) :
    Settling net tracked ever 0 [] (World.setState { w with bay := b } .propagating) := by
  intro m hm hever hsel _
  obtain ⟨hselected, hcopied⟩ := h.settled m hm (hever.resolve_right (by simp))
  refine ⟨hselected.frame (hl.pure m hm) rfl (fun _ => by rw [← hb.enabled]; rfl)
    (hb.read_of_not_mem hsel), fun hports => ?_⟩
  exact hcopied.frame rfl (hb.read_of_not_src (hsrc m hm))
    fun j c hj hc => hb.read_of_not_mem (hports j c hj hc).1

omit [DecidableEq χ] [DecidableEq μ] [DecidableEq ν] in
theorem Rested.setState (h : Rested net ms tracked outs chan ever w) (state : BayState) :
    Rested net ms tracked outs chan ever (w.setState state) := by
  have hw := h.wired
  refine ⟨⟨hw.nodup, hw.select_mem, hw.input_mem, hw.selected, hw.output⟩,
    ⟨h.dirtyOk.nodup, h.dirtyOk.mem_iff⟩, h.source, fun m hm hever => ?_⟩
  obtain ⟨hselected, hcopied⟩ := h.settled m hm hever
  exact ⟨⟨hselected.choice, hselected.enabled⟩, hcopied⟩

end Start

/-- A propagation settles the tracked muxes. -/
theorem bayPropagate_settles (hl : Layers net ms tracked rel reach lev outs)
    (hv : Visited net ms rel reach lev outs w.bay.chan 0 (w.setState .propagating))
    (hs : Settling net tracked ever 0 [] (w.setState .propagating)) {fuel : Nat}
    (hrun : bayPropagate net.call fuel w = .ok w') :
    ∃ w1, propagateList net.call .dirty fuel 0 (w.setState .propagating) = .ok w1 ∧
      Quiet net ms tracked (fun c => ever c ∨ c ∈ w1.bay.dirty) w' ∧
      ∀ c, net.Source ms outs c → w'.bay.chan c =
        if c ∈ w.bay.dirty then Bay.flushed (w.bay.chan c) else w.bay.chan c := by
  obtain ⟨w1, w2, hdirty, hemit, rfl⟩ := bayPropagate_ok hrun
  have hrest1 := propagateList_settles hl hv hs hdirty
  have hrest2 := propagateList_emit hl (hrest1.setState .emitting) hemit
  refine ⟨w1, hdirty, hrest2.flush hl.pure, fun c hc => ?_⟩
  have hchan := hrest2.source c hc
  have hmem : c ∈ w2.bay.dirty ↔ c ∈ w.bay.dirty := by
    rw [hrest2.dirtyOk.mem_iff, hchan]
    exact (hv.dirtyOk.mem_iff c).symm
  simp only [hmem, hchan]

/-- Some writes of source channels and a propagation settle the tracked muxes. -/
theorem Quiet.propagate (hl : Layers net ms tracked rel reach lev outs) {src : χ → Prop}
    (h : Quiet net ms tracked ever w) {b : Bay χ (Cb μ ν)} (hb : Bay.Written src w.bay b)
    (hsrc : ∀ m, tracked m → ¬ src (net.mux m).output)
    (hstart : ∀ c ∈ b.dirty, rel c → reach c ∧ lev c = 0) {fuel : Nat}
    (hrun : bayPropagate net.call fuel { w with bay := b } = .ok w') :
    ∃ w1, propagateList net.call .dirty fuel 0
        (World.setState { w with bay := b } .propagating) = .ok w1 ∧
      Quiet net ms tracked (fun c => ever c ∨ c ∈ w1.bay.dirty) w' ∧
      ∀ c, net.Source ms outs c → w'.bay.chan c =
        if c ∈ b.dirty then Bay.flushed (b.chan c) else b.chan c := by
  apply bayPropagate_settles hl _ (h.settling hl hb hsrc) hrun
  exact h.start hb hstart

/-! ## Connecting the muxes -/

/-- A bay with clean channels, before any mux is connected. -/
structure Unwired (w : MuxWorld χ μ ν τ) : Prop where
  ready : w.bay.state = .ready
  nodirty : w.bay.dirty = []
  clean : ∀ c, (w.bay.chan c).isDirty = false
  nodup : ∀ ty c, (w.bay.cb ty c).Nodup
  select : ∀ m, w.bay.enabled (.select m) = false ∧ ∀ ty c, .select m ∉ w.bay.cb ty c
  input : ∀ m i, w.bay.enabled (.input m i) = false ∧ ∀ ty c, .input m i ∉ w.bay.cb ty c

/-- The muxes `ms` are connected and no other. -/
structure Connected (net : Net χ μ ν τ) (ms : List μ) (w : MuxWorld χ μ ν τ) : Prop where
  wired : Wired net ms w
  ready : w.bay.state = .ready
  nodirty : w.bay.dirty = []
  clean : ∀ c, (w.bay.chan c).isDirty = false
  select : ∀ m, m ∉ ms → w.bay.enabled (.select m) = false
  input : ∀ m i, w.bay.enabled (.input m i) = false
  loopless : ∀ m ∈ ms, ¬ (net.mux m).HasPort (net.mux m).output

omit [DecidableEq χ] [DecidableEq μ] [DecidableEq ν] in
theorem Unwired.connected (h : Unwired w) : Connected net [] w := by
  refine ⟨⟨h.nodup, fun m ty c => ?_, fun m i ty c => ?_, fun m i hon => ?_, by simp⟩, h.ready,
    h.nodirty, h.clean, fun m _ => (h.select m).1, fun m i => (h.input m i).1, by simp⟩
  · simpa using (h.select m).2 ty c
  · simp [(h.input m i).1, (h.input m i).2 ty c]
  · rw [(h.input m i).1] at hon
    cases hon

/-- Connecting a mux: its output takes any write and its select callback is enabled. -/
theorem connected_init (h : Connected net ms w) (hm : m ∉ ms)
    (hloop : ¬ (net.mux m).HasPort (net.mux m).output) {b : Bay χ (Cb μ ν)}
    (hb : b = w.bay.put (net.mux m).output
      { w.bay.chan (net.mux m).output with dirtyWrite := true, allowDup := true }) :
    Connected net (ms ++ [m]) (World.setSelected
      { w with bay := b.enableCb .dirty (net.mux m).select (.select m) } m 0) := by
  have hw := h.wired
  have hcb : b.cb = w.bay.cb := by rw [hb]; rfl
  have hen : b.enabled = w.bay.enabled := by rw [hb]; rfl
  have hchan : ∀ c, (b.chan c).isDirty = (w.bay.chan c).isDirty ∧
      ((w.bay.chan c).allowDup = true → (b.chan c).allowDup = true) := by
    intro c
    by_cases hc : c = (net.mux m).output
    · subst hc
      simp [hb, Bay.put]
    · simp [hb, Bay.put, Function.update_of_ne hc]
  have hout : ∀ ty c, (.select m : Cb μ ν) ∉ b.cb ty c := by
    intro ty c hmem
    rw [hcb] at hmem
    exact hm ((hw.select_mem m ty c).mp hmem).1
  have hoff : b.enabled (.select m) = false := hen ▸ h.select m hm
  refine ⟨⟨nodup_enableCb (hcb ▸ hw.nodup) fun ty c hmem => absurd hmem (hout ty c),
    ?_, ?_, ?_, ?_⟩, ?_, ?_, ?_, ?_, ?_, ?_⟩
  · intro m' ty c
    simp only [World.setSelected]
    by_cases hmm : m' = m
    · subst hmm
      rw [mem_enableCb_self hoff (hout ty c)]
      simp
    · rw [mem_enableCb_of_ne (by simpa using hmm), hcb]
      simpa [hmm] using hw.select_mem m' ty c
  · intro m' i ty c
    simp only [World.setSelected]
    rw [mem_enableCb_of_ne (by simp), enabled_enableCb, if_neg (by simp), hcb, hen]
    exact hw.input_mem m' i ty c
  · intro m' i hon
    simp only [World.setSelected] at hon
    rw [enabled_enableCb, if_neg (by simp), hen, h.input m' i] at hon
    cases hon
  · intro m' hm'
    simp only [World.setSelected, chan_enableCb]
    rcases List.mem_append.mp hm' with hm' | hm'
    · exact (hchan _).2 (hw.output m' hm')
    · rw [List.mem_singleton.mp hm']
      simp [hb, Bay.put]
  · simpa [World.setSelected, hb, Bay.put] using h.ready
  · simpa [World.setSelected, hb, Bay.put] using h.nodirty
  · intro c
    simp only [World.setSelected, chan_enableCb]
    rw [(hchan c).1]
    exact h.clean c
  · intro m' hm'
    rw [List.mem_append, List.mem_singleton, not_or] at hm'
    simp only [World.setSelected]
    rw [enabled_enableCb, if_neg (by simpa using hm'.2), hen]
    exact h.select m' hm'.1
  · intro m' i
    simp only [World.setSelected]
    rw [enabled_enableCb, if_neg (by simp), hen]
    exact h.input m' i
  · intro m' hm'
    rcases List.mem_append.mp hm' with hm' | hm'
    · exact h.loopless m' hm'
    · rw [List.mem_singleton.mp hm']
      exact hloop

omit [DecidableEq χ] in
theorem Mux.mem_inputs_of_input {mux : Mux χ} {i : Nat} {c : χ} (h : mux.input i = some c) :
    some c ∈ mux.inputs := by
  unfold Mux.input at h
  rw [Option.join_eq_some_iff] at h
  exact List.mem_of_getElem? h

/-- What `mux_init` checks and does. -/
theorem muxInit_eq (hrun : muxInit net w m = .ok w') :
    (net.mux m).select ≠ (net.mux m).output ∧ some (net.mux m).output ∉ (net.mux m).inputs ∧
      w' = World.setSelected { w with
        bay := (w.bay.put (net.mux m).output
          { w.bay.chan (net.mux m).output with dirtyWrite := true, allowDup := true }).enableCb
            .dirty (net.mux m).select (.select m) } m 0 := by
  unfold muxInit at hrun
  simp only at hrun
  obtain ⟨-, hrun⟩ := guard_ok hrun
  obtain ⟨hsel, hrun⟩ := guard_ok hrun
  obtain ⟨hin, hrun⟩ := guard_ok hrun
  exact ⟨hsel, hin, (Except.ok.inj hrun).symm⟩

theorem muxInit_ok (h : Connected net ms w) (hm : m ∉ ms) (hrun : muxInit net w m = .ok w') :
    Connected net (ms ++ [m]) w' := by
  obtain ⟨hsel, hin, rfl⟩ := muxInit_eq hrun
  refine connected_init h hm ?_ rfl
  rintro (hport | ⟨i, hi⟩)
  · exact hsel hport.symm
  · exact hin (Mux.mem_inputs_of_input hi)

theorem connectMuxes_ok {ms' : List μ} (h : Connected net ms w) (hnodup : (ms ++ ms').Nodup)
    (hrun : connectMuxes net ms' w = .ok w') : Connected net (ms ++ ms') w' := by
  induction ms' generalizing ms w with
  | nil =>
      rw [connectMuxes] at hrun
      rw [← Except.ok.inj hrun, List.append_nil]
      exact h
  | cons m ms' ih =>
      rw [connectMuxes] at hrun
      obtain ⟨w1, hinit, hrun⟩ := bind_ok hrun
      have hm : m ∉ ms := by
        intro hmem
        exact (List.nodup_append.mp hnodup).2.2 m hmem m List.mem_cons_self rfl
      have := ih (muxInit_ok h hm hinit) (by simpa using hnodup) hrun
      simpa using this

end Propagate

end Ovni
