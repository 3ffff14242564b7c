import Ovni.Mux.Propagate

/-!
# Select functions that read the inputs

The select function of a mux may read its inputs, but it is only called when the select
channel is dirty.  Then the choice is the one for the values at the end of the propagation,
if the levels put no input after the select channel.  Otherwise it is the choice from
before, also when an input that the function reads has changed.
-/

namespace Ovni

open Ovni.Lib

variable {χ μ ν τ : Type}

/-- The select function only reads the ports of the mux. -/
def Mux.ReadsPorts (mux : Mux χ) : Prop :=
  ∀ read read' v, (∀ c, mux.HasPort c → read' c = read c) →
    selectInput mux read' v = selectInput mux read v

/-- A mux that reads its ports, whose output decides tracked muxes. -/
structure Reading (net : Net χ μ ν τ) (ms : List μ) (rel : χ → Prop) (m : μ) : Prop where
  mem : m ∈ ms
  reads : (net.mux m).ReadsPorts
  alone : ∀ m' ∈ ms, (net.mux m').output = (net.mux m).output → m' = m
  rel : rel (net.mux m).output

/-- What the mux has chosen in a propagation, with the choice from before it. -/
structure Chosen (net : Net χ μ ν τ) (m : μ) (old : Option Nat) (w : MuxWorld χ μ ν τ) :
    Prop where
  new : (net.mux m).select ∈ w.bay.dirty →
    selectInput (net.mux m) w.bay.read (w.bay.read (net.mux m).select) = .ok (w.choice m)
  kept : (net.mux m).select ∉ w.bay.dirty → w.choice m = old
  enabled : ∀ i, w.choice m = some i →
    w.bay.enabled (.input m i) = true ∧ ∃ c, (net.mux m).input i = some c

/-- The mux when the first `i` dirty channels were visited, up to the callbacks `R` of the
last of them. -/
def Choosing (net : Net χ μ ν τ) (m : μ) (old : Option Nat) (ever : χ → Prop) (i : Nat)
    (R : List (Cb μ ν)) (w : MuxWorld χ μ ν τ) : Prop :=
  ever (net.mux m).select ∨ (net.mux m).select ∈ w.bay.dirty.take i →
    (net.mux m).select ∉ w.bay.dirty.drop i → .select m ∉ R →
    Chosen net m old w ∧
      ((∀ j c, w.choice m = some j → (net.mux m).input j = some c →
        c ∉ w.bay.dirty.drop i ∧ .input m j ∉ R) → Copied net w m)

section Frame

variable {net : Net χ μ ν τ} {ms : List μ} {rel : χ → Prop} {w w' : MuxWorld χ μ ν τ} {m : μ}
  {old : Option Nat}

theorem Chosen.frame (hr : Reading net ms rel m) (h : Chosen net m old w)
    (hsel : w'.mod.selected m = w.mod.selected m)
    (hen : ∀ i, w'.bay.enabled (.input m i) = w.bay.enabled (.input m i))
    (hdirty : (net.mux m).select ∈ w'.bay.dirty ↔ (net.mux m).select ∈ w.bay.dirty)
    (hread : (net.mux m).select ∈ w.bay.dirty →
      ∀ c, (net.mux m).HasPort c → w'.bay.read c = w.bay.read c) : Chosen net m old w' := by
  have hchoice : w'.choice m = w.choice m := World.choice_congr hsel
  refine ⟨fun hmem => ?_, fun hmem => ?_, fun i hi => ?_⟩
  · have hports := hread (hdirty.mp hmem)
    rw [hchoice, hports _ (Or.inl rfl), ← h.new (hdirty.mp hmem)]
    exact hr.reads _ _ _ hports
  · rw [hchoice]
    exact h.kept fun hmem' => hmem (hdirty.mpr hmem')
  · rw [hen]
    exact h.enabled i (hchoice ▸ hi)

end Frame

/-! ## One callback -/

section Step

variable {net : Net χ μ ν τ} {ms : List μ} {tracked : μ → Prop} {rel reach outs : χ → Prop}
  {lev : χ → Nat} {ever : χ → Prop} {w w' : MuxWorld χ μ ν τ} {m : μ} {c : χ} {i : Nat}
  {v : Value} {chan : χ → Chan} {old : Option Nat}

/-- The ports of the mux that are reached have one level. -/
theorem Reading.level (hl : Layers net ms tracked rel reach lev outs) (hr : Reading net ms rel m)
    {x y : χ} (hx : (net.mux m).HasPort x) (hy : (net.mux m).HasPort y) (hrx : reach x)
    (hry : reach y) : lev x = lev y := by
  have hlx := hl.level m hr.mem x hx hrx hr.rel
  have hly := hl.level m hr.mem y hy hry hr.rel
  omega

theorem Reading.port (hl : Layers net ms tracked rel reach lev outs) (hr : Reading net ms rel m)
    {x : χ} (hx : (net.mux m).HasPort x) : rel x :=
  hl.back m hr.mem x hx hr.rel

/-- A callback of another module changes nothing for the mux. -/
theorem Choosing.other_module (hl : Layers net ms tracked rel reach lev outs)
    (hr : Reading net ms rel m) (hi : i < w.bay.dirty.length) (hstep : OtherStep outs w w')
    {R : List (Cb μ ν)} (h : Choosing net m old ever (i + 1) R w) :
    Choosing net m old ever (i + 1) R w' := by
  obtain ⟨l, hdirty, houts⟩ := hstep.dirty
  have hread : ∀ x, ¬ outs x → w'.bay.read x = w.bay.read x := by
    intro x hx
    unfold Bay.read
    rw [hstep.chan x hx]
  have hport : ∀ x, (net.mux m).HasPort x → w'.bay.read x = w.bay.read x :=
    fun x hx => hread x fun hout => (hl.apart x hout).1 (hr.port hl hx)
  have hmem : (net.mux m).select ∈ w'.bay.dirty ↔ (net.mux m).select ∈ w.bay.dirty := by
    rw [hdirty, List.mem_append]
    apply or_iff_left
    intro hl'
    exact (hl.apart _ (houts _ hl')).1 (hr.port hl (Or.inl rfl))
  intro hever hsel hcb
  rw [hdirty, List.take_append_of_le_length hi] at hever
  rw [hdirty, List.drop_append_of_le_length hi] at hsel
  obtain ⟨hchosen, hcopied⟩ := h hever (fun hmem => hsel (List.mem_append_left _ hmem)) hcb
  have hsame : w'.mod.selected m = w.mod.selected m := by rw [hstep.selected]
  refine ⟨hchosen.frame hr hsame (fun _ => by rw [hstep.enabled]) hmem fun _ => hport,
    fun hports => ?_⟩
  rw [World.choice_congr hsame, hdirty, List.drop_append_of_le_length hi] at hports
  refine (hcopied fun j x hj hx => ?_).frame hsame
    (hread _ fun hout => (hl.apart _ hout).2 m hr.mem rfl) fun j x _ hx => hport x (Or.inr ⟨j, hx⟩)
  exact ⟨fun hmem => (hports j x hj hx).1 (List.mem_append_left _ hmem), (hports j x hj hx).2⟩

variable [DecidableEq χ]

/-- No port of the mux is written once its select channel was visited. -/
theorem Reading.port_kept (hl : Layers net ms tracked rel reach lev outs)
    (hr : Reading net ms rel m) (hv : Visited net ms rel reach lev outs chan i w)
    (hc : w.bay.dirty[i]? = some c) {m' : μ} (hm' : m' ∈ ms) (hport : (net.mux m').HasPort c)
    (hset : OutputSet (net.mux m') v w.bay w'.bay)
    (hsel : (net.mux m).select ∈ w.bay.dirty.take (i + 1)) {x : χ}
    (hx : (net.mux m).HasPort x) : w'.bay.read x = w.bay.read x := by
  apply hset.read_of_ne
  rintro rfl
  obtain ⟨hi, hget⟩ := List.getElem?_eq_some_iff.mp hc
  have hrel := hr.port hl hx
  have hrc := hl.back m' hm' c hport hrel
  have hreach := hv.reached c (hget ▸ List.getElem_mem hi) hrc
  have hrsel := hr.port hl (Or.inl rfl)
  have hsreach := hv.reached _ (List.mem_of_mem_take hsel) hrsel
  -- The port is one level after this channel, and the select channel is not after it
  have hlev := hl.level m' hm' c hport hreach hrel
  have hsame := hr.level hl (Or.inl rfl) hx hsreach (hl.reached m' hm' c hport hreach)
  have hle := hv.queue.le_of_mem_take hc hsel hrsel hrc
  omega

/-- The callback of the select channel makes the choice. -/
theorem choose_select (hl : Layers net ms tracked rel reach lev outs) (hr : Reading net ms rel m)
    {choice : Option Nat}
    (hsel : selectInput (net.mux m) w.bay.read (w.bay.read (net.mux m).select) = .ok choice)
    (hsome : ∀ j, choice = some j → w'.mod.selected m = j ∧
      w'.bay.enabled (.input m j) = true ∧ ∃ c, (net.mux m).input j = some c)
    (hnone : choice = none → w'.mod.selected m < 0)
    (hset : OutputSet (net.mux m) ((net.mux m).choose w.bay.read choice) w.bay w'.bay)
    (hdirty : (net.mux m).select ∈ w'.bay.dirty) :
    Chosen net m old w' ∧ Copied net w' m := by
  have hloop := hl.loopless m hr.mem
  have hchoice : w'.choice m = choice :=
    World.choice_of_selected (fun j hj => (hsome j hj).1) hnone
  refine ⟨⟨fun _ => ?_, fun hnot => absurd hdirty hnot, fun j hj => ?_⟩,
    (hchoice ▸ hset).copied hloop⟩
  · rw [hchoice, ← hsel, hset.read_port hloop (Or.inl rfl)]
    exact hr.reads _ _ _ fun x hx => hset.read_port hloop hx
  · exact (hsome j (hchoice ▸ hj)).2

/-- The callback of an input keeps the choice. -/
theorem Chosen.input (hl : Layers net ms tracked rel reach lev outs) (hr : Reading net ms rel m)
    (h : Chosen net m old w) (hmod : w'.mod = w.mod) (hen : w'.bay.enabled = w.bay.enabled)
    (hset : OutputSet (net.mux m) v w.bay w'.bay) : Chosen net m old w' := by
  have hloop := hl.loopless m hr.mem
  refine h.frame hr (by rw [hmod]) (fun _ => by rw [hen]) ?_
    fun _ x hx => hset.read_port hloop hx
  have hne : (net.mux m).select ≠ (net.mux m).output := fun heq => hloop (heq ▸ Or.inl rfl)
  rw [hset.2.2, Bay.touch_dirty]
  split
  · rfl
  · rw [List.mem_append, List.mem_singleton]
    exact or_iff_left hne

variable [DecidableEq μ] [DecidableEq ν]

/-- A callback of another mux. -/
theorem Choosing.other_mux (hl : Layers net ms tracked rel reach lev outs)
    (hr : Reading net ms rel m) (hv : Visited net ms rel reach lev outs chan i w)
    (hc : w.bay.dirty[i]? = some c) {m' : μ} (hm' : m' ∈ ms) (hne : m ≠ m')
    (hport : (net.mux m').HasPort c) {k : Cb μ ν} (hk : k = .select m' ∨ ∃ j, k = .input m' j)
    (hstep : MuxStep net m' k w w') (hset : OutputSet (net.mux m') v w.bay w'.bay)
    (h : Choosing net m old ever (i + 1) (k :: cbsAfter k (w.bay.cb .dirty c)) w) :
    Choosing net m old ever (i + 1) (cbsAfter k (w'.bay.cb .dirty c)) w' := by
  obtain ⟨hi, -⟩ := List.getElem?_eq_some_iff.mp hc
  have hchoice : w'.choice m = w.choice m := World.choice_congr (hstep.selected m hne)
  have hleft : ∀ x : Cb μ ν, (x = .select m ∨ ∃ j, x = .input m j) →
      x ∉ cbsAfter k (w'.bay.cb .dirty c) → x ∉ k :: cbsAfter k (w.bay.cb .dirty c) :=
    fun x hx => hstep.left hk hne hx
  have hdrop : ∀ x, x ∉ w'.bay.dirty.drop (i + 1) → x ∉ w.bay.dirty.drop (i + 1) :=
    fun x hx hmem => hx (hset.mem_drop hi hmem)
  have hread : ∀ x, (net.mux m).HasPort x → x ∉ w'.bay.dirty.drop (i + 1) →
      w'.bay.read x = w.bay.read x :=
    fun x hx => hl.read_port hv hc hm' hport hset (hr.port hl hx)
  intro hever hsel hcb
  have htake : w'.bay.dirty.take (i + 1) = w.bay.dirty.take (i + 1) := hset.take_dirty hi
  have hmem : ∀ u : MuxWorld χ μ ν τ, (net.mux m).select ∉ u.bay.dirty.drop (i + 1) →
      ((net.mux m).select ∈ u.bay.dirty ↔ (net.mux m).select ∈ u.bay.dirty.take (i + 1)) := by
    intro u hu
    conv_lhs => rw [← List.take_append_drop (i + 1) u.bay.dirty, List.mem_append]
    exact or_iff_left hu
  have hdirty : (net.mux m).select ∈ w'.bay.dirty ↔ (net.mux m).select ∈ w.bay.dirty := by
    rw [hmem w' hsel, hmem w (hdrop _ hsel), htake]
  rw [htake] at hever
  obtain ⟨hchosen, hcopied⟩ := h hever (hdrop _ hsel) (hleft _ (Or.inl rfl) hcb)
  refine ⟨hchosen.frame hr (hstep.selected m hne) (fun j => hstep.enabled m j hne) hdirty
    fun hd x hx => ?_, fun hports => ?_⟩
  · exact hr.port_kept hl hv hc hm' hport hset ((hmem w (hdrop _ hsel)).mp hd) hx
  · rw [hchoice] at hports
    refine (hcopied fun j x hj hx => ?_).frame (hstep.selected m hne) (hset.read_of_ne ?_)
      fun j x hj hx => hread x (Or.inr ⟨j, hx⟩) (hports j x hj hx).1
    · exact ⟨hdrop x (hports j x hj hx).1, hleft _ (Or.inr ⟨j, rfl⟩) (hports j x hj hx).2⟩
    · exact fun heq => hne (hr.alone m' hm' heq.symm).symm

/-- The state of the walk over the callbacks of the `i`-th dirty channel. -/
structure ChoosingCall (net : Net χ μ ν τ) (ms : List μ) (rel reach : χ → Prop) (lev : χ → Nat)
    (outs : χ → Prop) (chan : χ → Chan) (m : μ) (old : Option Nat) (ever : χ → Prop) (i : Nat)
    (c : χ) (R : List (Cb μ ν)) (w : MuxWorld χ μ ν τ) : Prop where
  visited : Visited net ms rel reach lev outs chan i w
  here : w.bay.dirty[i]? = some c
  left : ∀ k ∈ R, k ∈ w.bay.cb .dirty c
  choosing : Choosing net m old ever (i + 1) R w

theorem ChoosingCall.call (hl : Layers net ms tracked rel reach lev outs)
    (hr : Reading net ms rel m) {k : Cb μ ν}
    (h : ChoosingCall net ms rel reach lev outs chan m old ever i c
      (k :: cbsAfter k (w.bay.cb .dirty c)) w)
    (hcall : net.call k c w = .ok w') :
    ChoosingCall net ms rel reach lev outs chan m old ever i c
      (cbsAfter k (w'.bay.cb .dirty c)) w' := by
  have hw := h.visited.wired
  have hk := h.left k List.mem_cons_self
  obtain ⟨hi, hget⟩ := List.getElem?_eq_some_iff.mp h.here
  have hleft : ∀ x ∈ cbsAfter k (w'.bay.cb .dirty c), x ∈ w'.bay.cb .dirty c :=
    fun x hx => mem_of_mem_cbsAfter hx
  cases k with
  | select m' =>
      obtain ⟨hm', -, rfl⟩ := (hw.select_mem m' .dirty c).mp hk
      obtain ⟨choice, hsel, hwired, hstep, hsome, hnone, hset⟩ := cbSelect_ok hw hm' hcall
      have hport : (net.mux m').HasPort (net.mux m').select := Or.inl rfl
      obtain ⟨hv, hhere⟩ := h.visited.output hl h.here hm' hport hwired hset
      refine ⟨hv, hhere, hleft, ?_⟩
      by_cases hmm : m = m'
      · subst hmm
        intro _ _ _
        obtain ⟨hchosen, hcopied⟩ := choose_select hl hr hsel hsome hnone hset
          (List.mem_of_getElem? hhere)
        exact ⟨hchosen, fun _ => hcopied⟩
      · exact h.choosing.other_mux hl hr h.visited h.here hm' hmm hport (Or.inl rfl) hstep hset
  | input m' j =>
      obtain ⟨-, hin, hon⟩ := (hw.input_mem m' j .dirty c).mp hk
      have hm' := (hw.selected m' j hon).1
      obtain ⟨hwired, hstep, hset, hmod, hen, hcbs⟩ := cbInput_ok hw hm' j hcall
      have hport : (net.mux m').HasPort c := Or.inr ⟨j, hin⟩
      obtain ⟨hv, hhere⟩ := h.visited.output hl h.here hm' hport hwired hset
      refine ⟨hv, hhere, hleft, ?_⟩
      by_cases hmm : m = m'
      · subst hmm
        intro hever hsel0 hcb
        rw [hset.take_dirty hi] at hever
        rw [hcbs] at hcb
        obtain ⟨hchosen, -⟩ := h.choosing hever
          (fun hmem => hsel0 (hset.mem_drop hi hmem)) (by simpa using hcb)
        exact ⟨hchosen.input hl hr hmod hen hset, fun _ => copied_input hw
          (hl.loopless m hm') hin hon hmod hset⟩
      · exact h.choosing.other_mux hl hr h.visited h.here hm' hmm hport (Or.inr ⟨j, rfl⟩) hstep
          hset
  | other k =>
      have hstep := hl.other k c w w' hcall
      obtain ⟨⟨hv, hhere⟩, -⟩ := Settling.other_module ever hl h.visited h.here hstep
        (R := cbsAfter (.other k) (w'.bay.cb .dirty c))
      refine ⟨hv, hhere, hleft, Choosing.other_module hl hr hi hstep fun hever hsel hcb => ?_⟩
      rw [hstep.cb] at hcb
      obtain ⟨hchosen, hcopied⟩ := h.choosing hever hsel (by simpa using hcb)
      refine ⟨hchosen, fun hports => hcopied fun j x hj hx => ⟨(hports j x hj hx).1, ?_⟩⟩
      have hnot := (hports j x hj hx).2
      rw [hstep.cb] at hnot
      simpa using hnot

/-! ## The dirty phase -/

/-- The visit of a dirty channel. -/
theorem Choosing.visit (hl : Layers net ms tracked rel reach lev outs) (hr : Reading net ms rel m)
    {fuel : Nat} (hv : Visited net ms rel reach lev outs chan i w)
    (h : Choosing net m old ever i [] w) (hc : w.bay.dirty[i]? = some c)
    (hrun : propagateChan net.call .dirty c fuel (w.bay.cb .dirty c).head? w = .ok w') :
    Visited net ms rel reach lev outs chan (i + 1) w' ∧
      Choosing net m old ever (i + 1) [] w' := by
  obtain ⟨hi, hget⟩ := List.getElem?_eq_some_iff.mp hc
  have htake : w.bay.dirty.take (i + 1) = w.bay.dirty.take i ++ [c] := by
    rw [List.take_succ_eq_append_getElem hi, hget]
  have hdrop : w.bay.dirty.drop i = c :: w.bay.dirty.drop (i + 1) := by
    rw [List.drop_eq_getElem_cons hi, hget]
  have hstart : ChoosingCall net ms rel reach lev outs chan m old ever i c
      (w.bay.cb .dirty c) w := by
    refine ⟨hv, hc, fun k hk => hk, fun hever hsel hcb => ?_⟩
    have hne : (net.mux m).select ≠ c := by
      rintro rfl
      exact hcb ((hv.wired.select_mem m .dirty _).mpr ⟨hr.mem, rfl, rfl⟩)
    obtain ⟨hchosen, hcopied⟩ := h
      (hever.imp_right fun hmem => by
        rw [htake, List.mem_append, List.mem_singleton] at hmem
        exact hmem.resolve_right hne)
      (by rw [hdrop, List.mem_cons]; exact not_or.mpr ⟨hne, hsel⟩) (by simp)
    refine ⟨hchosen, fun hports => hcopied fun j x hj hx => ⟨?_, by simp⟩⟩
    rw [hdrop, List.mem_cons]
    refine not_or.mpr ⟨?_, (hports j x hj hx).1⟩
    rintro rfl
    refine (hports j x hj hx).2 ((hv.wired.input_mem m j .dirty x).mpr ⟨rfl, hx, ?_⟩)
    exact (hchosen.enabled j hj).1
  have hend := propagateChan_inv (ChoosingCall net ms rel reach lev outs chan m old ever i c)
    (fun R w h => h.visited.wired.nodup .dirty c) (fun k w w' h hcall => h.call hl hr hcall)
    (by rw [cbsFrom_head]; exact hstart) hrun
  exact ⟨⟨hend.visited.wired, hend.visited.dirtyOk, hend.visited.source,
    hend.visited.queue.advance, hend.visited.reached⟩, hend.choosing⟩

/-- The mux after the dirty phase. -/
theorem propagateList_chosen (hl : Layers net ms tracked rel reach lev outs)
    (hr : Reading net ms rel m) {fuel : Nat} (hv : Visited net ms rel reach lev outs chan 0 w)
    (h : Choosing net m old ever 0 [] w)
    (hrun : propagateList net.call .dirty fuel 0 w = .ok w')
    (hever : ever (net.mux m).select ∨ (net.mux m).select ∈ w'.bay.dirty) :
    Chosen net m old w' ∧ Copied net w' m := by
  obtain ⟨j, ⟨-, h'⟩, hend⟩ := propagateList_inv
    (fun i w => Visited net ms rel reach lev outs chan i w ∧ Choosing net m old ever i [] w)
    (fun fuel i c w w' h hc hchan => h.2.visit hl hr h.1 hc hchan) ⟨hv, h⟩ hrun
  have hlen : w'.bay.dirty.length ≤ j := List.getElem?_eq_none_iff.mp hend
  have htake : w'.bay.dirty.take j = w'.bay.dirty := List.take_of_length_le hlen
  have hdrop : w'.bay.dirty.drop j = [] := List.drop_of_length_le hlen
  obtain ⟨hchosen, hcopied⟩ := h' (by rwa [htake]) (by simp [hdrop]) (by simp)
  exact ⟨hchosen, hcopied fun _ _ _ _ => by simp [hdrop]⟩

end Step

end Ovni
