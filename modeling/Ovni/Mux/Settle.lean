import Ovni.Lib.LevelQueue
import Ovni.Mux.Wiring

/-!
# Muxes settle

A mux is settled when it has selected what its select channel says and its output
is a copy of that input.  During the dirty phase a mux may be unsettled only while
its select channel or its chosen input is still to be visited.  For this no channel
that feeds a mux may be written after it was visited, which holds when the channels
are reached level by level.
-/

namespace Ovni

open Ovni.Lib

variable {χ μ ν τ : Type}

/-- The index of the selected input. -/
def World.choice (w : MuxWorld χ μ ν τ) (m : μ) : Option Nat :=
  if 0 ≤ w.mod.selected m then some (w.mod.selected m).toNat else none

/-- The mux has selected the input for the value of its select channel. -/
structure Selected (net : Net χ μ ν τ) (w : MuxWorld χ μ ν τ) (m : μ) : Prop where
  choice : selectInput (net.mux m) w.bay.read (w.bay.read (net.mux m).select) =
    .ok (w.choice m)
  enabled : ∀ i, w.choice m = some i →
    w.bay.enabled (.input m i) = true ∧ ∃ c, (net.mux m).input i = some c

/-- The output of the mux is a copy of the selected input. -/
def Copied (net : Net χ μ ν τ) (w : MuxWorld χ μ ν τ) (m : μ) : Prop :=
  w.bay.read (net.mux m).output = (net.mux m).choose w.bay.read (w.choice m)

/-- What the other modules may do: write channels of their own. -/
structure OtherStep (outs : χ → Prop) (w w' : MuxWorld χ μ ν τ) : Prop where
  selected : w'.mod.selected = w.mod.selected
  cb : w'.bay.cb = w.bay.cb
  enabled : w'.bay.enabled = w.bay.enabled
  state : w'.bay.state = w.bay.state
  chan : ∀ c, ¬ outs c → w'.bay.chan c = w.bay.chan c
  dirty : ∃ l, w'.bay.dirty = w.bay.dirty ++ l ∧ ∀ c ∈ l, outs c
  dirtyOk : w.bay.DirtyOk → w'.bay.DirtyOk

/-- The muxes `tracked`, the channels `rel` that decide their outputs, and a level
for each of those that can be reached in a propagation. -/
structure Layers (net : Net χ μ ν τ) (ms : List μ) (tracked : μ → Prop) (rel reach : χ → Prop)
    (lev : χ → Nat) (outs : χ → Prop) : Prop where
  on : ∀ m, tracked m → m ∈ ms
  pure : ∀ m, tracked m → ∀ read v,
    selectInput (net.mux m) read v = selectInput (net.mux m) (fun _ => .null) v
  alone : ∀ m, tracked m → ∀ m' ∈ ms, (net.mux m').output = (net.mux m).output → m' = m
  loopless : ∀ m ∈ ms, ¬ (net.mux m).HasPort (net.mux m).output
  port : ∀ m c, tracked m → (net.mux m).HasPort c → rel c
  back : ∀ m ∈ ms, ∀ c, (net.mux m).HasPort c → rel (net.mux m).output → rel c
  reached : ∀ m ∈ ms, ∀ c, (net.mux m).HasPort c → reach c → reach (net.mux m).output
  level : ∀ m ∈ ms, ∀ c, (net.mux m).HasPort c → reach c → rel (net.mux m).output →
    lev (net.mux m).output = lev c + 1
  apart : ∀ c, outs c → ¬ rel c ∧ ∀ m ∈ ms, c ≠ (net.mux m).output
  other : ∀ k c w w', net.other k c w = .ok w' → OtherStep outs w w'

/-- The tracked muxes when the first `i` dirty channels were visited, up to the
callbacks `R` of the last of them. -/
def Settling (net : Net χ μ ν τ) (tracked : μ → Prop) (ever : χ → Prop) (i : Nat)
    (R : List (Cb μ ν)) (w : MuxWorld χ μ ν τ) : Prop :=
  ∀ m, tracked m →
    ever (net.mux m).select ∨ (net.mux m).select ∈ w.bay.dirty.take i →
    (net.mux m).select ∉ w.bay.dirty.drop i → .select m ∉ R →
    Selected net w m ∧
      ((∀ j c, w.choice m = some j → (net.mux m).input j = some c →
        c ∉ w.bay.dirty.drop i ∧ .input m j ∉ R) → Copied net w m)

/-- No callback writes the channel. -/
def Net.Source (net : Net χ μ ν τ) (ms : List μ) (outs : χ → Prop) (c : χ) : Prop :=
  (∀ m ∈ ms, c ≠ (net.mux m).output) ∧ ¬ outs c

/-- The dirty phase when the first `i` dirty channels were visited, with the channels
`chan` at its start. -/
structure Visited (net : Net χ μ ν τ) (ms : List μ) (rel reach : χ → Prop)
    (lev : χ → Nat) (outs : χ → Prop) (chan : χ → Chan) (i : Nat) (w : MuxWorld χ μ ν τ) :
    Prop where
  wired : Wired net ms w
  dirtyOk : w.bay.DirtyOk
  source : ∀ c, net.Source ms outs c → w.bay.chan c = chan c
  queue : LevelQueue rel lev w.bay.dirty i
  reached : ∀ c ∈ w.bay.dirty, rel c → reach c

section Frame

variable {net : Net χ μ ν τ} {w w' : MuxWorld χ μ ν τ} {m : μ}

theorem World.choice_congr (hsel : w'.mod.selected m = w.mod.selected m) :
    w'.choice m = w.choice m := by
  unfold World.choice
  rw [hsel]

/-- The choice that the callback of a select channel leaves. -/
theorem World.choice_of_selected {choice : Option Nat}
    (hsome : ∀ j, choice = some j → w.mod.selected m = j)
    (hnone : choice = none → w.mod.selected m < 0) : w.choice m = choice := by
  unfold World.choice
  cases choice with
  | none => rw [if_neg (by have := hnone rfl; omega)]
  | some j =>
      have hj := hsome j rfl
      rw [if_pos (by omega), hj]
      rfl

/-- Only the chosen input has an enabled callback. -/
theorem Wired.choice_of_enabled {ms : List μ} (hw : Wired net ms w) {j : Nat}
    (hon : w.bay.enabled (.input m j) = true) : w.choice m = some j := by
  unfold World.choice
  rw [(hw.selected m j hon).2, if_pos (by omega)]
  rfl

/-- The choice of a mux and the wiring of its inputs only depend on its own state
and its select channel. -/
theorem Selected.frame (h : Selected net w m)
    (hpure : ∀ read v,
      selectInput (net.mux m) read v = selectInput (net.mux m) (fun _ => .null) v)
    (hsel : w'.mod.selected m = w.mod.selected m)
    (hen : ∀ i, w'.bay.enabled (.input m i) = w.bay.enabled (.input m i))
    (hread : w'.bay.read (net.mux m).select = w.bay.read (net.mux m).select) :
    Selected net w' m := by
  have hchoice : w'.choice m = w.choice m := World.choice_congr hsel
  constructor
  · rw [hchoice, ← h.choice, hpure, hpure w.bay.read, hread]
  · intro i hi
    rw [hen]
    exact h.enabled i (hchoice ▸ hi)

/-- The value for the output only depends on the chosen input. -/
theorem Mux.choose_congr {mux : Mux χ} {read read' : χ → Value} {choice : Option Nat}
    (h : ∀ i c, choice = some i → mux.input i = some c → read' c = read c) :
    mux.choose read' choice = mux.choose read choice := by
  unfold Mux.choose
  cases choice with
  | none => rfl
  | some i =>
      simp only
      cases hi : mux.input i with
      | none => rfl
      | some c => exact h i c rfl hi

theorem Copied.frame (h : Copied net w m) (hsel : w'.mod.selected m = w.mod.selected m)
    (hout : w'.bay.read (net.mux m).output = w.bay.read (net.mux m).output)
    (hin : ∀ i c, w.choice m = some i → (net.mux m).input i = some c →
      w'.bay.read c = w.bay.read c) : Copied net w' m := by
  have hchoice : w'.choice m = w.choice m := World.choice_congr hsel
  unfold Copied at h ⊢
  rw [hout, hchoice, h]
  exact (Mux.choose_congr hin).symm

end Frame

/-! ## One callback -/

section Step

variable {net : Net χ μ ν τ} {ms : List μ} {tracked : μ → Prop} {rel reach outs : χ → Prop}
  {lev : χ → Nat} {ever : χ → Prop} {w w' : MuxWorld χ μ ν τ} {m : μ} {c : χ} {i : Nat}
  {v : Value} {chan : χ → Chan}

theorem Layers.wired_other (hl : Layers net ms tracked rel reach lev outs) (hw : Wired net ms w)
    (hstep : OtherStep outs w w') : Wired net ms w' := by
  refine ⟨?_, ?_, ?_, ?_, fun m hm => ?_⟩
  · simpa only [hstep.cb] using hw.nodup
  · simpa only [hstep.cb] using hw.select_mem
  · simpa only [hstep.cb, hstep.enabled] using hw.input_mem
  · simpa only [hstep.enabled, hstep.selected] using hw.selected
  · rw [hstep.chan _ fun hout => (hl.apart _ hout).2 m hm rfl]
    exact hw.output m hm

/-- A callback of another module changes nothing for the muxes. -/
theorem Settling.other_module (ever : χ → Prop) (hl : Layers net ms tracked rel reach lev outs)
    (hv : Visited net ms rel reach lev outs chan i w) (hc : w.bay.dirty[i]? = some c)
    (hstep : OtherStep outs w w') {R : List (Cb μ ν)} :
    (Visited net ms rel reach lev outs chan i w' ∧ w'.bay.dirty[i]? = some c) ∧
      (Settling net tracked ever (i + 1) R w → Settling net tracked ever (i + 1) R w') := by
  obtain ⟨hi, -⟩ := List.getElem?_eq_some_iff.mp hc
  obtain ⟨l, hdirty, houts⟩ := hstep.dirty
  have hread : ∀ x, ¬ outs x → w'.bay.read x = w.bay.read x := by
    intro x hx
    unfold Bay.read
    rw [hstep.chan x hx]
  refine ⟨⟨⟨hl.wired_other hv.wired hstep, hstep.dirtyOk hv.dirtyOk, ?_, ?_, ?_⟩, ?_⟩, ?_⟩
  · intro x hx
    rw [hstep.chan x hx.2]
    exact hv.source x hx
  · rw [hdirty]
    exact hv.queue.append hi fun x hx => (hl.apart x (houts x hx)).1
  · rw [hdirty]
    intro x hx hrel
    rcases List.mem_append.mp hx with hx | hx
    · exact hv.reached x hx hrel
    · exact absurd hrel (hl.apart x (houts x hx)).1
  · rw [hdirty, List.getElem?_append_left hi]
    exact hc
  · intro hs m hm hever hsel hcb
    rw [hdirty, List.take_append_of_le_length hi] at hever
    rw [hdirty, List.drop_append_of_le_length hi] at hsel
    have hsame : w'.mod.selected m = w.mod.selected m := by rw [hstep.selected]
    have hport : ∀ x, (net.mux m).HasPort x → w'.bay.read x = w.bay.read x :=
      fun x hx => hread x fun hout => (hl.apart x hout).1 (hl.port m x hm hx)
    obtain ⟨hselected, hcopied⟩ := hs m hm hever
      (fun hmem => hsel (List.mem_append_left _ hmem)) hcb
    refine ⟨hselected.frame (hl.pure m hm) hsame (fun _ => by rw [hstep.enabled])
      (hport _ (Or.inl rfl)), fun hports => ?_⟩
    rw [World.choice_congr hsame, hdirty, List.drop_append_of_le_length hi] at hports
    refine (hcopied fun j x hj hx => ?_).frame hsame
      (hread _ fun hout => (hl.apart _ hout).2 m (hl.on m hm) rfl)
      fun j x _ hx => hport x (Or.inr ⟨j, hx⟩)
    exact ⟨fun hmem => (hports j x hj hx).1 (List.mem_append_left _ hmem), (hports j x hj hx).2⟩

variable [DecidableEq χ]

/-- A mux that is not its own input reads the same after it has written its output. -/
theorem OutputSet.read_port {mux : Mux χ} {b b' : Bay χ (Cb μ ν)} (hset : OutputSet mux v b b')
    (hloop : ¬ mux.HasPort mux.output) {x : χ} (hx : mux.HasPort x) : b'.read x = b.read x := by
  apply hset.read_of_ne
  rintro rfl
  exact hloop hx

/-- No dirty channel is lost. -/
theorem OutputSet.mem_drop {mux : Mux χ} {b b' : Bay χ (Cb μ ν)} (hset : OutputSet mux v b b')
    (hi : i < b.dirty.length) {x : χ} (hx : x ∈ b.dirty.drop (i + 1)) :
    x ∈ b'.dirty.drop (i + 1) := by
  rw [hset.2.2]
  exact Bay.drop_touch _ _ hi hx

theorem OutputSet.take_dirty {mux : Mux χ} {b b' : Bay χ (Cb μ ν)} (hset : OutputSet mux v b b')
    (hi : i < b.dirty.length) : b'.dirty.take (i + 1) = b.dirty.take (i + 1) := by
  rw [hset.2.2, Bay.take_touch _ _ hi]

/-- The output is a copy of the input whose value was written. -/
theorem OutputSet.copied (hloop : ¬ (net.mux m).HasPort (net.mux m).output)
    (hset : OutputSet (net.mux m) ((net.mux m).choose w.bay.read (w'.choice m)) w.bay w'.bay) :
    Copied net w' m := by
  unfold Copied
  rw [hset.read_output]
  exact (Mux.choose_congr fun j x _ hx => hset.read_port hloop (Or.inr ⟨j, hx⟩)).symm

/-- The callback of an input copies it. -/
theorem copied_input (hw : Wired net ms w) (hloop : ¬ (net.mux m).HasPort (net.mux m).output)
    {j : Nat} (hin : (net.mux m).input j = some c) (hon : w.bay.enabled (.input m j) = true)
    (hmod : w'.mod = w.mod) (hset : OutputSet (net.mux m) (w.bay.read c) w.bay w'.bay) :
    Copied net w' m := by
  have hsame : w'.mod.selected m = w.mod.selected m := by rw [hmod]
  have hchoice : w'.choice m = some j := by
    rw [World.choice_congr hsame, hw.choice_of_enabled hon]
  have hvalue : (net.mux m).choose w.bay.read (w'.choice m) = w.bay.read c := by
    rw [hchoice]
    simp only [Mux.choose, hin]
  rw [← hvalue] at hset
  exact hset.copied hloop

/-- The callback of a select channel settles its mux. -/
theorem settle_select (hl : Layers net ms tracked rel reach lev outs)
    (hm : tracked m) {choice : Option Nat}
    (hsel : selectInput (net.mux m) w.bay.read (w.bay.read (net.mux m).select) = .ok choice)
    (hsome : ∀ j, choice = some j → w'.mod.selected m = j ∧
      w'.bay.enabled (.input m j) = true ∧ ∃ c, (net.mux m).input j = some c)
    (hnone : choice = none → w'.mod.selected m < 0)
    (hset : OutputSet (net.mux m) ((net.mux m).choose w.bay.read choice) w.bay w'.bay) :
    Selected net w' m ∧ Copied net w' m := by
  have hloop := hl.loopless m (hl.on m hm)
  have hchoice : w'.choice m = choice :=
    World.choice_of_selected (fun j hj => (hsome j hj).1) hnone
  refine ⟨⟨?_, fun j hj => (hsome j (hchoice ▸ hj)).2⟩, (hchoice ▸ hset).copied hloop⟩
  rw [hchoice, ← hsel, hl.pure m hm, hl.pure m hm w.bay.read,
    hset.read_port hloop (Or.inl rfl)]

/-- The callback of an input copies it, when the mux has selected it. -/
theorem settle_input (hl : Layers net ms tracked rel reach lev outs) (hw : Wired net ms w)
    (hm : tracked m) {j : Nat} (hin : (net.mux m).input j = some c)
    (hon : w.bay.enabled (.input m j) = true) (hmod : w'.mod = w.mod)
    (hen : w'.bay.enabled = w.bay.enabled)
    (hset : OutputSet (net.mux m) (w.bay.read c) w.bay w'.bay) (hs : Selected net w m) :
    Selected net w' m ∧ Copied net w' m := by
  have hloop := hl.loopless m (hl.on m hm)
  refine ⟨hs.frame (hl.pure m hm) (by rw [hmod]) (fun _ => by rw [hen]) ?_,
    copied_input hw hloop hin hon hmod hset⟩
  exact hset.read_port hloop (Or.inl rfl)

/-- A channel that decides a tracked mux is not written after it was visited. -/
theorem Layers.output_pending (hl : Layers net ms tracked rel reach lev outs)
    (hv : Visited net ms rel reach lev outs chan i w) (hc : w.bay.dirty[i]? = some c) (hm : m ∈ ms)
    (hport : (net.mux m).HasPort c) (hset : OutputSet (net.mux m) v w.bay w'.bay)
    (hrel : rel (net.mux m).output) : (net.mux m).output ∈ w'.bay.dirty.drop (i + 1) := by
  obtain ⟨hi, hget⟩ := List.getElem?_eq_some_iff.mp hc
  have hrc := hl.back m hm c hport hrel
  have hcmem : c ∈ w.bay.dirty := hget ▸ List.getElem_mem hi
  have hlev := hl.level m hm c hport (hv.reached c hcmem hrc) hrel
  rw [hset.2.2]
  exact Bay.pending_of_touch hv.dirtyOk _ _ hi (hv.queue.not_mem_take hc hrc hrel hlev)

/-- A port that another mux has written is pending. -/
theorem Layers.read_port (hl : Layers net ms tracked rel reach lev outs)
    (hv : Visited net ms rel reach lev outs chan i w) (hc : w.bay.dirty[i]? = some c) (hm : m ∈ ms)
    (hport : (net.mux m).HasPort c) (hset : OutputSet (net.mux m) v w.bay w'.bay) {x : χ}
    (hrel : rel x) (hpend : x ∉ w'.bay.dirty.drop (i + 1)) : w'.bay.read x = w.bay.read x := by
  apply hset.read_of_ne
  rintro rfl
  exact hpend (hl.output_pending hv hc hm hport hset hrel)

/-- Writing an output keeps the queue in level order. -/
theorem Visited.output (hl : Layers net ms tracked rel reach lev outs)
    (hv : Visited net ms rel reach lev outs chan i w) (hc : w.bay.dirty[i]? = some c) (hm : m ∈ ms)
    (hport : (net.mux m).HasPort c) (hwired : Wired net ms w')
    (hset : OutputSet (net.mux m) v w.bay w'.bay) :
    Visited net ms rel reach lev outs chan i w' ∧ w'.bay.dirty[i]? = some c := by
  obtain ⟨hi, hget⟩ := List.getElem?_eq_some_iff.mp hc
  have hcmem : c ∈ w.bay.dirty := hget ▸ List.getElem_mem hi
  have hdirty := hset.2.2
  have hsource : ∀ x, net.Source ms outs x → w'.bay.chan x = chan x := by
    intro x hx
    rw [hset.2.1, Bay.touch_chan_of_ne _ (hx.1 m hm)]
    exact hv.source x hx
  rcases Bay.touch_dirty_cases hv.dirtyOk (c := (net.mux m).output)
      { w.bay.chan (net.mux m).output with value := v } with ⟨-, hsame⟩ | ⟨-, hnew⟩
  · rw [hsame] at hdirty
    refine ⟨⟨hwired, hset.dirtyOk hv.dirtyOk, hsource, ?_, ?_⟩, ?_⟩
    · rw [hdirty]
      exact hv.queue
    · rw [hdirty]
      exact hv.reached
    · rw [hdirty]
      exact hc
  · rw [hnew] at hdirty
    refine ⟨⟨hwired, hset.dirtyOk hv.dirtyOk, hsource, ?_, ?_⟩, ?_⟩
    · rw [hdirty]
      apply hv.queue.push hc
      intro hrel
      have hrc := hl.back m hm c hport hrel
      exact ⟨hrc, hl.level m hm c hport (hv.reached c hcmem hrc) hrel⟩
    · rw [hdirty]
      intro x hx hrel
      rcases List.mem_append.mp hx with hx | hx
      · exact hv.reached x hx hrel
      · rw [List.mem_singleton.mp hx] at hrel ⊢
        have hrc := hl.back m hm c hport hrel
        exact hl.reached m hm c hport (hv.reached c hcmem hrc)
    · rw [hdirty, List.getElem?_append_left hi]
      exact hc

variable [DecidableEq μ] [DecidableEq ν]

omit [DecidableEq χ] in
/-- What is left to call for another mux is still to be called afterwards. -/
theorem MuxStep.left {k : Cb μ ν} (hstep : MuxStep net m k w w')
    (hk : k = .select m ∨ ∃ j, k = .input m j) {m0 : μ} (hne : m0 ≠ m) {x : Cb μ ν}
    (hx : x = .select m0 ∨ ∃ j, x = .input m0 j)
    (hout : x ∉ cbsAfter k (w'.bay.cb .dirty c)) : x ∉ k :: cbsAfter k (w.bay.cb .dirty c) := by
  intro hmem
  rcases List.mem_cons.mp hmem with rfl | hmem
  · rcases hx with rfl | ⟨j, rfl⟩
    · rcases hk with hk | ⟨_, hk⟩
      · exact hne (Cb.select.inj hk)
      · cases hk
    · rcases hk with hk | ⟨_, hk⟩
      · cases hk
      · exact hne (Cb.input.inj hk).1
  · refine hout (hstep.after .dirty c x (fun j hj => ?_) hmem)
    rcases hx with rfl | ⟨j', rfl⟩
    · cases hj
    · exact hne (Cb.input.inj hj).1

/-- A callback of a mux keeps the other muxes settling. -/
theorem Settling.other_mux (hl : Layers net ms tracked rel reach lev outs)
    (hv : Visited net ms rel reach lev outs chan i w) (hc : w.bay.dirty[i]? = some c) (hm : m ∈ ms)
    (hport : (net.mux m).HasPort c) {k : Cb μ ν} (hk : k = .select m ∨ ∃ j, k = .input m j)
    (hstep : MuxStep net m k w w') (hset : OutputSet (net.mux m) v w.bay w'.bay)
    (hs : Settling net tracked ever (i + 1) (k :: cbsAfter k (w.bay.cb .dirty c)) w)
    {m0 : μ} (hm0 : tracked m0) (hne : m0 ≠ m)
    (hever : ever (net.mux m0).select ∨ (net.mux m0).select ∈ w'.bay.dirty.take (i + 1))
    (hsel : (net.mux m0).select ∉ w'.bay.dirty.drop (i + 1))
    (hcb : .select m0 ∉ cbsAfter k (w'.bay.cb .dirty c)) :
    Selected net w' m0 ∧
      ((∀ j x, w'.choice m0 = some j → (net.mux m0).input j = some x →
        x ∉ w'.bay.dirty.drop (i + 1) ∧ .input m0 j ∉ cbsAfter k (w'.bay.cb .dirty c)) →
        Copied net w' m0) := by
  obtain ⟨hi, -⟩ := List.getElem?_eq_some_iff.mp hc
  have hleft : ∀ x : Cb μ ν, (x = .select m0 ∨ ∃ j, x = .input m0 j) →
      x ∉ cbsAfter k (w'.bay.cb .dirty c) → x ∉ k :: cbsAfter k (w.bay.cb .dirty c) :=
    fun x hx => hstep.left hk hne hx
  have hdrop : ∀ x, x ∉ w'.bay.dirty.drop (i + 1) → x ∉ w.bay.dirty.drop (i + 1) :=
    fun x hx hmem => hx (hset.mem_drop hi hmem)
  have hread : ∀ x, (net.mux m0).HasPort x → x ∉ w'.bay.dirty.drop (i + 1) →
      w'.bay.read x = w.bay.read x :=
    fun x hx => hl.read_port hv hc hm hport hset (hl.port m0 x hm0 hx)
  rw [hset.take_dirty hi] at hever
  obtain ⟨hselected, hcopied⟩ := hs m0 hm0 hever (hdrop _ hsel) (hleft _ (Or.inl rfl) hcb)
  refine ⟨hselected.frame (hl.pure m0 hm0) (hstep.selected m0 hne)
    (fun j => hstep.enabled m0 j hne) (hread _ (Or.inl rfl) hsel), fun hports => ?_⟩
  rw [World.choice_congr (hstep.selected m0 hne)] at hports
  refine (hcopied fun j x hj hx => ?_).frame (hstep.selected m0 hne) (hset.read_of_ne ?_)
    fun j x hj hx => hread x (Or.inr ⟨j, hx⟩) (hports j x hj hx).1
  · exact ⟨hdrop x (hports j x hj hx).1, hleft _ (Or.inr ⟨j, rfl⟩) (hports j x hj hx).2⟩
  · exact fun heq => hne (hl.alone m0 hm0 m hm heq.symm).symm

/-- The state of the walk over the callbacks of the `i`-th dirty channel. -/
structure Calling (net : Net χ μ ν τ) (ms : List μ) (tracked : μ → Prop) (rel reach : χ → Prop)
    (lev : χ → Nat) (outs : χ → Prop) (chan : χ → Chan) (ever : χ → Prop) (i : Nat) (c : χ)
    (R : List (Cb μ ν)) (w : MuxWorld χ μ ν τ) : Prop where
  visited : Visited net ms rel reach lev outs chan i w
  here : w.bay.dirty[i]? = some c
  left : ∀ k ∈ R, k ∈ w.bay.cb .dirty c
  settling : Settling net tracked ever (i + 1) R w

theorem Calling.call (hl : Layers net ms tracked rel reach lev outs) {k : Cb μ ν}
    (h : Calling net ms tracked rel reach lev outs chan ever i c
      (k :: cbsAfter k (w.bay.cb .dirty c)) w)
    (hcall : net.call k c w = .ok w') :
    Calling net ms tracked rel reach lev outs chan ever i c
      (cbsAfter k (w'.bay.cb .dirty c)) w' := by
  have hw := h.visited.wired
  have hk := h.left k List.mem_cons_self
  have hleft : ∀ x ∈ cbsAfter k (w'.bay.cb .dirty c), x ∈ w'.bay.cb .dirty c :=
    fun x hx => mem_of_mem_cbsAfter hx
  cases k with
  | select m =>
      obtain ⟨hm, -, rfl⟩ := (hw.select_mem m .dirty c).mp hk
      obtain ⟨choice, hsel, hwired, hstep, hsome, hnone, hset⟩ := cbSelect_ok hw hm hcall
      have hport : (net.mux m).HasPort (net.mux m).select := Or.inl rfl
      obtain ⟨hv, hhere⟩ := h.visited.output hl h.here hm hport hwired hset
      refine ⟨hv, hhere, hleft, fun m0 hm0 hever hsel0 hcb => ?_⟩
      by_cases hmm : m0 = m
      · subst hmm
        obtain ⟨hselected, hcopied⟩ := settle_select hl hm0 hsel hsome hnone hset
        exact ⟨hselected, fun _ => hcopied⟩
      · exact Settling.other_mux hl h.visited h.here hm hport (Or.inl rfl) hstep hset h.settling
          hm0 hmm hever hsel0 hcb
  | input m j =>
      obtain ⟨-, hin, hon⟩ := (hw.input_mem m j .dirty c).mp hk
      have hm := (hw.selected m j hon).1
      obtain ⟨hwired, hstep, hset, hmod, hen, hcbs⟩ := cbInput_ok hw hm j hcall
      have hport : (net.mux m).HasPort c := Or.inr ⟨j, hin⟩
      obtain ⟨hv, hhere⟩ := h.visited.output hl h.here hm hport hwired hset
      refine ⟨hv, hhere, hleft, fun m0 hm0 hever hsel0 hcb => ?_⟩
      by_cases hmm : m0 = m
      · subst hmm
        obtain ⟨hi, -⟩ := List.getElem?_eq_some_iff.mp h.here
        rw [hset.take_dirty hi] at hever
        rw [hcbs] at hcb
        obtain ⟨hselected, -⟩ := h.settling m0 hm0 hever
          (fun hmem => hsel0 (hset.mem_drop hi hmem)) (by simpa using hcb)
        obtain ⟨hselected', hcopied⟩ :=
          settle_input hl hw hm0 hin hon hmod hen hset hselected
        exact ⟨hselected', fun _ => hcopied⟩
      · exact Settling.other_mux hl h.visited h.here hm hport (Or.inr ⟨j, rfl⟩) hstep hset
          h.settling hm0 hmm hever hsel0 hcb
  | other k =>
      have hstep := hl.other k c w w' hcall
      obtain ⟨⟨hv, hhere⟩, hs⟩ := Settling.other_module ever hl h.visited h.here hstep
        (R := cbsAfter (.other k) (w'.bay.cb .dirty c))
      refine ⟨hv, hhere, hleft, hs fun m hm hever hsel hcb => ?_⟩
      rw [hstep.cb] at hcb
      refine ⟨?_, ?_⟩
      · exact (h.settling m hm hever hsel (by simpa using hcb)).1
      · intro hports
        apply (h.settling m hm hever hsel (by simpa using hcb)).2
        intro j x hj hx
        refine ⟨(hports j x hj hx).1, ?_⟩
        have := (hports j x hj hx).2
        rw [hstep.cb] at this
        simpa using this

/-! ## The dirty phase -/

/-- The visit of a dirty channel. -/
theorem Visited.visit (hl : Layers net ms tracked rel reach lev outs) {fuel : Nat}
    (hv : Visited net ms rel reach lev outs chan i w) (hs : Settling net tracked ever i [] w)
    (hc : w.bay.dirty[i]? = some c)
    (hrun : propagateChan net.call .dirty c fuel (w.bay.cb .dirty c).head? w = .ok w') :
    Visited net ms rel reach lev outs chan (i + 1) w' ∧
      Settling net tracked ever (i + 1) [] w' := by
  obtain ⟨hi, hget⟩ := List.getElem?_eq_some_iff.mp hc
  have htake : w.bay.dirty.take (i + 1) = w.bay.dirty.take i ++ [c] := by
    rw [List.take_succ_eq_append_getElem hi, hget]
  have hdrop : w.bay.dirty.drop i = c :: w.bay.dirty.drop (i + 1) := by
    rw [List.drop_eq_getElem_cons hi, hget]
  have hstart : Calling net ms tracked rel reach lev outs chan ever i c (w.bay.cb .dirty c) w := by
    refine ⟨hv, hc, fun k hk => hk, fun m hm hever hsel hcb => ?_⟩
    -- A mux selected by this channel has its callback among those to be called
    have hne : (net.mux m).select ≠ c := by
      rintro rfl
      exact hcb ((hv.wired.select_mem m .dirty _).mpr ⟨hl.on m hm, rfl, rfl⟩)
    obtain ⟨hselected, hcopied⟩ := hs m hm
      (hever.imp_right fun hmem => by
        rw [htake, List.mem_append, List.mem_singleton] at hmem
        exact hmem.resolve_right hne)
      (by rw [hdrop, List.mem_cons]; exact not_or.mpr ⟨hne, hsel⟩) (by simp)
    refine ⟨hselected, fun hports => hcopied fun j x hj hx => ⟨?_, by simp⟩⟩
    rw [hdrop, List.mem_cons]
    refine not_or.mpr ⟨?_, (hports j x hj hx).1⟩
    rintro rfl
    refine (hports j x hj hx).2 ((hv.wired.input_mem m j .dirty x).mpr ⟨rfl, hx, ?_⟩)
    exact (hselected.enabled j hj).1
  have hend := propagateChan_inv (Calling net ms tracked rel reach lev outs chan ever i c)
    (fun R w h => h.visited.wired.nodup .dirty c) (fun k w w' h hcall => h.call hl hcall)
    (by rw [cbsFrom_head]; exact hstart) hrun
  exact ⟨⟨hend.visited.wired, hend.visited.dirtyOk, hend.visited.source,
    hend.visited.queue.advance, hend.visited.reached⟩, hend.settling⟩

/-- The bay after the dirty phase: every tracked mux whose select channel was `ever`
dirty is settled. -/
structure Rested (net : Net χ μ ν τ) (ms : List μ) (tracked : μ → Prop) (outs : χ → Prop)
    (chan : χ → Chan) (ever : χ → Prop) (w : MuxWorld χ μ ν τ) : Prop where
  wired : Wired net ms w
  dirtyOk : w.bay.DirtyOk
  source : ∀ c, net.Source ms outs c → w.bay.chan c = chan c
  settled : ∀ m, tracked m → ever (net.mux m).select → Selected net w m ∧ Copied net w m

theorem propagateList_settles (hl : Layers net ms tracked rel reach lev outs) {fuel : Nat}
    (hv : Visited net ms rel reach lev outs chan 0 w) (hs : Settling net tracked ever 0 [] w)
    (hrun : propagateList net.call .dirty fuel 0 w = .ok w') :
    Rested net ms tracked outs chan (fun c => ever c ∨ c ∈ w'.bay.dirty) w' := by
  obtain ⟨j, ⟨hv', hs'⟩, hend⟩ := propagateList_inv
    (fun i w => Visited net ms rel reach lev outs chan i w ∧ Settling net tracked ever i [] w)
    (fun fuel i c w w' h hc hchan => h.1.visit hl h.2 hc hchan) ⟨hv, hs⟩ hrun
  have hlen : w'.bay.dirty.length ≤ j := List.getElem?_eq_none_iff.mp hend
  have htake : w'.bay.dirty.take j = w'.bay.dirty := List.take_of_length_le hlen
  have hdrop : w'.bay.dirty.drop j = [] := List.drop_of_length_le hlen
  refine ⟨hv'.wired, hv'.dirtyOk, hv'.source, fun m hm hever => ?_⟩
  obtain ⟨hselected, hcopied⟩ := hs' m hm (by rwa [htake]) (by simp [hdrop]) (by simp)
  exact ⟨hselected, hcopied fun _ _ _ _ => by simp [hdrop]⟩

end Step

end Ovni
