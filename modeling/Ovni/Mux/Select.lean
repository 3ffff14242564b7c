import Mathlib.Data.List.Nodup
import Ovni.Bay.Calls
import Ovni.Mux.Lists
import Ovni.Mux.Network

/-!
# What a selection touches

A mux has an array of inputs, some of which are set.  The callback of the select channel
disables the callback of the input that was selected and enables that of the one it
selects.  Before the first selection no input is selected, but the `selected` that
`mux_init` leaves in the mux is 0, so the first selection disables the callback of the
input 0, which may not be there.
-/

namespace Ovni

open Ovni.Lib

/-! ## Setting the inputs -/

section Build

variable {χ : Type} [DecidableEq χ]

/-- `mux_set_input`; an index outside of the array is outside of its memory. -/
def muxSetInput (mux : Mux χ) (index : Nat) (chan : χ) : Except EmuFault (Mux χ) := do
  if chan = mux.output then throw (.fail "cannot use same input channel as output")
  match mux.inputs[index]? with
  | none => throw .crash
  | some (some _) => throw (.fail "input already has a channel")
  | some none => return { mux with inputs := mux.inputs.set index (some chan) }

/-- A mux as `mux_init` makes it, with some inputs set one after the other. -/
def muxBuild (mux : Mux χ) (ninputs : Nat) (sets : List (Nat × χ)) : Except EmuFault (Mux χ) :=
  sets.foldlM (fun mux s => muxSetInput mux s.1 s.2)
    { mux with inputs := List.replicate ninputs none }

theorem muxSetInput_ok {mux mux' : Mux χ} {index : Nat} {chan : χ}
    (h : muxSetInput mux index chan = .ok mux') :
    mux'.inputs.length = mux.inputs.length ∧
      ∀ i c, mux'.input i = some c ↔ mux.input i = some c ∨ (i, c) = (index, chan) := by
  obtain ⟨-, h⟩ := guard_ok h
  split at h
  · cases h
  · cases h
  · rename_i hfree
    rw [← Except.ok.inj h]
    obtain ⟨hlt, hnone⟩ := List.getElem?_eq_some_iff.mp hfree
    refine ⟨by simp, fun i c => ?_⟩
    unfold Mux.input
    rw [List.getElem?_set]
    by_cases hi : index = i
    · subst hi
      simp [hlt, hnone, eq_comm]
    · simp [hi, Ne.symm hi]

theorem foldlM_muxSetInput {sets : List (Nat × χ)} {mux mux' : Mux χ}
    (h : sets.foldlM (fun mux s => muxSetInput mux s.1 s.2) mux = .ok mux') :
    mux'.inputs.length = mux.inputs.length ∧
      ∀ i c, mux'.input i = some c ↔ mux.input i = some c ∨ (i, c) ∈ sets := by
  induction sets generalizing mux with
  | nil =>
      rw [List.foldlM_nil] at h
      rw [← Except.ok.inj h]
      simp
  | cons s sets ih =>
      rw [List.foldlM_cons] at h
      obtain ⟨mux1, hset, h⟩ := bind_ok h
      obtain ⟨hlen1, hinput1⟩ := muxSetInput_ok hset
      obtain ⟨hlen, hinput⟩ := ih h
      refine ⟨hlen.trans hlen1, fun i c => ?_⟩
      rw [hinput, hinput1, List.mem_cons, or_assoc]

/-- The inputs of the mux are those that were set, in any order. -/
theorem muxBuild_ok {mux mux' : Mux χ} {ninputs : Nat} {sets : List (Nat × χ)}
    (h : muxBuild mux ninputs sets = .ok mux') :
    mux'.inputs.length = ninputs ∧ ∀ i c, mux'.input i = some c ↔ (i, c) ∈ sets := by
  obtain ⟨hlen, hinput⟩ := foldlM_muxSetInput h
  refine ⟨by simpa using hlen, fun i c => ?_⟩
  rw [hinput]
  have hfree : Mux.input { mux with inputs := List.replicate ninputs none } i = none := by
    unfold Mux.input
    rw [List.getElem?_replicate]
    split
    · rfl
    · rfl
  simp [hfree]

end Build

/-! ## Runs -/

section Run

variable {χ μ : Type} [DecidableEq χ] [DecidableEq μ]

/-- The input that the mux selects in this bay, if any, was set. -/
def ChoiceSet (mux : Mux χ) (b : Bay χ (Cb μ Empty)) : Prop :=
  ∀ i, selectInput mux b.read (b.read mux.select) = .ok (some i) → ∃ c, mux.input i = some c

/-- The runs of a bay with muxes: changes of channels, and calls of the callbacks of the
channels in any order.  The muxes only select inputs that were set. -/
inductive SelectRun (mux : μ → Mux χ) (ms : List μ) : MuxWorld χ μ Empty Unit → Prop where
  | connect {chan : χ → Chan} {w : MuxWorld χ μ Empty Unit} (hnodup : ms.Nodup)
      (hclean : ∀ c, (chan c).isDirty = false)
      (hrun : connectMuxes (muxNet mux) ms (muxWorld chan) = .ok w) : SelectRun mux ms w
  | write {w : MuxWorld χ μ Empty Unit} {op : BayOp χ} {b : Bay χ (Cb μ Empty)}
      (h : SelectRun mux ms w) (hrun : op.run w.bay = .ok b) :
      SelectRun mux ms { w with bay := b }
  | call {w w' : MuxWorld χ μ Empty Unit} {k : Cb μ Empty} {c : χ} (h : SelectRun mux ms w)
      (hmem : k ∈ w.bay.cb .dirty c) (hset : ∀ m, k = .select m → ChoiceSet (mux m) w.bay)
      (hrun : (muxNet mux).call k c w = .ok w') : SelectRun mux ms w'
  | phase {w : MuxWorld χ μ Empty Unit} (h : SelectRun mux ms w) (state : BayState) :
      SelectRun mux ms (w.setState state)
  | flush {w : MuxWorld χ μ Empty Unit} {b : Bay χ (Cb μ Empty)} (h : SelectRun mux ms w)
      (hrun : w.bay.flushAll w.bay.dirty = .ok b) :
      SelectRun mux ms { w with bay := { b with dirty := [] } }

variable {mux : μ → Mux χ} {ms : List μ} {w w' : MuxWorld χ μ Empty Unit} {m : μ}

/-- The inputs whose callbacks `cb_select` touches: the one that was selected and the one
that is selected. -/
def cbSelectTouches (mux : Mux χ) (selected : Int) (b : Bay χ (Cb μ Empty)) : List Int :=
  (if 0 ≤ selected then [selected] else []) ++
    match selectInput mux b.read (b.read mux.select) with
    | .ok (some i) => [(i : Int)]
    | _ => []

/-- The callback of an input is enabled, and in the list of its channel once, if and only
if the input is selected; without one, `selected` is -1. -/
structure Tracks (mux : μ → Mux χ) (w : MuxWorld χ μ Empty Unit) (m : μ) : Prop where
  enabled : ∀ i, w.bay.enabled (.input m i) = true ↔ w.mod.selected m = i
  listed : ∀ i c, (mux m).input i = some c →
    (w.bay.cb .dirty c).count (.input m i) = if w.mod.selected m = i then 1 else 0
  selected : (∃ i c, w.mod.selected m = (i : Nat) ∧ (mux m).input i = some c) ∨
    w.mod.selected m = -1

/-- The `selected` of a mux for the input it selects. -/
def selectedOf : Option Nat → Int
  | none => -1
  | some i => i

/-- What `cb_select` does in this state is in order. -/
structure SelectSafe (mux : μ → Mux χ) (w : MuxWorld χ μ Empty Unit) (m : μ) : Prop where
  touched : ∀ i ∈ cbSelectTouches (mux m) (w.mod.selected m) w.bay,
    0 ≤ i ∧ i < (mux m).inputs.length ∧ ∃ c, (mux m).input i.toNat = some c
  nocrash : cbSelect (muxNet mux) m (mux m).select w ≠ .error .crash
  after : ∀ w', cbSelect (muxNet mux) m (mux m).select w = .ok w' → Tracks mux w' m ∧
    ∀ choice, selectInput (mux m) w.bay.read (w.bay.read (mux m).select) = .ok choice →
      w'.mod.selected m = selectedOf choice

/-! ## One selection -/

/-- Before its first selection: `selected` is what `memset` left there. -/
structure FreshMux (w : MuxWorld χ μ Empty Unit) (m : μ) : Prop where
  selected : w.mod.selected m = 0
  disabled : ∀ i, w.bay.enabled (.input m i) = false

/-- A mux in a run; no selection succeeds without the input 0. -/
def MuxState (mux : μ → Mux χ) (w : MuxWorld χ μ Empty Unit) (m : μ) : Prop :=
  FreshMux w m ∨ Tracks mux w m ∧ ∃ c, (mux m).input 0 = some c

omit [DecidableEq χ] in
theorem Tracks.of_wired [DecidableEq χ] (h : Wired (muxNet mux) ms w)
    (hon : ∀ i, w.mod.selected m = (i : Nat) → w.bay.enabled (.input m i) = true)
    (hsel : (∃ i c, w.mod.selected m = (i : Nat) ∧ (mux m).input i = some c) ∨
      w.mod.selected m = -1) : Tracks mux w m := by
  have henabled : ∀ i, w.bay.enabled (.input m i) = true ↔ w.mod.selected m = i :=
    fun i => ⟨fun hen => (h.selected m i hen).2, hon i⟩
  refine ⟨henabled, fun i c hin => ?_, hsel⟩
  have hmem := h.input_mem m i .dirty c
  simp only [true_and, muxNet, hin] at hmem
  rw [henabled] at hmem
  by_cases hi : w.mod.selected m = i
  · rw [if_pos hi]
    exact List.count_eq_one_of_mem (h.nodup .dirty c) (hmem.mpr hi)
  · rw [if_neg hi]
    exact List.count_eq_zero.mpr fun hin => hi (hmem.mp hin)

/-- Nothing that a mux sees has changed. -/
theorem MuxState.frame (h : MuxState mux w m) (hsel : w'.mod.selected m = w.mod.selected m)
    (hen : ∀ i, w'.bay.enabled (.input m i) = w.bay.enabled (.input m i))
    (hw : Wired (muxNet mux) ms w') : MuxState mux w' m := by
  rcases h with hfresh | ⟨htracks, hzero⟩
  · exact .inl ⟨hsel.trans hfresh.selected, fun i => (hen i).trans (hfresh.disabled i)⟩
  · refine .inr ⟨.of_wired hw (fun i hi => ?_) ?_, hzero⟩
    · rw [hen, htracks.enabled, ← hsel, hi]
    · rw [hsel]
      exact htracks.selected

/-- The input that is disabled exists. -/
theorem clearSelected_input (hrun : clearSelected (muxNet mux) m w = .ok w')
    (hsel : 0 ≤ w.mod.selected m) : ∃ c, (mux m).input (w.mod.selected m).toNat = some c := by
  unfold clearSelected at hrun
  rw [if_pos hsel] at hrun
  simp only at hrun
  split at hrun
  · cases hrun
  · exact ⟨_, ‹_›⟩

theorem clearSelected_selected (hrun : clearSelected (muxNet mux) m w = .ok w')
    (hsel : -1 ≤ w.mod.selected m) : w'.mod.selected m = -1 := by
  unfold clearSelected at hrun
  split at hrun
  · simp only at hrun
    split at hrun
    · cases hrun
    · rw [← Except.ok.inj hrun]
      simp [World.setSelected]
  · rw [← Except.ok.inj hrun]
    omega

omit [DecidableEq χ] in
theorem MuxState.selected_ge (h : MuxState mux w m) : -1 ≤ w.mod.selected m := by
  rcases h with hfresh | ⟨htracks, -⟩
  · rw [hfresh.selected]
    omega
  · rcases htracks.selected with ⟨i, -, hi, -⟩ | hi <;> omega

/-- After a selection the callbacks follow it. -/
theorem MuxState.select (h : MuxState mux w m) (hw : Wired (muxNet mux) ms w) (hm : m ∈ ms)
    {c : χ} (hrun : cbSelect (muxNet mux) m c w = .ok w') :
    Tracks mux w' m ∧ (∃ c, (mux m).input 0 = some c) ∧
      ∀ choice, selectInput (mux m) w.bay.read (w.bay.read c) = .ok choice →
        w'.mod.selected m = selectedOf choice := by
  obtain ⟨choice, hchoice, hw', -, hsome, -, -⟩ := cbSelect_ok hw hm hrun
  obtain ⟨w1, hclear, hrun⟩ := bind_ok hrun
  obtain ⟨choice', hsel, hrun⟩ := bind_ok hrun
  obtain ⟨⟨w2, v⟩, hen, hrun⟩ := bind_ok hrun
  have hzero : ∃ c, (mux m).input 0 = some c := by
    rcases h with hfresh | ⟨-, hzero⟩
    · have := clearSelected_input hclear (by simp [hfresh.selected])
      rwa [hfresh.selected] at this
    · exact hzero
  have hread : w1.bay.read = w.bay.read := by
    unfold Bay.read
    rw [(clearSelected_ok hw hclear).2.2.2.2.1]
  rw [hread] at hsel
  obtain rfl : choice = choice' := Except.ok.inj (hchoice.symm.trans hsel)
  have hselected : w'.mod.selected m = selectedOf choice := by
    cases choice with
    | none =>
        rw [World.chanSet_mod hrun]
        simp only [enableSelected, Except.ok.injEq, Prod.mk.injEq] at hen
        exact clearSelected_selected hclear h.selected_ge
    | some i => exact (hsome i rfl).1
  refine ⟨.of_wired hw' (fun i hi => ?_) ?_, hzero, fun choice' hchoice' => ?_⟩
  · rw [hselected] at hi
    cases choice with
    | none =>
        simp only [selectedOf] at hi
        omega
    | some j =>
        obtain rfl : j = i := Int.ofNat.inj hi
        exact (hsome j rfl).2.1
  · cases choice with
    | none => exact .inr hselected
    | some i =>
        obtain ⟨c, hc⟩ := (hsome i rfl).2.2
        exact .inl ⟨i, c, hselected, hc⟩
  · rw [← Except.ok.inj (hchoice.symm.trans hchoice')]
    exact hselected

/-! ## All selections -/

/-- A bay of muxes in a run. -/
structure SelectState (mux : μ → Mux χ) (ms : List μ) (w : MuxWorld χ μ Empty Unit) : Prop where
  wired : Wired (muxNet mux) ms w
  muxes : ∀ m ∈ ms, MuxState mux w m

/-- A change of the channels is not seen by the callbacks. -/
theorem SelectState.frame {b : Bay χ (Cb μ Empty)} (h : SelectState mux ms w)
    (hcb : b.cb = w.bay.cb) (hen : b.enabled = w.bay.enabled)
    (hdup : ∀ c, (b.chan c).allowDup = (w.bay.chan c).allowDup) :
    SelectState mux ms { w with bay := b } := by
  have hw : Wired (muxNet mux) ms { w with bay := b } := by
    refine ⟨?_, ?_, ?_, ?_, fun m hm => (hdup _).trans (h.wired.output m hm)⟩
    · simpa only [hcb] using h.wired.nodup
    · simpa only [hcb] using h.wired.select_mem
    · simpa only [hcb, hen] using h.wired.input_mem
    · simpa only [hen] using h.wired.selected
  exact ⟨hw, fun m hm => (h.muxes m hm).frame rfl (fun i => congrFun hen _) hw⟩

/-- The `selected` that `mux_init` leaves. -/
theorem connectMuxes_selected {ms' : List μ} (hrun : connectMuxes (muxNet mux) ms' w = .ok w')
    (h : ∀ m, w.mod.selected m = 0) : ∀ m, w'.mod.selected m = 0 := by
  induction ms' generalizing w with
  | nil =>
      rw [connectMuxes] at hrun
      rw [← Except.ok.inj hrun]
      exact h
  | cons m0 ms' ih =>
      rw [connectMuxes] at hrun
      obtain ⟨w1, hinit, hrun⟩ := bind_ok hrun
      obtain ⟨-, -, rfl⟩ := muxInit_eq hinit
      apply ih hrun
      intro m
      by_cases hm : m = m0
      · simp [World.setSelected, hm]
      · simp [World.setSelected, Function.update_of_ne hm, h]

/-- A call of a callback. -/
theorem SelectState.call {k : Cb μ Empty} {c : χ} (h : SelectState mux ms w)
    (hmem : k ∈ w.bay.cb .dirty c) (hrun : (muxNet mux).call k c w = .ok w') :
    SelectState mux ms w' := by
  cases k with
  | select m =>
      obtain ⟨hm, -, -⟩ := (h.wired.select_mem m .dirty c).mp hmem
      obtain ⟨-, -, hw', hstep, -⟩ := cbSelect_ok h.wired hm hrun
      refine ⟨hw', fun m' hm' => ?_⟩
      by_cases hmm : m' = m
      · subst hmm
        obtain ⟨htracks, hzero, -⟩ := (h.muxes m' hm').select h.wired hm hrun
        exact .inr ⟨htracks, hzero⟩
      · exact (h.muxes m' hm').frame (hstep.selected m' hmm) (fun i => hstep.enabled m' i hmm) hw'
  | input m i =>
      have hen := ((h.wired.input_mem m i .dirty c).mp hmem).2.2
      obtain ⟨hw', -, -, hmod, henabled, -⟩ :=
        cbInput_ok h.wired (h.wired.selected m i hen).1 i hrun
      refine ⟨hw', fun m' hm' => (h.muxes m' hm').frame ?_ (fun i => ?_) hw'⟩
      · rw [hmod]
      · rw [henabled]
  | other k => cases k

/-- Every state of a run. -/
theorem SelectRun.state (h : SelectRun mux ms w) : SelectState mux ms w := by
  induction h with
  | connect hnodup hclean hrun =>
      have hconn := connectMuxes_ok (muxWorld_unwired hclean).connected (by simpa using hnodup) hrun
      rw [List.nil_append] at hconn
      exact ⟨hconn.wired, fun m _ => .inl ⟨connectMuxes_selected hrun (fun _ => rfl) m,
        hconn.input m⟩⟩
  | @write w op b _ hrun ih =>
      rcases BayOp.run_ok hrun with rfl | ⟨chan, hlike, rfl⟩
      · exact ih
      · refine ih.frame rfl rfl fun c => ?_
        by_cases hc : c = op.chan
        · rw [hc, Bay.touch_chan_self]
          exact hlike.allowDup
        · rw [Bay.touch_chan_of_ne _ hc]
  | call _ hmem _ hrun ih => exact ih.call hmem hrun
  | phase _ state ih => exact ih.frame rfl rfl fun _ => rfl
  | flush _ hrun ih =>
      rw [Bay.flushAll_ok hrun]
      refine ih.frame rfl rfl fun c => ?_
      simp only
      split
      · rfl
      · rfl

omit [DecidableEq χ] in
theorem MuxState.selected_input (h : MuxState mux w m) (hzero : ∃ c, (mux m).input 0 = some c)
    (hsel : 0 ≤ w.mod.selected m) : ∃ c, (mux m).input (w.mod.selected m).toNat = some c := by
  rcases h with hfresh | ⟨htracks, -⟩
  · rw [hfresh.selected]
    exact hzero
  · rcases htracks.selected with ⟨i, c, hi, hc⟩ | hi
    · rw [hi]
      exact ⟨c, hc⟩
    · omega

/-- With the inputs that it touches there, the callback does not crash. -/
theorem cbSelect_nocrash (hold : 0 ≤ w.mod.selected m →
      ∃ c, (mux m).input (w.mod.selected m).toNat = some c)
    (hw : Wired (muxNet mux) ms w) (hset : ChoiceSet (mux m) w.bay) :
    cbSelect (muxNet mux) m (mux m).select w ≠ .error .crash := by
  unfold cbSelect
  refine bind_ne_error ?_ fun w1 hclear => bind_ne_error (selectInput_ne_error (by simp))
    fun choice hchoice => bind_ne_error ?_ fun wv _ => World.chanSet_ne_error (by simp)
  · unfold clearSelected
    split
    · obtain ⟨c, hc⟩ := hold ‹_›
      simp only [muxNet, hc]
      simp
    · simp
  · have hread : w1.bay.read = w.bay.read := by
      unfold Bay.read
      rw [(clearSelected_ok hw hclear).2.2.2.2.1]
    rw [hread] at hchoice
    cases choice with
    | none => simp [enableSelected]
    | some i =>
        obtain ⟨c, hc⟩ := hset i hchoice
        simp [enableSelected, muxNet, hc]

/-- In every state of a run, a mux that only selects inputs that were set selects safely if
and only if its input 0 was set. -/
theorem cbSelect_safe_iff {built : Mux χ} {ninputs : Nat} {sets : List (Nat × χ)}
    (h : SelectRun mux ms w) (hm : m ∈ ms) (hbuild : muxBuild built ninputs sets = .ok (mux m))
    (hset : ChoiceSet (mux m) w.bay) : SelectSafe mux w m ↔ ∃ c, (0, c) ∈ sets := by
  obtain ⟨-, hinput⟩ := muxBuild_ok hbuild
  simp only [← hinput]
  have hstate := h.state
  constructor
  · intro hsafe
    rcases hstate.muxes m hm with hfresh | ⟨-, hzero⟩
    · have htouch := hsafe.touched 0
      rw [hfresh.selected] at htouch
      simpa using (htouch (by simp [cbSelectTouches])).2.2
    · exact hzero
  · intro hzero
    have hold := (hstate.muxes m hm).selected_input hzero
    have hin : ∀ i c, (mux m).input i = some c → i < (mux m).inputs.length := by
      intro i c hc
      unfold Mux.input at hc
      rw [Option.join_eq_some_iff] at hc
      exact (List.getElem?_eq_some_iff.mp hc).1
    refine ⟨fun i hi => ?_, cbSelect_nocrash hold hstate.wired hset, fun w' hrun => ?_⟩
    · unfold cbSelectTouches at hi
      rcases List.mem_append.mp hi with hi | hi
      · split at hi
        · obtain rfl := List.mem_singleton.mp hi
          obtain ⟨c, hc⟩ := hold ‹_›
          have := hin _ c hc
          exact ⟨‹_›, by omega, c, hc⟩
        · cases hi
      · split at hi
        · rename_i j hj
          obtain rfl := List.mem_singleton.mp hi
          obtain ⟨c, hc⟩ := hset j hj
          have := hin j c hc
          exact ⟨by omega, by omega, c, by simpa using hc⟩
        · cases hi
    · obtain ⟨htracks, -, hselected⟩ := (hstate.muxes m hm).select hstate.wired hm hrun
      exact ⟨htracks, hselected⟩

/-! ## Propagations are such runs -/

/-- The calls on a channel. -/
theorem SelectRun.visit {c : χ} {fuel : Nat} {cur : Option (Cb μ Empty)}
    (h : SelectRun mux ms w) (hcur : ∀ k, cur = some k → k ∈ w.bay.cb .dirty c)
    (hset : ∀ kw ∈ chanCalls (muxNet mux).call .dirty c fuel cur w, ∀ m, kw.1 = .select m →
      ChoiceSet (mux m) kw.2.bay) :
    (∀ kw ∈ chanCalls (muxNet mux).call .dirty c fuel cur w,
        SelectRun mux ms kw.2 ∧ kw.1 ∈ kw.2.bay.cb .dirty c) ∧
      ∀ w', propagateChan (muxNet mux).call .dirty c fuel cur w = .ok w' → SelectRun mux ms w' := by
  induction fuel generalizing cur w with
  | zero =>
      refine ⟨by simp [chanCalls], fun w' hrun => ?_⟩
      cases cur with
      | none => rwa [← Except.ok.inj hrun]
      | some k => cases hrun
  | succ fuel ih =>
      cases cur with
      | none => exact ⟨by simp [chanCalls], fun w' hrun => by rwa [← Except.ok.inj hrun]⟩
      | some k =>
          rw [chanCalls] at hset ⊢
          have hk := hcur k rfl
          cases hcall : (muxNet mux).call k c w with
          | error e =>
              refine ⟨by simpa using ⟨h, hk⟩, fun w' hrun => ?_⟩
              rw [propagateChan, hcall] at hrun
              cases hrun
          | ok w1 =>
              simp only [hcall] at hset ⊢
              have h1 := h.call hk (hset _ List.mem_cons_self) hcall
              obtain ⟨hcalls, hrest⟩ := ih h1
                (fun k' hk' => mem_of_mem_cbsAfter (List.mem_of_mem_head? hk'))
                fun kw hkw => hset kw (List.mem_cons_of_mem _ hkw)
              refine ⟨fun kw hkw => ?_, fun w' hrun => ?_⟩
              · rcases List.mem_cons.mp hkw with rfl | hkw
                · exact ⟨h, hk⟩
                · exact hcalls kw hkw
              · rw [propagateChan, hcall] at hrun
                exact hrest w' hrun

/-- The calls of the walk over the dirty list. -/
theorem SelectRun.walk {fuel i : Nat} (h : SelectRun mux ms w)
    (hset : ∀ visit ∈ listCalls (muxNet mux).call .dirty fuel i w, ∀ kw ∈ visit.2, ∀ m,
      kw.1 = .select m → ChoiceSet (mux m) kw.2.bay) :
    (∀ visit ∈ listCalls (muxNet mux).call .dirty fuel i w, ∀ kw ∈ visit.2,
        SelectRun mux ms kw.2 ∧ kw.1 ∈ kw.2.bay.cb .dirty visit.1) ∧
      ∀ w', propagateList (muxNet mux).call .dirty fuel i w = .ok w' → SelectRun mux ms w' := by
  induction fuel generalizing i w with
  | zero => exact ⟨by simp [listCalls], fun w' hrun => by cases hrun⟩
  | succ fuel ih =>
      rw [listCalls] at hset ⊢
      cases hc : w.bay.dirty[i]? with
      | none =>
          refine ⟨by simp, fun w' hrun => ?_⟩
          rw [propagateList, hc] at hrun
          rwa [← Except.ok.inj hrun]
      | some c =>
          simp only [hc] at hset ⊢
          obtain ⟨hcalls, hchan⟩ := h.visit (fun k hk => List.mem_of_mem_head? hk)
            (hset _ List.mem_cons_self)
          cases hvisit : propagateChan (muxNet mux).call .dirty c fuel
              (w.bay.cb .dirty c).head? w with
          | error e =>
              refine ⟨by simpa using hcalls, fun w' hrun => ?_⟩
              rw [propagateList, hc] at hrun
              simp only [hvisit] at hrun
              cases hrun
          | ok w1 =>
              simp only [hvisit] at hset ⊢
              obtain ⟨hmore, hrest⟩ := ih (hchan w1 hvisit)
                fun visit hv => hset visit (List.mem_cons_of_mem _ hv)
              refine ⟨fun visit hv => ?_, fun w' hrun => ?_⟩
              · rcases List.mem_cons.mp hv with rfl | hv
                · exact hcalls
                · exact hmore visit hv
              · rw [propagateList, hc] at hrun
                simp only [hvisit] at hrun
                exact hrest w' hrun

omit [DecidableEq χ] [DecidableEq μ] in
/-- No mux has a callback for the emit stage. -/
theorem Wired.emit_nil (h : Wired (muxNet mux) ms w) (c : χ) : w.bay.cb .emit c = [] := by
  apply List.eq_nil_iff_forall_not_mem.mpr
  intro k hk
  cases k with
  | select m => cases ((h.select_mem m .emit c).mp hk).2.1
  | input m i => cases ((h.input_mem m i .emit c).mp hk).1
  | other k => cases k

theorem propagateList_emit_nil {fuel i : Nat} (h : ∀ c, w.bay.cb .emit c = [])
    (hrun : propagateList (muxNet mux).call .emit fuel i w = .ok w') : w' = w := by
  induction fuel generalizing i with
  | zero => cases hrun
  | succ fuel ih =>
      rw [propagateList] at hrun
      cases hc : w.bay.dirty[i]? with
      | none =>
          rw [hc] at hrun
          exact (Except.ok.inj hrun).symm
      | some c =>
          rw [hc] at hrun
          simp only [h c, List.head?_nil, propagateChan] at hrun
          exact ih hrun

/-- A propagation only calls the callbacks of the channels, from states of the run. -/
theorem SelectRun.propagate {fuel : Nat} (h : SelectRun mux ms w)
    (hset : ∀ visit ∈ listCalls (muxNet mux).call .dirty fuel 0 (w.setState .propagating),
      ∀ kw ∈ visit.2, ∀ m, kw.1 = .select m → ChoiceSet (mux m) kw.2.bay) :
    (∀ visit ∈ listCalls (muxNet mux).call .dirty fuel 0 (w.setState .propagating),
        ∀ kw ∈ visit.2, SelectRun mux ms kw.2 ∧ kw.1 ∈ kw.2.bay.cb .dirty visit.1) ∧
      ∀ w', bayPropagate (muxNet mux).call fuel w = .ok w' → SelectRun mux ms w' := by
  obtain ⟨hcalls, hlist⟩ := (h.phase .propagating).walk hset
  refine ⟨hcalls, fun w' hrun => ?_⟩
  obtain ⟨w1, hdirty, hrun⟩ := bind_ok hrun
  obtain ⟨w2, hemit, hrun⟩ := bind_ok hrun
  obtain ⟨b, hflush, hrun⟩ := bind_ok hrun
  have h1 := (hlist w1 hdirty).phase .emitting
  obtain rfl := propagateList_emit_nil h1.state.wired.emit_nil hemit
  rw [← Except.ok.inj hrun]
  exact ((h1.phase .flushing).flush hflush).phase .ready

end Run

/-! ## A mux without its input 0 -/

/-- A mux of two inputs with the default select function. -/
def pairMux (inputs : List (Option Nat)) : Mux Nat :=
  { select := 0, output := 1, inputs, selectFunc := none, def_ := .null }

/-- The mux alone in a bay. -/
def pairInit (inputs : List (Option Nat)) : MuxWorld Nat Unit Empty Unit :=
  okOr (muxWorld fun _ => chanInit .single)
    (connectMuxes (muxNet fun _ => pairMux inputs) [()] (muxWorld fun _ => chanInit .single))

/-- The mux with a value in its select channel. -/
def pairWorld (inputs : List (Option Nat)) (key : Int) : MuxWorld Nat Unit Empty Unit :=
  { pairInit inputs with
    bay := okOr (pairInit inputs).bay ((pairInit inputs).bay.chanSet 0 (.int64 key)) }

theorem pairWorld_run {inputs : List (Option Nat)} {key : Int}
    (hconnect : (connectMuxes (muxNet fun _ : Unit => pairMux inputs) [()]
      (muxWorld fun _ => chanInit .single)).isOk = true)
    (hset : ((pairInit inputs).bay.chanSet 0 (.int64 key)).isOk = true) :
    SelectRun (fun _ : Unit => pairMux inputs) [()] (pairWorld inputs key) :=
  .write (.connect (by simp) (fun _ => rfl) (eq_okOr _ hconnect))
    (show (BayOp.write (.set 0 (.int64 key))).run (pairInit inputs).bay = .ok _ from
      eq_okOr _ hset)

/-- Only the input 1 was set, and it is selected: the first selection wants to disable the
callback of the input 0, which is not there. -/
theorem cbSelect_unset_input :
    muxBuild (pairMux []) 2 [(1, 2)] = .ok (pairMux [none, some 2]) ∧
      SelectRun (fun _ : Unit => pairMux [none, some 2]) [()] (pairWorld [none, some 2] 1) ∧
      ChoiceSet (pairMux [none, some 2]) (pairWorld [none, some 2] 1).bay ∧
      ¬ SelectSafe (fun _ => pairMux [none, some 2]) (pairWorld [none, some 2] 1) () := by
  refine ⟨rfl, pairWorld_run (by decide +kernel) (by decide +kernel), fun i hi => ?_,
    fun hsafe => hsafe.nocrash rfl⟩
  obtain rfl : 1 = i := Option.some.inj (Except.ok.inj hi)
  exact ⟨2, rfl⟩

/-- The input 0 was set after the input 1. -/
theorem cbSelect_safe_both :
    SelectSafe (fun _ => pairMux [some 3, some 2]) (pairWorld [some 3, some 2] 1) () := by
  refine (cbSelect_safe_iff (pairWorld_run (by decide +kernel) (by decide +kernel)) (by simp)
    (show muxBuild (pairMux []) 2 [(1, 2), (0, 3)] = .ok (pairMux [some 3, some 2]) from rfl)
    fun i hi => ?_).mpr ⟨3, by simp⟩
  obtain rfl : 1 = i := Option.some.inj (Except.ok.inj hi)
  exact ⟨2, rfl⟩

end Ovni
