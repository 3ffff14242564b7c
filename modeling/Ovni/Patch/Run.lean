import Ovni.Bay.Calls
import Ovni.Mux.Network
import Ovni.Patch.Wiring

/-!
# Runs of a bay

The parts are connected to clean channels, and then channels are written, the
traces advance and the bay propagates, in any order.  The dirty list is the only
record of what has to be propagated, emitted and flushed, and it always holds
exactly the dirty channels.
-/

namespace Ovni

open Ovni.Lib

/-! ## Runs -/

/-- What a propagation leaves to be seen: the times of the traces, the values of the
channels and the lines that were written. -/
structure Propagation (χ φ : Type) where
  time : φ → Int
  read : χ → Value
  lines : φ → List PrvLine

section Run

variable {χ μ ς ρ φ : Type} [DecidableEq χ] [DecidableEq μ] [DecidableEq ς] [DecidableEq ρ]
  [DecidableEq φ]

/-- The runs of a bay, with the propagations so far, the last one first. -/
inductive PatchRun (p : Patch χ μ ς ρ φ) (parts : List (Part μ ς ρ)) (chan : χ → Chan) :
    List (Propagation χ φ) → PatchWorld χ μ ς ρ φ → Prop where
  | connect {w : PatchWorld χ μ ς ρ φ} (hchan : ∀ c, Unregistered (chan c))
      (hclean : ∀ c, (chan c).isDirty = false) (honce : parts.Nodup)
      (hrun : connectParts p parts (patchInit chan) = .ok w) : PatchRun p parts chan [] w
  | write {hist : List (Propagation χ φ)} {w : PatchWorld χ μ ς ρ φ} {op : BayOp χ}
      {b : Bay χ (Cb μ (Hook ς ρ))} (h : PatchRun p parts chan hist w)
      (hrun : op.run w.bay = .ok b) : PatchRun p parts chan hist { w with bay := b }
  | advance {hist : List (Propagation χ φ)} {w w' : PatchWorld χ μ ς ρ φ} {f : φ} {time : Int}
      (h : PatchRun p parts chan hist w) (hrun : w.prvAdvance f time = .ok w') :
      PatchRun p parts chan hist w'
  | propagate {hist : List (Propagation χ φ)} {w w' : PatchWorld χ μ ς ρ φ} {fuel : Nat}
      {lines : φ → List PrvLine} (h : PatchRun p parts chan hist w)
      (hlines : ∀ f, (w'.mod.other.prv f).lines = lines f ++ (w.mod.other.prv f).lines)
      (hrun : bayPropagate p.net.call fuel w = .ok w') :
      PatchRun p parts chan
        ({ time := fun f => (w.mod.other.prv f).time, read := w'.bay.read, lines } :: hist) w'

/-! ## The points of a propagation -/

/-- The bays between the writes of the outputs of a sort module. -/
def sortPoints {κ : Type} : List (χ × Int) → Bay χ κ → List (Bay χ κ)
  | [], _ => []
  | (out, v) :: rest, b =>
      if b.read out = .int64 v then sortPoints rest b
      else
        match b.chanSet out (.int64 v) with
        | .ok b' => b' :: sortPoints rest b'
        | .error _ => []

/-- The bays inside a call of a callback; those of muxes and traces write at most one
channel, at their end. -/
def Patch.inside (p : Patch χ μ ς ρ φ) (k : Cb μ (Hook ς ρ)) (c : χ)
    (w : PatchWorld χ μ ς ρ φ) : List (Bay χ (Cb μ (Hook ς ρ))) :=
  match k with
  | .other (.sort s index) =>
      let st := w.mod.other.sort s
      let old := st.values.getD index 0
      let new := (w.bay.read c).toSort
      if old = new then []
      else
        match sortUpdate st (st.values.set index new) old new with
        | .ok sorted => sortPoints ((p.sort s).outputs.zip sorted) w.bay
        | .error _ => []
  | _ => []

/-- The bays before, inside and after each call of a walk over the dirty list. -/
def Patch.points (p : Patch χ μ ς ρ φ) (ty : BayCbType) (fuel : Nat)
    (w : PatchWorld χ μ ς ρ φ) : List (Bay χ (Cb μ (Hook ς ρ))) :=
  (listCalls p.net.call ty fuel 0 w).flatMap fun visit => visit.2.flatMap fun kw =>
    kw.2.bay :: p.inside kw.1 visit.1 kw.2 ++
      match p.net.call kw.1 visit.1 kw.2 with
      | .ok w' => [w'.bay]
      | .error _ => []

variable {p : Patch χ μ ς ρ φ} {parts : List (Part μ ς ρ)} {chan : χ → Chan}
  {hist : List (Propagation χ φ)} {w w' : PatchWorld χ μ ς ρ φ} {c : χ} {ty : BayCbType}
  {fuel : Nat}

omit [DecidableEq μ] [DecidableEq ς] [DecidableEq ρ] [DecidableEq φ] in
theorem sortPoints_grown {κ : Type} {rows : List (χ × Int)} {b : Bay χ κ} (hd : b.DirtyOk) :
    ∀ b' ∈ sortPoints rows b, b'.DirtyOk := by
  induction rows generalizing b with
  | nil => simp [sortPoints]
  | cons row rows ih =>
      obtain ⟨out, v⟩ := row
      intro b' hb'
      rw [sortPoints] at hb'
      split at hb'
      · exact ih hd b' hb'
      · cases hset : b.chanSet out (.int64 v) with
        | error e => simp [hset] at hb'
        | ok b1 =>
            rw [hset, List.mem_cons] at hb'
            have h1 := (Bay.Grown.chanSet (fun _ => True) hd trivial hset).dirtyOk
            rcases hb' with rfl | hb'
            · exact h1
            · exact ih h1 b' hb'

omit [DecidableEq μ] [DecidableEq ς] [DecidableEq ρ] [DecidableEq φ] in
theorem Patch.inside_dirtyOk {k : Cb μ (Hook ς ρ)} (hd : w.bay.DirtyOk) :
    ∀ b ∈ p.inside k c w, b.DirtyOk := by
  intro b hb
  unfold Patch.inside at hb
  split at hb
  · simp only at hb
    split at hb
    · cases hb
    · split at hb
      · exact sortPoints_grown hd b hb
      · cases hb
  · cases hb

/-- Every call of a walk happens on a bay that is wired, after the writes of the
earlier calls. -/
theorem PatchWired.calls (h : PatchWired p parts w) (hd : w.bay.DirtyOk) :
    ∀ visit ∈ listCalls p.net.call ty fuel 0 w, ∀ kw ∈ visit.2,
      PatchWired p parts kw.2 ∧ Bay.Grown (p.Out parts) w.bay kw.2.bay ∧
        (ty = .emit → kw.2.bay = w.bay) ∧ kw.1 ∈ kw.2.bay.cb ty visit.1 := by
  let Q : PatchWorld χ μ ς ρ φ → Prop := fun w1 => PatchWired p parts w1 ∧
    Bay.Grown (p.Out parts) w.bay w1.bay ∧ (ty = .emit → w1.bay = w.bay)
  have hcall : ∀ c k w1 w2, Q w1 ∧ (∀ x ∈ k :: cbsAfter k (w1.bay.cb ty c), x ∈ w1.bay.cb ty c) →
      p.net.call k c w1 = .ok w2 →
      Q w2 ∧ ∀ x ∈ cbsAfter k (w2.bay.cb ty c), x ∈ w2.bay.cb ty c := by
    rintro c k w1 w2 ⟨⟨hw1, hg1, he1⟩, hleft⟩ hcall
    obtain ⟨hw2, hg2, he2⟩ := hw1.call hg1.dirtyOk (hleft k List.mem_cons_self) hcall
    exact ⟨⟨hw2, hg1.trans hg2, fun hty => (he2 hty).trans (he1 hty)⟩,
      fun x hx => mem_of_mem_cbsAfter hx⟩
  have hstart : ∀ c w1, Q w1 → Q w1 ∧ ∀ x ∈ cbsFrom (w1.bay.cb ty c).head? (w1.bay.cb ty c),
      x ∈ w1.bay.cb ty c := fun c w1 hQ => ⟨hQ, by rw [cbsFrom_head]; exact fun x hx => hx⟩
  intro visit hvisit kw hkw
  obtain ⟨j, w0, fuel', hQ, -, hcalls⟩ := listCalls_inv (fun _ w1 => Q w1)
    (fun fuel i c w1 w2 hQ _ hchan => (propagateChan_inv
      (fun R w1 => Q w1 ∧ ∀ x ∈ R, x ∈ w1.bay.cb ty c) (fun R w1 h => h.1.1.wired.nodup ty c)
      (hcall c) (hstart c w1 hQ) hchan).1)
    ⟨h, Bay.Grown.refl hd, fun _ => rfl⟩ visit hvisit
  rw [hcalls] at hkw
  obtain ⟨⟨hw, hg, he⟩, hmem⟩ := chanCalls_inv
    (fun R w1 => Q w1 ∧ ∀ x ∈ R, x ∈ w1.bay.cb ty visit.1)
    (fun R w1 h => h.1.1.wired.nodup ty visit.1) (hcall visit.1) (hstart visit.1 w0 hQ) kw hkw
  exact ⟨hw, hg, he, hmem kw.1 List.mem_cons_self⟩

/-- The dirty list is exact at every point of a walk. -/
theorem PatchWired.points_dirtyOk (h : PatchWired p parts w) (hd : w.bay.DirtyOk) :
    ∀ b ∈ p.points ty fuel w, b.DirtyOk := by
  intro b hb
  unfold Patch.points at hb
  obtain ⟨visit, hvisit, hb⟩ := List.mem_flatMap.mp hb
  obtain ⟨kw, hkw, hb⟩ := List.mem_flatMap.mp hb
  obtain ⟨hw, hg, -, hmem⟩ := h.calls hd visit hvisit kw hkw
  rcases List.mem_append.mp hb with hb | hb
  · rcases List.mem_cons.mp hb with rfl | hb
    · exact hg.dirtyOk
    · exact p.inside_dirtyOk hg.dirtyOk b hb
  · cases hcall : p.net.call kw.1 visit.1 kw.2 with
    | error e => simp [hcall] at hb
    | ok w' =>
        rw [hcall, List.mem_singleton] at hb
        rw [hb]
        exact (hw.call hg.dirtyOk hmem hcall).2.1.dirtyOk

/-- The bay does not change in the emit phase. -/
theorem PatchWired.points_emit (h : PatchWired p parts w) (hd : w.bay.DirtyOk) :
    ∀ b ∈ p.points .emit fuel w, b = w.bay := by
  intro b hb
  unfold Patch.points at hb
  obtain ⟨visit, hvisit, hb⟩ := List.mem_flatMap.mp hb
  obtain ⟨kw, hkw, hb⟩ := List.mem_flatMap.mp hb
  obtain ⟨hw, hg, hsame, hmem⟩ := h.calls hd visit hvisit kw hkw
  rcases List.mem_append.mp hb with hb | hb
  · rcases List.mem_cons.mp hb with rfl | hb
    · exact hsame rfl
    · exfalso
      unfold Patch.inside at hb
      split at hb
      · rename_i s index hk
        rw [hk, hw.hook_mem] at hmem
        cases hmem.2.1
      · cases hb
  · cases hcall : p.net.call kw.1 visit.1 kw.2 with
    | error e => simp [hcall] at hb
    | ok w' =>
        rw [hcall, List.mem_singleton] at hb
        rw [hb, (hw.call hg.dirtyOk hmem hcall).2.2 rfl]
        exact hsame rfl

/-! ## Between propagations -/

/-- Connecting a part only changes what the writes of a channel are checked for, or
makes a new channel. -/
theorem connectPart_chan {part : Part μ ς ρ} (hrun : connectPart p w part = .ok w') (c : χ) :
    (∃ dirtyWrite allowDup, w'.bay.chan c = { w.bay.chan c with dirtyWrite, allowDup } ∧
        ((w.bay.chan c).allowDup = true → allowDup = true)) ∨
      w'.bay.chan c = { chanInit .single with dirtyWrite := true, allowDup := true } := by
  have hself : ∀ w' : PatchWorld χ μ ς ρ φ, w'.bay.chan c = w.bay.chan c →
      ∃ dirtyWrite allowDup, w'.bay.chan c = { w.bay.chan c with dirtyWrite, allowDup } ∧
        ((w.bay.chan c).allowDup = true → allowDup = true) :=
    fun w' heq => ⟨(w.bay.chan c).dirtyWrite, (w.bay.chan c).allowDup, heq, id⟩
  cases part with
  | mux m =>
      left
      obtain ⟨-, -, rfl⟩ := muxInit_eq hrun
      by_cases hc : c = (p.net.mux m).output
      · refine ⟨true, true, ?_, fun _ => rfl⟩
        simp only [World.setSelected, chan_enableCb, Bay.put]
        rw [hc, Function.update_self]
      · apply hself
        simp only [World.setSelected, chan_enableCb, Bay.put]
        rw [Function.update_of_ne hc]
  | sort s =>
      rw [connectPart] at hrun
      rw [← Except.ok.inj hrun]
      have hchan := sortInit_chan (p := p) (w := w) s c
      split at hchan
      · exact Or.inr hchan
      · exact Or.inl (hself _ hchan)
  | sortInput s index =>
      obtain ⟨x, -, -, rfl⟩ := sortSetInput_ok hrun
      exact Or.inl (hself _ (by rw [chan_enableCb]))
  | prv r =>
      obtain ⟨id, -, -, -, rfl⟩ := prvRegister_ok hrun
      exact Or.inl (hself _ (by simp only [World.setSinks, chan_enableCb]))

/-- A bay between two operations. -/
structure PatchReady (p : Patch χ μ ς ρ φ) (parts : List (Part μ ς ρ))
    (w : PatchWorld χ μ ς ρ φ) : Prop where
  wired : PatchWired p parts w
  ready : w.bay.state = .ready
  dirtyOk : w.bay.DirtyOk
  flushed : ∀ c, (w.bay.chan c).isDirty = false → (w.bay.chan c).lastValue = w.bay.read c

theorem PatchReady.connect (hchan : ∀ c, Unregistered (chan c))
    (hclean : ∀ c, (chan c).isDirty = false) (honce : parts.Nodup)
    (hrun : connectParts p parts (patchInit chan) = .ok w) : PatchReady p parts w := by
  obtain ⟨hinit, hreg⟩ := patchInit_connected (p := p) hclean
  obtain ⟨hconn, -, hlast⟩ := connectParts_inv
    (fun _ w => ∀ c, (w.bay.chan c).lastValue = w.bay.read c)
    (fun done part w w' _ _ hlast hpart c => by
      unfold Bay.read
      rcases connectPart_chan hpart c with ⟨_, _, heq, -⟩ | heq
      · rw [heq]
        exact hlast c
      · rw [heq]
        rfl)
    hinit hreg (fun c => (hchan c).lastValue (hclean c)) (by simpa using honce) hrun
  exact ⟨hconn.wired, hconn.connected.ready, hconn.dirtyOk, fun c _ => hlast c⟩

theorem PatchReady.write (h : PatchReady p parts w) {op : BayOp χ}
    {b : Bay χ (Cb μ (Hook ς ρ))} (hrun : op.run w.bay = .ok b) :
    PatchReady p parts { w with bay := b } := by
  rcases op.run_ok hrun with rfl | ⟨chan, hlike, rfl⟩
  · exact h
  · have hgrown := Bay.Grown.touch (fun _ => True) h.dirtyOk trivial hlike
    refine ⟨h.wired.bay rfl rfl hgrown.like, h.ready, hgrown.dirtyOk, fun c hc => ?_⟩
    have hne : c ≠ op.chan := by
      rintro rfl
      rw [Bay.touch_chan_self] at hc
      cases hc
    rw [Bay.touch_chan_of_ne _ hne] at hc ⊢
    rw [Bay.touch_read_of_ne _ hne]
    exact h.flushed c hc

omit [DecidableEq χ] [DecidableEq μ] [DecidableEq ς] [DecidableEq ρ] in
theorem prvAdvance_ok {f : φ} {time : Int} (h : w.prvAdvance f time = .ok w') :
    (w.mod.other.prv f).time ≤ time ∧ w' = w.setSinks { w.mod.other with
      prv := Function.update w.mod.other.prv f { w.mod.other.prv f with time } } := by
  unfold World.prvAdvance at h
  simp only at h
  split at h
  · cases h
  · rename_i hle
    exact ⟨by omega, (Except.ok.inj h).symm⟩

/-- The world after each phase of a propagation. -/
theorem PatchReady.phases (h : PatchReady p parts w)
    (hrun : bayPropagate p.net.call fuel w = .ok w') :
    ∃ w1 w2, propagateList p.net.call .dirty fuel 0 (w.setState .propagating) = .ok w1 ∧
      propagateList p.net.call .emit fuel 0 (w1.setState .emitting) = .ok w2 ∧
      PatchWired p parts w1 ∧ Bay.Grown (p.Out parts) (w.setState .propagating).bay w1.bay ∧
      PatchWired p parts w2 ∧ w2.bay = (w1.setState .emitting).bay ∧
      w' = { w2 with bay := { w2.bay with
        chan := fun c => if c ∈ w2.bay.dirty then Bay.flushed (w2.bay.chan c) else w2.bay.chan c
        dirty := []
        state := .ready } } := by
  obtain ⟨w1, w2, hdirty, hemit, hw'⟩ := bayPropagate_ok hrun
  have hw : PatchWired p parts (w.setState .propagating) :=
    h.wired.bay rfl rfl fun c => Chan.Like.refl _
  obtain ⟨hw1, hg1, -⟩ := hw.walk (fun _ => True) (fun _ _ _ _ _ _ _ _ _ _ => trivial)
    ⟨h.dirtyOk.nodup, h.dirtyOk.mem_iff⟩ trivial hdirty
  have hw1' : PatchWired p parts (w1.setState .emitting) :=
    hw1.bay rfl rfl fun c => Chan.Like.refl _
  obtain ⟨hw2, -, hsame⟩ := hw1'.walk (fun w2 => w2.bay = (w1.setState .emitting).bay)
    (fun k c w w' hw hd hP hk _ hcall => ((hw.call hd hk hcall).2.2 rfl).trans hP)
    ⟨hg1.dirtyOk.nodup, hg1.dirtyOk.mem_iff⟩ rfl hemit
  exact ⟨w1, w2, hdirty, hemit, hw1, hg1, hw2, hsame, hw'⟩

/-- After a propagation every channel is clean and flushed. -/
theorem PatchReady.propagate (h : PatchReady p parts w)
    (hrun : bayPropagate p.net.call fuel w = .ok w') :
    PatchReady p parts w' ∧ w'.bay.dirty = [] ∧ ∀ c, (w'.bay.chan c).isDirty = false := by
  obtain ⟨w1, w2, -, -, -, hg1, hw2, hsame, rfl⟩ := h.phases hrun
  have hd2 : w2.bay.DirtyOk := by
    rw [hsame]
    exact ⟨hg1.dirtyOk.nodup, hg1.dirtyOk.mem_iff⟩
  have hclean : ∀ c, ((if c ∈ w2.bay.dirty then Bay.flushed (w2.bay.chan c)
      else w2.bay.chan c) : Chan).isDirty = false := by
    intro c
    split
    · rfl
    · rename_i hc
      rw [hd2.mem_iff] at hc
      simpa using hc
  refine ⟨⟨?_, rfl, ⟨List.nodup_nil, fun c => ?_⟩, fun c _ => ?_⟩, rfl, hclean⟩
  · refine ⟨⟨hw2.wired.nodup, hw2.wired.select_mem, hw2.wired.input_mem, hw2.wired.selected,
      fun m hm => ?_⟩, hw2.hook_mem, hw2.first⟩
    have := hw2.wired.output m hm
    simp only
    split
    · exact this
    · exact this
  · simp only [hclean c]
    simp
  · -- A channel that was not dirty is as it was before the propagation
    unfold Bay.read
    simp only
    split
    · rfl
    · rename_i hc
      have hchan : w2.bay.chan c = w.bay.chan c := by
        rw [hsame] at hc ⊢
        exact hg1.same c hc
      rw [hd2.mem_iff, hchan] at hc
      rw [hchan]
      exact h.flushed c (by simpa using hc)

/-- Every point of a run between two operations. -/
theorem PatchRun.ready (h : PatchRun p parts chan hist w) : PatchReady p parts w := by
  induction h with
  | connect hchan hclean honce hrun => exact PatchReady.connect hchan hclean honce hrun
  | write _ hrun ih => exact ih.write hrun
  | advance _ hrun ih =>
      obtain ⟨-, rfl⟩ := prvAdvance_ok hrun
      exact ⟨ih.wired.sinks rfl rfl, ih.ready, ih.dirtyOk, ih.flushed⟩
  | propagate _ _ hrun ih => exact (ih.propagate hrun).1

/-- In every run the dirty list holds exactly the dirty channels, each once, also at
every point of the dirty and emit phases; no channel becomes dirty in the emit phase
or in the flush; and a propagation leaves every channel clean and flushed. -/
theorem bay_dirty_list_exact (h : PatchRun p parts chan hist w) :
    w.bay.DirtyOk ∧ ∀ fuel w', bayPropagate p.net.call fuel w = .ok w' →
      ∃ w1, propagateList p.net.call .dirty fuel 0 (w.setState .propagating) = .ok w1 ∧
        (∀ b ∈ p.points .dirty fuel (w.setState .propagating), b.DirtyOk) ∧
        w1.bay.DirtyOk ∧
        (∀ b ∈ p.points .emit fuel (w1.setState .emitting),
          b.DirtyOk ∧ ∀ c, (b.chan c).isDirty = (w1.bay.chan c).isDirty) ∧
        (∀ cs b, cs <+: w1.bay.dirty → (w1.setState .flushing).bay.flushAll cs = .ok b →
          ∀ c, (b.chan c).isDirty = true → (w1.bay.chan c).isDirty = true) ∧
        w'.bay.dirty = [] ∧ w'.bay.state = .ready ∧
        ∀ c, (w'.bay.chan c).isDirty = false ∧ (w'.bay.chan c).lastValue = w'.bay.read c := by
  have hready := h.ready
  refine ⟨hready.dirtyOk, fun fuel w' hrun => ?_⟩
  obtain ⟨w1, w2, hdirty, hemit, hw1, hg1, -⟩ := hready.phases hrun
  obtain ⟨hready', hnil, hclean⟩ := hready.propagate hrun
  have hw : PatchWired p parts (w.setState .propagating) :=
    hready.wired.bay rfl rfl fun c => Chan.Like.refl _
  have hw1' : PatchWired p parts (w1.setState .emitting) :=
    hw1.bay rfl rfl fun c => Chan.Like.refl _
  have hd1 : (w1.setState .emitting).bay.DirtyOk := ⟨hg1.dirtyOk.nodup, hg1.dirtyOk.mem_iff⟩
  refine ⟨w1, hdirty, hw.points_dirtyOk ⟨hready.dirtyOk.nodup, hready.dirtyOk.mem_iff⟩,
    hg1.dirtyOk, fun b hb => ?_, fun cs b _ hflush c hc => ?_, hnil, hready'.ready,
    fun c => ⟨hclean c, hready'.flushed c (hclean c)⟩⟩
  · rw [hw1'.points_emit hd1 b hb]
    exact ⟨hd1, fun c => rfl⟩
  · rw [Bay.flushAll_ok hflush] at hc
    simp only at hc
    split at hc
    · cases hc
    · exact hc

end Run

/-! ## A small bay -/

/-- A mux whose select channel 0 is also its second input, a sort module on its output
and a trace of the sorted value. -/
def demoPatch : Patch (Fin 4) Unit Unit Unit Unit where
  mux _ := { select := 0, output := 2, inputs := [some 1, some 0], selectFunc := none,
             def_ := .null }
  sort _ := { inputs := [2], outputs := [3], same := rfl }
  rchan _ := { prv := (), chan := 3, row := 0, type := 7,
               flags := { emitDup := false, skipDup := true, next := false, zero := true,
                          skipDupNull := false } }
  nrows _ := 1

/-- Its parts in the order they are connected. -/
def demoParts : List (Part Unit Unit Unit) := [.mux (), .sort (), .sortInput () 0, .prv ()]

/-- The small bay, connected. -/
def demoConnected : PatchWorld (Fin 4) Unit Unit Unit Unit :=
  okOr (patchInit fun _ => chanInit .single)
    (connectParts demoPatch demoParts (patchInit fun _ => chanInit .single))

/-- The small bay after some writes. -/
def demoWritten (ops : List (ChanOp (Fin 4))) : PatchWorld (Fin 4) Unit Unit Unit Unit :=
  { demoConnected with bay := okOr demoConnected.bay (writeAll ops demoConnected.bay) }

/-- The small bay after a propagation. -/
def demoPropagated (w : PatchWorld (Fin 4) Unit Unit Unit Unit) :
    PatchWorld (Fin 4) Unit Unit Unit Unit :=
  okOr w (bayPropagate demoPatch.net.call 20 w)

/-- Writing the first input and selecting it. -/
def demoOps : List (ChanOp (Fin 4)) := [.set 1 (.int64 5), .set 0 (.int64 0)]

theorem demo_connect (h : (connectParts demoPatch demoParts
    (patchInit fun _ => chanInit .single)).isOk = true) :
    PatchRun demoPatch demoParts (fun _ => chanInit .single) [] demoConnected :=
  .connect (fun _ => .init .single) (fun _ => rfl) (by decide) (eq_okOr _ h)

theorem PatchRun.writeAll {χ μ ς ρ φ : Type} [DecidableEq χ] [DecidableEq μ] [DecidableEq ς]
    [DecidableEq ρ] [DecidableEq φ] {p : Patch χ μ ς ρ φ} {parts : List (Part μ ς ρ)}
    {chan : χ → Chan} {hist : List (Propagation χ φ)} {w : PatchWorld χ μ ς ρ φ}
    {ops : List (ChanOp χ)} {b : Bay χ (Cb μ (Hook ς ρ))} (h : PatchRun p parts chan hist w)
    (hrun : Ovni.writeAll ops w.bay = .ok b) : PatchRun p parts chan hist { w with bay := b } := by
  induction ops generalizing w with
  | nil =>
      rw [Ovni.writeAll] at hrun
      rw [← Except.ok.inj hrun]
      exact h
  | cons op ops ih =>
      rw [Ovni.writeAll] at hrun
      obtain ⟨b1, hop, hrest⟩ := bind_ok hrun
      have hnext : PatchRun p parts chan hist { w with bay := b1 } :=
        h.write (show (BayOp.write op).run w.bay = .ok b1 from hop)
      have hall := ih hnext hrest
      exact hall

theorem demo_written (ops : List (ChanOp (Fin 4)))
    (hconn : (connectParts demoPatch demoParts
      (patchInit fun _ => chanInit .single)).isOk = true)
    (hops : (writeAll ops demoConnected.bay).isOk = true) :
    PatchRun demoPatch demoParts (fun _ => chanInit .single) [] (demoWritten ops) :=
  (demo_connect hconn).writeAll (eq_okOr _ hops)

theorem bay_dirty_list_exact_demo :
    (demoWritten demoOps).bay.dirty = [1, 0] ∧
      (demoPropagated (demoWritten demoOps)).bay.dirty = [] ∧
      (demoPropagated (demoWritten demoOps)).bay.read 3 = .int64 5 ∧
      ∀ c, ((demoPropagated (demoWritten demoOps)).bay.chan c).isDirty = false := by
  have hrun := demo_written demoOps (by decide +kernel) (by decide +kernel)
  obtain ⟨-, hprop⟩ := bay_dirty_list_exact hrun
  obtain ⟨w1, -, -, -, -, -, hnil, -, hclean⟩ := hprop 20 _ (eq_okOr _ (by decide +kernel))
  exact ⟨by decide +kernel, hnil, by decide +kernel, fun c => (hclean c).1⟩

end Ovni
