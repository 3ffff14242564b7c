import Mathlib.Data.Fintype.Card
import Ovni.Patch.Run

/-!
# Propagations terminate

Both loops of a propagation go over lists that their bodies change.  A channel
enters the dirty list at most once, because it is marked when it does.  In the walk
over the callbacks of a channel, a mux may take out and add again the callbacks of
its inputs, but its own callback is called first, so none is called twice.
-/

namespace Ovni

open Ovni.Lib

section Walk

variable {χ μ ς ρ φ : Type} [DecidableEq χ] [DecidableEq μ] [DecidableEq ς] [DecidableEq ρ]
  [DecidableEq φ] {p : Patch χ μ ς ρ φ} {parts : List (Part μ ς ρ)}
  {w w' : PatchWorld χ μ ς ρ φ} {c : χ} {ty : BayCbType} {fuel : Nat}

/-! ## One channel -/

/-- All callbacks of a bay. -/
def Patch.callbacks (p : Patch χ μ ς ρ φ) (parts : List (Part μ ς ρ)) :
    List (Cb μ (Hook ς ρ)) :=
  ((partMuxes parts).flatMap fun m =>
    .select m :: (List.range (p.mux m).inputs.length).map (.input m)) ++
    (partHooks parts).map .other

theorem PatchWired.mem_callbacks (h : PatchWired p parts w) {k : Cb μ (Hook ς ρ)}
    (hk : k ∈ w.bay.cb ty c) : k ∈ p.callbacks parts := by
  unfold Patch.callbacks
  rw [List.mem_append]
  cases k with
  | select m =>
      left
      exact List.mem_flatMap.mpr ⟨m, ((h.wired.select_mem m ty c).mp hk).1, List.mem_cons_self⟩
  | input m j =>
      left
      obtain ⟨-, hin, hon⟩ := (h.wired.input_mem m j ty c).mp hk
      refine List.mem_flatMap.mpr ⟨m, (h.wired.selected m j hon).1, List.mem_cons_of_mem _ ?_⟩
      refine List.mem_map.mpr ⟨j, List.mem_range.mpr ?_, rfl⟩
      unfold Mux.input at hin
      rw [Option.join_eq_some_iff] at hin
      exact (List.getElem?_eq_some_iff.mp hin).1
  | other k =>
      right
      exact List.mem_map.mpr ⟨k, ((h.hook_mem k ty c).mp hk).1, rfl⟩

/-- The walk over the callbacks of a channel, with those called so far and those
left. -/
structure CallsOnce (p : Patch χ μ ς ρ φ) (parts : List (Part μ ς ρ)) (ty : BayCbType) (c : χ)
    (called : List (Cb μ (Hook ς ρ))) (R : List (Cb μ (Hook ς ρ)))
    (w : PatchWorld χ μ ς ρ φ) : Prop where
  wired : PatchWired p parts w
  dirtyOk : w.bay.DirtyOk
  once : called.Nodup
  all : ∀ k ∈ called, k ∈ p.callbacks parts
  left : ∀ k ∈ R, k ∈ w.bay.cb ty c
  fresh : ∀ k ∈ R, k ∉ called
  cover : ∀ k ∈ w.bay.cb ty c, k ∈ R ∨ k ∈ called
  order : ∀ m j, .input m j ∈ called → .select m ∈ w.bay.cb ty c → .select m ∈ called

/-- A callback that leaves the list alone. -/
theorem CallsOnce.same {called : List (Cb μ (Hook ς ρ))} {k : Cb μ (Hook ς ρ)}
    (h : CallsOnce p parts ty c called (k :: cbsAfter k (w.bay.cb ty c)) w)
    (hw' : PatchWired p parts w') (hd' : w'.bay.DirtyOk) (hcb : w'.bay.cb ty c = w.bay.cb ty c)
    (horder : ∀ m j, k = .input m j → .select m ∈ w.bay.cb ty c → .select m ∈ called) :
    CallsOnce p parts ty c (k :: called) (cbsAfter k (w'.bay.cb ty c)) w' := by
  have hnodup := h.wired.wired.nodup ty c
  have hk := h.left k List.mem_cons_self
  rw [hcb]
  refine ⟨hw', hd', List.nodup_cons.mpr ⟨h.fresh k List.mem_cons_self, h.once⟩, ?_, ?_, ?_, ?_, ?_⟩
  · intro x hx
    rcases List.mem_cons.mp hx with rfl | hx
    · exact h.wired.mem_callbacks hk
    · exact h.all x hx
  · intro x hx
    rw [hcb]
    exact mem_of_mem_cbsAfter hx
  · intro x hx hmem
    rcases List.mem_cons.mp hmem with rfl | hmem
    · exact not_mem_cbsAfter_self hnodup hx
    · exact h.fresh x (List.mem_cons_of_mem k hx) hmem
  · intro x hx
    rw [hcb] at hx
    rcases h.cover x hx with hx | hx
    · rcases List.mem_cons.mp hx with rfl | hx
      · exact Or.inr List.mem_cons_self
      · exact Or.inl hx
    · exact Or.inr (List.mem_cons_of_mem k hx)
  · intro m j hin hsel
    rw [hcb] at hsel
    rcases List.mem_cons.mp hin with hin | hin
    · exact List.mem_cons_of_mem k (horder m j hin.symm hsel)
    · exact List.mem_cons_of_mem k (h.order m j hin hsel)

/-- The callback of a select channel may add callbacks of its inputs, which were not
called yet. -/
theorem CallsOnce.select {called : List (Cb μ (Hook ς ρ))} {m : μ}
    (h : CallsOnce p parts ty c called (.select m :: cbsAfter (.select m) (w.bay.cb ty c)) w)
    (hw' : PatchWired p parts w') (hd' : w'.bay.DirtyOk) (hty : ty = .dirty)
    (hmoved : Moved m (w.bay.cb ty c) (w'.bay.cb ty c))
    (hafter : ∀ x, (∀ i, x ≠ .input m i) → x ∈ cbsAfter (.select m) (w.bay.cb ty c) →
      x ∈ cbsAfter (.select m) (w'.bay.cb ty c)) :
    CallsOnce p parts ty c (.select m :: called) (cbsAfter (.select m) (w'.bay.cb ty c)) w' := by
  have hnodup := h.wired.wired.nodup ty c
  have hk := h.left (.select m) List.mem_cons_self
  have hnew := h.fresh (.select m) List.mem_cons_self
  have hk' : .select m ∈ w'.bay.cb ty c := (hmoved.mem_iff (by simp)).mpr hk
  refine ⟨hw', hd', List.nodup_cons.mpr ⟨hnew, h.once⟩, ?_, fun x hx => mem_of_mem_cbsAfter hx,
    ?_, ?_, ?_⟩
  · intro x hx
    rcases List.mem_cons.mp hx with rfl | hx
    · exact h.wired.mem_callbacks hk
    · exact h.all x hx
  · intro x hx hmem
    rcases hmoved.after (by simp) hx with hx | ⟨j, rfl⟩
    · rcases List.mem_cons.mp hmem with rfl | hmem
      · exact not_mem_cbsAfter_self hnodup hx
      · exact h.fresh x (List.mem_cons_of_mem _ hx) hmem
    · rcases List.mem_cons.mp hmem with hmem | hmem
      · cases hmem
      · exact hnew (h.order m j hmem hk)
  · intro x hx
    by_cases hin : ∃ j, x = .input m j
    · obtain ⟨j, rfl⟩ := hin
      left
      subst hty
      exact hw'.first c m j hk' hx
    · have hin' : ∀ j, x ≠ .input m j := fun j hj => hin ⟨j, hj⟩
      rcases h.cover x ((hmoved.mem_iff hin').mp hx) with hx | hx
      · rcases List.mem_cons.mp hx with rfl | hx
        · exact Or.inr List.mem_cons_self
        · exact Or.inl (hafter x hin' hx)
      · exact Or.inr (List.mem_cons_of_mem _ hx)
  · intro m' j hin hsel
    have hsel' : .select m' ∈ w.bay.cb ty c := (hmoved.mem_iff (by simp)).mp hsel
    rcases List.mem_cons.mp hin with hin | hin
    · cases hin
    · exact List.mem_cons_of_mem _ (h.order m' j hin hsel')

theorem CallsOnce.call {called : List (Cb μ (Hook ς ρ))} {k : Cb μ (Hook ς ρ)}
    (h : CallsOnce p parts ty c called (k :: cbsAfter k (w.bay.cb ty c)) w)
    (hrun : p.net.call k c w = .ok w') :
    CallsOnce p parts ty c (k :: called) (cbsAfter k (w'.bay.cb ty c)) w' := by
  have hk := h.left k List.mem_cons_self
  obtain ⟨hw', hg, -⟩ := h.wired.call h.dirtyOk hk hrun
  cases k with
  | select m =>
      obtain ⟨hm, hty, -⟩ := (h.wired.wired.select_mem m ty c).mp hk
      obtain ⟨-, -, -, hstep, -⟩ := cbSelect_ok h.wired.wired hm hrun
      exact h.select hw' hg.dirtyOk hty (cbSelect_moved hrun ty c) (hstep.after ty c)
  | input m j =>
      obtain ⟨hty, -⟩ := (h.wired.wired.input_mem m j ty c).mp hk
      apply h.same hw' hg.dirtyOk (by rw [(cbInput_lists hrun).1])
      intro m' j' heq hsel
      obtain ⟨rfl, rfl⟩ := Cb.input.inj heq
      subst hty
      -- The select callback is before the input, so it is not left
      have hfirst := h.wired.first c m j hsel hk
      rcases h.cover _ hsel with hleft | hcalled
      · rcases List.mem_cons.mp hleft with hself | hleft
        · cases hself
        · exact (cbsAfter_asymm (h.wired.wired.nodup .dirty c) hfirst hleft).elim
      · exact hcalled
  | other k =>
      obtain ⟨-, hcb, -⟩ := hook_ok h.dirtyOk hrun
      exact h.same hw' hg.dirtyOk (by rw [hcb]) fun m j heq => by cases heq

theorem CallsOnce.next {called : List (Cb μ (Hook ς ρ))} {k : Cb μ (Hook ς ρ)}
    (h : CallsOnce p parts ty c called (k :: cbsAfter k (w.bay.cb ty c)) w)
    (hrun : p.net.call k c w = .ok w') :
    CallsOnce p parts ty c (k :: called)
      (cbsFrom (cbsAfter k (w'.bay.cb ty c)).head? (w'.bay.cb ty c)) w' := by
  have hnext := h.call hrun
  rwa [cbsFrom_next (hnext.wired.wired.nodup ty c)]

/-- No callback is called twice on a channel. -/
theorem CallsOnce.nodup {called : List (Cb μ (Hook ς ρ))} {cur : Option (Cb μ (Hook ς ρ))}
    (h : CallsOnce p parts ty c called (cbsFrom cur (w.bay.cb ty c)) w) :
    ((chanCalls p.net.call ty c fuel cur w).map Prod.fst).Nodup ∧
      ∀ k ∈ (chanCalls p.net.call ty c fuel cur w).map Prod.fst, k ∉ called := by
  induction fuel generalizing called cur w with
  | zero => simp [chanCalls]
  | succ fuel ih =>
      cases cur with
      | none => simp [chanCalls]
      | some k =>
          have hk := h.fresh k List.mem_cons_self
          rw [chanCalls, List.map_cons, List.nodup_cons]
          cases hcall : p.net.call k c w with
          | error e => simpa using hk
          | ok w1 =>
              obtain ⟨hnodup, hnew⟩ := ih (h.next hcall)
              refine ⟨⟨fun hmem => hnew k hmem List.mem_cons_self, hnodup⟩, fun x hx => ?_⟩
              rcases List.mem_cons.mp hx with rfl | hx
              · exact hk
              · exact fun hmem => hnew x hx (List.mem_cons_of_mem k hmem)

/-! ## No callback loops -/

omit [DecidableEq ς] [DecidableEq ρ] [DecidableEq φ] in
theorem cbSelect_rounds {ν τ : Type} [DecidableEq ν] {net : Net χ μ ν τ} {m : μ}
    {w : MuxWorld χ μ ν τ} : cbSelect net m c w ≠ .error .rounds := by
  unfold cbSelect
  refine bind_ne_error ?_ fun w1 _ => bind_ne_error ?_ fun choice _ =>
    bind_ne_error ?_ fun wv _ => World.chanSet_ne_error (by simp)
  · unfold clearSelected
    split
    · simp only
      split <;> simp
    · simp
  · exact selectInput_ne_error (by simp)
  · unfold enableSelected
    split
    · simp
    · split <;> simp

theorem skipUntilOld_rounds {old : Int} {l : List Int} {i : Nat} :
    skipUntilOld old l i ≠ .error .rounds := by
  induction l generalizing i with
  | nil => simp [skipUntilOld]
  | cons x l ih =>
      rw [skipUntilOld]
      split
      · exact ih
      · simp

theorem sortReplace_rounds {arr : List Int} {old new : Int} :
    sortReplace arr old new ≠ .error .rounds := by
  unfold sortReplace
  apply guard_ne_error (by simp)
  split
  · simp only
    cases arr[arr.length / 2]? with
    | none => simp [throw, throwThe, MonadExceptOf.throw, bind, Except.bind]
    | some x =>
        refine bind_ne_error (by simp [pure, Except.pure]) fun start _ =>
          bind_ne_error skipUntilOld_rounds fun i _ => by simp [pure, Except.pure]
  · exact bind_ne_error skipUntilOld_rounds fun i _ => by simp [pure, Except.pure]

omit [DecidableEq μ] [DecidableEq ς] [DecidableEq ρ] [DecidableEq φ] in
theorem sortOutputs_rounds {κ : Type} {rows : List (χ × Int)} {b : Bay χ κ} :
    sortOutputs rows b ≠ .error .rounds := by
  induction rows generalizing b with
  | nil => simp [sortOutputs]
  | cons row rows ih =>
      obtain ⟨out, v⟩ := row
      rw [sortOutputs]
      split
      · exact ih
      · exact bind_ne_error (Bay.chanSet_ne_error (by simp)) fun b' _ => ih

omit [DecidableEq μ] in
theorem hook_rounds {k : Hook ς ρ} : p.net.other k c w ≠ .error .rounds := by
  cases k with
  | sort s index =>
      show sortCbInput p s index c w ≠ _
      unfold sortCbInput
      simp only
      split
      · simp [throw, throwThe, MonadExceptOf.throw]
      · split
        · simp [pure, Except.pure]
        · refine bind_ne_error ?_ fun sorted _ =>
            bind_ne_error sortOutputs_rounds fun b _ => by simp [pure, Except.pure]
          unfold sortUpdate
          split
          · exact sortReplace_rounds
          · simp
  | prv r =>
      show emit p r w ≠ _
      unfold emit
      simp only
      split
      · simp [pure, Except.pure]
      · simp [throw, throwThe, MonadExceptOf.throw]
      · refine bind_ne_error ?_ fun val _ => by simp [pure, Except.pure]
        unfold prvValue
        split
        · simp
        · refine guard_ne_error (by simp) (guard_ne_error (by simp) (by simp [pure, Except.pure]))
        · simp

theorem call_rounds {k : Cb μ (Hook ς ρ)} : p.net.call k c w ≠ .error .rounds := by
  cases k with
  | select m => exact cbSelect_rounds
  | input m j => exact World.chanSet_ne_error (by simp)
  | other k => exact hook_rounds

/-! ## The walks end -/

/-- The walk over the callbacks of a channel ends. -/
theorem CallsOnce.ends {called : List (Cb μ (Hook ς ρ))} {cur : Option (Cb μ (Hook ς ρ))}
    (h : CallsOnce p parts ty c called (cbsFrom cur (w.bay.cb ty c)) w)
    (hfuel : (p.callbacks parts).length ≤ fuel + called.length) :
    propagateChan p.net.call ty c fuel cur w ≠ .error .rounds := by
  induction fuel generalizing called cur w with
  | zero =>
      cases cur with
      | none => simp [propagateChan]
      | some k =>
          -- One more callback would be more than there are
          have hk := h.left k List.mem_cons_self
          have hnodup : (k :: called).Nodup :=
            List.nodup_cons.mpr ⟨h.fresh k List.mem_cons_self, h.once⟩
          have hsub : k :: called ⊆ p.callbacks parts := by
            intro x hx
            rcases List.mem_cons.mp hx with rfl | hx
            · exact h.wired.mem_callbacks hk
            · exact h.all x hx
          have hlen := (hnodup.subperm hsub).length_le
          simp only [List.length_cons] at hlen
          omega
  | succ fuel ih =>
      cases cur with
      | none => simp [propagateChan]
      | some k =>
          rw [propagateChan]
          refine bind_ne_error call_rounds fun w1 hcall => ih (h.next hcall) ?_
          simp only [List.length_cons]
          omega

/-- The walk at the start of the visit of a channel. -/
theorem CallsOnce.start (h : PatchWired p parts w) (hd : w.bay.DirtyOk) :
    CallsOnce p parts ty c [] (cbsFrom (w.bay.cb ty c).head? (w.bay.cb ty c)) w := by
  rw [cbsFrom_head]
  exact ⟨h, hd, List.nodup_nil, by simp, fun _ hk => hk, by simp, fun _ hk => Or.inl hk, by simp⟩

/-- A visit of a channel keeps the wiring and only adds to the dirty list. -/
theorem PatchWired.visit (h : PatchWired p parts w) (hd : w.bay.DirtyOk)
    (hrun : propagateChan p.net.call ty c fuel (w.bay.cb ty c).head? w = .ok w') :
    PatchWired p parts w' ∧ Bay.Grown (p.Out parts) w.bay w'.bay := by
  refine (propagateChan_inv (fun R w1 => (PatchWired p parts w1 ∧
    Bay.Grown (p.Out parts) w.bay w1.bay) ∧ ∀ k ∈ R, k ∈ w1.bay.cb ty c)
    (fun R w1 h => h.1.1.wired.nodup ty c) ?_
    ⟨⟨h, Bay.Grown.refl hd⟩, by rw [cbsFrom_head]; exact fun k hk => hk⟩ hrun).1
  rintro k w1 w2 ⟨⟨hw1, hg1⟩, hleft⟩ hcall
  obtain ⟨hw2, hg2, -⟩ := hw1.call hg1.dirtyOk (hleft k List.mem_cons_self) hcall
  exact ⟨⟨hw2, hg1.trans hg2⟩, fun x hx => mem_of_mem_cbsAfter hx⟩

/-- The walk over the dirty list ends. -/
theorem PatchWired.ends [Fintype χ] (h : PatchWired p parts w) (hd : w.bay.DirtyOk) {i : Nat}
    (hi : i ≤ w.bay.dirty.length)
    (hfuel : Fintype.card χ + (p.callbacks parts).length < fuel + i) :
    propagateList p.net.call ty fuel i w ≠ .error .rounds := by
  induction fuel generalizing i w with
  | zero =>
      have := hd.nodup.length_le_card
      omega
  | succ fuel ih =>
      rw [propagateList]
      cases hc : w.bay.dirty[i]? with
      | none => simp
      | some c =>
          obtain ⟨hlt, -⟩ := List.getElem?_eq_some_iff.mp hc
          have hcard := hd.nodup.length_le_card
          refine bind_ne_error ((CallsOnce.start h hd).ends ?_) fun w1 hchan => ?_
          · simp only [List.length_nil]
            omega
          · obtain ⟨hw1, hg1⟩ := h.visit hd hchan
            obtain ⟨l, hl, -⟩ := hg1.dirty
            refine ih hw1 hg1.dirtyOk ?_ (by omega)
            rw [hl, List.length_append]
            omega

/-- The channels that a walk visits are different. -/
theorem PatchWired.visits_nodup (h : PatchWired p parts w) (hd : w.bay.DirtyOk) (i : Nat) :
    ((listCalls p.net.call ty fuel i w).map Prod.fst).Nodup ∧
      ∀ c ∈ (listCalls p.net.call ty fuel i w).map Prod.fst, c ∉ w.bay.dirty.take i := by
  induction fuel generalizing i w with
  | zero => simp [listCalls]
  | succ fuel ih =>
      rw [listCalls]
      cases hc : w.bay.dirty[i]? with
      | none => simp
      | some c =>
          obtain ⟨hlt, hget⟩ := List.getElem?_eq_some_iff.mp hc
          have htake : w.bay.dirty.take (i + 1) = w.bay.dirty.take i ++ [c] := by
            rw [List.take_succ_eq_append_getElem hlt, hget]
          have hnew : c ∉ w.bay.dirty.take i := by
            have := hd.nodup.sublist (List.take_sublist (i + 1) w.bay.dirty)
            rw [htake, List.nodup_append] at this
            exact fun hmem => this.2.2 c hmem c List.mem_cons_self rfl
          simp only [List.map_cons, List.nodup_cons]
          cases hchan : propagateChan p.net.call ty c fuel (w.bay.cb ty c).head? w with
          | error e => simpa using hnew
          | ok w1 =>
              obtain ⟨hw1, hg1⟩ := h.visit hd hchan
              obtain ⟨l, hl, -⟩ := hg1.dirty
              obtain ⟨hnodup, hout⟩ := ih hw1 hg1.dirtyOk (i + 1)
              rw [hl, List.take_append_of_le_length hlt, htake] at hout
              refine ⟨⟨fun hmem => hout c hmem (by simp), hnodup⟩, fun x hx => ?_⟩
              rcases List.mem_cons.mp hx with rfl | hx
              · exact hnew
              · exact fun hmem => hout x hx (List.mem_append_left _ hmem)

/-! ## Whole propagations -/

/-- In a walk over the dirty list every channel is visited at most once, and every
callback that is called is enabled on its channel and called at most once there. -/
def OnceEach (p : Patch χ μ ς ρ φ) (ty : BayCbType) (fuel : Nat)
    (w : PatchWorld χ μ ς ρ φ) : Prop :=
  ((listCalls p.net.call ty fuel 0 w).map Prod.fst).Nodup ∧
    ∀ visit ∈ listCalls p.net.call ty fuel 0 w, (visit.2.map Prod.fst).Nodup ∧
      ∀ kw ∈ visit.2, kw.1 ∈ kw.2.bay.cb ty visit.1

theorem PatchWired.onceEach (h : PatchWired p parts w) (hd : w.bay.DirtyOk) :
    OnceEach p ty fuel w := by
  refine ⟨(h.visits_nodup hd 0).1, fun visit hvisit =>
    ⟨?_, fun kw hkw => (h.calls hd visit hvisit kw hkw).2.2.2⟩⟩
  obtain ⟨j, w0, fuel', ⟨hw0, hd0⟩, -, hcalls⟩ := listCalls_inv
    (fun _ w1 => PatchWired p parts w1 ∧ w1.bay.DirtyOk)
    (fun fuel i c w1 w2 hw _ hchan => by
      obtain ⟨hw2, hg2⟩ := hw.1.visit hw.2 hchan
      exact ⟨hw2, hg2.dirtyOk⟩)
    ⟨h, hd⟩ visit hvisit
  rw [hcalls]
  exact (CallsOnce.start hw0 hd0).nodup.1

omit [DecidableEq μ] [DecidableEq ς] [DecidableEq ρ] [DecidableEq φ] in
theorem Bay.flushAll_rounds {κ : Type} {cs : List χ} {b : Bay χ κ} :
    b.flushAll cs ≠ .error .rounds := by
  induction cs generalizing b with
  | nil => simp [flushAll]
  | cons c cs ih =>
      rw [flushAll]
      refine bind_ne_error ?_ fun b' _ => ih
      unfold chanFlush
      split <;> simp

/-- Every propagation ends, whatever the muxes and sort modules are connected to: the
dirty list only grows, by channels that were not in it, and no callback is called
twice on a channel. -/
theorem bay_propagate_terminates [Fintype χ] {chan : χ → Chan} {hist : List (Propagation χ φ)}
    (h : PatchRun p parts chan hist w) :
    (∀ fuel, Fintype.card χ + (p.callbacks parts).length < fuel →
      bayPropagate p.net.call fuel w ≠ .error .rounds) ∧
    ∀ fuel, OnceEach p .dirty fuel (w.setState .propagating) ∧
      ∀ w1, propagateList p.net.call .dirty fuel 0 (w.setState .propagating) = .ok w1 →
        (∃ l, w1.bay.dirty = w.bay.dirty ++ l) ∧ w1.bay.dirty.Nodup ∧
          OnceEach p .emit fuel (w1.setState .emitting) := by
  have hready := h.ready
  have hw : PatchWired p parts (w.setState .propagating) :=
    hready.wired.bay rfl rfl fun c => Chan.Like.refl _
  have hd : (w.setState .propagating).bay.DirtyOk :=
    ⟨hready.dirtyOk.nodup, hready.dirtyOk.mem_iff⟩
  have hphase : ∀ fuel w1,
      propagateList p.net.call .dirty fuel 0 (w.setState .propagating) = .ok w1 →
      Bay.Grown (p.Out parts) (w.setState .propagating).bay w1.bay ∧
      PatchWired p parts (w1.setState .emitting) ∧ (w1.setState .emitting).bay.DirtyOk := by
    intro fuel w1 hdirty
    obtain ⟨hw1, hg1, -⟩ := hw.walk (fun _ => True) (fun _ _ _ _ _ _ _ _ _ _ => trivial) hd
      trivial hdirty
    exact ⟨hg1, hw1.bay rfl rfl fun c => Chan.Like.refl _,
      ⟨hg1.dirtyOk.nodup, hg1.dirtyOk.mem_iff⟩⟩
  constructor
  · intro fuel hfuel
    unfold bayPropagate
    apply bind_ne_error (hw.ends hd (Nat.zero_le _) hfuel)
    intro w1 hdirty
    obtain ⟨-, hw1, hd1⟩ := hphase fuel w1 hdirty
    exact bind_ne_error (hw1.ends hd1 (Nat.zero_le _) hfuel) fun w2 _ =>
      bind_ne_error Bay.flushAll_rounds fun b _ => by simp [pure, Except.pure]
  · intro fuel
    refine ⟨hw.onceEach hd, fun w1 hdirty => ?_⟩
    obtain ⟨hg1, hw1, hd1⟩ := hphase fuel w1 hdirty
    obtain ⟨l, hl, -⟩ := hg1.dirty
    exact ⟨⟨l, hl⟩, hg1.dirtyOk.nodup, hw1.onceEach hd1⟩

end Walk

theorem bay_propagate_terminates_demo :
    bayPropagate demoPatch.net.call 20 (demoWritten demoOps) ≠ .error .rounds := by
  have hrun := demo_written demoOps (by decide +kernel) (by decide +kernel)
  exact (bay_propagate_terminates hrun).1 20 (by decide)

end Ovni
