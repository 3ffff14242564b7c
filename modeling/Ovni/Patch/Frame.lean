import Ovni.Lib.Except
import Ovni.Mux.Propagate
import Ovni.Patch.Model

/-!
# What callbacks do to the bay

Whatever the muxes, sort modules and traces of a bay are, a callback only writes
channels, which are then in the dirty list, and moves the callbacks of the inputs
of one mux.  The emit callbacks do not write any channel.
-/

namespace Ovni

open Ovni.Lib

/-! ## Writes -/

/-- What any number of writes of the channels `src` does: the dirty list only grows,
and what is not in it has not changed. -/
structure Bay.Grown {χ κ : Type} (src : χ → Prop) (b b' : Bay χ κ) : Prop where
  state : b'.state = b.state
  like : ∀ c, Chan.Like (b.chan c) (b'.chan c)
  same : ∀ c, c ∉ b'.dirty → b'.chan c = b.chan c
  apart : ∀ c, ¬ src c → b'.chan c = b.chan c
  dirty : ∃ l, b'.dirty = b.dirty ++ l ∧ ∀ c ∈ l, src c
  dirtyOk : b'.DirtyOk

namespace Bay.Grown

variable {χ κ : Type} {src src' : χ → Prop} {b b' b'' : Bay χ κ} {c : χ}

theorem of_eq (hd : b.DirtyOk) (hstate : b'.state = b.state) (hchan : b'.chan = b.chan)
    (hdirty : b'.dirty = b.dirty) : Bay.Grown src b b' := by
  refine ⟨hstate, fun c => hchan ▸ Chan.Like.refl _, fun c _ => by rw [hchan],
    fun c _ => by rw [hchan], ⟨[], by simp [hdirty], by simp⟩, ?_⟩
  exact ⟨hdirty ▸ hd.nodup, by rw [hdirty, hchan]; exact hd.mem_iff⟩

theorem refl (hd : b.DirtyOk) : Bay.Grown src b b := of_eq hd rfl rfl rfl

theorem mono (h : Bay.Grown src b b') (hc : c ∈ b.dirty) : c ∈ b'.dirty := by
  obtain ⟨l, hl, -⟩ := h.dirty
  rw [hl]
  exact List.mem_append_left _ hc

theorem weaken (h : Bay.Grown src b b') (hsrc : ∀ c, src c → src' c) : Bay.Grown src' b b' := by
  obtain ⟨l, hl, hmem⟩ := h.dirty
  exact ⟨h.state, h.like, h.same, fun c hc => h.apart c fun hs => hc (hsrc c hs),
    ⟨l, hl, fun c hc => hsrc c (hmem c hc)⟩, h.dirtyOk⟩

theorem trans (h : Bay.Grown src b b') (h' : Bay.Grown src b' b'') : Bay.Grown src b b'' := by
  refine ⟨h'.state.trans h.state, fun c => ?_, fun c hc => ?_, fun c hc => ?_, ?_, h'.dirtyOk⟩
  · have h1 := h.like c
    have h2 := h'.like c
    exact ⟨h2.type.trans h1.type, h2.dirtyWrite.trans h1.dirtyWrite,
      h2.allowDup.trans h1.allowDup, h2.ignoreDup.trans h1.ignoreDup,
      h2.lastValue.trans h1.lastValue⟩
  · rw [h'.same c hc]
    exact h.same c fun hmem => hc (h'.mono hmem)
  · rw [h'.apart c hc, h.apart c hc]
  · obtain ⟨l, hl, hmem⟩ := h.dirty
    obtain ⟨l', hl', hmem'⟩ := h'.dirty
    refine ⟨l ++ l', by rw [hl', hl, List.append_assoc], fun c hc => ?_⟩
    rcases List.mem_append.mp hc with hc | hc
    · exact hmem c hc
    · exact hmem' c hc

theorem read_of_not_mem (h : Bay.Grown src b b') (hc : c ∉ b'.dirty) : b'.read c = b.read c := by
  unfold Bay.read
  rw [h.same c hc]

theorem read_of_not_src (h : Bay.Grown src b b') (hc : ¬ src c) : b'.read c = b.read c := by
  unfold Bay.read
  rw [h.apart c hc]

variable [DecidableEq χ]

theorem touch (src : χ → Prop) (hd : b.DirtyOk) (hc : src c) {chan : Chan}
    (hlike : Chan.Like (b.chan c) chan) : Bay.Grown src b (b.touch c chan) := by
  have hw := Bay.Written.touch hd hc hlike
  refine ⟨rfl, hw.like, hw.same, hw.apart, ?_, hw.dirtyOk⟩
  rcases touch_dirty_cases hd (c := c) chan with ⟨-, hdirty⟩ | ⟨-, hdirty⟩
  · exact ⟨[], by simp [hdirty], by simp⟩
  · refine ⟨[c], hdirty, fun x hx => ?_⟩
    rw [List.mem_singleton.mp hx]
    exact hc

theorem chanSet (src : χ → Prop) (hd : b.DirtyOk) (hc : src c) {v : Value}
    (hset : b.chanSet c v = .ok b') : Bay.Grown src b b' := by
  obtain ⟨-, -, hres⟩ := Bay.chanSet_ok hset
  rcases hres with ⟨rfl, -⟩ | ⟨rfl, -⟩
  · exact refl hd
  · exact touch src hd hc ⟨rfl, rfl, rfl, rfl, rfl⟩

theorem op (src : χ → Prop) (hd : b.DirtyOk) {op : ChanOp χ} (hc : src op.chan)
    (hrun : op.run b = .ok b') : Bay.Grown src b b' := by
  rcases op.run_ok hrun with rfl | ⟨chan, hlike, rfl⟩
  · exact refl hd
  · exact touch src hd hc hlike

end Bay.Grown

/-- A write leaves the callbacks alone. -/
theorem Bay.chanSet_cbs {χ κ : Type} [DecidableEq χ] {b b' : Bay χ κ} {c : χ} {v : Value}
    (h : b.chanSet c v = .ok b') : b'.cb = b.cb ∧ b'.enabled = b.enabled := by
  obtain ⟨-, -, hres⟩ := Bay.chanSet_ok h
  rcases hres with ⟨rfl, -⟩ | ⟨rfl, -⟩
  · exact ⟨rfl, rfl⟩
  · exact ⟨rfl, rfl⟩

/-! ## The callbacks of the other modules -/

section Hooks

variable {χ μ ς ρ φ : Type} [DecidableEq χ] {p : Patch χ μ ς ρ φ} {w w' : PatchWorld χ μ ς ρ φ}

/-- Writing the outputs of a sort module. -/
theorem sortOutputs_ok {κ : Type} {rows : List (χ × Int)} {b b' : Bay χ κ} (hd : b.DirtyOk)
    (h : sortOutputs rows b = .ok b') :
    Bay.Grown (fun c => c ∈ rows.map Prod.fst) b b' ∧ b'.cb = b.cb ∧ b'.enabled = b.enabled := by
  induction rows generalizing b with
  | nil =>
      rw [sortOutputs] at h
      rw [← Except.ok.inj h]
      exact ⟨Bay.Grown.refl hd, rfl, rfl⟩
  | cons row rows ih =>
      obtain ⟨out, v⟩ := row
      rw [sortOutputs] at h
      have hweak : ∀ c, c ∈ rows.map Prod.fst → c ∈ ((out, v) :: rows).map Prod.fst :=
        fun c hc => List.mem_cons_of_mem _ hc
      split at h
      · obtain ⟨hgrown, hcbs⟩ := ih hd h
        exact ⟨hgrown.weaken hweak, hcbs⟩
      · obtain ⟨b1, hset, hrest⟩ := bind_ok h
        have hfirst := Bay.Grown.chanSet (fun c => c ∈ ((out, v) :: rows).map Prod.fst) hd
          (by simp) hset
        obtain ⟨hgrown, hcb, hen⟩ := ih hfirst.dirtyOk hrest
        obtain ⟨hcb1, hen1⟩ := Bay.chanSet_cbs hset
        exact ⟨hfirst.trans (hgrown.weaken hweak), hcb.trans hcb1, hen.trans hen1⟩

/-- What the callback of a sort input can do: nothing when its value is the same, or
write the sorted values to the outputs. -/
theorem sortCbInput_ok [DecidableEq ς] {s : ς} {index : Nat} {c : χ}
    (h : sortCbInput p s index c w = .ok w') :
    ∃ old, (w.mod.other.sort s).values[index]? = some old ∧
      ((old = (w.bay.read c).toSort ∧ w' = w) ∨
        old ≠ (w.bay.read c).toSort ∧
        ∃ sorted b', sortUpdate (w.mod.other.sort s)
            ((w.mod.other.sort s).values.set index (w.bay.read c).toSort) old
            (w.bay.read c).toSort = .ok sorted ∧
          sortOutputs ((p.sort s).outputs.zip sorted) w.bay = .ok b' ∧
          w' = { bay := b',
                 mod := { w.mod with other := { w.mod.other with
                   sort := Function.update w.mod.other.sort s
                     { values := (w.mod.other.sort s).values.set index (w.bay.read c).toSort,
                       sorted, copied := true } } } }) := by
  unfold sortCbInput at h
  simp only at h
  cases hold : (w.mod.other.sort s).values[index]? with
  | none =>
      rw [hold] at h
      cases h
  | some old =>
      rw [hold] at h
      refine ⟨old, rfl, ?_⟩
      simp only at h
      split at h
      · rename_i heq
        exact Or.inl ⟨heq, (Except.ok.inj h).symm⟩
      · rename_i hne
        obtain ⟨sorted, hsorted, h⟩ := bind_ok h
        obtain ⟨b', hb', h⟩ := bind_ok h
        exact Or.inr ⟨hne, sorted, b', hsorted, hb', (Except.ok.inj h).symm⟩

omit [DecidableEq χ] in
/-- A callback of a Paraver channel leaves the bay and the sort modules alone. -/
theorem emit_bay [DecidableEq ρ] [DecidableEq φ] {r : ρ} (h : emit p r w = .ok w') :
    w'.bay = w.bay ∧ w'.mod.selected = w.mod.selected ∧
      w'.mod.other.sort = w.mod.other.sort := by
  unfold emit at h
  simp only at h
  split at h
  · rw [← Except.ok.inj h]
    exact ⟨rfl, rfl, rfl⟩
  · cases h
  · obtain ⟨val, -, h⟩ := bind_ok h
    rw [← Except.ok.inj h]
    exact ⟨rfl, rfl, rfl⟩

variable [DecidableEq ς] [DecidableEq ρ] [DecidableEq φ]

/-- The channels that a hook writes. -/
def Patch.hookOuts (p : Patch χ μ ς ρ φ) : Hook ς ρ → χ → Prop
  | .sort s _ => fun c => c ∈ (p.sort s).outputs
  | .prv _ => fun _ => False

/-- A hook only writes the outputs of its sort module. -/
theorem hook_ok [DecidableEq μ] {k : Hook ς ρ} {c : χ} (hd : w.bay.DirtyOk)
    (h : p.net.other k c w = .ok w') :
    Bay.Grown (p.hookOuts k) w.bay w'.bay ∧ w'.bay.cb = w.bay.cb ∧
      w'.bay.enabled = w.bay.enabled ∧ w'.mod.selected = w.mod.selected := by
  cases k with
  | sort s index =>
      obtain ⟨old, -, ⟨-, rfl⟩ | ⟨-, sorted, b', -, hb', rfl⟩⟩ := sortCbInput_ok h
      · exact ⟨Bay.Grown.refl hd, rfl, rfl, rfl⟩
      · obtain ⟨hgrown, hcb, hen⟩ := sortOutputs_ok hd hb'
        refine ⟨hgrown.weaken fun x hx => ?_, hcb, hen, rfl⟩
        obtain ⟨⟨out, v⟩, hmem, rfl⟩ := List.mem_map.mp hx
        exact (List.of_mem_zip hmem).1
  | prv r =>
      obtain ⟨hbay, hsel, -⟩ := emit_bay h
      rw [hbay]
      exact ⟨Bay.Grown.refl hd, rfl, rfl, hsel⟩

end Hooks

end Ovni
