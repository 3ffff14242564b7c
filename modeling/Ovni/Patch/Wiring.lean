import Ovni.Mux.Lists
import Ovni.Patch.Frame

/-!
# The wiring of a bay

Once its parts are connected, the hooks of a bay stay where they are and the muxes
move the callbacks of their inputs only.  Every callback keeps this and the dirty
list, so both hold throughout a propagation.
-/

namespace Ovni

open Ovni.Lib

variable {χ μ ς ρ φ : Type}

/-! ## The parts -/

/-- The muxes among some parts. -/
def partMuxes (parts : List (Part μ ς ρ)) : List μ :=
  parts.filterMap fun
    | .mux m => some m
    | _ => none

theorem mem_partMuxes {parts : List (Part μ ς ρ)} {m : μ} :
    m ∈ partMuxes parts ↔ .mux m ∈ parts := by
  unfold partMuxes
  rw [List.mem_filterMap]
  constructor
  · rintro ⟨part, hpart, heq⟩
    cases part with
    | mux m' => exact Option.some.inj heq ▸ hpart
    | sort s => cases heq
    | sortInput s index => cases heq
    | prv r => cases heq
  · exact fun hmem => ⟨.mux m, hmem, rfl⟩

/-- The hooks among some parts. -/
def partHooks (parts : List (Part μ ς ρ)) : List (Hook ς ρ) :=
  parts.filterMap fun
    | .sortInput s index => some (.sort s index)
    | .prv r => some (.prv r)
    | _ => none

/-- The list of a channel that a hook belongs to. -/
def Hook.type : Hook ς ρ → BayCbType
  | .sort _ _ => .dirty
  | .prv _ => .emit

/-- The channel that a hook belongs to. -/
def Patch.hookChan (p : Patch χ μ ς ρ φ) : Hook ς ρ → Option χ
  | .sort s index => (p.sort s).inputs[index]?
  | .prv r => some (p.rchan r).chan

/-- The channels that some callback writes. -/
def Patch.Out (p : Patch χ μ ς ρ φ) (parts : List (Part μ ς ρ)) (c : χ) : Prop :=
  (∃ m ∈ partMuxes parts, c = (p.mux m).output) ∨ ∃ k ∈ partHooks parts, p.hookOuts k c

/-- The channels that a part of the bay writes. -/
def Patch.partOuts (p : Patch χ μ ς ρ φ) : Part μ ς ρ → List χ
  | .mux m => [(p.mux m).output]
  | .sort s => (p.sort s).outputs
  | .sortInput s _ => (p.sort s).outputs
  | .prv _ => []

section

variable [DecidableEq χ] [DecidableEq μ] [DecidableEq ς] [DecidableEq ρ] [DecidableEq φ]
  {p : Patch χ μ ς ρ φ} {parts : List (Part μ ς ρ)} {part : Part μ ς ρ}
  {w w' : PatchWorld χ μ ς ρ φ} {c : χ} {ty : BayCbType}

/-- The callback lists of a bay with these parts. -/
structure PatchWired (p : Patch χ μ ς ρ φ) (parts : List (Part μ ς ρ))
    (w : PatchWorld χ μ ς ρ φ) : Prop where
  wired : Wired p.net (partMuxes parts) w
  hook_mem : ∀ k ty c, .other k ∈ w.bay.cb ty c ↔
    k ∈ partHooks parts ∧ ty = k.type ∧ p.hookChan k = some c
  first : ∀ c, SelectFirst (w.bay.cb .dirty c)

/-- The writes of channels keep the wiring. -/
theorem PatchWired.bay (h : PatchWired p parts w) {b : Bay χ (Cb μ (Hook ς ρ))}
    (hcb : b.cb = w.bay.cb) (hen : b.enabled = w.bay.enabled)
    (hlike : ∀ c, Chan.Like (w.bay.chan c) (b.chan c)) :
    PatchWired p parts { w with bay := b } := by
  refine ⟨⟨?_, ?_, ?_, ?_, fun m hm => ?_⟩, ?_, ?_⟩
  · simpa only [hcb] using h.wired.nodup
  · simpa only [hcb] using h.wired.select_mem
  · simpa only [hcb, hen] using h.wired.input_mem
  · simpa only [hen] using h.wired.selected
  · rw [(hlike _).allowDup]
    exact h.wired.output m hm
  · simpa only [hcb] using h.hook_mem
  · simpa only [hcb] using h.first

/-- The state of the other modules does not matter for the wiring. -/
theorem PatchWired.sinks (h : PatchWired p parts w) (hbay : w'.bay = w.bay)
    (hsel : w'.mod.selected = w.mod.selected) : PatchWired p parts w' := by
  refine ⟨⟨?_, ?_, ?_, ?_, ?_⟩, ?_, ?_⟩
  · rw [hbay]
    exact h.wired.nodup
  · rw [hbay]
    exact h.wired.select_mem
  · rw [hbay]
    exact h.wired.input_mem
  · rw [hbay, hsel]
    exact h.wired.selected
  · rw [hbay]
    exact h.wired.output
  · rw [hbay]
    exact h.hook_mem
  · rw [hbay]
    exact h.first

/-! ## One callback -/

omit [DecidableEq ς] [DecidableEq ρ] [DecidableEq φ] [DecidableEq μ] in
/-- A written output in the terms of the bay. -/
theorem OutputSet.grown {mux : Mux χ} {v : Value} {b b' : Bay χ (Cb μ (Hook ς ρ))}
    (h : OutputSet mux v b b') (hd : b.DirtyOk) (hstate : b'.state = b.state) :
    Bay.Grown (· = mux.output) b b' := by
  have htouch := Bay.Grown.touch (· = mux.output) hd rfl
    (show Chan.Like (b.chan mux.output) { b.chan mux.output with value := v } from
      ⟨rfl, rfl, rfl, rfl, rfl⟩)
  refine ⟨hstate, ?_, ?_, ?_, ?_, h.dirtyOk hd⟩
  · rw [h.2.1]
    exact htouch.like
  · rw [h.2.1, h.2.2]
    exact htouch.same
  · rw [h.2.1]
    exact htouch.apart
  · rw [h.2.2]
    exact htouch.dirty

/-- A callback keeps the wiring, writes outputs only, and none in the emit phase. -/
theorem PatchWired.call (h : PatchWired p parts w) (hd : w.bay.DirtyOk) {k : Cb μ (Hook ς ρ)}
    (hk : k ∈ w.bay.cb ty c) (hrun : p.net.call k c w = .ok w') :
    PatchWired p parts w' ∧ Bay.Grown (p.Out parts) w.bay w'.bay ∧
      (ty = .emit → w'.bay = w.bay) := by
  cases k with
  | select m =>
      obtain ⟨hm, rfl, rfl⟩ := (h.wired.select_mem m ty c).mp hk
      obtain ⟨choice, -, hwired, hstep, -, -, hset⟩ := cbSelect_ok h.wired hm hrun
      have hmoved := cbSelect_moved hrun
      refine ⟨⟨hwired, fun k ty' c' => ?_, fun c' => ?_⟩, ?_, by simp⟩
      · rw [(hmoved ty' c').mem_iff (by simp)]
        exact h.hook_mem k ty' c'
      · exact (h.first c').moved (h.wired.nodup .dirty c') (hmoved .dirty c')
      · exact (hset.grown hd hstep.state).weaken fun x hx => Or.inl ⟨m, hm, hx⟩
  | input m j =>
      obtain ⟨rfl, hin, hon⟩ := (h.wired.input_mem m j ty c).mp hk
      have hm := (h.wired.selected m j hon).1
      obtain ⟨hwired, hstep, hset, -, -, hcb⟩ := cbInput_ok h.wired hm j hrun
      refine ⟨⟨hwired, ?_, ?_⟩, ?_, by simp⟩
      · rw [hcb]
        exact h.hook_mem
      · rw [hcb]
        exact h.first
      · exact (hset.grown hd hstep.state).weaken fun x hx => Or.inl ⟨m, hm, hx⟩
  | other k =>
      obtain ⟨hmem, rfl, -⟩ := (h.hook_mem k ty c).mp hk
      obtain ⟨hgrown, hcb, hen, hsel⟩ := hook_ok hd hrun
      refine ⟨?_, hgrown.weaken fun x hx => Or.inr ⟨k, hmem, hx⟩, fun hty => ?_⟩
      · exact (h.bay hcb hen hgrown.like).sinks rfl hsel
      · cases k with
        | sort s index => cases hty
        | prv r => exact (emit_bay hrun).1

/-- An invariant of the callbacks of a walk, on a bay that is wired. -/
theorem PatchWired.walk (P : PatchWorld χ μ ς ρ φ → Prop)
    (hstep : ∀ k c w w', PatchWired p parts w → w.bay.DirtyOk → P w → k ∈ w.bay.cb ty c →
      c ∈ w.bay.dirty → p.net.call k c w = .ok w' → P w')
    (h : PatchWired p parts w) (hd : w.bay.DirtyOk) (hP : P w) {fuel : Nat}
    (hrun : propagateList p.net.call ty fuel 0 w = .ok w') :
    PatchWired p parts w' ∧ Bay.Grown (p.Out parts) w.bay w'.bay ∧ P w' := by
  let Q : PatchWorld χ μ ς ρ φ → Prop := fun w1 =>
    PatchWired p parts w1 ∧ Bay.Grown (p.Out parts) w.bay w1.bay ∧ P w1
  have hvisit : ∀ (fuel i : Nat) c w1 w2, Q w1 → w1.bay.dirty[i]? = some c →
      propagateChan p.net.call ty c fuel (w1.bay.cb ty c).head? w1 = .ok w2 → Q w2 := by
    intro fuel i c w1 w2 hQ hc hchan
    refine (propagateChan_inv (fun R w1 => (Q w1 ∧ c ∈ w1.bay.dirty) ∧
      ∀ k ∈ R, k ∈ w1.bay.cb ty c) (fun R w1 h => h.1.1.1.wired.nodup ty c) ?_
      ⟨⟨hQ, List.mem_of_getElem? hc⟩, by rw [cbsFrom_head]; exact fun k hk => hk⟩ hchan).1.1
    rintro k w1 w2 ⟨⟨⟨hw1, hg1, hP1⟩, hmem⟩, hleft⟩ hcall
    have hk := hleft k List.mem_cons_self
    obtain ⟨hw2, hg2, -⟩ := hw1.call hg1.dirtyOk hk hcall
    exact ⟨⟨⟨hw2, hg1.trans hg2, hstep k c w1 w2 hw1 hg1.dirtyOk hP1 hk hmem hcall⟩,
      hg2.mono hmem⟩, fun x hx => mem_of_mem_cbsAfter hx⟩
  obtain ⟨-, hQ, -⟩ := propagateList_inv (fun _ w1 => Q w1) hvisit
    ⟨h, Bay.Grown.refl hd, hP⟩ hrun
  exact hQ

end

/-! ## Connecting -/

section Connect

variable [DecidableEq χ] [DecidableEq μ] [DecidableEq ς] [DecidableEq ρ] [DecidableEq φ]
  {p : Patch χ μ ς ρ φ} {parts : List (Part μ ς ρ)} {part : Part μ ς ρ}
  {w w' : PatchWorld χ μ ς ρ φ}

/-- A bay with these parts connected and nothing propagated. -/
structure PatchConnected (p : Patch χ μ ς ρ φ) (parts : List (Part μ ς ρ))
    (w : PatchWorld χ μ ς ρ φ) : Prop where
  connected : Connected p.net (partMuxes parts) w
  hook_mem : ∀ k ty c, .other k ∈ w.bay.cb ty c ↔
    k ∈ partHooks parts ∧ ty = k.type ∧ p.hookChan k = some c
  hook_enabled : ∀ k, w.bay.enabled (.other k) = true ↔ k ∈ partHooks parts

theorem PatchConnected.wired (h : PatchConnected p parts w) : PatchWired p parts w := by
  refine ⟨h.connected.wired, h.hook_mem, fun c m j _ hin => ?_⟩
  have := ((h.connected.wired.input_mem m j .dirty c).mp hin).2.2
  rw [h.connected.input m j] at this
  cases this

omit [DecidableEq μ] in
theorem PatchConnected.dirtyOk (h : PatchConnected p parts w) : w.bay.DirtyOk := by
  refine ⟨h.connected.nodirty ▸ List.nodup_nil, fun c => ?_⟩
  rw [h.connected.nodirty, h.connected.clean c]
  simp

/-- Connecting a hook. -/
theorem PatchConnected.hook (h : PatchConnected p parts w) {k : Hook ς ρ} {c : χ}
    (hk : k ∉ partHooks parts) (hchan : p.hookChan k = some c)
    (hhooks : partHooks (parts ++ [part]) = partHooks parts ++ [k])
    (hmuxes : partMuxes (parts ++ [part]) = partMuxes parts)
    (hbay : w'.bay = w.bay.enableCb k.type c (.other k))
    (hsel : w'.mod.selected = w.mod.selected) : PatchConnected p (parts ++ [part]) w' := by
  have hc := h.connected
  have hoff : w.bay.enabled (.other k) = false := by
    rw [← Bool.not_eq_true, h.hook_enabled]
    exact hk
  have hout : ∀ ty c', (.other k : Cb μ (Hook ς ρ)) ∉ w.bay.cb ty c' :=
    fun ty c' hmem => hk ((h.hook_mem k ty c').mp hmem).1
  refine ⟨?_, fun k' ty c' => ?_, fun k' => ?_⟩
  · rw [hmuxes]
    refine ⟨⟨?_, fun m ty c' => ?_, fun m i ty c' => ?_, fun m i => ?_, fun m hm => ?_⟩, ?_, ?_, ?_,
      fun m hm => ?_, fun m i => ?_, hc.loopless⟩
    · rw [hbay]
      exact nodup_enableCb hc.wired.nodup fun ty c' hmem => absurd hmem (hout ty c')
    · rw [hbay, mem_enableCb_of_ne (by simp)]
      exact hc.wired.select_mem m ty c'
    · rw [hbay, mem_enableCb_of_ne (by simp), enabled_enableCb, if_neg (by simp)]
      exact hc.wired.input_mem m i ty c'
    · rw [hbay, enabled_enableCb, if_neg (by simp), hsel]
      exact hc.wired.selected m i
    · rw [hbay, chan_enableCb]
      exact hc.wired.output m hm
    · rw [hbay, state_enableCb]
      exact hc.ready
    · rw [hbay, dirty_enableCb]
      exact hc.nodirty
    · rw [hbay, chan_enableCb]
      exact hc.clean
    · rw [hbay, enabled_enableCb, if_neg (by simp)]
      exact hc.select m hm
    · rw [hbay, enabled_enableCb, if_neg (by simp)]
      exact hc.input m i
  · rw [hhooks, hbay]
    by_cases hkk : k' = k
    · subst hkk
      rw [mem_enableCb_self hoff (hout ty c'), hchan]
      simp [eq_comm]
    · rw [mem_enableCb_of_ne (by simpa using hkk), h.hook_mem k' ty c']
      simp [hkk]
  · rw [hhooks, hbay, enabled_enableCb]
    by_cases hkk : k' = k
    · simp [hkk]
    · rw [if_neg (by simpa using hkk), h.hook_enabled k']
      simp [hkk]

omit [DecidableEq μ] [DecidableEq ρ] [DecidableEq φ] in
/-- The channels of a sort module once `sort_init` has set them up. -/
theorem sortInit_chan (s : ς) (c : χ) :
    (sortInit p w s).bay.chan c =
      if c ∈ (p.sort s).outputs then { chanInit .single with dirtyWrite := true, allowDup := true }
      else w.bay.chan c := by
  unfold sortInit World.setSinks
  simp only
  generalize (p.sort s).outputs = outs
  generalize w.bay = b
  induction outs generalizing b with
  | nil => rfl
  | cons out outs ih =>
      rw [List.foldl_cons, ih]
      by_cases hc : c = out
      · subst hc
        simp [Bay.put]
      · simp [Bay.put, hc]

omit [DecidableEq μ] [DecidableEq ρ] [DecidableEq φ] in
theorem sortInit_frame (s : ς) :
    (sortInit p w s).bay.cb = w.bay.cb ∧ (sortInit p w s).bay.enabled = w.bay.enabled ∧
      (sortInit p w s).bay.dirty = w.bay.dirty ∧ (sortInit p w s).bay.state = w.bay.state := by
  unfold sortInit World.setSinks
  simp only
  generalize (p.sort s).outputs = outs
  generalize w.bay = b
  induction outs generalizing b with
  | nil => exact ⟨rfl, rfl, rfl, rfl⟩
  | cons out outs ih =>
      rw [List.foldl_cons]
      exact ih _

omit [DecidableEq μ] in
/-- `sort_init` only adds clean channels. -/
theorem PatchConnected.sort (h : PatchConnected p parts w) (s : ς) :
    PatchConnected p (parts ++ [.sort s]) (sortInit p w s) := by
  have hc := h.connected
  obtain ⟨hcb, hen, hdirty, hstate⟩ := sortInit_frame (p := p) (w := w) s
  have hmuxes : partMuxes (parts ++ [(.sort s : Part μ ς ρ)]) = partMuxes parts := by
    simp [partMuxes]
  have hhooks : partHooks (parts ++ [(.sort s : Part μ ς ρ)]) = partHooks parts := by
    simp [partHooks]
  refine ⟨?_, ?_, ?_⟩
  · rw [hmuxes]
    refine ⟨⟨?_, ?_, ?_, ?_, fun m hm => ?_⟩, ?_, ?_, fun c => ?_, ?_, ?_, hc.loopless⟩
    · rw [hcb]
      exact hc.wired.nodup
    · rw [hcb]
      exact hc.wired.select_mem
    · rw [hcb, hen]
      exact hc.wired.input_mem
    · rw [hen]
      exact hc.wired.selected
    · rw [sortInit_chan]
      split
      · rfl
      · exact hc.wired.output m hm
    · rw [hstate]
      exact hc.ready
    · rw [hdirty]
      exact hc.nodirty
    · rw [sortInit_chan]
      split
      · rfl
      · exact hc.clean c
    · rw [hen]
      exact hc.select
    · rw [hen]
      exact hc.input
  · rw [hcb, hhooks]
    exact h.hook_mem
  · rw [hen, hhooks]
    exact h.hook_enabled

/-- `mux_init` leaves the hooks alone. -/
theorem PatchConnected.mux (h : PatchConnected p parts w) {m : μ} (hm : m ∉ partMuxes parts)
    (hrun : muxInit p.net w m = .ok w') : PatchConnected p (parts ++ [.mux m]) w' := by
  have hmuxes : partMuxes (parts ++ [(.mux m : Part μ ς ρ)]) = partMuxes parts ++ [m] := by
    simp [partMuxes]
  have hhooks : partHooks (parts ++ [(.mux m : Part μ ς ρ)]) = partHooks parts := by
    simp [partHooks]
  have hconn := muxInit_ok h.connected hm hrun
  have hbay : ∃ b : Bay χ (Cb μ (Hook ς ρ)), b.cb = w.bay.cb ∧ b.enabled = w.bay.enabled ∧
      w'.bay = b.enableCb .dirty (p.mux m).select (.select m) := by
    obtain ⟨-, -, rfl⟩ := muxInit_eq hrun
    exact ⟨w.bay.put (p.mux m).output
      { w.bay.chan (p.mux m).output with dirtyWrite := true, allowDup := true }, rfl, rfl, rfl⟩
  obtain ⟨b, hcb, hen, hbay⟩ := hbay
  refine ⟨hmuxes ▸ hconn, fun k ty c => ?_, fun k => ?_⟩
  · rw [hbay, mem_enableCb_of_ne (by simp), hcb, hhooks]
    exact h.hook_mem k ty c
  · rw [hbay, enabled_enableCb, if_neg (by simp), hen, hhooks]
    exact h.hook_enabled k

omit [DecidableEq χ] [DecidableEq μ] [DecidableEq ς] [DecidableEq ρ] [DecidableEq φ] in
theorem findPrvChan_self {r : ρ} {id : Int} {channels : List ρ} (hr : r ∈ channels)
    (hid : p.id r = .ok id) : findPrvChan p channels id = true := by
  unfold findPrvChan
  rw [List.any_eq_true]
  exact ⟨r, hr, by simp [hid]⟩

omit [DecidableEq ρ] [DecidableEq φ] in
/-- What `sort_set_input` does. -/
theorem sortSetInput_ok [DecidableEq ρ] {s : ς} {index : Nat}
    (h : sortSetInput p w s index = .ok w') :
    ∃ c, (p.sort s).inputs[index]? = some c ∧ w.bay.enabled (.other (.sort s index)) = false ∧
      w' = { w with bay := w.bay.enableCb .dirty c (.other (.sort s index)) } := by
  unfold sortSetInput at h
  cases hc : (p.sort s).inputs[index]? with
  | none =>
      rw [hc] at h
      cases h
  | some c =>
      rw [hc] at h
      simp only at h
      split at h
      · cases h
      · rename_i hoff
        exact ⟨c, rfl, by simpa using hoff, (Except.ok.inj h).symm⟩

/-- What `prv_register` does. -/
theorem prvRegister_ok {r : ρ} (h : prvRegister p w r = .ok w') :
    ∃ id, p.id r = .ok id ∧
      findPrvChan p (w.mod.other.prv (p.rchan r).prv).channels id = false ∧
      checkFlags (p.rchan r).flags = .ok () ∧
      w' = World.setSinks
        { w with bay := w.bay.enableCb .emit (p.rchan r).chan (.other (.prv r)) }
        { w.mod.other with
          lastValue := Function.update w.mod.other.lastValue r none
          prv := Function.update w.mod.other.prv (p.rchan r).prv
            { w.mod.other.prv (p.rchan r).prv with
              channels := (w.mod.other.prv (p.rchan r).prv).channels ++ [r] } } := by
  unfold prvRegister at h
  simp only at h
  obtain ⟨id, hid, h⟩ := bind_ok h
  obtain ⟨hfind, h⟩ := guard_ok h
  obtain ⟨u, hflags, h⟩ := bind_ok h
  exact ⟨id, hid, by simpa using hfind, hflags, (Except.ok.inj h).symm⟩

/-- The channels that the traces hold are those registered. -/
def Registered (p : Patch χ μ ς ρ φ) (parts : List (Part μ ς ρ)) (sinks : Sinks ς ρ φ) : Prop :=
  ∀ f r, r ∈ (sinks.prv f).channels ↔ .prv r ∈ partHooks parts ∧ (p.rchan r).prv = f

theorem connectPart_ok (h : PatchConnected p parts w) (hreg : Registered p parts w.mod.other)
    (hpart : part ∉ parts) (hrun : connectPart p w part = .ok w') :
    PatchConnected p (parts ++ [part]) w' ∧ Registered p (parts ++ [part]) w'.mod.other := by
  cases part with
  | mux m =>
      have hm : m ∉ partMuxes parts := by
        intro hmem
        obtain ⟨part, hpart', heq⟩ := List.mem_filterMap.mp hmem
        cases part <;> simp only [reduceCtorEq, Option.some.injEq] at heq
        exact hpart (heq ▸ hpart')
      refine ⟨h.mux hm hrun, fun f r => ?_⟩
      have hsinks : w'.mod.other = w.mod.other := by
        obtain ⟨-, -, rfl⟩ := muxInit_eq hrun
        rfl
      rw [hsinks, hreg f r]
      simp [partHooks]
  | sort s =>
      rw [connectPart] at hrun
      rw [← Except.ok.inj hrun]
      refine ⟨h.sort s, fun f r => ?_⟩
      have := hreg f r
      simpa [partHooks, sortInit, World.setSinks] using this
  | sortInput s index =>
      obtain ⟨c, hc, hoff, rfl⟩ := sortSetInput_ok hrun
      refine ⟨?_, fun f r => ?_⟩
      · refine h.hook (k := .sort s index) (fun hmem => ?_) hc (by simp [partHooks])
          (by simp [partMuxes]) rfl rfl
        rw [(h.hook_enabled _).mpr hmem] at hoff
        cases hoff
      · have := hreg f r
        simpa [partHooks] using this
  | prv r =>
      obtain ⟨id, hid, hfind, -, rfl⟩ := prvRegister_ok hrun
      have hr : .prv r ∉ partHooks parts := by
        intro hmem
        have hch := (hreg (p.rchan r).prv r).mpr ⟨hmem, rfl⟩
        rw [findPrvChan_self hch hid] at hfind
        cases hfind
      refine ⟨h.hook (k := .prv r) hr rfl (by simp [partHooks]) (by simp [partMuxes]) rfl rfl,
        fun f r' => ?_⟩
      have hhooks : partHooks (parts ++ [(.prv r : Part μ ς ρ)]) = partHooks parts ++ [.prv r] := by
        simp [partHooks]
      rw [hhooks, List.mem_append, List.mem_singleton]
      simp only [World.setSinks, Hook.prv.injEq]
      by_cases hf : f = (p.rchan r).prv
      · subst hf
        rw [Function.update_self]
        simp only [List.mem_append, List.mem_singleton]
        rw [hreg (p.rchan r).prv r']
        constructor
        · rintro (⟨hmem, hp⟩ | rfl)
          · exact ⟨Or.inl hmem, hp⟩
          · exact ⟨Or.inr rfl, rfl⟩
        · rintro ⟨hmem | rfl, hp⟩
          · exact Or.inl ⟨hmem, hp⟩
          · exact Or.inr rfl
      · rw [Function.update_of_ne hf, hreg f r']
        constructor
        · rintro ⟨hmem, hp⟩
          exact ⟨Or.inl hmem, hp⟩
        · rintro ⟨hmem | rfl, hp⟩
          · exact ⟨hmem, hp⟩
          · exact absurd hp.symm hf

/-- An invariant of connecting the parts one after the other. -/
theorem connectParts_inv (P : List (Part μ ς ρ) → PatchWorld χ μ ς ρ φ → Prop)
    (hstep : ∀ done part w w', PatchConnected p done w → Registered p done w.mod.other →
      P done w → connectPart p w part = .ok w' → P (done ++ [part]) w')
    {parts' : List (Part μ ς ρ)} (h : PatchConnected p parts w)
    (hreg : Registered p parts w.mod.other) (hP : P parts w) (hnodup : (parts ++ parts').Nodup)
    (hrun : connectParts p parts' w = .ok w') :
    PatchConnected p (parts ++ parts') w' ∧ Registered p (parts ++ parts') w'.mod.other ∧
      P (parts ++ parts') w' := by
  induction parts' generalizing parts w with
  | nil =>
      rw [connectParts] at hrun
      rw [← Except.ok.inj hrun, List.append_nil]
      exact ⟨h, hreg, hP⟩
  | cons part parts' ih =>
      rw [connectParts] at hrun
      obtain ⟨w1, hpart, hrest⟩ := bind_ok hrun
      have hnew : part ∉ parts := fun hmem =>
        (List.nodup_append.mp hnodup).2.2 part hmem part List.mem_cons_self rfl
      obtain ⟨h1, hreg1⟩ := connectPart_ok h hreg hnew hpart
      have := ih h1 hreg1 (hstep parts part w w1 h hreg hP hpart) (by simpa using hnodup) hrest
      simpa using this

omit [DecidableEq μ] in
theorem patchInit_connected {chan : χ → Chan} (hclean : ∀ c, (chan c).isDirty = false) :
    PatchConnected p [] (patchInit chan) ∧ Registered p [] (patchInit (μ := μ) chan).mod.other := by
  refine ⟨⟨Unwired.connected ⟨rfl, rfl, hclean, fun _ _ => List.nodup_nil,
    fun _ => ⟨rfl, fun _ _ => List.not_mem_nil⟩, fun _ _ => ⟨rfl, fun _ _ => List.not_mem_nil⟩⟩,
    fun k ty c => ?_, fun k => ?_⟩, fun f r => ?_⟩
  · simp [patchInit, Bay.init, partHooks]
  · simp [patchInit, Bay.init, partHooks]
  · simp [patchInit, partHooks]

omit [DecidableEq χ] [DecidableEq μ] [DecidableEq ς] [DecidableEq ρ] [DecidableEq φ] in
theorem not_out_of_partOuts (h : ∀ part ∈ parts, c ∉ p.partOuts part) : ¬ p.Out parts c := by
  rintro (⟨m, hm, rfl⟩ | ⟨k, hk, hc⟩)
  · exact h _ (mem_partMuxes.mp hm) (List.mem_singleton_self _)
  · obtain ⟨part, hpart, heq⟩ := List.mem_filterMap.mp hk
    cases k with
    | prv r => exact hc
    | sort s index =>
        cases part with
        | sortInput s' index' =>
            simp only [Option.some.injEq, Hook.sort.injEq] at heq
            apply h _ hpart
            rw [heq.1]
            exact hc
        | mux m => cases heq
        | sort s => cases heq
        | prv r => cases heq

/-- Connecting a part leaves the channels of others alone. -/
theorem connectPart_other (hc : c ∉ p.partOuts part)
    (hrun : connectPart p w part = .ok w') : w'.bay.chan c = w.bay.chan c := by
  cases part with
  | mux m =>
      obtain ⟨-, -, rfl⟩ := muxInit_eq hrun
      simp only [World.setSelected, chan_enableCb, Bay.put]
      exact Function.update_of_ne (fun heq => hc (List.mem_singleton.mpr heq)) _ _
  | sort s =>
      rw [connectPart] at hrun
      rw [← Except.ok.inj hrun]
      exact (sortInit_chan s c).trans (if_neg hc)
  | sortInput s index =>
      obtain ⟨x, -, -, rfl⟩ := sortSetInput_ok hrun
      rw [chan_enableCb]
  | prv r =>
      obtain ⟨id, -, -, -, rfl⟩ := prvRegister_ok hrun
      simp only [World.setSinks, chan_enableCb]

end Connect

end Ovni
