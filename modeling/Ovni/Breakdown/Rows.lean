import Ovni.Breakdown.Channels
import Ovni.Patch.Order

/-!
# The rows of the breakdown

The channel `tri` of a CPU may be written several times in a propagation, but the sort
module reads it once, when it is visited.  All the channels that `tri` follows are before
it in the dirty list: the tracks of a CPU are connected in the order of their channels, so
the subsystem track is written before the idle track when the running thread of the CPU
changes, and no event writes the idle channel of a thread with its subsystem or its type.
So the rows are the sorted values at the end of the propagation.
-/

namespace Ovni

open Ovni.Lib

/-- The kinds of steps: a handler changes the system, or the idle channels of threads, or
what else the breakdown shows of a thread, and never two of them. -/
inductive StepKind where
  | sys
  | idle
  | other
  deriving DecidableEq

theorem StepKind.eq_sys {kind : StepKind} (hidle : kind ≠ .idle) (hother : kind ≠ .other) :
    kind = .sys := by
  cases kind with
  | sys => rfl
  | idle => exact absurd rfl hidle
  | other => exact absurd rfl hother

section

variable {θ γ π ℓ ξ μ ς ρ φ : Type}

/-- The channels that a step of this kind may write before the bay propagates. -/
def StepKind.Allows (ch : BreakdownThread θ ξ) (kind : StepKind) (x : EmuChan θ γ ξ) : Prop :=
  match kind with
  | .sys => ∀ t, x ≠ .model (ch.ss t) ∧ x ≠ .model (ch.tt t) ∧ x ≠ .model (ch.idle t)
  | .idle => ¬ x.IsSys ∧ ∀ t, x ≠ .model (ch.ss t) ∧ x ≠ .model (ch.tt t)
  | .other => ¬ x.IsSys ∧ ∀ t, x ≠ .model (ch.idle t)

variable {sys : System θ γ π ℓ} {p : Patch (EmuChan θ γ ξ) μ ς ρ φ} {parts : List (Part μ ς ρ)}
  {model : ξ → Chan} {k : BreakdownModel} {c : γ} {ch : BreakdownThread θ ξ} {b : BreakdownCpu ξ}
  {m : BreakdownCpu μ} {x : EmuChan θ γ ξ}

/-! ## The muxes of a CPU -/

/-- The outputs of the muxes. -/
structure BreakdownOuts (p : Patch (EmuChan θ γ ξ) μ ς ρ φ) (b : BreakdownCpu ξ)
    (m : BreakdownCpu μ) : Prop where
  ss : (p.mux m.ss).output = .model b.ss
  tt : (p.mux m.tt).output = .model b.tt
  idle : (p.mux m.idle).output = .model b.idle
  tr : (p.mux m.tr).output = .model b.tr
  tri : (p.mux m.tri).output = .model b.tri

theorem BreakdownSetup.outs (hset : BreakdownSetup sys p parts model k c ch b m) :
    BreakdownOuts p b m := by
  refine ⟨?_, ?_, ?_, ?_, ?_⟩
  · rw [hset.ss.mux]
    rfl
  · rw [hset.tt.mux]
    rfl
  · rw [hset.idle.mux]
    rfl
  · rw [hset.tr.2]
    rfl
  · rw [hset.tri.2]
    rfl

theorem EmuBay.alone (hbay : EmuBay p parts) {m' : μ} (hm' : m' ∈ partMuxes parts) :
    MuxAlone p parts m' :=
  ⟨hm', fun m'' hm'' heq => hbay.mux m' hm' m'' hm'' heq,
    fun hsort => (hbay.sort _ hsort).2 m' hm' rfl⟩

/-- The idle track is not the subsystem track. -/
theorem BreakdownSetup.idle_ne_ss (hset : BreakdownSetup sys p parts model k c ch b m) :
    m.ss ≠ m.idle := by
  intro heq
  have hmux := hset.ss.mux
  rw [heq, hset.idle.mux] at hmux
  cases congrArg Mux.def_ hmux

/-! ## Which channels are dirty -/

/-- The dirty list in the dirty phase of a step that started with `start`, and the causes
of the channels of the breakdown in it. -/
structure Spread (p : Patch (EmuChan θ γ ξ) μ ς ρ φ) (parts : List (Part μ ς ρ))
    (m : BreakdownCpu μ) (start : List (EmuChan θ γ ξ)) (w : PatchWorld (EmuChan θ γ ξ) μ ς ρ φ) :
    Prop where
  grown : ∃ l, w.bay.dirty = start ++ l ∧ ∀ x ∈ l, p.Out parts x
  ss : Caused p m.ss w
  tt : Caused p m.tt w
  idle : Caused p m.idle w
  tr : Caused p m.tr w

variable {start : List (EmuChan θ γ ξ)} {w w' : PatchWorld (EmuChan θ γ ξ) μ ς ρ φ}

/-- The channels that the tracks read are dirty from the start. -/
theorem Spread.port (hbay : EmuBay p parts) (hset : BreakdownSetup sys p parts model k c ch b m)
    (h : Spread p parts m start w) (hx : ch.Port c x) (hmem : x ∈ w.bay.dirty) : x ∈ start := by
  obtain ⟨l, hl, hout⟩ := h.grown
  rw [hl, List.mem_append] at hmem
  apply hmem.resolve_right
  intro hmem
  obtain ⟨hmux, hsort⟩ := hset.port_source hbay hx
  rcases hout x hmem with ⟨m', hm', heq⟩ | ⟨hook, hhook, hout⟩
  · exact hmux m' hm' heq
  · cases hook with
    | sort s index => exact hsort ⟨s, hout⟩
    | prv r => exact hout

/-- A dirty track of the CPU has a dirty port. -/
theorem Spread.track {m' : μ} {inp : θ → ξ} {out : ξ} {def_ : Value}
    (hset : TrackSetup sys p parts m' (.cpu c inp out def_)) (h : Caused p m' w)
    (hmem : .model out ∈ w.bay.dirty) :
    .cpu c .thrun ∈ w.bay.dirty ∨ ∃ t, .model (inp t) ∈ w.bay.dirty := by
  unfold Caused at h
  rw [hset.mux] at h
  obtain ⟨x, hx, hport⟩ := h hmem
  rcases Track.cpu_port hport with rfl | ⟨t, rfl⟩
  · exact .inl hx
  · exact .inr ⟨t, hx⟩

/-- A step of any other kind does not write the idle track. -/
theorem Spread.not_idle (hbay : EmuBay p parts)
    (hset : BreakdownSetup sys p parts model k c ch b m) (h : Spread p parts m start w)
    (hfits : ∀ x ∈ start, StepKind.other.Allows ch x) : .model b.idle ∉ w.bay.dirty := by
  intro hmem
  rcases Spread.track hset.idle h.idle hmem with hx | ⟨t, hx⟩
  · exact (hfits _ (h.port hbay hset (.inl rfl) hx)).1 trivial
  · exact (hfits _ (h.port hbay hset (.inr ⟨t, .inr (.inr rfl)⟩) hx)).2 t rfl

/-- The first mux follows the subsystem and the type. -/
theorem Spread.tr_cause (hset : BreakdownSetup sys p parts model k c ch b m)
    (h : Spread p parts m start w) (hmem : .model b.tr ∈ w.bay.dirty) :
    .model b.ss ∈ w.bay.dirty ∨ .model b.tt ∈ w.bay.dirty := by
  have htr := h.tr
  unfold Caused at htr
  rw [hset.tr.2] at htr
  obtain ⟨x, hx, hport⟩ := htr hmem
  rcases BreakdownCpu.port0.mp hport with rfl | rfl
  · exact .inl hx
  · exact .inr hx

/-- A step that writes idle channels does not write `tr`. -/
theorem Spread.not_tr (hbay : EmuBay p parts)
    (hset : BreakdownSetup sys p parts model k c ch b m)
    (h : Spread p parts m start w) (hfits : ∀ x ∈ start, StepKind.idle.Allows ch x) :
    .model b.tr ∉ w.bay.dirty := by
  have hthrun : .cpu c .thrun ∉ w.bay.dirty := fun hx =>
    (hfits _ (h.port hbay hset (.inl rfl) hx)).1 trivial
  intro hmem
  rcases h.tr_cause hset hmem with hmem | hmem
  · obtain ⟨t, hx⟩ := (Spread.track hset.ss h.ss hmem).resolve_left hthrun
    exact ((hfits _ (h.port hbay hset (.inr ⟨t, .inl rfl⟩) hx)).2 t).1 rfl
  · obtain ⟨t, hx⟩ := (Spread.track hset.tt h.tt hmem).resolve_left hthrun
    exact ((hfits _ (h.port hbay hset (.inr ⟨t, .inr (.inl rfl)⟩) hx)).2 t).2 rfl

/-- A step that changes the system only writes `tr` when the running thread changes. -/
theorem Spread.thrun (hbay : EmuBay p parts)
    (hset : BreakdownSetup sys p parts model k c ch b m) (h : Spread p parts m start w)
    (hfits : ∀ x ∈ start, StepKind.sys.Allows ch x) (hmem : .model b.tr ∈ w.bay.dirty) :
    .cpu c .thrun ∈ start := by
  apply h.port hbay hset (.inl rfl)
  rcases h.tr_cause hset hmem with hmem | hmem
  · apply (Spread.track hset.ss h.ss hmem).resolve_right
    rintro ⟨t, hx⟩
    exact (hfits _ (h.port hbay hset (.inr ⟨t, .inl rfl⟩) hx) t).1 rfl
  · apply (Spread.track hset.tt h.tt hmem).resolve_right
    rintro ⟨t, hx⟩
    exact (hfits _ (h.port hbay hset (.inr ⟨t, .inr (.inl rfl)⟩) hx) t).2.1 rfl

variable [DecidableEq θ] [DecidableEq γ] [DecidableEq ξ] [DecidableEq μ] [DecidableEq ς]
  [DecidableEq ρ] [DecidableEq φ] {i : Nat} {k0 : Cb μ (Hook ς ρ)} {x0 : EmuChan θ γ ξ}

theorem Spread.call (hbay : EmuBay p parts)
    (hset : BreakdownSetup sys p parts model k c ch b m) (hw : PatchWired p parts w)
    (hd : w.bay.DirtyOk) (hx : x0 ∈ w.bay.dirty) (hk : k0 ∈ w.bay.cb .dirty x0)
    (h : Spread p parts m start w) (hrun : p.net.call k0 x0 w = .ok w') :
    Spread p parts m start w' := by
  obtain ⟨-, hg, -⟩ := hw.call hd hk hrun
  obtain ⟨l, hl, hout⟩ := h.grown
  obtain ⟨l', hl', hout'⟩ := hg.dirty
  refine ⟨⟨l ++ l', ?_, fun x hmem => ?_⟩, h.ss.call (hbay.alone hset.ss.mem) hw hd hx hk hrun,
    h.tt.call (hbay.alone hset.tt.mem) hw hd hx hk hrun,
    h.idle.call (hbay.alone hset.idle.mem) hw hd hx hk hrun,
    h.tr.call (hbay.alone hset.tr.1) hw hd hx hk hrun⟩
  · rw [hl', hl, List.append_assoc]
  · exact (List.mem_append.mp hmem).elim (hout x) (hout' x)

/-! ## The order of the dirty list -/

/-- The channels of a CPU in the dirty list when its first `i` channels were visited, up
to the callbacks `R` of the last of them. -/
structure Placed (p : Patch (EmuChan θ γ ξ) μ ς ρ φ) (parts : List (Part μ ς ρ)) (c : γ)
    (b : BreakdownCpu ξ) (m : BreakdownCpu μ) (kind : StepKind)
    (start : List (EmuChan θ γ ξ)) (i : Nat) (R : List (Cb μ (Hook ς ρ)))
    (w : PatchWorld (EmuChan θ γ ξ) μ ς ρ φ) : Prop where
  spread : Spread p parts m start w
  order : SelectBefore m.ss m.idle (.cpu c .thrun) w
  fedSs : Fed p m.ss i R w
  fedIdle : Fed p m.idle i R w
  fedTr : Fed p m.tr i R w
  first : kind = .sys → .model b.idle ∈ w.bay.dirty →
    Before (.model b.ss) (.model b.idle) w.bay.dirty
  last : .model b.tri ∈ w.bay.dirty →
    (kind ≠ .other → Before (.model b.idle) (.model b.tri) w.bay.dirty) ∧
      (kind ≠ .idle → Before (.model b.tr) (.model b.tri) w.bay.dirty)

/-- When the idle track calls the second mux, the first one was written. -/
theorem Placed.tr_written (hbay : EmuBay p parts)
    (hset : BreakdownSetup sys p parts model k c ch b m) (hw : PatchWired p parts w)
    (hd : w.bay.DirtyOk) (hx : w.bay.dirty[i]? = some (.model b.idle))
    (hk : k0 ∈ w.bay.cb .dirty (.model b.idle))
    (h : Placed p parts c b m .sys start (i + 1)
      (k0 :: cbsAfter k0 (w.bay.cb .dirty (.model b.idle))) w) : .model b.tr ∈ w.bay.dirty := by
  have houts := hset.outs
  have hss := (h.first rfl (List.mem_of_getElem? hx)).mem_take hd.nodup hx
  have hsel : (p.mux m.tr).select = .model b.ss := by
    rw [hset.tr.2]
    rfl
  rw [← houts.tr]
  apply h.fedTr.visited hw hk
  · rw [hsel]
    intro heq
    have hmux := hbay.mux m.idle hset.idle.mem m.ss hset.ss.mem
      (houts.ss.trans (heq.trans houts.idle.symm))
    exact hset.idle_ne_ss hmux
  · rw [hsel]
    exact (List.take_sublist_take_left (Nat.le_succ i)).subset hss

/-- When the first mux calls the second one, the idle track was written. -/
theorem Placed.idle_written (hbay : EmuBay p parts)
    (hset : BreakdownSetup sys p parts model k c ch b m)
    (hfits : ∀ x ∈ start, StepKind.sys.Allows ch x) (hout : ∀ x ∈ start, ¬ p.Out parts x)
    (hw : PatchWired p parts w) (hx : w.bay.dirty[i]? = some (.model b.tr))
    (hk : k0 ∈ w.bay.cb .dirty (.model b.tr))
    (h : Placed p parts c b m .sys start (i + 1)
      (k0 :: cbsAfter k0 (w.bay.cb .dirty (.model b.tr))) w) : .model b.idle ∈ w.bay.dirty := by
  have houts := hset.outs
  have hthrun := h.spread.thrun hbay hset hfits (List.mem_of_getElem? hx)
  -- The running thread is among the first channels, and `tr` is not
  have htake : .cpu c .thrun ∈ w.bay.dirty.take (i + 1) := by
    obtain ⟨l, hl, -⟩ := h.spread.grown
    have hlong : start.length ≤ i := by
      by_contra hlt
      rw [hl, List.getElem?_append_left (by omega)] at hx
      refine hout _ (List.mem_of_getElem? hx) (.inl ⟨m.tr, hset.tr.1, ?_⟩)
      exact houts.tr.symm
    rw [hl, List.take_append, List.mem_append]
    left
    rw [List.take_of_length_le (by omega)]
    exact hthrun
  have hsel : (p.mux m.idle).select = .cpu c .thrun := by
    rw [hset.idle.mux]
    rfl
  rw [← houts.idle]
  apply h.fedIdle.visited hw hk
  · rw [hsel]
    intro heq
    cases heq
  · rw [hsel]
    exact htake

/-- When the second mux is called, the channels that it follows are dirty. -/
theorem Placed.followed (hbay : EmuBay p parts)
    (hset : BreakdownSetup sys p parts model k c ch b m) {kind : StepKind}
    (hfits : ∀ x ∈ start, kind.Allows ch x) (hout : ∀ x ∈ start, ¬ p.Out parts x)
    (hw : PatchWired p parts w) (hd : w.bay.DirtyOk) (hx : w.bay.dirty[i]? = some x0)
    (hk : k0 ∈ w.bay.cb .dirty x0) (hof : k0.Of m.tri)
    (h : Placed p parts c b m kind start (i + 1) (k0 :: cbsAfter k0 (w.bay.cb .dirty x0)) w)
    (hrun : p.net.call k0 x0 w = .ok w') :
    (kind ≠ .other → .model b.idle ∈ w.bay.dirty) ∧
      (kind ≠ .idle → .model b.tr ∈ w.bay.dirty) := by
  have hx0 := List.mem_of_getElem? hx
  have hport := (hw.call_own hd hk hof hrun).1
  rw [hset.tri.2, BreakdownCpu.port1] at hport
  rcases hport with rfl | rfl
  · have hother : kind ≠ .other := by
      rintro rfl
      exact h.spread.not_idle hbay hset hfits hx0
    refine ⟨fun _ => hx0, fun hidle => ?_⟩
    obtain rfl := StepKind.eq_sys hidle hother
    exact h.tr_written hbay hset hw hd hx hk
  · have hidle : kind ≠ .idle := by
      rintro rfl
      exact h.spread.not_tr hbay hset hfits hx0
    refine ⟨fun hother => ?_, fun _ => hx0⟩
    obtain rfl := StepKind.eq_sys hidle hother
    exact h.idle_written hbay hset hfits hout hw hx hk

theorem Placed.visit (hset : BreakdownSetup sys p parts model k c ch b m)
    (hw : PatchWired p parts w) (hx : w.bay.dirty[i]? = some x0) {kind : StepKind}
    (h : Placed p parts c b m kind start i [] w) :
    Placed p parts c b m kind start (i + 1) (w.bay.cb .dirty x0) w :=
  ⟨h.spread, h.order, h.fedSs.start hset.ss.mem hw hx, h.fedIdle.start hset.idle.mem hw hx,
    h.fedTr.start hset.tr.1 hw hx, h.first, h.last⟩

/-- The idle track is written after the subsystem track. -/
theorem Placed.ss_of_idle (hbay : EmuBay p parts)
    (hset : BreakdownSetup sys p parts model k c ch b m) (hw : PatchWired p parts w)
    (hx : w.bay.dirty[i]? = some x0) (hk : k0 ∈ w.bay.cb .dirty x0) (hof : k0.Of m.idle)
    (hfits : ∀ x ∈ start, StepKind.sys.Allows ch x)
    (h : Placed p parts c b m .sys start (i + 1) (k0 :: cbsAfter k0 (w.bay.cb .dirty x0)) w) :
    .model b.ss ∈ w.bay.dirty := by
  obtain ⟨hi, hget⟩ := List.getElem?_eq_some_iff.mp hx
  have hinput : ∀ t, x0 ≠ .model (ch.idle t) := by
    rintro t rfl
    refine (hfits _ (h.spread.port hbay hset (.inr ⟨t, .inr (.inr rfl)⟩) ?_) t).2.2 rfl
    exact List.mem_of_getElem? hx
  -- The callback is that of the select channel, as the step writes no idle channel
  have hsel : k0 = .select m.idle ∧ x0 = .cpu c .thrun := by
    cases k0 with
    | select m0 =>
        obtain rfl : m0 = m.idle := hof
        obtain ⟨-, -, rfl⟩ := (hw.wired.select_mem _ .dirty x0).mp hk
        refine ⟨rfl, ?_⟩
        rw [show (p.net.mux m.idle).select = _ from congrArg Mux.select hset.idle.mux]
        rfl
    | input m0 j =>
        obtain rfl : m0 = m.idle := hof
        obtain ⟨-, hin, -⟩ := (hw.wired.input_mem _ j .dirty x0).mp hk
        rw [show p.net.mux m.idle = _ from hset.idle.mux] at hin
        obtain ⟨y, ⟨t, rfl⟩, rfl⟩ := Track.input _ hin
        exact absurd rfl (hinput t)
    | other k => exact hof.elim
  obtain ⟨rfl, rfl⟩ := hsel
  have hleft : .select m.ss ∉ .select m.idle :: cbsAfter (.select m.idle)
      (w.bay.cb .dirty (.cpu c .thrun)) := by
    rw [List.mem_cons, not_or]
    constructor
    · intro heq
      exact hset.idle_ne_ss (Cb.select.inj heq)
    · exact Before.not_after (hw.wired.nodup .dirty _) h.order
  have hss := h.fedSs.select (by
    rw [hset.ss.mux, List.take_succ_eq_append_getElem hi, hget, List.mem_append]
    exact .inr (List.mem_singleton.mpr rfl)) hleft
  rw [hset.outs.ss] at hss
  exact hss

/-- A callback keeps the order. -/
theorem Placed.call (hbay : EmuBay p parts)
    (hset : BreakdownSetup sys p parts model k c ch b m) {kind : StepKind}
    (hfits : ∀ x ∈ start, kind.Allows ch x) (hout : ∀ x ∈ start, ¬ p.Out parts x)
    (hw : PatchWired p parts w) (hd : w.bay.DirtyOk) (hx : w.bay.dirty[i]? = some x0)
    (hk : k0 ∈ w.bay.cb .dirty x0)
    (h : Placed p parts c b m kind start (i + 1) (k0 :: cbsAfter k0 (w.bay.cb .dirty x0)) w)
    (hrun : p.net.call k0 x0 w = .ok w') :
    Placed p parts c b m kind start (i + 1) (cbsAfter k0 (w'.bay.cb .dirty x0)) w' := by
  have houts := hset.outs
  obtain ⟨-, hg, -⟩ := hw.call hd hk hrun
  obtain ⟨l, hl, -⟩ := hg.dirty
  have hnew : ∀ x, x ∈ w'.bay.dirty → x ∉ w.bay.dirty → x ∈ l := by
    intro x hmem hnot
    rw [hl, List.mem_append] at hmem
    exact hmem.resolve_left hnot
  refine ⟨h.spread.call hbay hset hw hd (List.mem_of_getElem? hx) hk hrun,
    h.order.call hd hrun, h.fedSs.call hw hd hx hk hrun, h.fedIdle.call hw hd hx hk hrun,
    h.fedTr.call hw hd hx hk hrun, ?_, ?_⟩
  · intro hsys hidle
    subst hsys
    by_cases hold : .model b.idle ∈ w.bay.dirty
    · rw [hl]
      exact (h.first rfl hold).append l
    · have hof : k0.Of m.idle := by
        by_contra hnot
        have hquiet := (hw.call_quiet (hbay.alone hset.idle.mem) hd hk hnot hrun).2
        rw [houts.idle] at hquiet
        exact hold (hquiet hidle)
      rw [hl]
      exact before_append (h.ss_of_idle hbay hset hw hx hk hof hfits) (hnew _ hidle hold)
  · intro htri
    by_cases hold : .model b.tri ∈ w.bay.dirty
    · rw [hl]
      exact ⟨fun hkind => ((h.last hold).1 hkind).append l,
        fun hkind => ((h.last hold).2 hkind).append l⟩
    · have hof : k0.Of m.tri := by
        by_contra hnot
        have hquiet := (hw.call_quiet (hbay.alone hset.tri.1) hd hk hnot hrun).2
        rw [houts.tri] at hquiet
        exact hold (hquiet htri)
      obtain ⟨hidle, htr⟩ := h.followed hbay hset hfits hout hw hd hx hk hof hrun
      rw [hl]
      exact ⟨fun hkind => before_append (hidle hkind) (hnew _ htri hold),
        fun hkind => before_append (htr hkind) (hnew _ htri hold)⟩

/-- When a callback writes `tri`, it is still to be visited. -/
theorem Placed.pending (hbay : EmuBay p parts)
    (hset : BreakdownSetup sys p parts model k c ch b m) {kind : StepKind}
    (hfits : ∀ x ∈ start, kind.Allows ch x) (hw : PatchWired p parts w) (hd : w.bay.DirtyOk)
    (hx : w.bay.dirty[i]? = some x0) (hk : k0 ∈ w.bay.cb .dirty x0)
    {R : List (Cb μ (Hook ς ρ))} (h : Placed p parts c b m kind start (i + 1) R w)
    (hrun : p.net.call k0 x0 w = .ok w') :
    w'.bay.read (.model b.tri) = w.bay.read (.model b.tri) ∨
      .model b.tri ∈ w'.bay.dirty.drop (i + 1) := by
  have houts := hset.outs
  by_cases hof : k0.Of m.tri
  · right
    obtain ⟨hport, hmem⟩ := hw.call_own hd hk hof hrun
    rw [houts.tri] at hmem
    rw [hset.tri.2, BreakdownCpu.port1] at hport
    obtain ⟨hi, -⟩ := List.getElem?_eq_some_iff.mp hx
    obtain ⟨-, hg, -⟩ := hw.call hd hk hrun
    obtain ⟨l, hl, -⟩ := hg.dirty
    have hx0 := List.mem_of_getElem? hx
    -- The port that is visited is before `tri`
    have hbefore : .model b.tri ∈ w.bay.dirty → Before x0 (.model b.tri) w.bay.dirty := by
      intro htri
      rcases hport with rfl | rfl
      · apply (h.last htri).1
        rintro rfl
        exact h.spread.not_idle hbay hset hfits hx0
      · apply (h.last htri).2
        rintro rfl
        exact h.spread.not_tr hbay hset hfits hx0
    have htake : .model b.tri ∉ w'.bay.dirty.take (i + 1) := by
      rw [hl, List.take_append_of_le_length hi]
      intro htri
      exact (hbefore (List.mem_of_mem_take htri)).not_mem_take hd.nodup hx htri
    rw [← List.take_append_drop (i + 1) w'.bay.dirty, List.mem_append] at hmem
    exact hmem.resolve_left htake
  · left
    have hquiet := (hw.call_quiet (hbay.alone hset.tri.1) hd hk hof hrun).1
    rw [houts.tri] at hquiet
    exact hquiet

/-! ## The connections -/

omit [DecidableEq θ] [DecidableEq γ] [DecidableEq ξ] [DecidableEq μ] [DecidableEq ς]
  [DecidableEq ρ] [DecidableEq φ] in
variable (sys p parts model k ch) in
/-- The breakdown of the physical CPUs: the tracks of each one are connected in the order
of their channels, and `tri` is an input of the sort module. -/
structure BreakdownRows (cpus : List γ) (b : γ → BreakdownCpu ξ) (m : γ → BreakdownCpu μ)
    (s : ς) : Prop where
  bay : EmuBay p parts
  cpu : ∀ c ∈ cpus, BreakdownSetup sys p parts model k c ch (b c) (m c)
  order : ∀ c ∈ cpus, Before (.mux (m c).ss) (.mux (m c).idle) parts
  sort : SortSetup p parts s
  inputs : (p.sort s).inputs = cpus.map fun c => .model (b c).tri
  null : ∀ c ∈ cpus, chanRead (model (b c).tri) = .null

variable {cpus : List γ} {bs : γ → BreakdownCpu ξ} {ms : γ → BreakdownCpu μ} {s : ς}
  {kind : StepKind}

/-- After the dirty phase the sort module has the values of the channels `tri`. -/
theorem BreakdownRows.values (hr : BreakdownRows sys p parts model k ch cpus bs ms s)
    (hready : PatchReady p parts w) (hrest : SortRest p s w)
    (horder : ∀ c ∈ cpus, SelectBefore (ms c).ss (ms c).idle (.cpu c .thrun) w)
    (hfits : ∀ x ∈ w.bay.dirty, kind.Allows ch x) (hout : ∀ x ∈ w.bay.dirty, ¬ p.Out parts x)
    {fuel : Nat}
    (hdirty : propagateList p.net.call .dirty fuel 0 (w.setState .propagating) = .ok w') :
    ∃ n, w'.bay.dirty.length ≤ n ∧ ValuesOk p s n [] w' := by
  have hw : PatchWired p parts (w.setState .propagating) :=
    hready.wired.bay rfl rfl fun _ => Chan.Like.refl _
  have hd : (w.setState .propagating).bay.DirtyOk :=
    ⟨hready.dirtyOk.nodup, hready.dirtyOk.mem_iff⟩
  let P : Nat → List (Cb μ (Hook ς ρ)) → PatchWorld (EmuChan θ γ ξ) μ ς ρ φ → Prop :=
    fun i R w1 => RowsOk p s w1 ∧ ValuesOk p s i R w1 ∧
      ∀ c ∈ cpus, Placed p parts c (bs c) (ms c) kind w.bay.dirty i R w1
  have hstart : P 0 [] (w.setState .propagating) := by
    refine ⟨⟨hrest.rows.arrays, hrest.rows.free, hrest.rows.rows⟩,
      fun index x hx hdrop _ => hrest.values index x hx hdrop, fun c hc => ?_⟩
    have hset := hr.cpu c hc
    have hclean : ∀ m0 ∈ partMuxes parts, (p.mux m0).output ∉ w.bay.dirty := fun m0 hm0 hmem =>
      hout _ hmem (.inl ⟨m0, hm0, rfl⟩)
    have hcaused : ∀ m0 ∈ partMuxes parts, Caused p m0 (w.setState .propagating) :=
      fun m0 hm0 hmem => absurd hmem (hclean m0 hm0)
    have hfed : ∀ m0, Fed p m0 0 [] (w.setState .propagating) := fun m0 =>
      ⟨fun hsel => absurd hsel List.not_mem_nil, fun _ _ _ _ hx => absurd hx List.not_mem_nil⟩
    have hidle := hclean _ hset.idle.mem
    rw [hset.outs.idle] at hidle
    have htri := hclean _ hset.tri.1
    rw [hset.outs.tri] at htri
    exact ⟨⟨⟨[], (List.append_nil _).symm, fun x hx => absurd hx List.not_mem_nil⟩,
      hcaused _ hset.ss.mem, hcaused _ hset.tt.mem, hcaused _ hset.idle.mem,
      hcaused _ hset.tr.1⟩, horder c hc, hfed _, hfed _, hfed _,
      fun _ hmem => absurd hmem hidle, fun hmem => absurd hmem htri⟩
  obtain ⟨n, hn, -, hvalues, -⟩ := hw.visits P
    (fun i x w1 hw1 hd1 hx hP => ⟨hP.1, hP.2.1.start hr.sort hw1 hx,
      fun c hc => (hP.2.2 c hc).visit (hr.cpu c hc) hw1 hx⟩)
    (fun i x k1 w1 w2 hw1 hd1 hx hk1 hP hcall => by
      refine ⟨(hP.1.call hr.sort hw1 hd1 hk1 hcall).1,
        hP.2.1.call hr.sort hP.1 hw1 hd1 hx hk1 hcall ?_, fun c hc =>
          (hP.2.2 c hc).call hr.bay (hr.cpu c hc) hfits hout hw1 hd1 hx hk1 hcall⟩
      intro y hy
      rw [hr.inputs] at hy
      obtain ⟨c, hc, rfl⟩ := List.mem_map.mp hy
      exact (hP.2.2 c hc).pending hr.bay (hr.cpu c hc) hfits hw1 hd1 hx hk1 hcall)
    hd hstart hdirty
  exact ⟨n, hn, hvalues⟩

/-! ## Steps -/

omit [DecidableEq θ] [DecidableEq γ] [DecidableEq ξ] in
/-- The handlers of a step are of this kind: only `model_ovni_event` changes the threads and
the CPUs, and the models write the channels that are allowed. -/
def StepKind.Fits (ch : BreakdownThread θ ξ) (kind : StepKind) (acts : List (EmuAct θ γ ξ)) :
    Prop :=
  (∀ op, .write op ∈ acts → kind.Allows ch op.chan) ∧ (kind ≠ .sys → ∀ ev, .event ev ∉ acts)

variable {e e1 : PatchEmu θ γ ξ μ ς ρ φ} {acts : List (EmuAct θ γ ξ)}

omit [DecidableEq μ] [DecidableEq ς] [DecidableEq ρ] [DecidableEq φ] in
/-- Without events only the channels that the models write are written. -/
theorem runActs_writes (hev : ∀ ev, .event ev ∉ acts) (hacts : runActs sys acts e = .ok e1) :
    ∃ ops : List (ChanOp (EmuChan θ γ ξ)), (∀ op ∈ ops, .write op ∈ acts) ∧
      writeAll ops e.world.bay = .ok e1.world.bay := by
  induction acts generalizing e with
  | nil =>
      rw [runActs] at hacts
      rw [← Except.ok.inj hacts]
      exact ⟨[], fun op hop => absurd hop List.not_mem_nil, rfl⟩
  | cons act acts ih =>
      rw [runActs] at hacts
      obtain ⟨e2, h2, hacts⟩ := bind_ok hacts
      obtain ⟨ops, hops, hwrites⟩ :=
        ih (fun ev hmem => hev ev (List.mem_cons_of_mem _ hmem)) hacts
      cases act with
      | event ev => exact absurd List.mem_cons_self (hev ev)
      | outOfCpu t out =>
          rw [← Except.ok.inj h2] at hwrites
          exact ⟨ops, fun op hop => List.mem_cons_of_mem _ (hops op hop), hwrites⟩
      | write op =>
          obtain ⟨b2, hop, h2⟩ := bind_ok h2
          rw [← Except.ok.inj h2] at hwrites
          refine ⟨op :: ops, fun op' hop' => ?_, ?_⟩
          · rcases List.mem_cons.mp hop' with rfl | hop'
            · exact List.mem_cons_self
            · exact List.mem_cons_of_mem _ (hops op' hop')
          · rw [writeAll, hop]
            exact hwrites

/-- A step writes the channels that its kind allows. -/
theorem StepKind.Fits.allows (hfits : kind.Fits ch acts) (hok : EmuOk sys p parts e)
    (hsource : ∀ op, .write op ∈ acts → ∃ x, op.chan = .model x)
    (hnil : e.world.bay.dirty = []) (hacts : runActs sys acts e = .ok e1) :
    ∀ x ∈ e1.world.bay.dirty, kind.Allows ch x := by
  have hops : ∃ ops : List (ChanOp (EmuChan θ γ ξ)), (∀ op ∈ ops, kind.Allows ch op.chan) ∧
      writeAll ops e.world.bay = .ok e1.world.bay := by
    by_cases hkind : kind = .sys
    · obtain ⟨ops, hops, hwrites, -⟩ := hok.writes hsource hacts
      refine ⟨ops, fun op hop => ?_, hwrites⟩
      rcases hops op hop with hsys | hact
      · subst hkind
        have hne : ∀ y, op.chan ≠ .model y := by
          intro y heq
          rw [heq] at hsys
          exact hsys
        exact fun t => ⟨hne _, hne _, hne _⟩
      · exact hfits.1 op hact
    · obtain ⟨ops, hops, hwrites⟩ := runActs_writes (hfits.2 hkind) hacts
      exact ⟨ops, fun op hop => hfits.1 op (hops op hop), hwrites⟩
  obtain ⟨ops, hops, hwrites⟩ := hops
  intro x hx
  have hwritten := writeAll_ok (fun c => kind.Allows ch c) hok.ready.dirtyOk hops hwrites
  rcases hwritten.only x hx with hold | hnew
  · rw [hnil] at hold
    exact absurd hold List.not_mem_nil
  · exact hnew

/-! ## Runs -/

/-- The runs of the emulator in which each step is of some kind.  The flag tells whether
some channel `tri` was a nonzero integer after some step. -/
inductive BreakdownRun (sys : System θ γ π ℓ) (p : Patch (EmuChan θ γ ξ) μ ς ρ φ)
    (parts : List (Part μ ς ρ)) (model : ξ → Chan) (ch : BreakdownThread θ ξ)
    (cpus : List γ) (bs : γ → BreakdownCpu ξ) : Bool → PatchEmu θ γ ξ μ ς ρ φ → Prop where
  | connect {w : PatchWorld (EmuChan θ γ ξ) μ ς ρ φ} (hchan : ∀ x, Unregistered (model x))
      (hclean : ∀ x, (model x).isDirty = false) (honce : parts.Nodup)
      (hrun : connectParts p parts (patchInit (emuChanInit model)) = .ok w) :
      BreakdownRun sys p parts model ch cpus bs false (emuInit w)
  | step {seen : Bool} {e e1 : PatchEmu θ γ ξ μ ς ρ φ} {acts : List (EmuAct θ γ ξ)}
      {kind : StepKind} {w : PatchWorld (EmuChan θ γ ξ) μ ς ρ φ} {fuel : Nat}
      (h : BreakdownRun sys p parts model ch cpus bs seen e)
      (hsource : ∀ op, .write op ∈ acts →
        (∃ x, op.chan = .model x) ∧ ∀ part ∈ parts, op.chan ∉ p.partOuts part)
      (hkind : kind.Fits ch acts) (hacts : runActs sys acts e = .ok e1)
      (hrun : bayPropagate p.net.call fuel e1.world = .ok w) :
      BreakdownRun sys p parts model ch cpus bs
        (seen || cpus.any fun c => (w.bay.read (.model (bs c).tri)).toSort ≠ 0)
        { e1 with world := w }

variable {seen : Bool}

theorem BreakdownRun.run (h : BreakdownRun sys p parts model ch cpus bs seen e) :
    EmuRun sys p parts model e := by
  induction h with
  | connect hchan hclean honce hrun => exact .connect hchan hclean honce hrun
  | step _ hsource _ hacts hrun ih => exact .step ih hsource hacts hrun

/-- What holds of the sort module and of the tracks between two steps. -/
structure RowsRest (p : Patch (EmuChan θ γ ξ) μ ς ρ φ) (cpus : List γ) (ms : γ → BreakdownCpu μ)
    (s : ς) (seen : Bool) (e : PatchEmu θ γ ξ μ ς ρ φ) : Prop where
  sort : SortRest p s e.world
  order : ∀ c ∈ cpus, SelectBefore (ms c).ss (ms c).idle (.cpu c .thrun) e.world
  nil : e.world.bay.dirty = []
  copied : seen = true → (e.world.mod.other.sort s).copied = true

omit [DecidableEq θ] [DecidableEq γ] [DecidableEq ξ] [DecidableEq μ] [DecidableEq ς]
  [DecidableEq ρ] [DecidableEq φ] in
/-- The tracks of a CPU have the same select channel. -/
theorem BreakdownRows.selects (hr : BreakdownRows sys p parts model k ch cpus bs ms s) {c : γ}
    (hc : c ∈ cpus) : (p.mux (ms c).ss).select = .cpu c .thrun ∧
      (p.mux (ms c).idle).select = .cpu c .thrun := by
  constructor
  · rw [(hr.cpu c hc).ss.mux]
    rfl
  · rw [(hr.cpu c hc).idle.mux]
    rfl

/-- A step keeps it. -/
theorem RowsRest.step (hr : BreakdownRows sys p parts model k ch cpus bs ms s)
    (hok : EmuOk sys p parts e) (h : RowsRest p cpus ms s seen e)
    (hsource : ∀ op, .write op ∈ acts →
      (∃ x, op.chan = .model x) ∧ ∀ part ∈ parts, op.chan ∉ p.partOuts part)
    (hkind : kind.Fits ch acts) (hacts : runActs sys acts e = .ok e1) {fuel : Nat}
    (hrun : bayPropagate p.net.call fuel e1.world = .ok w) :
    RowsRest p cpus ms s
      (seen || cpus.any fun c => (w.bay.read (.model (bs c).tri)).toSort ≠ 0)
      { e1 with world := w } := by
  have hmodel : ∀ op, .write op ∈ acts → ∃ x, op.chan = .model x := fun op hop =>
    (hsource op hop).1
  have hok1 := hok.acts hmodel hacts
  have hallows := hkind.allows hok hmodel h.nil hacts
  obtain ⟨ops, hops, hwrites, hmod⟩ := hok.writes hmodel hacts
  have hout : ∀ op ∈ ops, ¬ p.Out parts op.chan := by
    intro op hop
    apply not_out_of_partOuts
    intro part hpart hmem
    rcases hops op hop with hsys | hact
    · exact hr.bay.sys part hpart _ hmem hsys
    · exact (hsource op hact).2 part hpart hmem
  have hworld : e1.world = { e.world with bay := e1.world.bay } := by
    dsimp only
    rw [← hmod]
  have hwritten := writeAll_ok (fun x => ¬ p.Out parts x) hok.ready.dirtyOk hout hwrites
  have hrest1 : SortRest p s e1.world := by
    rw [hworld]
    exact h.sort.writeAll hr.sort hok.ready.dirtyOk hout hwrites
  have horder1 : ∀ c ∈ cpus, SelectBefore (ms c).ss (ms c).idle (.cpu c .thrun) e1.world := by
    intro c hc
    unfold SelectBefore
    rw [hwritten.cb]
    exact h.order c hc
  have hclean : ∀ x ∈ e1.world.bay.dirty, ¬ p.Out parts x := by
    intro x hx
    rcases hwritten.only x hx with hold | hnew
    · rw [h.nil] at hold
      exact absurd hold List.not_mem_nil
    · exact hnew
  obtain ⟨w1, -, hdirty, -⟩ := bayPropagate_ok hrun
  obtain ⟨n, hn, hvalues⟩ := hr.values hok1.ready hrest1 horder1 hallows hclean hdirty
  obtain ⟨hrest', hmono⟩ := hrest1.finish hr.sort hok1.ready hdirty hn hvalues hrun
  obtain ⟨-, hnil, -⟩ := hok1.ready.propagate hrun
  refine ⟨hrest', fun c hc => (horder1 c hc).propagate hok1.ready hrun, hnil, fun hseen => ?_⟩
  rw [Bool.or_eq_true] at hseen
  rcases hseen with hseen | hseen
  · apply hmono
    rw [hmod]
    exact h.copied hseen
  · obtain ⟨c, hc, hne⟩ := List.any_eq_true.mp hseen
    apply hrest'.copied hnil
    refine ⟨.model (bs c).tri, ?_, by simpa using hne⟩
    rw [hr.inputs]
    exact List.mem_map.mpr ⟨c, hc, rfl⟩

theorem BreakdownRun.rest (hr : BreakdownRows sys p parts model k ch cpus bs ms s)
    (h : BreakdownRun sys p parts model ch cpus bs seen e) : RowsRest p cpus ms s seen e := by
  induction h with
  | connect hchan hclean honce hrun =>
      have hnull : ∀ x ∈ (p.sort s).inputs, chanRead (emuChanInit model x) = .null := by
        intro x hx
        rw [hr.inputs] at hx
        obtain ⟨c, hc, rfl⟩ := List.mem_map.mp hx
        exact hr.null c hc
      obtain ⟨hrest, -⟩ := SortRest.connect hr.sort hnull (emuChanInit_clean hclean) honce hrun
      obtain ⟨hinit, hreg⟩ := patchInit_connected (p := p) (emuChanInit_clean hclean)
      obtain ⟨hconn, -, -⟩ := connectParts_inv (fun _ _ => True)
        (fun _ _ _ _ _ _ _ _ => trivial) hinit hreg trivial (by simpa using honce) hrun
      refine ⟨hrest, fun c hc => ?_, hconn.connected.nodirty, fun hseen => by cases hseen⟩
      obtain ⟨hss, hidle⟩ := hr.selects hc
      exact SelectBefore.connect hss hidle (hr.order c hc) (emuChanInit_clean hclean) honce hrun
  | step hprev hsource hkind hacts hrun ih =>
      exact ih.step hr (hprev.run.ok hr.bay.sys) hsource hkind hacts hrun

omit [DecidableEq θ] [DecidableEq γ] [DecidableEq ξ] [DecidableEq μ] [DecidableEq ς]
  [DecidableEq ρ] [DecidableEq φ] in
/-- Once it has copied its inputs, the sort module shows the channels `tri` in order. -/
theorem RowsRest.rows (hr : BreakdownRows sys p parts model k ch cpus bs ms s)
    (h : RowsRest p cpus ms s true e) :
    (p.sort s).outputs.map e.read =
      ((cpus.map fun c => (e.read (.model (bs c).tri)).toSort).mergeSort
        fun a b => decide (a ≤ b)).map .int64 := by
  have hcopied := h.copied rfl
  obtain ⟨hvalues, hshown⟩ := h.sort.shows h.nil
  obtain ⟨-, -, hrows⟩ := hshown hcopied
  have hinputs : (p.sort s).inputs.map (fun x => (e.world.bay.read x).toSort) =
      cpus.map fun c => (e.read (.model (bs c).tri)).toSort := by
    rw [hr.inputs, List.map_map]
    rfl
  calc
    (p.sort s).outputs.map e.read = (e.world.mod.other.sort s).sorted.map .int64 := hrows
    _ = ((e.world.mod.other.sort s).values.mergeSort fun a b => decide (a ≤ b)).map .int64 := by
      rw [h.sort.rows.arrays.sorted hcopied]
    _ = _ := by rw [hvalues, hinputs]

end

end Ovni
