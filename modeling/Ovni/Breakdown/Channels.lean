import Ovni.Breakdown.Model
import Ovni.Mux.Reading
import Ovni.System.Written

/-!
# The channels of the breakdown in a run

The first mux chooses between the subsystem and the task type of a CPU by the values of
both, but it only does so when the subsystem track is written.  A task that is paused or
resumed changes the type and not the subsystem, and then the choice is the old one.  In a
run without such steps both channels show what they are meant to.
-/

namespace Ovni

open Ovni.Lib

/-- The channels of each thread that the tracks of the CPUs follow: `CH_SUBSYSTEM`,
`CH_TYPE` and `CH_IDLE`. -/
structure BreakdownThread (θ ξ : Type) where
  ss : θ → ξ
  tt : θ → ξ
  idle : θ → ξ

section

variable {θ γ π ℓ ξ μ ς ρ φ : Type}

/-- The parts of the bay that make the breakdown of a CPU, with the muxes `m` that write
its channels. -/
structure BreakdownSetup (sys : System θ γ π ℓ) (p : Patch (EmuChan θ γ ξ) μ ς ρ φ)
    (parts : List (Part μ ς ρ)) (model : ξ → Chan) (k : BreakdownModel) (c : γ)
    (ch : BreakdownThread θ ξ) (b : BreakdownCpu ξ) (m : BreakdownCpu μ) : Prop where
  ss : TrackSetup sys p parts m.ss (.cpu c ch.ss b.ss .null)
  tt : TrackSetup sys p parts m.tt (.cpu c ch.tt b.tt .null)
  idle : TrackSetup sys p parts m.idle (idleTrack c ch.idle b.idle)
  tr : m.tr ∈ partMuxes parts ∧ p.mux m.tr = b.mux0 k
  tri : m.tri ∈ partMuxes parts ∧ p.mux m.tri = b.mux1
  null : chanRead (model b.ss) = .null ∧ chanRead (model b.tt) = .null

/-! ## The levels of the channels -/

/-- The channels that the tracks of the CPU read. -/
def BreakdownThread.Port (c : γ) (ch : BreakdownThread θ ξ) (x : EmuChan θ γ ξ) : Prop :=
  x = .cpu c .thrun ∨ ∃ t, x = .model (ch.ss t) ∨ x = .model (ch.tt t) ∨ x = .model (ch.idle t)

/-- The outputs of the tracks of the CPU. -/
def BreakdownCpu.Tracked (b : BreakdownCpu ξ) (x : EmuChan θ γ ξ) : Prop :=
  x = .model b.ss ∨ x = .model b.tt ∨ x = .model b.idle

/-- The channels that decide `tri`. -/
def BreakdownCpu.Rel (c : γ) (ch : BreakdownThread θ ξ) (b : BreakdownCpu ξ)
    (x : EmuChan θ γ ξ) : Prop :=
  x = .model b.tr ∨ b.Tracked x ∨ ch.Port c x

instance BreakdownCpu.decTracked [DecidableEq θ] [DecidableEq γ] [DecidableEq ξ]
    (b : BreakdownCpu ξ) (x : EmuChan θ γ ξ) : Decidable (b.Tracked x) :=
  inferInstanceAs (Decidable (_ ∨ _ ∨ _))

/-- The number of muxes before a channel. -/
def BreakdownCpu.lev [DecidableEq θ] [DecidableEq γ] [DecidableEq ξ] (b : BreakdownCpu ξ)
    (x : EmuChan θ γ ξ) : Nat :=
  if x = .model b.tr then 2 else if b.Tracked x then 1 else 0

variable {sys : System θ γ π ℓ} {p : Patch (EmuChan θ γ ξ) μ ς ρ φ} {parts : List (Part μ ς ρ)}
  {model : ξ → Chan} {k : BreakdownModel} {c : γ} {ch : BreakdownThread θ ξ} {b : BreakdownCpu ξ}
  {m : BreakdownCpu μ} {x : EmuChan θ γ ξ}

/-- The ports of a CPU track. -/
theorem Track.cpu_port {inp : θ → ξ} {out : ξ} {def_ : Value}
    (h : ((Track.cpu c inp out def_).mux sys).HasPort x) :
    x = .cpu c .thrun ∨ ∃ t, x = .model (inp t) := by
  rcases h with h | ⟨i, hi⟩
  · exact .inl h
  · obtain ⟨y, ⟨t, rfl⟩, rfl⟩ := Track.input _ hi
    exact .inr ⟨t, rfl⟩

/-- No part of the bay writes the ports of the tracks. -/
theorem BreakdownSetup.port_source (hbay : EmuBay p parts)
    (hset : BreakdownSetup sys p parts model k c ch b m) (hx : ch.Port c x) :
    (∀ m' ∈ partMuxes parts, x ≠ (p.mux m').output) ∧ ¬ p.sortOut x := by
  have hmodel : ∀ y : ξ, ((∀ part ∈ parts, .model y ∉ p.partOuts part) ∧
      ¬ p.sortOut (.model y)) → (∀ m' ∈ partMuxes parts, .model y ≠ (p.mux m').output) ∧
      ¬ p.sortOut (.model y) := by
    rintro y ⟨hparts, hsort⟩
    refine ⟨fun m' hm' heq => ?_, hsort⟩
    exact hparts _ (mem_partMuxes.mp hm') (List.mem_singleton.mpr heq)
  rcases hx with rfl | ⟨t, rfl | rfl | rfl⟩
  · have hsys : (EmuChan.cpu c .thrun : EmuChan θ γ ξ).IsSys := trivial
    refine ⟨fun m' hm' heq => ?_, fun hout => (hbay.sort _ hout).1 hsys⟩
    exact hbay.sys _ (mem_partMuxes.mp hm') _ (List.mem_singleton.mpr heq) hsys
  · exact hmodel _ (hset.ss.source _ ⟨t, rfl⟩)
  · exact hmodel _ (hset.tt.source _ ⟨t, rfl⟩)
  · exact hmodel _ (hset.idle.source _ ⟨t, rfl⟩)

/-- The mux of a track is not the first mux of the breakdown. -/
theorem BreakdownSetup.track_ne (hbay : EmuBay p parts)
    (hset : BreakdownSetup sys p parts model k c ch b m) {m' : μ} {tr : Track θ γ ξ}
    (ht : TrackSetup sys p parts m' tr) : tr.out ≠ b.tr := by
  intro heq
  have hout : (p.mux m').output = (p.mux m.tr).output := by
    rw [ht.mux, hset.tr.2, Track.output, heq]
    rfl
  obtain rfl := hbay.mux m.tr hset.tr.1 m' ht.mem hout
  have hsys := tr.isSys_select sys
  rw [← ht.mux, hset.tr.2] at hsys
  exact hsys

/-- The muxes that write the channels before `tri`, with their ports. -/
theorem BreakdownSetup.port_of_rel (hbay : EmuBay p parts)
    (hset : BreakdownSetup sys p parts model k c ch b m) {m' : μ} (hm' : m' ∈ partMuxes parts)
    (hport : (p.mux m').HasPort x) (hrel : b.Rel c ch (p.mux m').output) :
    ((p.mux m').output = .model b.tr ∧ (x = .model b.ss ∨ x = .model b.tt)) ∨
      (b.Tracked (p.mux m').output ∧ ch.Port c x) := by
  have hown : ∀ {m0 : μ} {inp : θ → ξ} {out : ξ} {def_ : Value},
      TrackSetup sys p parts m0 (.cpu c inp out def_) → (p.mux m').output = .model out →
      x = .cpu c .thrun ∨ ∃ t, x = .model (inp t) := by
    intro m0 inp out def_ ht heq
    have hout : (p.mux m').output = (p.mux m0).output := by
      rw [heq, ht.mux]
      rfl
    obtain rfl := hbay.mux m0 ht.mem m' hm' hout
    rw [ht.mux] at hport
    exact Track.cpu_port hport
  rcases hrel with htr | htracked | hbase
  · have hout : (p.mux m').output = (p.mux m.tr).output := by
      rw [htr, hset.tr.2]
      rfl
    obtain rfl := hbay.mux m.tr hset.tr.1 m' hm' hout
    rw [hset.tr.2] at hport
    exact .inl ⟨htr, BreakdownCpu.port0.mp hport⟩
  · refine .inr ⟨htracked, ?_⟩
    rcases htracked with heq | heq | heq
    · exact (hown hset.ss heq).imp_right (Exists.imp fun _ => .inl)
    · exact (hown hset.tt heq).imp_right (Exists.imp fun _ ht => .inr (.inl ht))
    · exact (hown hset.idle heq).imp_right (Exists.imp fun _ ht => .inr (.inr ht))
  · exact absurd rfl ((hset.port_source hbay hbase).1 m' hm')

variable [DecidableEq θ] [DecidableEq γ] [DecidableEq ξ]

theorem BreakdownSetup.lev_tracked (hbay : EmuBay p parts)
    (hset : BreakdownSetup sys p parts model k c ch b m) (hx : b.Tracked x) : b.lev x = 1 := by
  have hne : x ≠ .model b.tr := by
    rcases hx with rfl | rfl | rfl
    · exact fun heq => hset.track_ne hbay hset.ss (EmuChan.model.inj heq)
    · exact fun heq => hset.track_ne hbay hset.tt (EmuChan.model.inj heq)
    · exact fun heq => hset.track_ne hbay hset.idle (EmuChan.model.inj heq)
  unfold BreakdownCpu.lev
  rw [if_neg hne, if_pos hx]

theorem BreakdownSetup.lev_port (hbay : EmuBay p parts)
    (hset : BreakdownSetup sys p parts model k c ch b m) (hx : ch.Port c x) : b.lev x = 0 := by
  have hsource := (hset.port_source hbay hx).1
  have hout : ∀ {m' : μ} {tr : Track θ γ ξ}, TrackSetup sys p parts m' tr →
      x ≠ .model tr.out := by
    intro m' tr ht heq
    apply hsource m' ht.mem
    rw [heq, ht.mux, Track.output]
  have htr : x ≠ .model b.tr := by
    intro heq
    apply hsource m.tr hset.tr.1
    rw [heq, hset.tr.2]
    rfl
  have htracked : ¬ b.Tracked x := by
    rintro (heq | heq | heq)
    · exact hout hset.ss heq
    · exact hout hset.tt heq
    · exact hout hset.idle heq
  unfold BreakdownCpu.lev
  rw [if_neg htr, if_neg htracked]

variable [DecidableEq μ] [DecidableEq ς] [DecidableEq ρ] [DecidableEq φ]

/-- The channels of the breakdown level by level. -/
theorem BreakdownSetup.layers (hbay : EmuBay p parts)
    (hset : BreakdownSetup sys p parts model k c ch b m)
    (hloop : ∀ m ∈ partMuxes parts, ¬ (p.net.mux m).HasPort (p.net.mux m).output) :
    Layers p.net (partMuxes parts) (· = m.tri) (b.Rel c ch) (fun _ => True) b.lev p.sortOut := by
  have htri : p.net.mux m.tri = b.mux1 := hset.tri.2
  refine ⟨?_, ?_, ?_, hloop, ?_, ?_, fun _ _ _ _ _ => trivial, ?_, fun x hout => ⟨?_, ?_⟩,
    fun k c w w' => patch_other⟩
  · rintro _ rfl
    exact hset.tri.1
  · rintro _ rfl read v
    rw [htri]
    rfl
  · rintro _ rfl m' hm' heq
    exact hbay.mux m.tri hset.tri.1 m' hm' heq
  · rintro _ x rfl hx
    rw [htri, BreakdownCpu.port1] at hx
    rcases hx with rfl | rfl
    · exact .inr (.inl (.inr (.inr rfl)))
    · exact .inl rfl
  · intro m' hm' x hport hrel
    obtain ⟨-, hx⟩ | ⟨-, hx⟩ := hset.port_of_rel hbay hm' hport hrel
    · exact .inr (.inl (hx.imp_right .inl))
    · exact .inr (.inr hx)
  · intro m' hm' x hport _ hrel
    obtain ⟨hout, hx⟩ | ⟨hout, hx⟩ := hset.port_of_rel hbay hm' hport hrel
    · rw [hset.lev_tracked hbay (hx.imp_right .inl)]
      show b.lev (p.mux m').output = 2
      rw [hout]
      exact if_pos rfl
    · rw [hset.lev_port hbay hx]
      exact hset.lev_tracked hbay hout
  · have hnot := (hbay.sort x hout).2
    rintro (rfl | hx | hx)
    · apply hnot m.tr hset.tr.1
      rw [hset.tr.2]
      rfl
    · rcases hx with rfl | rfl | rfl
      · exact hnot m.ss hset.ss.mem (by rw [hset.ss.mux]; rfl)
      · exact hnot m.tt hset.tt.mem (by rw [hset.tt.mux]; rfl)
      · exact hnot m.idle hset.idle.mem (by rw [hset.idle.mux]; rfl)
    · exact (hset.port_source hbay hx).2 hout
  · exact (hbay.sort x hout).2

omit [DecidableEq θ] [DecidableEq γ] [DecidableEq ξ] [DecidableEq ς] [DecidableEq ρ]
  [DecidableEq φ] [DecidableEq μ] in
/-- The first mux reads both of its ports. -/
theorem BreakdownCpu.mux0_reads : (b.mux0 k : Mux (EmuChan θ γ ξ)).ReadsPorts := by
  intro read read' v hread
  have hss := hread (.model b.ss) (BreakdownCpu.port0.mpr (.inl rfl))
  have htt := hread (.model b.tt) (BreakdownCpu.port0.mpr (.inr rfl))
  simp only [selectInput, BreakdownCpu.mux0, selectTr, hss, htt]

omit [DecidableEq μ] in
theorem BreakdownSetup.reading (hbay : EmuBay p parts)
    (hset : BreakdownSetup sys p parts model k c ch b m) :
    Reading p.net (partMuxes parts) (b.Rel c ch) m.tr := by
  have htr : p.net.mux m.tr = b.mux0 k := hset.tr.2
  refine ⟨hset.tr.1, ?_, fun m' hm' heq => hbay.mux m.tr hset.tr.1 m' hm' heq, ?_⟩
  · rw [htr]
    exact BreakdownCpu.mux0_reads
  · rw [htr]
    exact .inl rfl

/-! ## Runs -/

/-- In a task body of the running thread of the CPU the task type appears or goes, and
nothing makes the first mux choose again: the running thread is the same and its subsystem
channel is not written. -/
def StaleType (k : BreakdownModel) (c : γ) (ch : BreakdownThread θ ξ)
    (e e1 : PatchEmu θ γ ξ μ ς ρ φ) : Prop :=
  ∃ t, e.runningThread c = some t ∧ e1.runningThread c = some t ∧
    e1.read (.model (ch.ss t)) = .int64 k.stTaskBody ∧
    .model (ch.ss t) ∉ e1.world.bay.dirty ∧
    ¬ (e.read (.model (ch.tt t)) = .null ↔ e1.read (.model (ch.tt t)) = .null)

variable {ever : EmuChan θ γ ξ → Prop} {e e1 : PatchEmu θ γ ξ μ ς ρ φ}
  {w w1 : PatchWorld (EmuChan θ γ ξ) μ ς ρ φ}

omit [DecidableEq θ] [DecidableEq γ] [DecidableEq ξ] [DecidableEq ς] [DecidableEq ρ]
  [DecidableEq φ] [DecidableEq μ] in
/-- The choice of the first mux only depends on whether there is a type in a task body. -/
theorem BreakdownCpu.mux0_choice {read read' : EmuChan θ γ ξ → Value}
    (hss : read' (.model b.ss) = read (.model b.ss))
    (htt : read (.model b.ss) = .int64 k.stTaskBody →
      (read' (.model b.tt) = .null ↔ read (.model b.tt) = .null)) :
    selectInput (b.mux0 k) read' (read' (.model b.ss)) =
      selectInput (b.mux0 k) read (read (.model b.ss)) := by
  have hbody : (read (.model b.ss) = .int64 k.stTaskBody ∧ read' (.model b.tt) ≠ .null) ↔
      read (.model b.ss) = .int64 k.stTaskBody ∧ read (.model b.tt) ≠ .null :=
    and_congr_right fun h => not_congr (htt h)
  simp only [selectInput, BreakdownCpu.mux0, selectTr, hss, hbody]

/-- A step that does not write the subsystem track leaves it as it was, and whether there
is a task type in a task body. -/
theorem BreakdownSetup.unwritten (hbay : EmuBay p parts)
    (hset : BreakdownSetup sys p parts model k c ch b m) (h : EmuRun sys p parts model e)
    {acts : List (EmuAct θ γ ξ)} {fuel : Nat}
    (hsource : ∀ op, .write op ∈ acts →
      (∃ x, op.chan = .model x) ∧ ∀ part ∈ parts, op.chan ∉ p.partOuts part)
    (hacts : runActs sys acts e = .ok e1) (hfit : ¬ StaleType k c ch e e1)
    (hdirty : propagateList p.net.call .dirty fuel 0 (e1.world.setState .propagating) = .ok w1)
    (hrun : bayPropagate p.net.call fuel e1.world = .ok w) (hss : .model b.ss ∉ w1.bay.dirty)
    (hbody : e.read (.model b.ss) = .int64 k.stTaskBody) :
    w.bay.read (.model b.tt) = .null ↔ e.read (.model b.tt) = .null := by
  have hmodel : ∀ op, .write op ∈ acts → ∃ x, op.chan = .model x := fun op hop =>
    (hsource op hop).1
  have h' := h.step hsource hacts hrun
  have hwritten : ¬ (e1.runningThread c ≠ e.runningThread c ∨
      ∃ t, e1.runningThread c = some t ∧ .model (ch.ss t) ∈ e1.world.bay.dirty) := fun hnew =>
    hss (hset.ss.written hbay h hsource hacts hdirty hrun hnew)
  rw [not_or, not_ne_iff] at hwritten
  obtain ⟨hsame, hclean⟩ := hwritten
  rw [hset.ss.running hbay hset.null.1 h] at hbody
  have htt : e.read (.model b.tt) = _ := hset.tt.running hbay hset.null.2 h
  have htt' : w.bay.read (.model b.tt) = _ := hset.tt.running hbay hset.null.2 h'
  cases ht : e.runningThread c with
  | none =>
      rw [ht] at hbody
      cases hbody
  | some t =>
      have ht1 : e1.runningThread c = some t := hsame.trans ht
      have ht' : Emu.runningThread { e1 with world := w } c = some t := ht1
      have hss1 : .model (ch.ss t) ∉ e1.world.bay.dirty := fun hmem => hclean ⟨t, ht1, hmem⟩
      have hok := h.ok hbay.sys
      have hread1 : e1.read (.model (ch.ss t)) = e.read (.model (ch.ss t)) :=
        (hok.written hmodel hacts).read_of_not_mem hss1
      have hread' : w.bay.read (.model (ch.tt t)) = e1.read (.model (ch.tt t)) :=
        ((hok.acts hmodel hacts).ready.propagate_read hrun _).2.2.2
          (not_out_of_partOuts (hset.tt.source _ ⟨t, rfl⟩).1)
      rw [ht] at hbody htt
      rw [ht'] at htt'
      rw [htt, htt']
      by_contra hne
      refine hfit ⟨t, ht, ht1, hread1.trans hbody, hss1, fun hiff => hne ?_⟩
      show w.bay.read (.model (ch.tt t)) = .null ↔ _
      rw [hread']
      exact hiff.symm

/-- The first mux between two steps: once its select channel was written it has chosen
for the values that there are. -/
structure BreakdownRest (p : Patch (EmuChan θ γ ξ) μ ς ρ φ) (parts : List (Part μ ς ρ))
    (model : ξ → Chan) (b : BreakdownCpu ξ) (m : BreakdownCpu μ) (ever : EmuChan θ γ ξ → Prop)
    (e : PatchEmu θ γ ξ μ ς ρ φ) : Prop where
  rest : PatchRest p parts (· = m.tri) (emuChanInit model) ever e.world
  chosen : ever (.model b.ss) → Selected p.net e.world m.tr ∧ Copied p.net e.world m.tr

omit [DecidableEq μ] [DecidableEq ς] [DecidableEq ρ] [DecidableEq φ] in
/-- The channels that are written from outside come first. -/
theorem BreakdownSetup.lev_source (hbay : EmuBay p parts)
    (hset : BreakdownSetup sys p parts model k c ch b m) (hout : ¬ p.Out parts x)
    (hrel : b.Rel c ch x) : b.lev x = 0 := by
  have hmux : ∀ {m' : μ} {y : ξ}, m' ∈ partMuxes parts → (p.mux m').output = .model y →
      x ≠ .model y := fun hm' hy heq => hout (.inl ⟨_, hm', heq.trans hy.symm⟩)
  rcases hrel with heq | heq | hport
  · exact absurd heq (hmux hset.tr.1 (by rw [hset.tr.2]; rfl))
  · rcases heq with heq | heq | heq
    · exact absurd heq (hmux hset.ss.mem (by rw [hset.ss.mux]; rfl))
    · exact absurd heq (hmux hset.tt.mem (by rw [hset.tt.mux]; rfl))
    · exact absurd heq (hmux hset.idle.mem (by rw [hset.idle.mux]; rfl))
  · exact hset.lev_port hbay hport

/-- The first mux at the start of the dirty phase. -/
theorem BreakdownRest.choosing (hset : BreakdownSetup sys p parts model k c ch b m)
    (h : BreakdownRest p parts model b m ever e) (hmod : e1.world.mod = e.world.mod)
    (hb : Bay.Written (fun c => ¬ p.Out parts c) e.world.bay e1.world.bay) :
    Choosing p.net m.tr (e.world.choice m.tr) ever 0 [] (e1.world.setState .propagating) := by
  have htr : p.net.mux m.tr = b.mux0 k := hset.tr.2
  have hout : ¬ ¬ p.Out parts (p.net.mux m.tr).output := fun hnot =>
    hnot (.inl ⟨m.tr, hset.tr.1, rfl⟩)
  have hsame : e1.world.mod.selected m.tr = e.world.mod.selected m.tr := by rw [hmod]
  have hchoice : (e1.world.setState .propagating).choice m.tr = e.world.choice m.tr :=
    World.choice_congr hsame
  intro hever hsel _
  have hclean : (p.net.mux m.tr).select ∉ e1.world.bay.dirty := hsel
  rw [htr] at hever
  obtain ⟨hselected, hcopied⟩ := h.chosen (hever.resolve_right (by simp))
  refine ⟨⟨fun hmem => absurd hmem hclean, fun _ => hchoice, fun i hi => ?_⟩, fun hports => ?_⟩
  · have hon := hselected.enabled i (hchoice ▸ hi)
    rw [← hb.enabled] at hon
    exact hon
  · exact hcopied.frame hsame (hb.read_of_not_src hout)
      fun j x hj hx => hb.read_of_not_mem (hports j x (hchoice.trans hj) hx).1

/-- A step keeps the first mux right, when it is not one that leaves an old choice. -/
theorem BreakdownRest.step (hbay : EmuBay p parts)
    (hset : BreakdownSetup sys p parts model k c ch b m) (h : EmuRun sys p parts model e)
    (hrest : BreakdownRest p parts model b m ever e) {acts : List (EmuAct θ γ ξ)} {fuel : Nat}
    (hsource : ∀ op, .write op ∈ acts →
      (∃ x, op.chan = .model x) ∧ ∀ part ∈ parts, op.chan ∉ p.partOuts part)
    (hacts : runActs sys acts e = .ok e1) (hfit : ¬ StaleType k c ch e e1)
    (hdirty : propagateList p.net.call .dirty fuel 0 (e1.world.setState .propagating) = .ok w1)
    (hrun : bayPropagate p.net.call fuel e1.world = .ok w) :
    BreakdownRest p parts model b m (fun x => ever x ∨ x ∈ w1.bay.dirty)
      { e1 with world := w } := by
  have hl := hset.layers hbay h.loopless
  have hok := h.ok hbay.sys
  have hmodel : ∀ op, .write op ∈ acts → ∃ x, op.chan = .model x := fun op hop =>
    (hsource op hop).1
  have hlev : ∀ x, ¬ p.Out parts x → b.Rel c ch x → True ∧ b.lev x = 0 := fun x hout hrel =>
    ⟨trivial, hset.lev_source hbay hout hrel⟩
  have htr : p.net.mux m.tr = b.mux0 k := hset.tr.2
  obtain ⟨w1', hdirty', hb, hg, hrest'⟩ := hrest.rest.step hbay hl hlev hok hsource hacts hrun
  obtain rfl : w1' = w1 := Except.ok.inj (hdirty'.symm.trans hdirty)
  refine ⟨hrest', fun hever => ?_⟩
  obtain ⟨-, -, -, hmod⟩ := hok.writes hmodel hacts
  have hworld : World.mk e1.world.bay e.world.mod = e1.world := by
    rw [← hmod]
  have hv : Visited p.net (partMuxes parts) (b.Rel c ch) (fun _ => True) b.lev p.sortOut
      e1.world.bay.chan 0 (World.setState ⟨e1.world.bay, e.world.mod⟩ .propagating) := by
    apply hrest.rest.quiet.start hb
    intro x hx hrel
    rcases hb.only x hx with hmem | hnot
    · rw [hrest.rest.quiet.nodirty] at hmem
      cases hmem
    · exact hlev x hnot hrel
  rw [hworld] at hv
  obtain ⟨hchosen, hcopied⟩ := propagateList_chosen hl (hset.reading hbay) hv
    (hrest.choosing hset hmod hb) hdirty (by rw [htr]; exact hever)
  obtain ⟨hread, hen, hsel⟩ :=
    (hok.acts hmodel hacts).ready.settled_end (m := m.tr) hdirty hrun
  have hchoice : Selected p.net w m.tr := by
    refine ⟨?_, fun i hi => ?_⟩
    · rw [hsel, htr]
      by_cases hss : .model b.ss ∈ w1'.bay.dirty
      · have hnew := hchosen.new (by rw [htr]; exact hss)
        rw [htr, ← funext hread] at hnew
        exact hnew
      · -- The choice is the one from before, for values that give the same choice
        have hold := (hrest.chosen (hever.resolve_right hss)).1.choice
        rw [hchosen.kept (by rw [htr]; exact hss), ← hold, htr]
        refine BreakdownCpu.mux0_choice ?_ fun hbody => ?_
        · rw [hread, hg.read_of_not_mem hss]
          exact hb.read_of_not_mem fun hmem => hss (hg.mono hmem)
        · exact hset.unwritten hbay h hsource hacts hfit hdirty hrun hss hbody
    · rw [hen]
      exact hchosen.enabled i (hsel ▸ hi)
  refine ⟨hchoice, ?_⟩
  unfold Copied at hcopied ⊢
  rw [← hsel, ← hread, ← funext hread] at hcopied
  exact hcopied

/-- In every run without a step that leaves an old choice, the first mux is right once
its select channel was written. -/
theorem EmuWrites.breakdown (hbay : EmuBay p parts)
    (hset : BreakdownSetup sys p parts model k c ch b m)
    (h : EmuWrites sys p parts model (fun e e1 => ¬ StaleType k c ch e e1) ever e) :
    BreakdownRest p parts model b m ever e := by
  induction h with
  | connect hchan hclean honce hrun =>
      refine ⟨PatchRest.connect _ ?_ (emuChanInit_unregistered hchan) (emuChanInit_clean hclean)
        honce hrun, fun hever => hever.elim⟩
      rintro _ rfl hout
      exact (hbay.sort _ hout).2 m.tri hset.tri.1 rfl
  | step hprev hsource hacts hfit hdirty hrun ih =>
      exact ih.step hbay hset hprev.run hsource hacts hfit hdirty hrun

/-! ## What the channels show -/

omit [DecidableEq θ] [DecidableEq γ] [DecidableEq ξ] in
/-- What the first mux shows when it has chosen for the values that there are. -/
theorem BreakdownCpu.choose0 {read : EmuChan θ γ ξ → Value} {choice : Option Nat}
    (h : selectInput (b.mux0 k) read (read (.model b.ss)) = .ok choice) :
    (b.mux0 k : Mux (EmuChan θ γ ξ)).choose read choice =
      if read (.model b.ss) = .int64 k.stTaskBody ∧ read (.model b.tt) ≠ .null then
        read (.model b.tt)
      else if read (.model b.ss) ≠ .null then read (.model b.ss)
      else .int64 stUnknownSs := by
  simp only [selectInput, BreakdownCpu.mux0, selectTr] at h
  by_cases hbody : read (.model b.ss) = .int64 k.stTaskBody ∧ read (.model b.tt) ≠ .null
  · rw [if_pos hbody] at h ⊢
    rw [← Except.ok.inj h]
    rfl
  rw [if_neg hbody] at h ⊢
  by_cases hnull : read (.model b.ss) = .null
  · rw [if_pos hnull] at h
    rw [if_neg (not_not.mpr hnull), ← Except.ok.inj h]
    rfl
  · rw [if_neg hnull] at h
    rw [if_pos hnull, ← Except.ok.inj h]
    rfl

omit [DecidableEq θ] [DecidableEq γ] [DecidableEq ξ] in
/-- What the second mux shows when it has chosen for the value of the idle track. -/
theorem BreakdownCpu.choose1 {read : EmuChan θ γ ξ → Value} {choice : Option Nat}
    (h : selectInput b.mux1 read (read (.model b.idle)) = .ok choice) :
    (b.mux1 : Mux (EmuChan θ γ ξ)).choose read choice =
      if read (.model b.idle) = .int64 stProgressing then read (.model b.tr)
      else read (.model b.idle) := by
  simp only [selectInput, BreakdownCpu.mux1, selectIdle] at h
  by_cases hidle : read (.model b.idle) = .int64 stProgressing
  · rw [if_pos hidle] at h ⊢
    rw [← Except.ok.inj h]
    rfl
  · rw [if_neg hidle] at h ⊢
    rw [← Except.ok.inj h]
    rfl

omit [DecidableEq μ] in
/-- The first mux shows its value when it has chosen for it. -/
theorem BreakdownSetup.shows_tr (hset : BreakdownSetup sys p parts model k c ch b m)
    (hsel : Selected p.net e.world m.tr) (hcopied : Copied p.net e.world m.tr) :
    e.read (.model b.tr) = b.trValue k e := by
  have htr : p.net.mux m.tr = b.mux0 k := hset.tr.2
  have hchoice := hsel.choice
  unfold Copied at hcopied
  rw [htr] at hchoice hcopied
  exact hcopied.trans (BreakdownCpu.choose0 hchoice)

omit [DecidableEq μ] in
/-- The second mux shows its value when it has chosen for it. -/
theorem BreakdownSetup.shows_tri (hset : BreakdownSetup sys p parts model k c ch b m)
    (hsel : Selected p.net e.world m.tri) (hcopied : Copied p.net e.world m.tri) :
    e.read (.model b.tri) = b.triValue e := by
  have htri : p.net.mux m.tri = b.mux1 := hset.tri.2
  have hchoice := hsel.choice
  unfold Copied at hcopied
  rw [htri] at hchoice hcopied
  exact hcopied.trans (BreakdownCpu.choose1 hchoice)

/-- In every run in which no step makes the task type of a running thread appear or go in
a task body without writing the subsystem, the channels of each CPU whose subsystem and
idle tracks were written show what they are meant to. -/
theorem breakdown_shows (hbay : EmuBay p parts)
    (hset : BreakdownSetup sys p parts model k c ch b m)
    (h : EmuWrites sys p parts model (fun e e1 => ¬ StaleType k c ch e e1) ever e)
    (hss : ever (.model b.ss)) (hidle : ever (.model b.idle)) : b.Shows k e := by
  have hrest := h.breakdown hbay hset
  obtain ⟨hsel, hcopied⟩ := hrest.chosen hss
  have htri : (p.net.mux m.tri).select = .model b.idle := by
    have hmux : p.net.mux m.tri = b.mux1 := hset.tri.2
    rw [hmux]
    rfl
  obtain ⟨hsel1, hcopied1⟩ := hrest.rest.quiet.settled m.tri rfl (htri ▸ hidle)
  exact ⟨hset.shows_tr hsel hcopied, hset.shows_tri hsel1 hcopied1⟩

end

/-! ## A task that is paused -/

/-- The channels of two threads and the breakdown of a CPU. -/
inductive BreakChan where
  | ss (t : Bool)
  | tt (t : Bool)
  | idle (t : Bool)
  | cpuSs
  | cpuTt
  | cpuIdle
  | tr
  | tri
  | row
  deriving DecidableEq

/-- The muxes of the breakdown. -/
inductive BreakMux where
  | tt
  | ss
  | idle
  | tr
  | tri
  deriving DecidableEq

/-- The channels of the threads. -/
def breakThread : BreakdownThread Bool BreakChan := { ss := .ss, tt := .tt, idle := .idle }

/-- The channels of the CPU. -/
def breakCpu : BreakdownCpu BreakChan :=
  { ss := .cpuSs, tt := .cpuTt, idle := .cpuIdle, tr := .tr, tri := .tri }

/-- The muxes that write them. -/
def breakMuxes : BreakdownCpu BreakMux :=
  { ss := .ss, tt := .tt, idle := .idle, tr := .tr, tri := .tri }

/-- The breakdown of nOS-V for the physical CPU. -/
def breakPatch : Patch (EmuChan Bool Bool BreakChan) BreakMux Unit Empty Empty where
  mux
    | .ss => (Track.cpu false .ss .cpuSs .null).mux demoSystem
    | .tt => (Track.cpu false .tt .cpuTt .null).mux demoSystem
    | .idle => (idleTrack false .idle .cpuIdle).mux demoSystem
    | .tr => breakCpu.mux0 .nosv
    | .tri => breakCpu.mux1
  sort _ := { inputs := [.model .tri], outputs := [.model .row], same := rfl }
  rchan := Empty.elim
  nrows := Empty.elim

/-- The parts in the order of the connections. -/
def breakParts : List (Part BreakMux Unit Empty) :=
  [.sort (), .mux .tt, .mux .ss, .mux .idle, .mux .tr, .mux .tri, .sortInput () 0]

/-- The subsystem of a thread is a stack. -/
def breakModel : BreakChan → Chan
  | .ss _ => chanInit .stack
  | _ => chanInit .single

theorem break_bay : EmuBay breakPatch breakParts where
  sys part hpart c hc := by
    have hmodel : ∃ x, c = .model x := by
      rcases part with m | s | ⟨s, i⟩ | r
      · rw [List.mem_singleton.mp hc]
        cases m <;> exact ⟨_, rfl⟩
      · exact ⟨_, List.mem_singleton.mp hc⟩
      · exact ⟨_, List.mem_singleton.mp hc⟩
      · exact r.elim
    obtain ⟨x, rfl⟩ := hmodel
    exact id
  mux m _ m' _ heq := by
    revert heq
    cases m <;> cases m' <;> decide
  sort c hc := by
    obtain ⟨s, hmem⟩ := hc
    rw [List.mem_singleton.mp hmem]
    exact ⟨id, fun m _ => by cases m <;> decide⟩

/-- The channels of the threads are written by the models only. -/
theorem break_source {x : BreakChan} (h : ∃ t, x = .ss t ∨ x = .tt t ∨ x = .idle t) :
    (∀ part ∈ breakParts, .model x ∉ breakPatch.partOuts part) ∧
      ¬ breakPatch.sortOut (.model x) := by
  obtain ⟨t, h⟩ := h
  constructor
  · rcases h with rfl | rfl | rfl <;> cases t <;> decide
  · rintro ⟨s, hmem⟩
    have heq : EmuChan.model x = .model .row := List.mem_singleton.mp hmem
    rcases h with rfl | rfl | rfl <;> cases heq

theorem break_setup : BreakdownSetup demoSystem breakPatch breakParts breakModel .nosv false
    breakThread breakCpu breakMuxes where
  ss := ⟨by decide, rfl, fun _ ⟨t, ht⟩ => break_source ⟨t, .inl ht⟩⟩
  tt := ⟨by decide, rfl, fun _ ⟨t, ht⟩ => break_source ⟨t, .inr (.inl ht)⟩⟩
  idle := ⟨by decide, rfl, fun _ ⟨t, ht⟩ => break_source ⟨t, .inr (.inr ht)⟩⟩
  tr := ⟨by decide, rfl⟩
  tri := ⟨by decide, rfl⟩
  null := ⟨rfl, rfl⟩

/-- The emulator of the breakdown. -/
abbrev BreakEmu := PatchEmu Bool Bool BreakChan BreakMux Unit Empty Empty

/-- The emulator, connected. -/
def breakInit : BreakEmu :=
  emuInit (okOr (patchInit (emuChanInit breakModel))
    (connectParts breakPatch breakParts (patchInit (emuChanInit breakModel))))

/-- The emulator before the bay propagates in a step. -/
def breakActed (e : BreakEmu) (acts : List (EmuAct Bool Bool BreakChan)) : BreakEmu :=
  okOr e (runActs demoSystem acts e)

/-- The channels that are written in a step. -/
def breakDirty (e : BreakEmu) (acts : List (EmuAct Bool Bool BreakChan)) :
    List (EmuChan Bool Bool BreakChan) :=
  (okOr (breakActed e acts).world (propagateList breakPatch.net.call .dirty 40 0
    ((breakActed e acts).world.setState .propagating))).bay.dirty

/-- The emulator after a step. -/
def breakStep (e : BreakEmu) (acts : List (EmuAct Bool Bool BreakChan)) : BreakEmu :=
  { breakActed e acts with
    world := okOr (breakActed e acts).world
      (bayPropagate breakPatch.net.call 40 (breakActed e acts).world) }

/-- A step whose phases all succeed, and whose writes are of channels of the threads. -/
def breakStepOk (e : BreakEmu) (acts : List (EmuAct Bool Bool BreakChan)) : Bool :=
  (acts.all fun
    | .write op => decide (∃ t, op.chan = .model (.ss t) ∨ op.chan = .model (.tt t) ∨
        op.chan = .model (.idle t))
    | _ => true) &&
  (runActs demoSystem acts e).isOk &&
  (propagateList breakPatch.net.call .dirty 40 0
    ((breakActed e acts).world.setState .propagating)).isOk &&
  (bayPropagate breakPatch.net.call 40 (breakActed e acts).world).isOk

/-- The runs of the breakdown. -/
abbrev BreakWrites (fit : BreakEmu → BreakEmu → Prop) :=
  EmuWrites demoSystem breakPatch breakParts breakModel fit

theorem breakInit_writes (fit : BreakEmu → BreakEmu → Prop) :
    BreakWrites fit (fun _ => False) breakInit := by
  refine .connect (fun x => ?_) (fun x => ?_) (by decide) (eq_okOr _ (by decide +kernel))
  · cases x <;> exact .init _
  · cases x <;> rfl

theorem breakStep_writes {fit : BreakEmu → BreakEmu → Prop}
    {ever : EmuChan Bool Bool BreakChan → Prop} {e : BreakEmu}
    {acts : List (EmuAct Bool Bool BreakChan)} (h : BreakWrites fit ever e)
    (hok : breakStepOk e acts = true) (hfit : fit e (breakActed e acts)) :
    BreakWrites fit (fun x => ever x ∨ x ∈ breakDirty e acts) (breakStep e acts) := by
  simp only [breakStepOk, Bool.and_eq_true, List.all_eq_true] at hok
  obtain ⟨⟨⟨hacts, hrun⟩, hdirty⟩, hprop⟩ := hok
  refine .step h (fun op hop => ?_) (eq_okOr _ hrun) hfit (eq_okOr _ hdirty) (eq_okOr _ hprop)
  obtain ⟨t, hchan⟩ := of_decide_eq_true (hacts _ hop)
  rcases hchan with hchan | hchan | hchan
  · rw [hchan]
    exact ⟨⟨_, rfl⟩, (break_source ⟨t, .inl rfl⟩).1⟩
  · rw [hchan]
    exact ⟨⟨_, rfl⟩, (break_source ⟨t, .inr (.inl rfl)⟩).1⟩
  · rw [hchan]
    exact ⟨⟨_, rfl⟩, (break_source ⟨t, .inr (.inr rfl)⟩).1⟩

/-- The writes of `model_nosv_connect`: all threads are progressing. -/
def breakConnectActs : List (EmuAct Bool Bool BreakChan) :=
  [.write (.set (.model (.idle false)) (.int64 stProgressing)),
    .write (.set (.model (.idle true)) (.int64 stProgressing))]

/-- The first thread executes on the physical CPU. -/
def breakExecuteActs : List (EmuAct Bool Bool BreakChan) := [.event (demoEvent false 'H' 'x' [0])]

/-- The writes of `VTx`: the thread enters the body of a task of type 5. -/
def breakTaskActs : List (EmuAct Bool Bool BreakChan) :=
  [.write (.push (.model (.ss false)) (.int64 11)),
    .write (.set (.model (.tt false)) (.int64 5))]

/-- The write of `VTp`: the task is paused. -/
def breakPauseActs : List (EmuAct Bool Bool BreakChan) :=
  [.write (.set (.model (.tt false)) .null)]

/-- The first thread executes a task. -/
def breakTask : BreakEmu :=
  breakStep (breakStep (breakStep breakInit breakConnectActs) breakExecuteActs) breakTaskActs

/-- The run up to the task, which has written all tracks of the CPU. -/
theorem breakTask_writes (fit : BreakEmu → BreakEmu → Prop)
    (hconnect : fit breakInit (breakActed breakInit breakConnectActs))
    (hexecute : fit (breakStep breakInit breakConnectActs)
      (breakActed (breakStep breakInit breakConnectActs) breakExecuteActs))
    (htask : fit (breakStep (breakStep breakInit breakConnectActs) breakExecuteActs)
      (breakActed (breakStep (breakStep breakInit breakConnectActs) breakExecuteActs)
        breakTaskActs)) :
    ∃ ever, BreakWrites fit ever breakTask ∧ ever (.model breakCpu.ss) ∧
      ever (.model breakCpu.idle) :=
  ⟨_, breakStep_writes (breakStep_writes (breakStep_writes (breakInit_writes fit)
      (by decide +kernel) hconnect) (by decide +kernel) hexecute) (by decide +kernel) htask,
    .inl (.inr (by decide +kernel)), .inl (.inr (by decide +kernel))⟩

/-- The breakdown shows the type of the task. -/
theorem breakdown_shows_task :
    breakCpu.Shows .nosv breakTask ∧ breakTask.read (.model .tr) = .int64 5 ∧
      breakTask.read (.model .tri) = .int64 5 := by
  have hfresh : ∀ e e1 : BreakEmu, (∀ t, e.runningThread false = some t →
      e1.read (.model (.ss t)) ≠ .int64 11 ∨ .model (.ss t) ∈ e1.world.bay.dirty) →
      ¬ StaleType .nosv false breakThread e e1 := by
    rintro e e1 h ⟨t, ht, -, hbody, hclean, -⟩
    exact (h t ht).elim (fun hne => hne hbody) hclean
  obtain ⟨ever, hrun, hss, hidle⟩ := breakTask_writes
    (fun e e1 => ¬ StaleType .nosv false breakThread e e1) (hfresh _ _ (by decide +kernel))
    (hfresh _ _ (by decide +kernel)) (hfresh _ _ (by decide +kernel))
  exact ⟨breakdown_shows break_bay break_setup hrun hss hidle, by decide +kernel,
    by decide +kernel⟩

/-- When the task is paused the first mux still shows its type, which is null, and not
the subsystem. -/
theorem breakdown_stale_type :
    ∃ ever, BreakWrites (fun _ _ => True) ever (breakStep breakTask breakPauseActs) ∧
      ever (.model breakCpu.ss) ∧ ever (.model breakCpu.idle) ∧
      (breakStep breakTask breakPauseActs).read (.model breakCpu.ss) = .int64 11 ∧
      (breakStep breakTask breakPauseActs).read (.model breakCpu.tr) = .null ∧
      ¬ breakCpu.Shows .nosv (breakStep breakTask breakPauseActs) := by
  obtain ⟨ever, hrun, hss, hidle⟩ := breakTask_writes (fun _ _ => True) trivial trivial
    trivial
  refine ⟨_, breakStep_writes hrun (by decide +kernel) trivial, .inl hss, .inl hidle,
    by decide +kernel, by decide +kernel, ?_⟩
  unfold BreakdownCpu.Shows BreakdownCpu.trValue
  decide +kernel

end Ovni
