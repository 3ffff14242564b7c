import Ovni.System.Tracks

/-!
# The idle track of a CPU

The nOS-V and Nanos6 models set the default of the idle track of each CPU to
resting, so that a CPU without a running thread shows it.  The default is only
written when the select channel of the track becomes dirty, and that of a CPU
which never had a running thread does not.
-/

namespace Ovni

open Ovni.Lib

/-- `ST_PROGRESSING` of both models. -/
def stProgressing : Int := 100

/-- `ST_RESTING` of both models. -/
def stResting : Int := 101

/-- The idle track of a CPU, with the default that is set after it was connected. -/
def idleTrack {θ γ ξ : Type} (c : γ) (idle : θ → ξ) (out : ξ) : Track θ γ ξ :=
  .cpu c idle out (.int64 stResting)

section

variable {θ γ π ℓ ξ μ ς ρ φ : Type} [DecidableEq θ] [DecidableEq γ] [DecidableEq ξ]
  [DecidableEq μ] [DecidableEq ς] [DecidableEq ρ] [DecidableEq φ] {sys : System θ γ π ℓ}
  {p : Patch (EmuChan θ γ ξ) μ ς ρ φ} {parts : List (Part μ ς ρ)} {model : ξ → Chan}
  {e : PatchEmu θ γ ξ μ ς ρ φ} {es : List (PatchEmu θ γ ξ μ ς ρ φ)} {m : μ}

/-- The running thread of a CPU, when it has exactly one. -/
def Emu.runningThread (e : PatchEmu θ γ ξ μ ς ρ φ) (c : γ) : Option θ :=
  sole (runningIn e.state (e.cpu c).threads)

/-- What the idle track is meant to show: the idle channel of the running thread, and
resting without one. -/
def idleValue (e : PatchEmu θ γ ξ μ ς ρ φ) (c : γ) (idle : θ → ξ) : Value :=
  match e.runningThread c with
  | some t => e.read (.model (idle t))
  | none => .int64 stResting

/-- The idle track of a CPU shows what it is meant to if and only if the CPU had exactly
one running thread at some point of the run. -/
theorem idle_track_iff_ran {c : γ} {idle : θ → ξ} {out : ξ} (hbay : EmuBay p parts)
    (hset : TrackSetup sys p parts m (idleTrack c idle out))
    (hnull : chanRead (model out) = .null) (h : EmuTrace sys p parts model (e :: es)) :
    e.read (.model out) = idleValue e c idle ↔
      ∃ e' ∈ e :: es, e'.runningThread c ≠ none := by
  -- The select channel is null exactly when there is no running thread
  have hsel : ∀ e' ∈ e :: es,
      (e'.read ((idleTrack c idle out).mux sys).select ≠ .null ↔ e'.runningThread c ≠ none) := by
    intro e' he'
    have hthrun : e'.read (.cpu c .thrun) = _ :=
      (((h.runs e' he').ok hbay.sys).sys.cpu c).thrun
    show e'.read (.cpu c .thrun) ≠ .null ↔ _
    rw [hthrun]
    unfold Emu.runningThread
    cases sole (runningIn e'.state (e'.cpu c).threads) with
    | none => simp [threadValue]
    | some t => simp [threadValue]
  have hran : (∃ e' ∈ e :: es, e'.read ((idleTrack c idle out).mux sys).select ≠ .null) ↔
      ∃ e' ∈ e :: es, e'.runningThread c ≠ none := by
    constructor
    · rintro ⟨e', he', hne⟩
      exact ⟨e', he', (hsel e' he').mp hne⟩
    · rintro ⟨e', he', hne⟩
      exact ⟨e', he', (hsel e' he').mpr hne⟩
  have htrack : e.read (.model out) = _ := h.track hbay hset
  rw [htrack, ← hran]
  by_cases hever : ∃ e' ∈ e :: es, e'.read ((idleTrack c idle out).mux sys).select ≠ .null
  · rw [if_pos hever]
    exact iff_of_true rfl hever
  · rw [if_neg hever]
    refine iff_of_false (fun heq => ?_) hever
    have hnone : e.runningThread c = none := by
      by_contra hne
      exact hever ⟨e, List.mem_cons_self, (hsel e List.mem_cons_self).mpr hne⟩
    have hout : chanRead (model (idleTrack c idle out).out) = .null := hnull
    rw [hout, idleValue, hnone] at heq
    cases heq

end

/-! ## The first states of a run -/

/-- What the models do at the end of `emu_connect`: all threads are progressing. -/
def demoConnectActs : List (EmuAct Bool Bool DemoChan) :=
  [.write (.set (.model (.th false)) (.int64 stProgressing)),
    .write (.set (.model (.th true)) (.int64 stProgressing))]

/-- The emulator with idle tracks after `emu_connect`. -/
def demoIdle : PatchEmu Bool Bool DemoChan DemoMux Empty Empty Empty :=
  demoTracksStep (.int64 stResting) (demoTracksInit (.int64 stResting)) demoConnectActs

/-- The first thread executes on the physical CPU. -/
def demoIdleRan : PatchEmu Bool Bool DemoChan DemoMux Empty Empty Empty :=
  demoTracksStep (.int64 stResting) demoIdle [.event (demoEvent false 'H' 'x' [0])]

theorem demoConnectActs_source (op : ChanOp (EmuChan Bool Bool DemoChan))
    (hop : .write op ∈ demoConnectActs) : (∃ x, op.chan = .model x) ∧
      ∀ part ∈ demoTrackParts, op.chan ∉ (demoTracks (.int64 stResting)).partOuts part := by
  have hth : ∃ t, op.chan = .model (.th t) := by
    simp only [demoConnectActs, List.mem_cons, EmuAct.write.injEq, List.not_mem_nil,
      or_false] at hop
    rcases hop with rfl | rfl
    · exact ⟨false, rfl⟩
    · exact ⟨true, rfl⟩
  obtain ⟨t, ht⟩ := hth
  rw [ht]
  exact ⟨⟨_, rfl⟩, ((demoTracks_setup _ (.th t)).source (.th t) rfl).1⟩

theorem demoIdle_trace : EmuTrace demoSystem (demoTracks (.int64 stResting)) demoTrackParts
    demoModel [demoIdle, demoTracksInit (.int64 stResting)] :=
  .step (.connect (fun _ => .init .single) (fun _ => rfl) (by decide)
    (eq_okOr _ (by decide +kernel))) demoConnectActs_source (eq_okOr _ (by decide +kernel))
    (eq_okOr _ (by decide +kernel))

/-- After `emu_connect` no CPU shows resting. -/
theorem idle_track_null_at_connect :
    EmuTrace demoSystem (demoTracks (.int64 stResting)) demoTrackParts demoModel
        [demoIdle, demoTracksInit (.int64 stResting)] ∧
      demoIdle.read (.model (.cpuTrack false)) = .null ∧
      idleValue demoIdle false .th = .int64 stResting :=
  ⟨demoIdle_trace, by decide +kernel, by decide +kernel⟩

/-- The CPU shows the idle channel of its thread once the thread executes. -/
theorem idle_track_iff_ran_demo :
    (∃ e' ∈ [demoIdleRan, demoIdle, demoTracksInit (.int64 stResting)],
        Emu.runningThread e' false ≠ none) ∧
      demoIdleRan.read (.model (.cpuTrack false)) = idleValue demoIdleRan false .th ∧
      idleValue demoIdleRan false .th = .int64 stProgressing := by
  have hran : ∃ e' ∈ [demoIdleRan, demoIdle, demoTracksInit (.int64 stResting)],
      Emu.runningThread e' false ≠ none :=
    ⟨demoIdleRan, List.mem_cons_self, by decide +kernel⟩
  have htrace : EmuTrace demoSystem (demoTracks (.int64 stResting)) demoTrackParts demoModel
      [demoIdleRan, demoIdle, demoTracksInit (.int64 stResting)] :=
    .step demoIdle_trace (fun op hop => by simp at hop) (eq_okOr _ (by decide +kernel))
      (eq_okOr _ (by decide +kernel))
  exact ⟨hran, (idle_track_iff_ran (demoTracks_bay _) (demoTracks_setup _ (.cpu false)) rfl
    htrace).mpr hran, by decide +kernel⟩

end Ovni
