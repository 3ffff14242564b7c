import Ovni.Region.Run
import Ovni.System.Tracks

/-!
# Nested regions

The results on the regions of a run: the stack of a channel is what its writes leave open,
the linter accepts the runs where every thread wrote the word of a forest, and the tracks
show the innermost region.
-/

namespace Ovni

open Ovni.Lib

section

variable {θ γ π ℓ ξ μ ς ρ φ : Type} [DecidableEq θ] [DecidableEq γ] [DecidableEq ξ]
  [DecidableEq μ] [DecidableEq ς] [DecidableEq ρ] [DecidableEq φ]
variable {sys : System θ γ π ℓ} {p : Patch (EmuChan θ γ ξ) μ ς ρ φ} {parts : List (Part μ ς ρ)}
  {model : ξ → Chan} {log : List (List (EmuAct θ γ ξ))} {e : PatchEmu θ γ ξ μ ς ρ φ}
  {x : ξ} {dup : Bool}

/-- The regions that are open on a channel, the innermost first. -/
def Emu.regions (e : PatchEmu θ γ ξ μ ς ρ φ) (x : ξ) : List Value :=
  (e.world.bay.chan (.model x)).stack

theorem EmuLog.regions (hsys : ∀ part ∈ parts, ∀ c ∈ p.partOuts part, ¬ c.IsSys)
    (hinit : model x = stackInit dup) (hout : ∀ part ∈ parts, .model x ∉ p.partOuts part)
    (h : EmuLog sys p parts model log e) :
    (regionRule dup).run [] (regionWord x log) = some (e.regions x) ∧
      e.read (.model x) = (e.regions x).headD .null := by
  obtain ⟨s, hword, hchan⟩ := h.region hsys hinit hout
  have hstack : e.regions x = s := hchan.stack
  rw [hstack]
  refine ⟨hword, ?_⟩
  show chanRead _ = _
  simp only [chanRead, hchan.type, hchan.stack]

/-- A forest that is the word of a channel can stand there, and nothing is open. -/
theorem EmuLog.forest (hsys : ∀ part ∈ parts, ∀ c ∈ p.partOuts part, ¬ c.IsSys)
    (hinit : model x = stackInit dup) (hout : ∀ part ∈ parts, .model x ∉ p.partOuts part)
    (h : EmuLog sys p parts model log e) {f : Forest Value} (hf : f.word = regionWord x log) :
    (regionRule dup).Allows [] f ∧ e.regions x = [] := by
  have hword := (h.regions hsys hinit hout).1
  rw [← hf, ← List.append_nil f.word, BracketRule.run_word] at hword
  exact ⟨hword.1, (Option.some.inj hword.2).symm⟩

theorem EmuLog.regions_nil_iff (hsys : ∀ part ∈ parts, ∀ c ∈ p.partOuts part, ¬ c.IsSys)
    (hinit : model x = stackInit dup) (hout : ∀ part ∈ parts, .model x ∉ p.partOuts part)
    (h : EmuLog sys p parts model log e) :
    e.regions x = [] ↔ ∃ f : Forest Value, f.word = regionWord x log := by
  constructor
  · intro hnil
    have hword := (h.regions hsys hinit hout).1
    rw [hnil] at hword
    obtain ⟨f, hf, -⟩ := BracketRule.run_closed_iff.mp hword
    exact ⟨f, hf⟩
  · rintro ⟨f, hf⟩
    exact (h.forest hsys hinit hout hf).2

/-- In every run, the stack of a channel is what its writes have opened and not closed, and
never deeper than 512.  Nothing is open exactly when the writes are those of a forest of
regions, and then the forest has no region deeper than that nor, unless the channel takes
duplicates, one directly in a region with its value. -/
theorem regions_nest (hsys : ∀ part ∈ parts, ∀ c ∈ p.partOuts part, ¬ c.IsSys)
    (hinit : model x = stackInit dup) (hout : ∀ part ∈ parts, .model x ∉ p.partOuts part)
    (h : EmuLog sys p parts model log e) :
    (regionRule dup).run [] (regionWord x log) = some (e.regions x) ∧
      (e.regions x).length ≤ maxChanStack ∧
      (e.regions x = [] ↔ ∃ f : Forest Value, f.word = regionWord x log) ∧
      ∀ f : Forest Value, f.word = regionWord x log →
        f.depth ≤ maxChanStack ∧ (dup = false → f.Apart none) := by
  have hword := (h.regions hsys hinit hout).1
  refine ⟨hword, BracketRule.run_length hword (Nat.zero_le _),
    h.regions_nil_iff hsys hinit hout, fun f hf => ?_⟩
  have hbound :=
    (BracketRule.allows_iff f (Nat.zero_le _)).mp (h.forest hsys hinit hout hf).1
  rw [List.length_nil, Nat.zero_add] at hbound
  exact hbound

/-! ## A run -/

/-- A stack channel for each thread, with its tracks. -/
def demoStacks : DemoChan → Chan
  | .th _ => stackInit false
  | _ => chanInit .single

/-- The emulator with the tracks of stack channels, connected. -/
def demoStacksInit : PatchEmu Bool Bool DemoChan DemoMux Empty Empty Empty :=
  emuInit (okOr (patchInit (emuChanInit demoStacks))
    (connectParts (demoTracks .null) demoTrackParts (patchInit (emuChanInit demoStacks))))

/-- The first thread executes on the physical CPU, opens a region and another one in it, and
closes the inner one. -/
def demoStacksLog : List (List (EmuAct Bool Bool DemoChan)) :=
  [[.event (demoEvent false 'H' 'x' [0])], [.write (.push (.model (.th false)) (.int64 3))],
    [.write (.push (.model (.th false)) (.int64 5))],
    [.write (.pop (.model (.th false)) (.int64 5))]]

/-- The emulator after that. -/
def demoStacksRun : PatchEmu Bool Bool DemoChan DemoMux Empty Empty Empty :=
  demoStacksLog.foldl (demoTracksStep .null) demoStacksInit

theorem demoStacks_source {acts : List (EmuAct Bool Bool DemoChan)} (hacts : acts ∈ demoStacksLog)
    (op : ChanOp (EmuChan Bool Bool DemoChan)) (hop : .write op ∈ acts) :
    (∃ x, op.chan = .model x) ∧
      ∀ part ∈ demoTrackParts, op.chan ∉ (demoTracks .null).partOuts part := by
  have hchan : op.chan = .model (.th false) := by
    simp only [demoStacksLog, List.mem_cons, List.not_mem_nil, or_false] at hacts
    rcases hacts with rfl | rfl | rfl | rfl
    · simp at hop
    · rw [EmuAct.write.inj (List.mem_singleton.mp hop)]
      rfl
    · rw [EmuAct.write.inj (List.mem_singleton.mp hop)]
      rfl
    · rw [EmuAct.write.inj (List.mem_singleton.mp hop)]
      rfl
  rw [hchan]
  exact ⟨⟨_, rfl⟩, ((demoTracks_setup .null (.th false)).source (.th false) rfl).1⟩

theorem EmuLog.demoSteps {ξ μ ς ρ φ : Type} [DecidableEq ξ] [DecidableEq μ] [DecidableEq ς]
    [DecidableEq ρ] [DecidableEq φ] {p : Patch (EmuChan Bool Bool ξ) μ ς ρ φ}
    {parts : List (Part μ ς ρ)} {model : ξ → Chan} {log steps : List (List (EmuAct Bool Bool ξ))}
    {e : PatchEmu Bool Bool ξ μ ς ρ φ} (h : EmuLog demoSystem p parts model log e)
    (hsource : ∀ acts ∈ steps, ∀ op, .write op ∈ acts → (∃ x, op.chan = .model x) ∧
      ∀ part ∈ parts, op.chan ∉ p.partOuts part)
    (hok : demoStepsOk p e steps = true) :
    EmuLog demoSystem p parts model (log ++ steps) (steps.foldl (demoStep p) e) := by
  induction steps generalizing log e with
  | nil =>
      rw [List.append_nil]
      exact h
  | cons acts rest ih =>
      simp only [demoStepsOk, Bool.and_eq_true] at hok
      obtain ⟨⟨hacts, hprop⟩, hrest⟩ := hok
      rw [List.forall_mem_cons] at hsource
      have hstep := h.step hsource.1 (eq_okOr e hacts) (eq_okOr (demoActed e acts).world hprop)
      have hall := ih hstep hsource.2 hrest
      rw [List.append_assoc] at hall
      exact hall

theorem demoStacks_init :
    EmuLog demoSystem (demoTracks .null) demoTrackParts demoStacks [] demoStacksInit := by
  have hunreg : ∀ x, Unregistered (demoStacks x) := by
    intro x
    cases x with
    | th t => exact .prop false false false (.init .stack)
    | thTrack t => exact .init .single
    | cpuTrack c => exact .init .single
  exact .connect hunreg (fun x => by cases x <;> rfl) (by decide) (eq_okOr _ (by decide +kernel))

theorem demoStacks_log :
    EmuLog demoSystem (demoTracks .null) demoTrackParts demoStacks demoStacksLog demoStacksRun :=
  demoStacks_init.demoSteps (fun _ hacts => demoStacks_source hacts) (by decide +kernel)

theorem demoStacks_open : demoStacksRun.regions (.th false) = [.int64 3] := by decide +kernel

/-- One region is left open, with another one that was opened and closed in it. -/
theorem regions_nest_demo :
    (regionRule false).run [] (regionWord (.th false) demoStacksLog) = some [.int64 3] ∧
      ¬ ∃ f : Forest Value, f.word = regionWord (.th false) demoStacksLog := by
  have hinit : demoStacks (.th false) = stackInit false := rfl
  have hnest := regions_nest (demoTracks_bay .null).sys hinit
    ((demoTracks_setup .null (.th false)).source (.th false) rfl).1 demoStacks_log
  rw [demoStacks_open] at hnest
  exact ⟨hnest.1, fun hforest => by simpa using hnest.2.2.1.mpr hforest⟩

/-! ## The linter -/

omit [DecidableEq θ] [DecidableEq γ] [DecidableEq ξ] [DecidableEq μ] [DecidableEq ς]
  [DecidableEq ρ] [DecidableEq φ] in
theorem endLint_ok {threads : List θ} {ss : θ → ξ} :
    endLint threads ss e = .ok () ↔ ∀ t ∈ threads, e.regions (ss t) = [] := by
  induction threads with
  | nil => simp [endLint, pure, Except.pure]
  | cons t threads ih =>
      unfold endLint at ih ⊢
      rw [List.forM_eq_forM, List.forM_cons, List.forall_mem_cons]
      cases hstack : e.regions (ss t) with
      | nil =>
          unfold Emu.regions at hstack
          rw [hstack, if_neg (by simp)]
          exact ih.trans (by simp)
      | cons v s =>
          unfold Emu.regions at hstack
          rw [hstack, if_pos (by simp)]
          simp [bind, Except.bind]

/-- At the end of a run, the linter accepts the trace exactly when what each thread wrote on
its channel is a forest of regions, which is then only one.  The other models look at the
traces that were read to the end, and nOS-V looks at all of them. -/
theorem lint_accepts_forests (hsys : ∀ part ∈ parts, ∀ c ∈ p.partOuts part, ¬ c.IsSys)
    (threads : List θ) (ss : θ → ξ) (hinit : ∀ t ∈ threads, model (ss t) = stackInit dup)
    (hout : ∀ t ∈ threads, ∀ part ∈ parts, .model (ss t) ∉ p.partOuts part)
    (h : EmuLog sys p parts model log e) (linter finished : Bool) :
    (finishLint linter finished threads ss e = .ok () ↔ (linter = true → finished = true →
        ∀ t ∈ threads, ∃! f : Forest Value, f.word = regionWord (ss t) log)) ∧
      (nosvFinishLint linter threads ss e = .ok () ↔ (linter = true →
        ∀ t ∈ threads, ∃! f : Forest Value, f.word = regionWord (ss t) log)) := by
  have hlint : endLint threads ss e = .ok () ↔
      ∀ t ∈ threads, ∃! f : Forest Value, f.word = regionWord (ss t) log := by
    rw [endLint_ok]
    apply forall₂_congr
    intro t ht
    rw [h.regions_nil_iff hsys (hinit t ht) (hout t ht)]
    constructor
    · rintro ⟨f, hf⟩
      exact ⟨f, hf, fun g hg => Forest.word_injective (hg.trans hf.symm)⟩
    · rintro ⟨f, hf, -⟩
      exact ⟨f, hf⟩
  constructor
  · unfold finishLint
    by_cases hon : linter = true ∧ finished = true
    · rw [if_pos hon, hlint]
      exact ⟨fun hall _ _ => hall, fun hall => hall hon.1 hon.2⟩
    · rw [if_neg hon]
      exact ⟨fun _ hl hf => absurd ⟨hl, hf⟩ hon, fun _ => rfl⟩
  · unfold nosvFinishLint
    by_cases hon : linter = true
    · rw [if_pos hon, hlint]
      exact ⟨fun hall _ => hall, fun hall => hall hon⟩
    · rw [if_neg hon]
      exact ⟨fun _ hl => absurd hl hon, fun _ => rfl⟩

/-- The thread with an open region is told in a trace that was read to the end. -/
theorem lint_accepts_forests_demo :
    finishLint true true [false, true] .th demoStacksRun ≠ .ok () ∧
      finishLint true false [false, true] .th demoStacksRun = .ok () ∧
      nosvFinishLint true [false, true] .th demoStacksRun ≠ .ok () := by
  have hlint := lint_accepts_forests (demoTracks_bay .null).sys [false, true] .th
    (fun _ _ => (rfl : _ = stackInit false))
    (fun t _ => ((demoTracks_setup .null (.th t)).source (.th t) rfl).1) demoStacks_log
  have hopen : ¬ ∀ t ∈ [false, true],
      ∃! f : Forest Value, f.word = regionWord (.th t) demoStacksLog := by
    intro hall
    obtain ⟨f, hf, -⟩ := hall false (by simp)
    have hinit : demoStacks (.th false) = stackInit false := rfl
    have hnil := (demoStacks_log.forest (demoTracks_bay .null).sys hinit
      ((demoTracks_setup .null (.th false)).source (.th false) rfl).1 hf).2
    rw [demoStacks_open] at hnil
    cases hnil
  refine ⟨fun hok => hopen ((hlint true true).1.mp hok rfl rfl),
    (hlint true false).1.mpr fun _ hfin => ?_, fun hok => hopen ((hlint true true).2.mp hok rfl)⟩
  cases hfin

/-! ## The tracks -/

/-- What a track shows, with the values of the channels that it follows. -/
def Track.shown (e : PatchEmu θ γ ξ μ ς ρ φ) (value : ξ → Value) : Track θ γ ξ → Value
  | .thread mode t inp _ => if mode.shows (e.th t).state then value inp else .null
  | .cpu c inp _ def_ =>
      match sole (runningIn e.state (e.cpu c).threads) with
      | some t => value (inp t)
      | none => def_

/-- After every step, the track of a thread shows the innermost region that its writes have
left open, while the thread is running, or active; and the track of a CPU shows the innermost
region of the thread that runs there. -/
theorem tracks_show_regions {m : μ} {tr : Track θ γ ξ} (hbay : EmuBay p parts)
    (hset : TrackSetup sys p parts m tr) (hdef : (tr.mux sys).def_ = .null)
    (hnull : chanRead (model tr.out) = .null)
    (hinit : ∀ x, tr.Follows x → model x = stackInit dup) (h : EmuLog sys p parts model log e) :
    ∃ s : ξ → List Value,
      (∀ x, tr.Follows x → (regionRule dup).run [] (regionWord x log) = some (s x)) ∧
      e.read (.model tr.out) = tr.shown e fun x => (s x).headD .null := by
  have hregions : ∀ x, tr.Follows x →
      (regionRule dup).run [] (regionWord x log) = some (e.regions x) ∧
        e.read (.model x) = (e.regions x).headD .null := fun x hx =>
    h.regions hbay.sys (hinit x hx) (hset.source x hx).1
  refine ⟨e.regions, fun x hx => (hregions x hx).1, ?_⟩
  rw [tracks_follow hbay hset hdef hnull h.emuRun]
  cases tr with
  | thread mode t inp out =>
      simp only [Track.value, Track.shown]
      rw [(hregions inp rfl).2]
  | cpu c inp out def_ =>
      simp only [Track.value, Track.shown]
      cases sole (runningIn e.state (e.cpu c).threads) with
      | none => rfl
      | some t => exact (hregions (inp t) ⟨t, rfl⟩).2

end

/-- The track of the CPU shows the region that is open on its thread. -/
theorem tracks_show_regions_demo :
    demoStacksRun.read (.model (.cpuTrack false)) = .int64 3 := by
  obtain ⟨s, hs, hread⟩ := tracks_show_regions (demoTracks_bay .null)
    (demoTracks_setup .null (.cpu false)) rfl rfl
    (fun x hx => by
      obtain ⟨t, rfl⟩ := hx
      exact (rfl : _ = stackInit false)) demoStacks_log
  have hopen : s (.th false) = [.int64 3] :=
    Option.some.inj ((hs (.th false) ⟨false, rfl⟩).symm.trans (by decide +kernel))
  have hsole : sole (runningIn demoStacksRun.state (demoStacksRun.cpu false).threads) =
      some false := by decide +kernel
  refine hread.trans ?_
  simp only [demoTrack, Track.shown, hsole, hopen]
  rfl

end Ovni
