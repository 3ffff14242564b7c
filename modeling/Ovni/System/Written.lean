import Ovni.Patch.Feed
import Ovni.System.Resting

/-!
# The channels that were written

The runs of the emulator together with the channels that were ever written, which are
those that were in the dirty list of some propagation.  A track of a CPU is written when
the running thread of the CPU changes and when the channel of that thread is written.
-/

namespace Ovni

open Ovni.Lib

section

variable {θ γ π ℓ ξ μ ς ρ φ : Type} [DecidableEq θ] [DecidableEq γ] [DecidableEq ξ]
  [DecidableEq μ] [DecidableEq ς] [DecidableEq ρ] [DecidableEq φ]

/-- The runs of the emulator in which the state before each step and the one before the
bay propagates are `fit`, with the channels that were ever written. -/
inductive EmuWrites (sys : System θ γ π ℓ) (p : Patch (EmuChan θ γ ξ) μ ς ρ φ)
    (parts : List (Part μ ς ρ)) (model : ξ → Chan)
    (fit : PatchEmu θ γ ξ μ ς ρ φ → PatchEmu θ γ ξ μ ς ρ φ → Prop) :
    (EmuChan θ γ ξ → Prop) → PatchEmu θ γ ξ μ ς ρ φ → Prop where
  | connect {w : PatchWorld (EmuChan θ γ ξ) μ ς ρ φ} (hchan : ∀ x, Unregistered (model x))
      (hclean : ∀ x, (model x).isDirty = false) (honce : parts.Nodup)
      (hrun : connectParts p parts (patchInit (emuChanInit model)) = .ok w) :
      EmuWrites sys p parts model fit (fun _ => False) (emuInit w)
  | step {ever : EmuChan θ γ ξ → Prop} {e e1 : PatchEmu θ γ ξ μ ς ρ φ}
      {acts : List (EmuAct θ γ ξ)} {w1 w : PatchWorld (EmuChan θ γ ξ) μ ς ρ φ} {fuel : Nat}
      (h : EmuWrites sys p parts model fit ever e)
      (hsource : ∀ op, .write op ∈ acts →
        (∃ x, op.chan = .model x) ∧ ∀ part ∈ parts, op.chan ∉ p.partOuts part)
      (hacts : runActs sys acts e = .ok e1) (hfit : fit e e1)
      (hdirty : propagateList p.net.call .dirty fuel 0 (e1.world.setState .propagating) = .ok w1)
      (hrun : bayPropagate p.net.call fuel e1.world = .ok w) :
      EmuWrites sys p parts model fit (fun c => ever c ∨ c ∈ w1.bay.dirty)
        { e1 with world := w }

variable {sys : System θ γ π ℓ} {p : Patch (EmuChan θ γ ξ) μ ς ρ φ} {parts : List (Part μ ς ρ)}
  {model : ξ → Chan} {fit : PatchEmu θ γ ξ μ ς ρ φ → PatchEmu θ γ ξ μ ς ρ φ → Prop}
  {ever : EmuChan θ γ ξ → Prop} {e e1 : PatchEmu θ γ ξ μ ς ρ φ} {m : μ} {c : γ} {t : θ}
  {w w1 : PatchWorld (EmuChan θ γ ξ) μ ς ρ φ}

theorem EmuWrites.run (h : EmuWrites sys p parts model fit ever e) :
    EmuRun sys p parts model e := by
  induction h with
  | connect hchan hclean honce hrun => exact .connect hchan hclean honce hrun
  | step _ hsource hacts _ _ hrun ih => exact .step ih hsource hacts hrun

/-- Every run has written some channels. -/
theorem EmuRun.writes (h : EmuRun sys p parts model e) :
    ∃ ever, EmuWrites sys p parts model (fun _ _ => True) ever e := by
  induction h with
  | connect hchan hclean honce hrun => exact ⟨_, .connect hchan hclean honce hrun⟩
  | step _ hsource hacts hrun ih =>
      obtain ⟨ever, h⟩ := ih
      obtain ⟨w1, -, hdirty, -⟩ := bayPropagate_ok hrun
      exact ⟨_, .step h hsource hacts trivial hdirty hrun⟩

/-! ## The input that a CPU track has enabled -/

/-- The running thread of a CPU is the input that its tracks have enabled. -/
theorem TrackSetup.enabled {inp : θ → ξ} {out : ξ} {def_ : Value} (hbay : EmuBay p parts)
    (hset : TrackSetup sys p parts m (.cpu c inp out def_)) (h : EmuRun sys p parts model e)
    (ht : e.runningThread c = some t) :
    e.world.bay.enabled (.input m (sys.gindex t)) = true ∧
      (p.mux m).input (sys.gindex t) = some (.model (inp t)) := by
  obtain ⟨es, htrace⟩ := h.trace
  obtain ⟨ever, hrest, hever, -⟩ :=
    htrace.rest hbay (hset.layers hbay h.loopless) fun _ _ _ => ⟨trivial, rfl⟩
  have hthrun : e.read (.cpu c .thrun) = .int64 (sys.gindex t) := by
    rw [((h.ok hbay.sys).sys.cpu c).thrun]
    unfold Emu.runningThread at ht
    rw [ht]
    rfl
  have hsys : (EmuChan.cpu c .thrun : EmuChan θ γ ξ).IsSys := trivial
  have hmux : p.net.mux m = (Track.cpu c inp out def_).mux sys := hset.mux
  have hsel : ever (p.net.mux m).select := by
    rw [hmux]
    show ever (.cpu c .thrun)
    refine hever e List.mem_cons_self _ ?_ (fun hsort => (hbay.sort _ hsort).1 hsys) ?_
    · exact not_out_of_partOuts fun part hpart hmem => hbay.sys part hpart _ hmem hsys
    · rw [emuChanInit_sys _ hsys]
      intro heq
      cases hthrun.symm.trans heq
  obtain ⟨hselected, -⟩ := hrest.quiet.settled m rfl hsel
  have hget := sys.gindex_spec t
  obtain ⟨hlt, -⟩ := List.getElem?_eq_some_iff.mp hget
  have hchoice : e.world.choice m = some (sys.gindex t) := by
    have hread : e.world.bay.read (.cpu c .thrun) = .int64 (sys.gindex t) := hthrun
    have heq := hselected.choice
    rw [hmux] at heq
    simp only [Track.mux, selectInput, hread, List.length_map, defaultSelect] at heq
    rw [if_neg (by omega)] at heq
    exact (Except.ok.inj heq).symm
  refine ⟨(hselected.enabled _ hchoice).1, ?_⟩
  rw [hset.mux]
  simp [Mux.input, Track.mux, hget]

/-- The track of a CPU with a null default shows the channel of the running thread. -/
theorem TrackSetup.running {inp : θ → ξ} {out : ξ} (hbay : EmuBay p parts)
    (hset : TrackSetup sys p parts m (.cpu c inp out .null))
    (hnull : chanRead (model out) = .null) (h : EmuRun sys p parts model e) :
    e.read (.model out) = (e.runningThread c).elim .null fun t => e.read (.model (inp t)) := by
  apply (tracks_follow hbay hset rfl hnull h).trans
  unfold Emu.runningThread
  simp only [Track.value]
  cases sole (runningIn e.state (e.cpu c).threads) with
  | none => rfl
  | some t => rfl

/-! ## CPU tracks are written -/

omit [DecidableEq θ] [DecidableEq γ] [DecidableEq ξ] [DecidableEq μ] [DecidableEq ς]
  [DecidableEq ρ] [DecidableEq φ] in
/-- The running thread of a CPU is in its channel. -/
theorem SysOk.running_eq {e' : PatchEmu θ γ ξ μ ς ρ φ} (h : SysOk sys e) (h' : SysOk sys e')
    (hread : e'.read (.cpu c .thrun) = e.read (.cpu c .thrun)) :
    e'.runningThread c = e.runningThread c := by
  rw [(h.cpu c).thrun, (h'.cpu c).thrun] at hread
  unfold Emu.runningThread
  generalize sole (runningIn e.state (e.cpu c).threads) = o at hread ⊢
  generalize sole (runningIn e'.state (e'.cpu c).threads) = o' at hread ⊢
  cases o with
  | none => cases o' with
    | none => rfl
    | some t' => cases hread
  | some t => cases o' with
    | none => cases hread
    | some t' =>
        have hidx : sys.gindex t' = sys.gindex t := by
          have hval : (sys.gindex t' : Int) = sys.gindex t := Value.int64.inj hread
          omega
        have hget := sys.gindex_spec t'
        rw [hidx, sys.gindex_spec t] at hget
        exact hget.symm

/-- The channels after the actions of a step. -/
theorem EmuOk.written {acts : List (EmuAct θ γ ξ)} (h : EmuOk sys p parts e)
    (hmodel : ∀ op, .write op ∈ acts → ∃ x, op.chan = .model x)
    (hacts : runActs sys acts e = .ok e1) :
    Bay.Written (fun _ => True) e.world.bay e1.world.bay := by
  obtain ⟨ops, -, hwrites, -⟩ := h.writes hmodel hacts
  exact writeAll_ok (fun _ => True) h.ready.dirtyOk (fun _ _ => trivial) hwrites

/-- A step writes the track of a CPU when the running thread of the CPU changes, and when
the channel of that thread is written. -/
theorem TrackSetup.written {inp : θ → ξ} {out : ξ} {def_ : Value} (hbay : EmuBay p parts)
    (hset : TrackSetup sys p parts m (.cpu c inp out def_)) (h : EmuRun sys p parts model e)
    {acts : List (EmuAct θ γ ξ)} {fuel : Nat}
    (hsource : ∀ op, .write op ∈ acts →
      (∃ x, op.chan = .model x) ∧ ∀ part ∈ parts, op.chan ∉ p.partOuts part)
    (hacts : runActs sys acts e = .ok e1)
    (hdirty : propagateList p.net.call .dirty fuel 0 (e1.world.setState .propagating) = .ok w1)
    (hrun : bayPropagate p.net.call fuel e1.world = .ok w)
    (hnew : e1.runningThread c ≠ e.runningThread c ∨
      ∃ t, e1.runningThread c = some t ∧ .model (inp t) ∈ e1.world.bay.dirty) :
    .model out ∈ w1.bay.dirty := by
  have hmodel : ∀ op, .write op ∈ acts → ∃ x, op.chan = .model x := fun op hop =>
    (hsource op hop).1
  have hok := h.ok hbay.sys
  have hok1 := hok.acts hmodel hacts
  obtain ⟨w1', w2, hdirty', -, -, hg, -, hsame, hw⟩ := hok1.ready.phases hrun
  obtain rfl : w1' = w1 := Except.ok.inj (hdirty'.symm.trans hdirty)
  have hout : (p.mux m).output = .model out := by
    rw [hset.mux]
    rfl
  rw [← hout]
  have hwired : PatchWired p parts (e1.world.setState .propagating) :=
    hok1.ready.wired.bay rfl rfl fun _ => Chan.Like.refl _
  refine hwired.fed hset.mem ⟨hok1.ready.dirtyOk.nodup, hok1.ready.dirtyOk.mem_iff⟩ hdirty ?_
  rcases hnew with hne | ⟨t, ht, hmem⟩
  · left
    rw [hset.mux]
    apply hg.mono
    by_contra hnot
    exact hne (hok.sys.running_eq hok1.sys ((hok.written hmodel hacts).read_of_not_mem hnot))
  · right
    obtain ⟨hon, hin⟩ := hset.enabled hbay (h.step hsource hacts hrun) (t := t) ht
    refine ⟨_, _, ?_, hin, hg.mono hmem⟩
    rw [hw, hsame] at hon
    exact hon

end

end Ovni
