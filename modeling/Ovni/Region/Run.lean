import Ovni.Lib.Brackets
import Ovni.Region.Model

/-!
# The regions of a run

A stack channel of a model holds the regions that its writes have opened and not closed, in
every run of the emulator.  When none is left the writes are those of a forest of regions,
which bounds how deep they nest and, when the channel takes no duplicates, keeps a region
from being directly inside of one with its value.
-/

namespace Ovni

open Ovni.Lib

/-! ## Runs with their actions -/

section

variable {θ γ π ℓ ξ μ ς ρ φ : Type} [DecidableEq θ] [DecidableEq γ] [DecidableEq ξ]
  [DecidableEq μ] [DecidableEq ς] [DecidableEq ρ] [DecidableEq φ]

/-- The runs of the emulator, with the actions of every step. -/
inductive EmuLog (sys : System θ γ π ℓ) (p : Patch (EmuChan θ γ ξ) μ ς ρ φ)
    (parts : List (Part μ ς ρ)) (model : ξ → Chan) :
    List (List (EmuAct θ γ ξ)) → PatchEmu θ γ ξ μ ς ρ φ → Prop where
  | connect {w : PatchWorld (EmuChan θ γ ξ) μ ς ρ φ} (hchan : ∀ x, Unregistered (model x))
      (hclean : ∀ x, (model x).isDirty = false) (honce : parts.Nodup)
      (hrun : connectParts p parts (patchInit (emuChanInit model)) = .ok w) :
      EmuLog sys p parts model [] (emuInit w)
  | step {log : List (List (EmuAct θ γ ξ))} {e e1 : PatchEmu θ γ ξ μ ς ρ φ}
      {acts : List (EmuAct θ γ ξ)} {w : PatchWorld (EmuChan θ γ ξ) μ ς ρ φ} {fuel : Nat}
      (h : EmuLog sys p parts model log e)
      (hsource : ∀ op, .write op ∈ acts →
        (∃ x, op.chan = .model x) ∧ ∀ part ∈ parts, op.chan ∉ p.partOuts part)
      (hacts : runActs sys acts e = .ok e1)
      (hrun : bayPropagate p.net.call fuel e1.world = .ok w) :
      EmuLog sys p parts model (log ++ [acts]) { e1 with world := w }

variable {sys : System θ γ π ℓ} {p : Patch (EmuChan θ γ ξ) μ ς ρ φ} {parts : List (Part μ ς ρ)}
  {model : ξ → Chan} {log : List (List (EmuAct θ γ ξ))} {e e' : PatchEmu θ γ ξ μ ς ρ φ}
  {w w' : PatchWorld (EmuChan θ γ ξ) μ ς ρ φ}

theorem EmuLog.emuRun (h : EmuLog sys p parts model log e) : EmuRun sys p parts model e := by
  induction h with
  | connect hchan hclean honce hrun => exact .connect hchan hclean honce hrun
  | step _ hsource hacts hrun ih => exact .step ih hsource hacts hrun

theorem EmuRun.emuLog (h : EmuRun sys p parts model e) :
    ∃ log, EmuLog sys p parts model log e := by
  induction h with
  | connect hchan hclean honce hrun => exact ⟨[], .connect hchan hclean honce hrun⟩
  | step _ hsource hacts hrun ih =>
      obtain ⟨log, hlog⟩ := ih
      exact ⟨_, .step hlog hsource hacts hrun⟩

/-! ## The word of a channel -/

omit [DecidableEq θ] [DecidableEq γ] [DecidableEq μ] [DecidableEq ς] [DecidableEq ρ]
  [DecidableEq φ] in
/-- The bracket of an action on the channel `x`. -/
def EmuAct.bracket (x : ξ) : EmuAct θ γ ξ → Option (Bracket Value)
  | .write (.push (.model x') v) => if x' = x then some (.enter v) else none
  | .write (.pop (.model x') v) => if x' = x then some (.leave v) else none
  | _ => none

/-- What is pushed on the channel `x` and popped from it in some actions. -/
def actsWord (x : ξ) (acts : List (EmuAct θ γ ξ)) : List (Bracket Value) :=
  acts.filterMap (EmuAct.bracket x)

/-- What is pushed on the channel `x` and popped from it in a run. -/
def regionWord (x : ξ) (log : List (List (EmuAct θ γ ξ))) : List (Bracket Value) :=
  log.flatMap (actsWord x)

/-- The rule of a stack channel. -/
def regionRule (dup : Bool) : BracketRule := { depth := maxChanStack, repeats := dup }

/-- A stack channel with these values, that takes duplicates or not. -/
structure RegionChan (dup : Bool) (s : List Value) (chan : Chan) : Prop where
  type : chan.type = .stack
  dirtyWrite : chan.dirtyWrite = false
  ignoreDup : chan.ignoreDup = false
  allowDup : chan.allowDup = dup
  stack : chan.stack = s
  last : chan.isDirty = false → chan.lastValue = s.headD .null

/-- The channel of a model as `model_thread_create` registers it. -/
def stackInit (dup : Bool) : Chan := { chanInit .stack with allowDup := dup }

/-! ## One write -/

section Write

variable {χ κ : Type} [DecidableEq χ] {b b' : Bay χ κ} {c : χ} {dup : Bool} {s : List Value}
  {v : Value}

omit [DecidableEq χ] in
theorem RegionChan.touch {chan : Chan} (h : RegionChan dup s chan) (s' : List Value) :
    RegionChan dup s' { chan with stack := s', isDirty := true } :=
  ⟨h.type, h.dirtyWrite, h.ignoreDup, h.allowDup, rfl, fun hd => by cases hd⟩

omit [DecidableEq χ] in
theorem RegionChan.head_ne {chan : Chan} (h : RegionChan dup s chan) (hd : chan.isDirty = false)
    (hdup : chan.allowDup = true ∨ chan.lastValue ≠ v) (hrep : dup = false) :
    s.head? ≠ some v := by
  rw [h.allowDup, h.last hd] at hdup
  intro hhead
  rcases hdup with hallow | hne
  · rw [hrep] at hallow
    cases hallow
  · apply hne
    rw [List.headD_eq_head?_getD, hhead]
    rfl

theorem RegionChan.push (h : RegionChan dup s (b.chan c)) (hrun : b.chanPush c v = .ok b') :
    (regionRule dup).step s (.enter v) = some (v :: s) ∧ RegionChan dup (v :: s) (b'.chan c) := by
  obtain ⟨-, hd, hrest⟩ := Bay.guarded_ok hrun
  have hclean : (b.chan c).isDirty = false := by
    by_contra hdirty
    have hwrite := hd (by simpa using hdirty)
    rw [h.dirtyWrite] at hwrite
    cases hwrite
  rcases Bay.checkDup_ok hrest with ⟨-, -, hi, -⟩ | ⟨hset, hdup⟩
  · rw [h.ignoreDup] at hi
    cases hi
  · obtain ⟨hfull, hset⟩ := guard_ok hset
    have hb : b' = b.touch c { b.chan c with stack := v :: (b.chan c).stack } :=
      Bay.setDirty_put rfl hset
    rw [hb, Bay.touch_chan_self, h.stack]
    rw [h.stack] at hfull
    refine ⟨BracketRule.step_enter.mpr ⟨⟨?_, fun hrep => h.head_ne hclean hdup hrep⟩, rfl⟩,
      h.touch (v :: s)⟩
    show s.length < maxChanStack
    omega

theorem RegionChan.pop (h : RegionChan dup s (b.chan c)) (hrun : b.chanPop c v = .ok b') :
    ∃ s', (regionRule dup).step s (.leave v) = some s' ∧ RegionChan dup s' (b'.chan c) := by
  obtain ⟨rest, hstack, hb⟩ := Bay.chanPop_ok hrun
  rw [h.stack] at hstack
  rw [hb, Bay.touch_chan_self]
  exact ⟨rest, BracketRule.step_leave.mpr hstack, h.touch rest⟩

end Write

/-! ## The actions of a step -/

variable {x : ξ} {dup : Bool} {s : List Value}

omit [DecidableEq θ] [DecidableEq γ] [DecidableEq ξ] in
/-- The channels of the models are not written by the events of the system. -/
theorem writeAll_model [DecidableEq (EmuChan θ γ ξ)] {κ : Type}
    {ops : List (ChanOp (EmuChan θ γ ξ))} {b b' : Bay (EmuChan θ γ ξ) κ}
    (hops : ∀ op ∈ ops, op.chan.IsSys) (hrun : writeAll ops b = .ok b') :
    b'.chan (.model x) = b.chan (.model x) := by
  induction ops generalizing b with
  | nil =>
      rw [writeAll] at hrun
      rw [Except.ok.inj hrun]
  | cons op ops ih =>
      rw [writeAll] at hrun
      obtain ⟨b1, hop, hrest⟩ := bind_ok hrun
      rw [ih (fun op hmem => hops op (List.mem_cons_of_mem _ hmem)) hrest]
      rcases op.run_ok hop with rfl | ⟨chan, -, rfl⟩
      · rfl
      · apply Bay.touch_chan_of_ne
        intro hx
        have hsys := hops op (by simp)
        rw [← hx] at hsys
        exact hsys

omit [DecidableEq μ] [DecidableEq ς] [DecidableEq ρ] [DecidableEq φ] in
theorem RegionChan.act {act : EmuAct θ γ ξ} (hok : SysOk sys e)
    (h : RegionChan dup s (e.world.bay.chan (.model x))) (hrun : act.run sys e = .ok e') :
    ∃ s', (regionRule dup).run s (act.bracket x).toList = some s' ∧
      RegionChan dup s' (e'.world.bay.chan (.model x)) := by
  cases act with
  | event ev =>
      obtain ⟨ops, hops, hwrites⟩ := (hok.event hrun).1.ops
      rw [writeAll_model hops hwrites]
      exact ⟨s, rfl, h⟩
  | outOfCpu t out =>
      rw [← Except.ok.inj hrun]
      exact ⟨s, rfl, h⟩
  | write op =>
      obtain ⟨b, hop, hrun⟩ := bind_ok hrun
      rw [← Except.ok.inj hrun]
      by_cases hx : op.chan = .model x
      · cases op with
        | set c v =>
            obtain rfl : c = .model x := hx
            obtain ⟨htype, -⟩ := Bay.chanSet_ok hop
            rw [h.type] at htype
            cases htype
        | push c v =>
            obtain rfl : c = .model x := hx
            obtain ⟨hstep, hchan⟩ := h.push hop
            refine ⟨v :: s, ?_, hchan⟩
            simp [EmuAct.bracket, BracketRule.run_cons, hstep]
        | pop c v =>
            obtain rfl : c = .model x := hx
            obtain ⟨s', hstep, hchan⟩ := h.pop hop
            refine ⟨s', ?_, hchan⟩
            simp [EmuAct.bracket, BracketRule.run_cons, hstep]
      · have hnone : (EmuAct.write op : EmuAct θ γ ξ).bracket x = none := by
          cases op with
          | set c v => rfl
          | push c v =>
              cases c with
              | model x' => exact if_neg fun he => hx (congrArg EmuChan.model he)
              | thread t k => rfl
              | cpu c k => rfl
          | pop c v =>
              cases c with
              | model x' => exact if_neg fun he => hx (congrArg EmuChan.model he)
              | thread t k => rfl
              | cpu c k => rfl
        rw [hnone]
        refine ⟨s, rfl, ?_⟩
        rcases op.run_ok hop with rfl | ⟨chan, -, rfl⟩
        · exact h
        · rw [Bay.touch_chan_of_ne _ (Ne.symm hx)]
          exact h

theorem RegionChan.acts {acts : List (EmuAct θ γ ξ)} (hok : EmuOk sys p parts e)
    (hmodel : ∀ op, .write op ∈ acts → ∃ x, op.chan = .model x)
    (h : RegionChan dup s (e.world.bay.chan (.model x))) (hrun : runActs sys acts e = .ok e') :
    ∃ s', (regionRule dup).run s (actsWord x acts) = some s' ∧
      RegionChan dup s' (e'.world.bay.chan (.model x)) := by
  induction acts generalizing e s with
  | nil =>
      rw [runActs] at hrun
      rw [← Except.ok.inj hrun]
      exact ⟨s, rfl, h⟩
  | cons act acts ih =>
      rw [runActs] at hrun
      obtain ⟨e1, hact, hrun⟩ := bind_ok hrun
      obtain ⟨s1, hword, h1⟩ := h.act hok.sys hact
      obtain ⟨s', hrest, h'⟩ := ih (hok.act (fun op hop => hmodel op (by simp [hop])) hact)
        (fun op hop => hmodel op (List.mem_cons_of_mem _ hop)) h1 hrun
      refine ⟨s', ?_, h'⟩
      have hsplit : actsWord x (act :: acts) = (act.bracket x).toList ++ actsWord x acts := by
        unfold actsWord
        rw [List.filterMap_cons]
        cases act.bracket x with
        | none => rfl
        | some b => rfl
      rw [hsplit, BracketRule.run_append, hword]
      exact hrest

omit [DecidableEq θ] [DecidableEq γ] [DecidableEq ξ] in
/-- A propagation only flushes the channels that no module writes. -/
theorem PatchReady.propagate_chan {χ : Type} [DecidableEq χ] {p : Patch χ μ ς ρ φ}
    {w w' : PatchWorld χ μ ς ρ φ} {fuel : Nat} {c : χ} (h : PatchReady p parts w)
    (hrun : bayPropagate p.net.call fuel w = .ok w') (hout : ¬ p.Out parts c) :
    w'.bay.chan c =
      if (w.bay.chan c).isDirty then Bay.flushed (w.bay.chan c) else w.bay.chan c := by
  obtain ⟨w1, w2, -, -, -, hg, -, hsame, rfl⟩ := h.phases hrun
  have hchan : w2.bay.chan c = w.bay.chan c := by
    rw [hsame]
    exact hg.apart c hout
  have hdirty : c ∈ w2.bay.dirty ↔ (w.bay.chan c).isDirty = true := by
    rw [hsame]
    exact (hg.dirtyOk.mem_iff c).trans (by rw [hg.apart c hout]; rfl)
  simp only [hchan, hdirty]

theorem RegionChan.flush {chan : Chan} (h : RegionChan dup s chan) :
    RegionChan dup s (if chan.isDirty then Bay.flushed chan else chan) := by
  split
  · refine ⟨h.type, h.dirtyWrite, h.ignoreDup, h.allowDup, h.stack, fun _ => ?_⟩
    show chanRead chan = s.headD .null
    simp only [chanRead, h.type, h.stack]
  · exact h

/-! ## The channel in a run -/

/-- The channel of a model that no module writes, after a run. -/
theorem EmuLog.region (hsys : ∀ part ∈ parts, ∀ c ∈ p.partOuts part, ¬ c.IsSys)
    (hinit : model x = stackInit dup) (hout : ∀ part ∈ parts, .model x ∉ p.partOuts part)
    (h : EmuLog sys p parts model log e) :
    ∃ s, (regionRule dup).run [] (regionWord x log) = some s ∧
      RegionChan dup s (e.world.bay.chan (.model x)) := by
  induction h with
  | connect hchan hclean honce hrun =>
      refine ⟨[], rfl, ?_⟩
      have hsame : (emuInit _ : PatchEmu θ γ ξ μ ς ρ φ).world.bay.chan (.model x) = model x :=
        connect_chan (emuChanInit_clean hclean) honce hout hrun
      rw [hsame, hinit]
      exact ⟨rfl, rfl, rfl, rfl, rfl, fun _ => rfl⟩
  | @step log e e1 acts w fuel h hsource hacts hrun ih =>
      obtain ⟨s, hword, hchan⟩ := ih
      have hok := h.emuRun.ok hsys
      have hmodel : ∀ op, .write op ∈ acts → ∃ x, op.chan = .model x := fun op hop =>
        (hsource op hop).1
      obtain ⟨s', hacts', hchan'⟩ := hchan.acts hok hmodel hacts
      refine ⟨s', ?_, ?_⟩
      · unfold regionWord
        rw [List.flatMap_append, List.flatMap_singleton, BracketRule.run_append]
        unfold regionWord at hword
        rw [hword]
        exact hacts'
      · show RegionChan dup s' (w.bay.chan (.model x))
        rw [(hok.acts hmodel hacts).ready.propagate_chan hrun (not_out_of_partOuts hout)]
        exact hchan'.flush

end

end Ovni
