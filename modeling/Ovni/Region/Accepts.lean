import Ovni.Region.Nesting
import Ovni.System.Affinity

/-!
# The events that a model takes

In every run, an event of a table is taken when the thread is ready for it, the table has an
entry for it, and what the thread wrote on the channel of the entry can still be read with
the bracket of the event.
-/

namespace Ovni

open Ovni.Lib

/-! ## Models with a table -/

/-- The channel that an action is for. -/
def SimpleAction.chanType : SimpleAction → Option ChanType
  | .push => some .stack
  | .pop => some .stack
  | .set => some .single
  | .ign => none

/-- A model with a table of events: its channels as they are made, when a thread takes an
event, and its handler, which reads the table, except for the categories of events that are
handled elsewhere. -/
structure RegionModel (θ γ ξ K σ : Type) where
  table : EventTable K σ
  num : σ → Int
  ch : θ → K → ξ
  chan : K → Chan
  ready : Thread γ → Bool
  handler : Handler θ γ ξ
  elsewhere : List Char
  made : ∀ k, chan k = { chanInit (chan k).type with allowDup := (chan k).allowDup }
  fits : ∀ row ∈ table.rows, ∀ type ∈ row.action.chanType, (chan row.chan).type = type
  apart : ∀ row ∈ table.rows, row.c ∉ elsewhere
  reads : ∀ th ev acts, ev.c ∉ elsewhere → (handler th ev = .ok acts ↔ ready th = true ∧
    ∃ row ∈ table.rows, row.c = ev.c ∧ row.v = ev.v ∧
      acts = (simpleOps (.model (ch ev.thread row.chan)) row.action (num row.st)).map .write)

section

variable {θ γ ξ K σ : Type}

/-- A table is read for the events of its categories. -/
theorem category_iff {table : EventTable K σ} {num : σ → Int} {ch : θ → K → ξ}
    {unknown : String} {ev : ModelEvent θ} {acts : List (EmuAct θ γ ξ)} {cats : List Char}
    {other : Except EmuFault (List (EmuAct θ γ ξ))} (hcats : ∀ row ∈ table.rows, row.c ∈ cats)
    (hother : ∀ acts, other ≠ .ok acts) :
    (if ev.c ∈ cats then simple table num ch unknown ev else other) = .ok acts ↔
      ∃ row ∈ table.rows, row.c = ev.c ∧ row.v = ev.v ∧
        acts = (simpleOps (.model (ch ev.thread row.chan)) row.action (num row.st)).map .write := by
  by_cases hc : ev.c ∈ cats
  · rw [if_pos hc]
    exact simple_iff
  · rw [if_neg hc]
    constructor
    · intro h
      exact absurd h (hother acts)
    · rintro ⟨row, hrow, hrc, -⟩
      exact absurd (hrc ▸ hcats row hrow) hc

/-- The model of MPI. -/
def mpiRegions (ch : θ → MpiChan → ξ) : RegionModel θ γ ξ MpiChan MpiFunction where
  table := mpiTable
  num := MpiFunction.toInt
  ch := ch
  chan _ := stackInit false
  ready th := th.isRunning
  handler := mpiEvent ch
  elsewhere := []
  made _ := rfl
  fits := by decide +kernel
  apart := by simp
  reads th ev acts _ := by
    unfold mpiEvent
    rw [guard_iff, simple_iff, Bool.not_eq_false]

/-- The model of TAMPI. -/
def tampiRegions (ch : θ → TampiChan → ξ) : RegionModel θ γ ξ TampiChan TampiSs where
  table := tampiTable
  num := TampiSs.toInt
  ch := ch
  chan _ := stackInit false
  ready th := th.isRunning
  handler := tampiEvent ch
  elsewhere := []
  made _ := rfl
  fits := by decide +kernel
  apart := by simp
  reads th ev acts _ := by
    unfold tampiEvent
    rw [guard_iff, simple_iff, Bool.not_eq_false]

/-- The model of NODES. -/
def nodesRegions (ch : θ → NodesChan → ξ) : RegionModel θ γ ξ NodesChan NodesSs where
  table := nodesTable
  num := NodesSs.toInt
  ch := ch
  chan _ := stackInit false
  ready th := th.isRunning
  handler := nodesEvent ch
  elsewhere := []
  made _ := rfl
  fits := by decide +kernel
  apart := by simp
  reads th ev acts _ := by
    unfold nodesEvent
    rw [guard_iff, Bool.not_eq_false]
    exact and_congr_right fun _ => category_iff (by decide +kernel) nofun

/-- The model of OpenMP. -/
def openmpRegions (ch : θ → OpenmpChan → ξ) (preTask preType preWorksharing : Handler θ γ ξ) :
    RegionModel θ γ ξ OpenmpChan OpenmpFunction where
  table := openmpTable
  num := OpenmpFunction.toInt
  ch := ch
  chan := openmpChanInit
  ready th := th.isRunning
  handler := openmpEvent ch preTask preType preWorksharing
  elsewhere := ['P', 'O', 'Q']
  made _ := rfl
  fits := by decide +kernel
  apart := by decide +kernel
  reads th ev acts hc := by
    simp only [List.mem_cons, List.not_mem_nil, or_false, not_or] at hc
    unfold openmpEvent
    rw [guard_iff, Bool.not_eq_false]
    apply and_congr_right
    intro hrunning
    simp only [hrunning, Bool.true_eq_false, if_false, hc.1, hc.2.1, hc.2.2]
    exact category_iff (by decide +kernel) nofun

/-- The model of nOS-V. -/
def nosvRegions (ch : θ → NosvChan → ξ) (preTask preType hwcEvent : Handler θ γ ξ) :
    RegionModel θ γ ξ NosvChan NosvState where
  table := nosvTable
  num := NosvState.toInt
  ch := ch
  chan := nosvChanInit
  ready th := th.isActive && !th.isOutOfCpu
  handler := nosvEvent ch preTask preType hwcEvent
  elsewhere := ['T', 'Y', 'W']
  made k := by cases k <;> rfl
  fits := by decide +kernel
  apart := by decide +kernel
  reads th ev acts hc := by
    simp only [List.mem_cons, List.not_mem_nil, or_false, not_or] at hc
    unfold nosvEvent
    rw [guard_iff, guard_iff, Bool.not_eq_false, Bool.and_eq_true, Bool.not_eq_true', and_assoc,
      Bool.not_eq_true]
    apply and_congr_right
    intro _
    apply and_congr_right
    intro _
    simp only [hc.1, hc.2.1, hc.2.2, if_false]
    exact category_iff (by decide +kernel) nofun

/-- The model of Nanos6. -/
def nanos6Regions (ch : θ → Nanos6Chan → ξ) (preTask preType : Handler θ γ ξ) :
    RegionModel θ γ ξ Nanos6Chan Nanos6State where
  table := nanos6Table
  num := Nanos6State.toInt
  ch := ch
  chan := nanos6ChanInit
  ready th := th.isActive
  handler := nanos6Event ch preTask preType
  elsewhere := ['T', 'Y']
  made k := by cases k <;> rfl
  fits := by decide +kernel
  apart := by decide +kernel
  reads th ev acts hc := by
    simp only [List.mem_cons, List.not_mem_nil, or_false, not_or] at hc
    unfold nanos6Event
    rw [guard_iff, Bool.not_eq_false]
    apply and_congr_right
    intro _
    simp only [hc.1, hc.2, if_false]
    exact category_iff (by decide +kernel) nofun

end

/-! ## Writes that are taken -/

section

variable {χ κ : Type} [DecidableEq χ] {b : Bay χ κ} {c : χ} {dup : Bool} {s : List Value}
  {v : Value}

theorem setDirty_clean (chan : Chan) (hready : b.state = .ready) (hclean : chan.isDirty = false) :
    ∃ b', (b.put c chan).setDirty c = .ok b' := by
  unfold Bay.setDirty Bay.cbChanIsDirty
  simp [Bay.put, hready, hclean]

/-- A clean stack channel takes a value when it can be opened there. -/
theorem RegionChan.push_iff (h : RegionChan dup s (b.chan c)) (hready : b.state = .ready)
    (hclean : (b.chan c).isDirty = false) (hv : v ≠ .null) :
    (∃ b', b.chanPush c v = .ok b') ↔ ((regionRule dup).step s (.enter v)).isSome = true := by
  constructor
  · rintro ⟨b', hrun⟩
    rw [(h.push hrun).1]
    rfl
  · intro hstep
    obtain ⟨s', hs'⟩ := Option.isSome_iff_exists.mp hstep
    obtain ⟨⟨hdepth, hrep⟩, -⟩ := BracketRule.step_enter.mp hs'
    have hdup : ¬ ((b.chan c).allowDup = false ∧ (b.chan c).lastValue = v) := by
      rintro ⟨hallow, hlast⟩
      rw [h.allowDup] at hallow
      rw [h.last hclean] at hlast
      apply hrep hallow
      cases s with
      | nil => exact absurd hlast.symm hv
      | cons top s => exact congrArg some hlast
    have hfull : ¬ maxChanStack ≤ (b.chan c).stack.length := by
      rw [h.stack]
      exact Nat.not_le.mpr hdepth
    obtain ⟨b', hset⟩ : ∃ b', (b.put c
        { b.chan c with stack := v :: (b.chan c).stack }).setDirty c = .ok b' :=
      setDirty_clean _ hready hclean
    have hcheck : Bay.checkDup (b.chan c) v = .ok true := by
      unfold Bay.checkDup
      rw [if_neg hdup]
    refine ⟨b', guard_iff.mpr ⟨by simp [h.type], guard_iff.mpr ⟨by simp [hclean], ?_⟩⟩⟩
    rw [hcheck]
    exact guard_iff.mpr ⟨hfull, hset⟩

/-- A clean stack channel gives back its innermost value only. -/
theorem RegionChan.pop_iff (h : RegionChan dup s (b.chan c)) (hready : b.state = .ready)
    (hclean : (b.chan c).isDirty = false) :
    (∃ b', b.chanPop c v = .ok b') ↔ ((regionRule dup).step s (.leave v)).isSome = true := by
  constructor
  · rintro ⟨b', hrun⟩
    obtain ⟨s', hstep, -⟩ := h.pop hrun
    rw [hstep]
    rfl
  · intro hstep
    obtain ⟨s', hs'⟩ := Option.isSome_iff_exists.mp hstep
    have hstack := h.stack.trans (BracketRule.step_leave.mp hs')
    obtain ⟨b', hset⟩ : ∃ b', (b.put c { b.chan c with stack := s' }).setDirty c = .ok b' :=
      setDirty_clean _ hready hclean
    refine ⟨b', guard_iff.mpr ⟨by simp [h.type], guard_iff.mpr ⟨by simp [hclean], ?_⟩⟩⟩
    rw [hstack]
    exact guard_iff.mpr ⟨by simp, hset⟩

/-- A clean single channel takes any value but the one that it shows. -/
theorem chanSet_iff (htype : (b.chan c).type = .single) (hignore : (b.chan c).ignoreDup = false)
    (hlast : (b.chan c).lastValue = b.read c) (hready : b.state = .ready)
    (hclean : (b.chan c).isDirty = false) :
    (∃ b', b.chanSet c v = .ok b') ↔ (b.chan c).allowDup = true ∨ b.read c ≠ v := by
  constructor
  · rintro ⟨b', hrun⟩
    obtain ⟨-, -, ⟨-, -, hi, -⟩ | ⟨-, hnew⟩⟩ := Bay.chanSet_ok hrun
    · rw [hignore] at hi
      cases hi
    · rw [hlast] at hnew
      exact hnew
  · intro hnew
    have hdup : ¬ ((b.chan c).allowDup = false ∧ (b.chan c).lastValue = v) := by
      rintro ⟨hallow, hv⟩
      rcases hnew with hallow' | hne
      · rw [hallow] at hallow'
        cases hallow'
      · exact hne (hlast.symm.trans hv)
    obtain ⟨b', hset⟩ : ∃ b', (b.put c { b.chan c with value := v }).setDirty c = .ok b' :=
      setDirty_clean _ hready hclean
    have hcheck : Bay.checkDup (b.chan c) v = .ok true := by
      unfold Bay.checkDup
      rw [if_neg hdup]
    refine ⟨b', guard_iff.mpr ⟨by simp [htype], guard_iff.mpr ⟨by simp [hclean], ?_⟩⟩⟩
    rw [hcheck]
    exact hset

end

/-! ## Events in a run -/

section

variable {θ γ π ℓ ξ K σ μ ς ρ φ : Type} [DecidableEq θ] [DecidableEq γ] [DecidableEq ξ]
  [DecidableEq μ] [DecidableEq ς] [DecidableEq ρ] [DecidableEq φ]
variable {sys : System θ γ π ℓ} {p : Patch (EmuChan θ γ ξ) μ ς ρ φ} {parts : List (Part μ ς ρ)}
  {model : ξ → Chan} {log : List (List (EmuAct θ γ ξ))} {e : PatchEmu θ γ ξ μ ς ρ φ} {x : ξ}

/-- A channel that only the models write keeps its configuration. -/
theorem EmuRun.chan_flags (hsys : ∀ part ∈ parts, ∀ c ∈ p.partOuts part, ¬ c.IsSys)
    (hout : ∀ part ∈ parts, .model x ∉ p.partOuts part) (h : EmuRun sys p parts model e) :
    (e.world.bay.chan (.model x)).type = (model x).type ∧
      (e.world.bay.chan (.model x)).allowDup = (model x).allowDup ∧
      (e.world.bay.chan (.model x)).ignoreDup = (model x).ignoreDup := by
  induction h with
  | connect hchan hclean honce hrun =>
      have hsame : (emuInit _ : PatchEmu θ γ ξ μ ς ρ φ).world.bay.chan (.model x) = model x :=
        connect_chan (emuChanInit_clean hclean) honce hout hrun
      rw [hsame]
      exact ⟨rfl, rfl, rfl⟩
  | @step e e1 acts w fuel h hsource hacts hrun ih =>
      have hok := h.ok hsys
      have hmodel : ∀ op, .write op ∈ acts → ∃ x, op.chan = .model x := fun op hop =>
        (hsource op hop).1
      obtain ⟨ops, -, hwrites, -⟩ := hok.writes hmodel hacts
      have hlike := (writeAll_ok (fun _ => True) hok.ready.dirtyOk (fun _ _ => trivial)
        hwrites).like (.model x)
      have hchan : w.bay.chan (.model x) = _ :=
        (hok.acts hmodel hacts).ready.propagate_chan hrun (not_out_of_partOuts hout)
      have hflags : (w.bay.chan (.model x)).type = (e1.world.bay.chan (.model x)).type ∧
          (w.bay.chan (.model x)).allowDup = (e1.world.bay.chan (.model x)).allowDup ∧
          (w.bay.chan (.model x)).ignoreDup = (e1.world.bay.chan (.model x)).ignoreDup := by
        rw [hchan]
        split
        · exact ⟨rfl, rfl, rfl⟩
        · exact ⟨rfl, rfl, rfl⟩
      exact ⟨(hflags.1.trans hlike.type).trans ih.1,
        (hflags.2.1.trans hlike.allowDup).trans ih.2.1,
        (hflags.2.2.trans hlike.ignoreDup).trans ih.2.2⟩

/-- What the channel of an entry is like when the event of the entry is taken. -/
def RegionModel.Takes (rm : RegionModel θ γ ξ K σ) (t : θ) (row : SimpleEntry K σ)
    (log : List (List (EmuAct θ γ ξ))) (e : PatchEmu θ γ ξ μ ς ρ φ) : Prop :=
  let rule := regionRule (rm.chan row.chan).allowDup
  let word := regionWord (rm.ch t row.chan) log
  match row.action with
  | .push => (rule.run [] (word ++ [.enter (.int64 (rm.num row.st))])).isSome = true
  | .pop => (rule.run [] (word ++ [.leave (.int64 (rm.num row.st))])).isSome = true
  | .set => (rm.chan row.chan).allowDup = true ∨
      e.read (.model (rm.ch t row.chan)) ≠ .int64 (rm.num row.st)
  | .ign => True

omit [DecidableEq μ] [DecidableEq ς] [DecidableEq ρ] [DecidableEq φ] in
theorem handlerEvent_iff {handler : Handler θ γ ξ} {ev : ModelEvent θ} :
    (∃ e', handlerEvent sys handler ev e = .ok e') ↔
      ∃ acts, handler (e.th ev.thread) ev = .ok acts ∧ ∃ e', runActs sys acts e = .ok e' := by
  constructor
  · rintro ⟨e', hrun⟩
    obtain ⟨acts, hacts, hrun⟩ := bind_ok hrun
    exact ⟨acts, hacts, e', hrun⟩
  · rintro ⟨acts, hacts, e', hrun⟩
    refine ⟨e', ?_⟩
    unfold handlerEvent
    rw [hacts]
    exact hrun

omit [DecidableEq μ] [DecidableEq ς] [DecidableEq ρ] [DecidableEq φ] in
/-- A step with one write. -/
theorem runActs_write_iff {op : ChanOp (EmuChan θ γ ξ)} :
    (∃ e', runActs sys [.write op] e = .ok e') ↔ ∃ b', op.run e.world.bay = .ok b' := by
  constructor
  · rintro ⟨e', hrun⟩
    obtain ⟨e1, hact, -⟩ := bind_ok hrun
    obtain ⟨b', hop, -⟩ := bind_ok hact
    exact ⟨b', hop⟩
  · rintro ⟨b', hop⟩
    refine ⟨{ e with world := { e.world with bay := b' } }, ?_⟩
    simp only [runActs, EmuAct.run]
    rw [hop]
    rfl

/-- The writes of an entry succeed when its channel is as they need it. -/
theorem RegionModel.takes_iff (rm : RegionModel θ γ ξ K σ) {t : θ} {row : SimpleEntry K σ}
    (hrow : row ∈ rm.table.rows) (hsys : ∀ part ∈ parts, ∀ c ∈ p.partOuts part, ¬ c.IsSys)
    (hinit : model (rm.ch t row.chan) = rm.chan row.chan)
    (hout : ∀ part ∈ parts, .model (rm.ch t row.chan) ∉ p.partOuts part)
    (h : EmuLog sys p parts model log e) :
    (∃ e', runActs sys ((simpleOps (.model (rm.ch t row.chan)) row.action
      (rm.num row.st)).map .write) e = .ok e') ↔ rm.Takes t row log e := by
  have hready := (h.emuRun.ok hsys).ready
  have hclean : (e.world.bay.chan (.model (rm.ch t row.chan))).isDirty = false := by
    have hmem := hready.dirtyOk.mem_iff (.model (rm.ch t row.chan))
    rw [(h.emuRun.rest hsys).1] at hmem
    simpa using hmem
  have hmade := hinit.trans (rm.made row.chan)
  have hfits := rm.fits row hrow
  unfold RegionModel.Takes
  cases haction : row.action with
  | ign => exact iff_of_true ⟨e, rfl⟩ trivial
  | set =>
      obtain ⟨htype, hallow, hignore⟩ := h.emuRun.chan_flags hsys hout
      rw [haction] at hfits
      rw [hmade, hfits .single rfl] at htype hallow hignore
      rw [simpleOps, List.map_singleton, runActs_write_iff]
      apply (chanSet_iff htype hignore (hready.flushed _ hclean) hready.ready hclean).trans
      rw [hallow]
      rfl
  | push =>
      rw [haction] at hfits
      rw [hfits .stack rfl] at hmade
      obtain ⟨s, hword, hchan⟩ := h.region hsys hmade hout
      rw [simpleOps, List.map_singleton, runActs_write_iff]
      apply (hchan.push_iff hready.ready hclean (fun he => by cases he)).trans
      simp [BracketRule.run_append, hword, BracketRule.run_cons]
  | pop =>
      rw [haction] at hfits
      rw [hfits .stack rfl] at hmade
      obtain ⟨s, hword, hchan⟩ := h.region hsys hmade hout
      rw [simpleOps, List.map_singleton, runActs_write_iff]
      apply (hchan.pop_iff hready.ready hclean).trans
      simp [BracketRule.run_append, hword, BracketRule.run_cons]

/-- In every run, the next event of a model with a table, of a category that is not handled
elsewhere, is taken exactly when the thread is ready for it, the table has an entry for it and
the channel of the entry allows it: what it opens or closes continues the word of the channel,
and what it sets is new. -/
theorem region_event_taken_iff (rm : RegionModel θ γ ξ K σ) (ev : ModelEvent θ)
    (hc : ev.c ∉ rm.elsewhere) (hsys : ∀ part ∈ parts, ∀ c ∈ p.partOuts part, ¬ c.IsSys)
    (hinit : ∀ k, model (rm.ch ev.thread k) = rm.chan k)
    (hout : ∀ k, ∀ part ∈ parts, .model (rm.ch ev.thread k) ∉ p.partOuts part)
    (h : EmuLog sys p parts model log e) :
    (∃ e', handlerEvent sys rm.handler ev e = .ok e') ↔
      rm.ready (e.th ev.thread) = true ∧ ∃ row ∈ rm.table.rows,
        row.c = ev.c ∧ row.v = ev.v ∧ rm.Takes ev.thread row log e := by
  have hacts := fun (row : SimpleEntry K σ) (hrow : row ∈ rm.table.rows) =>
    rm.takes_iff hrow hsys (hinit row.chan) (hout row.chan) h
  rw [handlerEvent_iff]
  constructor
  · rintro ⟨acts, hhandler, hrun⟩
    obtain ⟨hready, row, hrow, hrc, hv, rfl⟩ := (rm.reads _ _ _ hc).mp hhandler
    exact ⟨hready, row, hrow, hrc, hv, (hacts row hrow).mp hrun⟩
  · rintro ⟨hready, row, hrow, hrc, hv, htakes⟩
    exact ⟨_, (rm.reads _ _ _ hc).mpr ⟨hready, row, hrow, hrc, hv, rfl⟩,
      (hacts row hrow).mpr htakes⟩

end

/-- An event of a model on the first thread. -/
def demoModelEvent (c v : Char) : ModelEvent Bool :=
  { thread := false, c, v, payloadSize := 0, u32 := fun _ => 0, u64 := fun _ => 0 }

/-- The channels of MPI are the stacks of the threads. -/
def demoMpi : RegionModel Bool Bool DemoChan MpiChan MpiFunction := mpiRegions fun t _ => .th t

/-- nOS-V with all its channels; its other handlers do nothing. -/
def demoNosv : RegionModel Bool Bool (Bool × NosvChan) NosvChan NosvState :=
  nosvRegions Prod.mk (fun _ _ => .ok []) (fun _ _ => .ok []) fun _ _ => .ok []

/-- A bay without modules, for these channels. -/
def demoNosvBay : Patch (EmuChan Bool Bool (Bool × NosvChan)) Empty Empty Empty Empty :=
  { mux := Empty.elim, sort := Empty.elim, rchan := Empty.elim, nrows := Empty.elim }

/-- The emulator with that bay. -/
def demoNosvInit : PatchEmu Bool Bool (Bool × NosvChan) Empty Empty Empty Empty :=
  emuInit (patchInit (emuChanInit fun x => nosvChanInit x.2))

/-- The first thread executes, waits for work and rests. -/
def demoNosvLog : List (List (EmuAct Bool Bool (Bool × NosvChan))) :=
  [[.event (demoEvent false 'H' 'x' [0])],
    [.write (.push (.model (false, .subsystem)) (.int64 NosvState.schedHungry.toInt))],
    [.write (.set (.model (false, .idle)) (.int64 NosvState.resting.toInt))]]

/-- The emulator after that. -/
def demoNosvRun : PatchEmu Bool Bool (Bool × NosvChan) Empty Empty Empty Empty :=
  demoNosvLog.foldl (demoStep demoNosvBay) demoNosvInit

theorem demoNosv_log : EmuLog demoSystem demoNosvBay [] (fun x => nosvChanInit x.2) demoNosvLog
    demoNosvRun := by
  have hinit : EmuLog demoSystem demoNosvBay [] (fun x => nosvChanInit x.2) [] demoNosvInit :=
    .connect (fun x => nosvChanInit_unregistered x.2) (fun x => by cases x.2 <;> rfl)
      List.nodup_nil rfl
  exact hinit.demoSteps (by simp [ChanOp.chan]) (by decide +kernel)

/-- In `MPI_Finalize`, which is open, the thread can leave the function and cannot enter it.  In
nOS-V, the thread can stop to wait for work, and cannot leave what it has not entered; it can
make progress, and not rest once more. -/
theorem region_event_taken_demo :
    (∃ e', handlerEvent demoSystem demoMpi.handler (demoModelEvent 'U' 'F') demoStacksRun =
      .ok e') ∧
    (¬ ∃ e', handlerEvent demoSystem demoMpi.handler (demoModelEvent 'U' 'f') demoStacksRun =
      .ok e') ∧
    (∃ e', handlerEvent demoSystem demoNosv.handler (demoModelEvent 'S' 'f') demoNosvRun =
      .ok e') ∧
    (¬ ∃ e', handlerEvent demoSystem demoNosv.handler (demoModelEvent 'S' ']') demoNosvRun =
      .ok e') ∧
    (∃ e', handlerEvent demoSystem demoNosv.handler (demoModelEvent 'P' 'p') demoNosvRun =
      .ok e') ∧
    ¬ ∃ e', handlerEvent demoSystem demoNosv.handler (demoModelEvent 'P' 'r') demoNosvRun =
      .ok e' := by
  have hmpi : ∀ row ∈ mpiTable.rows, (∃ e', handlerEvent demoSystem demoMpi.handler
      (demoModelEvent row.c row.v) demoStacksRun = .ok e') ↔
        demoMpi.ready (demoStacksRun.th false) = true ∧
          demoMpi.Takes false row demoStacksLog demoStacksRun := fun row hrow =>
    (region_event_taken_iff demoMpi (demoModelEvent row.c row.v) (demoMpi.apart row hrow)
      (demoTracks_bay .null).sys (fun _ => rfl)
      (fun _ => ((demoTracks_setup .null (.th false)).source (.th false) rfl).1)
      demoStacks_log).trans (and_congr_right fun _ => mpiTable.exists_row hrow)
  have hnosv : ∀ row ∈ nosvTable.rows, (∃ e', handlerEvent demoSystem demoNosv.handler
      (demoModelEvent row.c row.v) demoNosvRun = .ok e') ↔
        demoNosv.ready (demoNosvRun.th false) = true ∧
          demoNosv.Takes false row demoNosvLog demoNosvRun := fun row hrow =>
    (region_event_taken_iff demoNosv (demoModelEvent row.c row.v) (demoNosv.apart row hrow)
      (by simp) (fun _ => rfl) (by simp) demoNosv_log).trans
      (and_congr_right fun _ => nosvTable.exists_row hrow)
  have hready : demoNosv.ready (demoNosvRun.th false) = true := by decide +kernel
  refine ⟨?_, ?_, ?_, ?_, ?_, ?_⟩
  · refine (hmpi ⟨'U', 'F', .function, .pop, .finalize⟩ (by simp [mpiTable])).mpr
      ⟨by decide +kernel, ?_⟩
    show (BracketRule.run _ _ _).isSome = true
    decide +kernel
  · rw [hmpi ⟨'U', 'f', .function, .push, .finalize⟩ (by simp [mpiTable])]
    rintro ⟨-, htakes⟩
    revert htakes
    show ¬ (BracketRule.run _ _ _).isSome = true
    decide +kernel
  · refine (hnosv ⟨'S', 'f', .subsystem, .pop, .schedHungry⟩ (by simp [nosvTable])).mpr ⟨hready, ?_⟩
    show (BracketRule.run _ _ _).isSome = true
    decide +kernel
  · rw [hnosv ⟨'S', ']', .subsystem, .pop, .schedServing⟩ (by simp [nosvTable])]
    rintro ⟨-, htakes⟩
    revert htakes
    show ¬ (BracketRule.run _ _ _).isSome = true
    decide +kernel
  · refine (hnosv ⟨'P', 'p', .idle, .set, .progressing⟩ (by simp [nosvTable])).mpr ⟨hready, ?_⟩
    exact Or.inr (by decide +kernel)
  · rw [hnosv ⟨'P', 'r', .idle, .set, .resting⟩ (by simp [nosvTable])]
    rintro ⟨-, hdup | hnew⟩
    · cases hdup
    · exact hnew (by decide +kernel)

section

variable {θ γ π ℓ ξ K σ μ ς ρ φ : Type} [DecidableEq θ] [DecidableEq γ] [DecidableEq ξ]
  [DecidableEq μ] [DecidableEq ς] [DecidableEq ρ] [DecidableEq φ]
variable {sys : System θ γ π ℓ} {p : Patch (EmuChan θ γ ξ) μ ς ρ φ} {parts : List (Part μ ς ρ)}
  {model : ξ → Chan} {log : List (List (EmuAct θ γ ξ))} {e : PatchEmu θ γ ξ μ ς ρ φ} {x : ξ}

omit [DecidableEq θ] [DecidableEq γ] [DecidableEq μ] [DecidableEq ς] [DecidableEq ρ]
  [DecidableEq φ] in
/-- What opens a region in a word is a push of the run. -/
theorem enter_mem_regionWord {v : Value} (h : .enter v ∈ regionWord x log) :
    ∃ acts ∈ log, .write (.push (.model x) v) ∈ acts := by
  obtain ⟨acts, hacts, hmem⟩ := List.mem_flatMap.mp h
  obtain ⟨act, hact, hbracket⟩ := List.mem_filterMap.mp hmem
  refine ⟨acts, hacts, ?_⟩
  cases act with
  | event ev => cases hbracket
  | outOfCpu t out => cases hbracket
  | write op =>
      cases op with
      | set c w => cases hbracket
      | push c w =>
          cases c with
          | thread t k => cases hbracket
          | cpu c k => cases hbracket
          | model x' =>
              simp only [EmuAct.bracket] at hbracket
              split at hbracket
              · rename_i hx
                cases hbracket
                rw [← hx]
                exact hact
              · cases hbracket
      | pop c w =>
          cases c with
          | thread t k => cases hbracket
          | cpu c k => cases hbracket
          | model x' =>
              simp only [EmuAct.bracket] at hbracket
              split at hbracket
              · cases hbracket
              · cases hbracket

/-- In every run, when only the events of a table write a stack channel of a thread, a region
that is open there can be closed: the table has an event for it, which the model takes as
soon as the thread is ready and which leaves open what was open around the region. -/
theorem open_region_closes (rm : RegionModel θ γ ξ K σ) (t : θ) (k : K) {v : Value}
    {s : List Value} (hsys : ∀ part ∈ parts, ∀ c ∈ p.partOuts part, ¬ c.IsSys)
    (hstack : (rm.chan k).type = .stack) (hinit : model (rm.ch t k) = rm.chan k)
    (hout : ∀ part ∈ parts, .model (rm.ch t k) ∉ p.partOuts part)
    (h : EmuLog sys p parts model log e)
    (hwrites : ∀ acts ∈ log, ∀ op, .write op ∈ acts → op.chan = .model (rm.ch t k) →
      ∃ row ∈ rm.table.rows, row.chan = k ∧
        op ∈ simpleOps (.model (rm.ch t k)) row.action (rm.num row.st))
    (hopen : e.regions (rm.ch t k) = v :: s) :
    ∃ row ∈ rm.table.rows, row.action = .pop ∧ row.chan = k ∧ v = .int64 (rm.num row.st) ∧
      ∀ ev : ModelEvent θ, ev.thread = t → ev.c = row.c → ev.v = row.v →
        rm.ready (e.th t) = true →
        ∃ e', handlerEvent sys rm.handler ev e = .ok e' ∧ e'.regions (rm.ch t k) = s := by
  have hmade := hinit.trans (rm.made k)
  rw [hstack] at hmade
  obtain ⟨s', hword, hchan⟩ := h.region hsys hmade hout
  have hs : s' = v :: s := hchan.stack.symm.trans hopen
  rw [hs] at hword hchan
  -- The region was opened by an entry of the table, and that one has its pair
  obtain ⟨acts, hacts, hpush⟩ :=
    enter_mem_regionWord ((BracketRule.mem_of_run hword List.mem_cons_self).resolve_left (by simp))
  obtain ⟨row, hrow, hk, hop⟩ := hwrites acts hacts _ hpush rfl
  have haction : row.action = .push ∧ v = .int64 (rm.num row.st) := by
    cases haction : row.action with
    | push =>
        rw [haction] at hop
        cases List.mem_singleton.mp hop
        exact ⟨rfl, rfl⟩
    | pop =>
        rw [haction] at hop
        cases List.mem_singleton.mp hop
    | set =>
        rw [haction] at hop
        cases List.mem_singleton.mp hop
    | ign =>
        rw [haction] at hop
        cases hop
  obtain ⟨row', hrow', hpop, hchan', hst⟩ := rm.table.paired row hrow haction.1
  have hv : v = .int64 (rm.num row'.st) := by rw [hst]; exact haction.2
  refine ⟨row', hrow', hpop, hchan'.trans hk, hv, fun ev ht hc hv' hready => ?_⟩
  subst ht
  have hk' : row'.chan = k := hchan'.trans hk
  have htakes : rm.Takes ev.thread row' log e := by
    have hleave : (regionRule (rm.chan k).allowDup).run (v :: s) [.leave v] = some s :=
      BracketRule.run_leave.mpr ⟨s, rfl, rfl⟩
    unfold RegionModel.Takes
    simp only [hpop, hk', BracketRule.run_append, hword, ← hv, Option.bind_some, hleave,
      Option.isSome_some]
  obtain ⟨e', hrun⟩ := (rm.takes_iff hrow' hsys (by rw [hk']; exact hinit)
    (by rw [hk']; exact hout) h).mpr htakes
  refine ⟨e', ?_, ?_⟩
  · unfold handlerEvent
    rw [(rm.reads _ _ _ (hc ▸ rm.apart row' hrow')).mpr
      ⟨hready, row', hrow', hc.symm, hv'.symm, rfl⟩]
    exact hrun
  · rw [hpop, simpleOps, List.map_singleton] at hrun
    obtain ⟨e1, hact, hrun⟩ := bind_ok hrun
    obtain ⟨b, hpop, hact⟩ := bind_ok hact
    rw [← Except.ok.inj hrun, ← Except.ok.inj hact]
    rw [hk', ← hv] at hpop
    obtain ⟨s1, hstep, hres⟩ := hchan.pop hpop
    obtain rfl : s = s1 := by
      have heq := BracketRule.step_leave.mp hstep
      exact (List.cons.inj heq).2
    exact hres.stack

end

/-- The event that leaves `MPI_Finalize` closes what is open. -/
theorem open_region_closes_demo : ∃ row ∈ mpiTable.rows, row.action = .pop ∧ ∀ ev : ModelEvent Bool,
    ev.thread = false → ev.c = row.c → ev.v = row.v →
      ∃ e', handlerEvent demoSystem demoMpi.handler ev demoStacksRun = .ok e' ∧
        e'.regions (.th false) = [] := by
  have hwrites : ∀ acts ∈ demoStacksLog, ∀ op, .write op ∈ acts → op.chan = .model (.th false) →
      ∃ row ∈ mpiTable.rows, row.chan = .function ∧
        op ∈ simpleOps (.model (.th false)) row.action row.st.toInt := by
    intro acts hacts op hop _
    simp only [demoStacksLog, List.mem_cons, List.not_mem_nil, or_false] at hacts
    rcases hacts with rfl | rfl | rfl | rfl
    · simp at hop
    · refine ⟨⟨'U', 'f', .function, .push, .finalize⟩, by simp [mpiTable], rfl, ?_⟩
      exact List.mem_singleton.mpr (EmuAct.write.inj (List.mem_singleton.mp hop))
    · refine ⟨⟨'W', 'a', .function, .push, .waitall⟩, by simp [mpiTable], rfl, ?_⟩
      exact List.mem_singleton.mpr (EmuAct.write.inj (List.mem_singleton.mp hop))
    · refine ⟨⟨'W', 'A', .function, .pop, .waitall⟩, by simp [mpiTable], rfl, ?_⟩
      exact List.mem_singleton.mpr (EmuAct.write.inj (List.mem_singleton.mp hop))
  obtain ⟨row, hrow, hpop, -, -, hclose⟩ := open_region_closes demoMpi false .function
    (demoTracks_bay .null).sys rfl rfl
    ((demoTracks_setup .null (.th false)).source (.th false) rfl).1 demoStacks_log hwrites
    demoStacks_open
  exact ⟨row, hrow, hpop, fun ev ht hc hv => hclose ev ht hc hv (by decide +kernel)⟩

end Ovni
