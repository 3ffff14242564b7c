import Ovni.Breakdown.Connect
import Ovni.Region.Model

/-!
# The runs of the models with a breakdown

What happens in a run of nOS-V or of Nanos6: the model is connected, its events of the table
and of tasks are processed, and other models change the system and their own channels.
Every step is of one of the kinds that the breakdown allows, so the rows of the breakdown
are sorted in systems of any size.
-/

namespace Ovni

open Ovni.Lib

/-! ## The steps of a model -/

/-- A model with a breakdown: its channels, its table of events, and its task events, which
write no idle channel. -/
structure BreakdownTasks (θ γ π χ κ K σ : Type) [DecidableEq χ] where
  kind : BreakdownModel
  chans : ModelChans K
  table : EventTable K σ
  num : σ → Int
  tasks : TaskModel θ γ π χ κ K
  null : ∀ x, chanRead (tasks.chanInit x) = .null
  writes : ∀ {ch : K → χ} {th : TaskThread θ π} {state : Thread γ} {ev : TaskEvent}
    {s s' : Tasks θ π} {b b' : Bay χ κ},
    tasks.processEv ch th state ev s b = .ok (s', b') → WritesOther chans ch b b'

/-- What a step does: it connects the model, processes an event of its table or of a task,
or it is a step of the other models. -/
inductive ModelAct (θ γ ξ : Type) where
  | connect
  | simple (ev : ModelEvent θ)
  | task (t : θ) (ev : TaskEvent)
  | foreign (acts : List (EmuAct θ γ ξ))

section

variable {θ γ π χ κ : Type} [DecidableEq θ] [DecidableEq π] [DecidableEq χ]

/-- The breakdown of nOS-V. -/
def nosvBreakdown : BreakdownTasks θ γ π χ κ NosvChan NosvState where
  kind := .nosv
  chans := nosvChans
  table := nosvTable
  num := NosvState.toInt
  tasks := nosvModel
  null x := by cases x <;> rfl
  writes := nosv_processEv_writes

/-- The breakdown of Nanos6. -/
def nanos6Breakdown : BreakdownTasks θ γ π χ κ Nanos6Chan Nanos6State where
  kind := .nanos6
  chans := nanos6Chans
  table := nanos6Table
  num := Nanos6State.toInt
  tasks := nanos6Model
  null x := by cases x <;> rfl
  writes := nanos6_processEv_writes

end

section

variable {θ γ π ℓ ξ μ ς ρ φ K σ : Type} [DecidableEq θ] [DecidableEq γ] [DecidableEq ξ]
  (bt : BreakdownTasks θ γ π (EmuChan θ γ ξ) (Cb μ (Hook ς ρ)) K σ) (ts : TaskSystem θ π ξ K)

/-- The handlers of a step. -/
def BreakdownTasks.act (sys : System θ γ π ℓ) (e : PatchEmu θ γ ξ μ ς ρ φ) (s : Tasks θ π) :
    ModelAct θ γ ξ → Except EmuFault (PatchEmu θ γ ξ μ ς ρ φ × Tasks θ π)
  | .connect => do
      let ops := connectOps sys.threads fun t => ts.ch t bt.chans.idle
      return (← runActs sys (ops.map .write) e, s)
  | .simple ev => do
      return (← runActs sys (← simple bt.table bt.num ts.ch "unknown subsystem event" ev) e, s)
  | .task t ev => do
      let r ← bt.tasks.processEv (fun x => .model (ts.ch t x)) (ts.thread t) (e.th t) ev s
        e.world.bay
      return ({ e with world := { e.world with bay := r.2 } }, r.1)
  | .foreign acts => do return (← runActs sys acts e, s)

/-- The other models write their own channels. -/
def ModelAct.Own (p : Patch (EmuChan θ γ ξ) μ ς ρ φ) (parts : List (Part μ ς ρ)) :
    ModelAct θ γ ξ → Prop
  | .foreign acts => ∀ op, .write op ∈ acts → (∃ x, op.chan = .model x ∧ ∀ t k, x ≠ ts.ch t k) ∧
      ∀ part ∈ parts, op.chan ∉ p.partOuts part
  | _ => True

variable {bt ts} {sys : System θ γ π ℓ} {p : Patch (EmuChan θ γ ξ) μ ς ρ φ}
  {parts : List (Part μ ς ρ)} {model : ξ → Chan} {e e1 : PatchEmu θ γ ξ μ ς ρ φ}
  {s s' : Tasks θ π} {act : ModelAct θ γ ξ}

/-- What a step does, as actions of one of the kinds that the breakdown allows. -/
structure KindStep (sys : System θ γ π ℓ) (p : Patch (EmuChan θ γ ξ) μ ς ρ φ)
    (parts : List (Part μ ς ρ)) (ch : BreakdownThread θ ξ) (e e1 : PatchEmu θ γ ξ μ ς ρ φ)
    (kind : StepKind) (acts : List (EmuAct θ γ ξ)) : Prop where
  source : ∀ op, .write op ∈ acts →
    (∃ x, op.chan = .model x) ∧ ∀ part ∈ parts, op.chan ∉ p.partOuts part
  fits : kind.Fits ch acts
  run : runActs sys acts e = .ok e1

omit [DecidableEq θ] [DecidableEq γ] [DecidableEq ξ] in
/-- Writes of the channels of a thread are of sources. -/
theorem TaskSystem.source
    (hown : ∀ t x, ∀ part ∈ parts, .model (ts.ch t x) ∉ p.partOuts part)
    {ops : List (ChanOp (EmuChan θ γ ξ))} (hops : ∀ op ∈ ops, ∃ t x, op.chan = .model (ts.ch t x))
    (op : ChanOp (EmuChan θ γ ξ)) (hop : EmuAct.write op ∈ ops.map .write) :
    (∃ x, op.chan = .model x) ∧ ∀ part ∈ parts, op.chan ∉ p.partOuts part := by
  obtain ⟨op', hmem, heq⟩ := List.mem_map.mp hop
  obtain rfl := EmuAct.write.inj heq
  obtain ⟨t, x, hchan⟩ := hops _ hmem
  rw [hchan]
  exact ⟨⟨_, rfl⟩, hown t x⟩

/-- Every step of a model is of one of the kinds. -/
theorem BreakdownTasks.act_kind
    (hown : ∀ t x, ∀ part ∈ parts, .model (ts.ch t x) ∉ p.partOuts part)
    (hact : act.Own ts p parts) (h : bt.act ts sys e s act = .ok (e1, s')) :
    ∃ kind acts, KindStep sys p parts (bt.chans.thread ts.ch) e e1 kind acts := by
  cases act with
  | connect =>
      obtain ⟨e2, hrun, h⟩ := bind_ok h
      cases h
      refine ⟨_, _, TaskSystem.source hown fun op hop => ?_, connect_fits ts.inj sys.threads, hrun⟩
      obtain ⟨t, -, rfl⟩ := List.mem_map.mp hop
      exact ⟨t, _, rfl⟩
  | simple ev =>
      obtain ⟨acts, hacts, h⟩ := bind_ok h
      obtain ⟨e2, hrun, h⟩ := bind_ok h
      cases h
      obtain ⟨row, -, -, -, rfl⟩ := simple_iff.mp hacts
      obtain ⟨kind, hfits⟩ : ∃ kind : StepKind, kind.Fits (bt.chans.thread ts.ch) _ :=
        simple_fits ts.inj ev.thread row.chan row.action (bt.num row.st)
      refine ⟨kind, _, TaskSystem.source hown fun op hop => ⟨ev.thread, row.chan, ?_⟩, hfits, hrun⟩
      exact simpleOps_chan hop
  | task t ev =>
      obtain ⟨r, hev, h⟩ := bind_ok h
      cases h
      obtain ⟨ops, hops, hwrite⟩ := bt.writes hev
      refine ⟨.other, _, TaskSystem.source hown fun op hop => ?_,
        ModelChans.other_fits ts.inj fun op hop => ?_, runActs_write hwrite⟩
      · obtain ⟨x, -, hchan⟩ := hops op hop
        exact ⟨t, x, hchan⟩
      · obtain ⟨x, hx, hchan⟩ := hops op hop
        exact ⟨t, x, hx, hchan⟩
  | foreign acts =>
      obtain ⟨e2, hrun, h⟩ := bind_ok h
      cases h
      refine ⟨.sys, acts, fun op hop => ?_, foreign_fits fun op hop t => ?_, hrun⟩
      · obtain ⟨⟨x, hchan, -⟩, hout⟩ := hact op hop
        exact ⟨⟨x, hchan⟩, hout⟩
      · obtain ⟨⟨x, hchan, hne⟩, -⟩ := hact op hop
        rw [hchan]
        exact ⟨fun heq => hne t _ (EmuChan.model.inj heq),
          fun heq => hne t _ (EmuChan.model.inj heq), fun heq => hne t _ (EmuChan.model.inj heq)⟩

variable [DecidableEq μ] [DecidableEq ς] [DecidableEq ρ] [DecidableEq φ]

/-- The runs of a model, with its tasks.  The flag tells whether some channel `tri` was a
nonzero integer after some step. -/
inductive ModelRun (bt : BreakdownTasks θ γ π (EmuChan θ γ ξ) (Cb μ (Hook ς ρ)) K σ)
    (ts : TaskSystem θ π ξ K) (sys : System θ γ π ℓ) (p : Patch (EmuChan θ γ ξ) μ ς ρ φ)
    (parts : List (Part μ ς ρ)) (model : ξ → Chan) (cpus : List γ) (bs : γ → BreakdownCpu ξ) :
    Bool → PatchEmu θ γ ξ μ ς ρ φ → Tasks θ π → Prop where
  | start {w : PatchWorld (EmuChan θ γ ξ) μ ς ρ φ} (hchan : ∀ x, Unregistered (model x))
      (hclean : ∀ x, (model x).isDirty = false) (honce : parts.Nodup)
      (hrun : connectParts p parts (patchInit (emuChanInit model)) = .ok w) :
      ModelRun bt ts sys p parts model cpus bs false (emuInit w) tasksInit
  | step {seen : Bool} {e e1 : PatchEmu θ γ ξ μ ς ρ φ} {s s' : Tasks θ π} {act : ModelAct θ γ ξ}
      {w : PatchWorld (EmuChan θ γ ξ) μ ς ρ φ} {fuel : Nat}
      (h : ModelRun bt ts sys p parts model cpus bs seen e s) (hown : act.Own ts p parts)
      (hact : bt.act ts sys e s act = .ok (e1, s'))
      (hrun : bayPropagate p.net.call fuel e1.world = .ok w) :
      ModelRun bt ts sys p parts model cpus bs
        (seen || cpus.any fun c => (w.bay.read (.model (bs c).tri)).toSort ≠ 0)
        { e1 with world := w } s'

variable {cpus : List γ} {bs : γ → BreakdownCpu ξ} {seen : Bool}

/-- The runs of a model are runs of the breakdown. -/
theorem ModelRun.breakdown
    (hown : ∀ t x, ∀ part ∈ parts, .model (ts.ch t x) ∉ p.partOuts part)
    (h : ModelRun bt ts sys p parts model cpus bs seen e s) :
    BreakdownRun sys p parts model (bt.chans.thread ts.ch) cpus bs seen e := by
  induction h with
  | start hchan hclean honce hrun => exact .connect hchan hclean honce hrun
  | step _ hact hstep hrun ih =>
      obtain ⟨kind, acts, hkind⟩ := bt.act_kind hown hact hstep
      exact ih.step hkind.source hkind.fits hkind.run hrun

end

/-! ## Their rows -/

section

variable {θ γ π ℓ K σ : Type} [DecidableEq θ] [DecidableEq γ] [DecidableEq K]

/-- The channels of a model with its breakdown as they are made. -/
def BreakdownTasks.channels {χ κ : Type} [DecidableEq χ] (bt : BreakdownTasks θ γ π χ κ K σ) :
    BreakdownChan θ γ K → Chan
  | .thread _ x => bt.tasks.chanInit x
  | _ => chanInit .single

/-- The processes of a system with the channels of a model. -/
def breakdownSystem (sys : System θ γ π ℓ) (appid rank : π → Int) :
    TaskSystem θ π (BreakdownChan θ γ K) K where
  proc := sys.proc
  appid := appid
  rank := rank
  ch := .thread
  inj h := by
    cases h
    exact ⟨rfl, rfl⟩

/-- The runs of a model with the breakdown of some physical CPUs. -/
abbrev BreakdownModelRun
    (bt : BreakdownTasks θ γ π (EmuChan θ γ (BreakdownChan θ γ K))
      (Cb (BreakdownMux θ γ K) (Hook Unit Empty)) K σ)
    (sys : System θ γ π ℓ) (appid rank : π → Int) (cpus phycpus : List γ) :=
  ModelRun bt (breakdownSystem sys appid rank) sys (breakdownPatch sys bt.kind bt.chans phycpus)
    (breakdownParts sys bt.chans cpus phycpus) bt.channels phycpus bt.chans.cpu

variable {bt : BreakdownTasks θ γ π (EmuChan θ γ (BreakdownChan θ γ K))
    (Cb (BreakdownMux θ γ K) (Hook Unit Empty)) K σ}
  {sys : System θ γ π ℓ} {appid rank : π → Int} {cpus phycpus : List γ} {seen : Bool}
  {e : PatchEmu θ γ (BreakdownChan θ γ K) (BreakdownMux θ γ K) Unit Empty Empty} {s : Tasks θ π}

/-- The breakdown of a model is connected. -/
theorem BreakdownTasks.connected (bt : BreakdownTasks θ γ π (EmuChan θ γ (BreakdownChan θ γ K))
      (Cb (BreakdownMux θ γ K) (Hook Unit Empty)) K σ) (sys : System θ γ π ℓ)
    (hphy : ∀ c ∈ phycpus, c ∈ cpus) :
    BreakdownRows sys (breakdownPatch sys bt.kind bt.chans phycpus)
      (breakdownParts sys bt.chans cpus phycpus) bt.channels bt.kind
      (bt.chans.thread .thread) phycpus bt.chans.cpu bt.chans.muxes () :=
  breakdown_connected (fun x => by cases x <;> first | exact bt.null _ | rfl) hphy

/-- The rows of a model with its breakdown are sorted. -/
theorem BreakdownModelRun.rows (hphy : ∀ c ∈ phycpus, c ∈ cpus)
    (h : BreakdownModelRun bt sys appid rank cpus phycpus true e s) :
    (List.range phycpus.length).map (fun i => e.read (.model (.row i))) =
      ((phycpus.map fun c => (e.read (.model (.tri c))).toSort).mergeSort
        fun a b => decide (a ≤ b)).map .int64 := by
  have hrun := h.breakdown fun t x => (thread_source _ t x).1
  have hrows := bt.connected sys hphy
  have hsorted := (hrun.rest hrows).rows hrows
  calc
    _ = ((List.range phycpus.length).map fun i => .model (.row i)).map e.read :=
      (List.map_map ..).symm
    _ = _ := hsorted

/-- In every run of nOS-V, and in every run of Nanos6, with the breakdown of the physical CPUs
of a system of any size, the rows of the breakdown are sorted. -/
theorem models_rows_sorted [DecidableEq π] (sys : System θ γ π ℓ) (appid rank : π → Int)
    {cpus phycpus : List γ} (hphy : ∀ c ∈ phycpus, c ∈ cpus) :
    (∀ e s, BreakdownModelRun nosvBreakdown sys appid rank cpus phycpus true e s →
      (List.range phycpus.length).map (fun i => e.read (.model (.row i))) =
        ((phycpus.map fun c => (e.read (.model (.tri c))).toSort).mergeSort
          fun a b => decide (a ≤ b)).map .int64) ∧
    ∀ e s, BreakdownModelRun nanos6Breakdown sys appid rank cpus phycpus true e s →
      (List.range phycpus.length).map (fun i => e.read (.model (.row i))) =
        ((phycpus.map fun c => (e.read (.model (.tri c))).toSort).mergeSort
          fun a b => decide (a ≤ b)).map .int64 :=
  ⟨fun _ _ h => h.rows hphy, fun _ _ h => h.rows hphy⟩

end

section

variable {θ γ π ℓ ξ μ ς ρ φ : Type} [DecidableEq θ] [DecidableEq γ] [DecidableEq ξ]
  [DecidableEq μ] [DecidableEq ς] [DecidableEq ρ] [DecidableEq φ] {sys : System θ γ π ℓ}
  {p : Patch (EmuChan θ γ ξ) μ ς ρ φ} {parts : List (Part μ ς ρ)} {model : ξ → Chan}
  {k : BreakdownModel} {ch : BreakdownThread θ ξ} {cpus : List γ} {bs : γ → BreakdownCpu ξ}
  {ms : γ → BreakdownCpu μ} {s : ς} {e : PatchEmu θ γ ξ μ ς ρ φ}

/-- From the first step after which some channel `tri` is a nonzero integer, the rows of the
breakdown are after every step the channels `tri` of the physical CPUs in ascending order,
where null counts as zero. -/
theorem breakdown_rows_sorted (hr : BreakdownRows sys p parts model k ch cpus bs ms s)
    (h : BreakdownRun sys p parts model ch cpus bs true e) :
    (p.sort s).outputs.map e.read =
      ((cpus.map fun c => (e.read (.model (bs c).tri)).toSort).mergeSort
        fun a b => decide (a ≤ b)).map .int64 :=
  (h.rest hr).rows hr

end

/-! ## Two CPUs -/

theorem two_threads_at (t : Bool) : [false, true][t.toNat]? = some t := by
  cases t with
  | false => rfl
  | true => rfl

/-- Two threads of a process, and a loom with two physical CPUs. -/
def dualSystem : System Bool (Option Bool) Unit Unit where
  threads := [false, true]
  gindex t := t.toNat
  gindex_spec := two_threads_at
  tid t := 100 + t.toNat
  proc _ := ()
  pid _ := 100
  loom _ := ()
  procThreads _ := [false, true]
  loomProcs _ := [()]
  cpuGindex c := (c.map Bool.toNat).getD 2
  isVirtual c := c.isNone
  vcpu _ := none
  cpusArray _ := [some false, some true]

/-- The channels of nOS-V in that system. -/
abbrev DualChan := BreakdownChan Bool (Option Bool) NosvChan

/-- The muxes of nOS-V in that system. -/
abbrev DualMux := BreakdownMux Bool (Option Bool) NosvChan

/-- nOS-V in that system. -/
abbrev dualNosv : BreakdownTasks Bool (Option Bool) Unit (EmuChan Bool (Option Bool) DualChan)
    (Cb DualMux (Hook Unit Empty)) NosvChan NosvState := nosvBreakdown

/-- Its threads. -/
def dualThreads : TaskSystem Bool Unit DualChan NosvChan :=
  breakdownSystem dualSystem (fun _ => 1) fun _ => 2

/-- The emulator with its tasks. -/
abbrev DualState :=
  PatchEmu Bool (Option Bool) DualChan DualMux Unit Empty Empty × Tasks Bool Unit

/-- The breakdown of the two CPUs. -/
abbrev dualPatch : Patch (EmuChan Bool (Option Bool) DualChan) DualMux Unit Empty Empty :=
  breakdownPatch dualSystem .nosv nosvChans [some false, some true]

/-- Its parts, with the tracks of the virtual CPU. -/
abbrev dualParts : List (Part DualMux Unit Empty) :=
  breakdownParts dualSystem nosvChans [some false, some true, none] [some false, some true]

/-- The emulator, connected. -/
def dualInit : DualState :=
  (emuInit (okOr (patchInit (emuChanInit dualNosv.channels))
    (connectParts dualPatch dualParts (patchInit (emuChanInit dualNosv.channels)))), tasksInit)

/-- The emulator before the bay propagates in a step. -/
def dualActed (d : DualState) (act : ModelAct Bool (Option Bool) DualChan) : DualState :=
  okOr d (dualNosv.act dualThreads dualSystem d.1 d.2 act)

/-- The emulator after a step. -/
def dualStep (d : DualState) (act : ModelAct Bool (Option Bool) DualChan) : DualState :=
  ({ (dualActed d act).1 with
      world := okOr (dualActed d act).1.world
        (bayPropagate dualPatch.net.call 100 (dualActed d act).1.world) }, (dualActed d act).2)

/-- Steps that all succeed. -/
def dualOk (d : DualState) : List (ModelAct Bool (Option Bool) DualChan) → Bool
  | [] => true
  | act :: acts =>
      (dualNosv.act dualThreads dualSystem d.1 d.2 act).isOk &&
      (bayPropagate dualPatch.net.call 100 (dualActed d act).1.world).isOk &&
      dualOk (dualStep d act) acts

/-- The runs of nOS-V in that system. -/
abbrev DualRun (seen : Bool) (d : DualState) : Prop :=
  BreakdownModelRun dualNosv dualSystem (fun _ => 1) (fun _ => 2) [some false, some true, none]
    [some false, some true] seen d.1 d.2

/-- Whether a channel `tri` is a nonzero integer. -/
def dualShown (d : DualState) : Bool :=
  [some false, some true].any fun c => (d.1.read (.model (.tri c))).toSort ≠ 0

theorem dualShown_eq {d : DualState} {values : List Int}
    (h : [some false, some true].map (fun c => (d.1.read (.model (.tri c))).toSort) = values) :
    dualShown d = values.any fun v => v ≠ 0 := by
  rw [← h, List.any_map]
  rfl

theorem dualStep_run {act : ModelAct Bool (Option Bool) DualChan} {seen : Bool} {d : DualState}
    (h : DualRun seen d) (hown : act.Own dualThreads dualPatch dualParts)
    (hact : (dualNosv.act dualThreads dualSystem d.1 d.2 act).isOk = true)
    (hprop : (bayPropagate dualPatch.net.call 100 (dualActed d act).1.world).isOk = true) :
    DualRun (seen || dualShown (dualStep d act)) (dualStep d act) :=
  h.step hown (eq_okOr d hact) (eq_okOr (dualActed d act).1.world hprop)

/-- Steps that succeed are a run, whose last step is looked at. -/
theorem dualSteps_run {acts : List (ModelAct Bool (Option Bool) DualChan)}
    {last : ModelAct Bool (Option Bool) DualChan} {seen : Bool} {d : DualState}
    (h : DualRun seen d) (hown : ∀ act ∈ acts ++ [last], act.Own dualThreads dualPatch dualParts)
    (hok : dualOk d (acts ++ [last]) = true)
    (hseen : dualShown (dualStep (acts.foldl dualStep d) last) = true) :
    DualRun true (dualStep (acts.foldl dualStep d) last) := by
  induction acts generalizing seen d with
  | nil =>
      simp only [List.nil_append, dualOk, Bool.and_true, Bool.and_eq_true] at hok
      have hstep := dualStep_run h (hown _ List.mem_cons_self) hok.1 hok.2
      rw [List.foldl_nil] at hseen
      rwa [hseen, Bool.or_true] at hstep
  | cons act acts ih =>
      simp only [List.cons_append, dualOk, Bool.and_eq_true] at hok
      obtain ⟨⟨hact, hprop⟩, hrest⟩ := hok
      rw [List.cons_append, List.forall_mem_cons] at hown
      exact ih (dualStep_run h hown.1 hact hprop) hown.2 hrest hseen

/-- The threads execute on the CPUs and create a task each, of a type of its own. -/
def dualActs : List (ModelAct Bool (Option Bool) DualChan) :=
  [.connect, .foreign [.event (demoEvent false 'H' 'x' [0])],
    .foreign [.event (demoEvent true 'H' 'x' [1])],
    .task false { demoTaskEvent 'Y' 'c' [] 5 with label := [110] },
    .task true (demoTaskEvent 'Y' 'c' [] 6), .task false (demoTaskEvent 'T' 'c' [9, 5] 0),
    .task true (demoTaskEvent 'T' 'c' [10, 6] 0), .task false (demoTaskEvent 'T' 'x' [9, 0] 0)]

/-- The second thread executes its task as well. -/
def dualEnd : DualState :=
  dualStep (dualActs.foldl dualStep dualInit) (.task true (demoTaskEvent 'T' 'x' [10, 0] 0))

theorem dualInit_run : DualRun false dualInit := by
  refine .start (fun x => ?_) (fun x => ?_) (by decide +kernel) (eq_okOr _ (by decide +kernel))
  · cases x with
    | thread t x => exact nosvChanInit_unregistered x
    | _ => exact .init _
  · cases x with
    | thread t x => cases x <;> rfl
    | _ => rfl

/-- The channels `tri` of the CPUs at the end are the types of the tasks. -/
theorem dualEnd_tri :
    [some false, some true].map (fun c => (dualEnd.1.read (.model (.tri c))).toSort) =
      [1280859496, 593566140] := by
  decide +kernel

theorem dualEnd_run : DualRun true dualEnd := by
  refine dualSteps_run dualInit_run ?_ (by decide +kernel) ?_
  · simp [dualActs, ModelAct.Own]
  · exact (dualShown_eq dualEnd_tri).trans (by decide +kernel)

/-- The row of the second CPU comes before that of the first. -/
theorem breakdown_rows_sorted_two :
    [dualEnd.1.read (.model (.row 0)), dualEnd.1.read (.model (.row 1))] =
      [.int64 593566140, .int64 1280859496] := by
  have hcpus : ∀ c ∈ ([some false, some true] : List (Option Bool)),
      c ∈ [some false, some true, none] := by
    decide
  have hrows := breakdown_rows_sorted (dualNosv.connected dualSystem hcpus)
    (dualEnd_run.breakdown fun t x => (thread_source _ t x).1)
  have htri : [some false, some true].map
      (fun c => (dualEnd.1.read (.model (dualNosv.chans.cpu c).tri)).toSort) =
        [1280859496, 593566140] := dualEnd_tri
  rw [htri, List.mergeSort_eq_insertionSort] at hrows
  exact hrows

end Ovni
