import Ovni.Breakdown.Rows
import Ovni.Task.Shows

/-!
# The models of the breakdown

What nOS-V and Nanos6 connect for the breakdown of a system of any size, and what their
handlers write in a step.  The tracks of a CPU are connected in the order of the channels
in `enum nosv_chan` and `enum nanos6_chan`, where the subsystem comes before the idle
channel, and no handler writes both of them.
-/

namespace Ovni

open Ovni.Lib

/-! ## The channels of a model -/

/-- The channels of the threads of a model in their order, those that the breakdown follows
and the modes of `th_track`, where a channel that is always shown has no mux. -/
structure ModelChans (K : Type) where
  all : List K
  ss : K
  tt : K
  idle : K
  thTrack : K → Option TrackTh
  tt_mem : tt ∈ all
  order : Before ss idle all
  apart : idle ≠ ss ∧ idle ≠ tt

/-- `enum nosv_chan` and `th_track` of `nosv/setup.c`. -/
def nosvChans : ModelChans NosvChan where
  all := [.bodyid, .taskid, .type, .appid, .subsystem, .rank, .idle]
  ss := .subsystem
  tt := .type
  idle := .idle
  thTrack
    | .subsystem => some .act
    | _ => some .run
  tt_mem := by decide
  order := by
    unfold Before
    decide
  apart := by decide

/-- `enum nanos6_chan` and `th_track` of `nanos6/setup.c`. -/
def nanos6Chans : ModelChans Nanos6Chan where
  all := [.taskid, .type, .subsystem, .rank, .thread, .idle]
  ss := .subsystem
  tt := .type
  idle := .idle
  thTrack
    | .subsystem => some .act
    | .thread => none
    | _ => some .run
  tt_mem := by decide
  order := by
    unfold Before
    decide
  apart := by decide

/-- The channels of the threads that the breakdown follows. -/
def ModelChans.thread {θ ξ K : Type} (mc : ModelChans K) (ch : θ → K → ξ) :
    BreakdownThread θ ξ where
  ss t := ch t mc.ss
  tt t := ch t mc.tt
  idle t := ch t mc.idle

/-! ## The handlers -/

/-- What an entry of `ss_table` does with its channel. -/
inductive SimpleAction where
  | push
  | pop
  | set
  | ign
  deriving DecidableEq

/-- The writes of `simple` for the entry of an event: its channel, its action and its
value. -/
def simpleOps {χ : Type} (x : χ) (action : SimpleAction) (st : Int) : List (ChanOp χ) :=
  match action with
  | .push => [.push x (.int64 st)]
  | .pop => [.pop x (.int64 st)]
  | .set => [.set x (.int64 st)]
  | .ign => []

theorem simpleOps_chan {χ : Type} {x : χ} {action : SimpleAction} {st : Int} {op : ChanOp χ}
    (h : op ∈ simpleOps x action st) : op.chan = x := by
  cases action with
  | push | pop | set =>
      rw [List.mem_singleton.mp h]
      rfl
  | ign => exact absurd h List.not_mem_nil

/-- The writes of `model_nosv_connect` and `model_nanos6_connect`: by default all threads are
progressing. -/
def connectOps {θ γ ξ : Type} (threads : List θ) (idle : θ → ξ) :
    List (ChanOp (EmuChan θ γ ξ)) :=
  threads.map fun t => .set (.model (idle t)) (.int64 stProgressing)

section

variable {θ γ ξ K : Type} {mc : ModelChans K} {ch : θ → K → ξ} {kind : StepKind}

/-- Writes of channels that are allowed. -/
theorem StepKind.fits_ops {bt : BreakdownThread θ ξ} {ops : List (ChanOp (EmuChan θ γ ξ))}
    (h : ∀ op ∈ ops, kind.Allows bt op.chan) : kind.Fits bt (ops.map .write) := by
  constructor
  · intro op hop
    obtain ⟨op', hop', heq⟩ := List.mem_map.mp hop
    rw [← EmuAct.write.inj heq]
    exact h op' hop'
  · intro _ ev hev
    obtain ⟨op, -, heq⟩ := List.mem_map.mp hev
    cases heq

/-- The other models write none of the channels of the breakdown, and `model_ovni_event`
changes the system. -/
theorem foreign_fits {bt : BreakdownThread θ ξ} {acts : List (EmuAct θ γ ξ)}
    (h : ∀ op, .write op ∈ acts → ∀ t, op.chan ≠ .model (bt.ss t) ∧ op.chan ≠ .model (bt.tt t) ∧
      op.chan ≠ .model (bt.idle t)) : StepKind.sys.Fits bt acts :=
  ⟨h, fun hne => absurd rfl hne⟩

section

variable (hinj : ∀ {t t' : θ} {x x' : K}, ch t x = ch t' x' → t = t' ∧ x = x')

include hinj

/-- The channel of a thread is not that of another channel number. -/
theorem ModelChans.chan_ne {t t' : θ} {x x' : K} (hne : x ≠ x') :
    (.model (ch t x) : EmuChan θ γ ξ) ≠ .model (ch t' x') := fun heq =>
  hne (hinj (EmuChan.model.inj heq)).2

/-- A step that writes channels of threads, but not the idle ones. -/
theorem ModelChans.other_fits {ops : List (ChanOp (EmuChan θ γ ξ))}
    (h : ∀ op ∈ ops, ∃ t x, x ≠ mc.idle ∧ op.chan = .model (ch t x)) :
    StepKind.other.Fits (mc.thread ch) (ops.map .write) := by
  apply StepKind.fits_ops
  intro op hop
  obtain ⟨t, x, hne, heq⟩ := h op hop
  rw [heq]
  exact ⟨id, fun t' => ModelChans.chan_ne hinj hne⟩

/-- A step that writes idle channels. -/
theorem ModelChans.idle_fits {ops : List (ChanOp (EmuChan θ γ ξ))}
    (h : ∀ op ∈ ops, ∃ t, op.chan = .model (ch t mc.idle)) :
    StepKind.idle.Fits (mc.thread ch) (ops.map .write) := by
  apply StepKind.fits_ops
  intro op hop
  obtain ⟨t, heq⟩ := h op hop
  rw [heq]
  exact ⟨id, fun t' => ⟨ModelChans.chan_ne hinj mc.apart.1, ModelChans.chan_ne hinj mc.apart.2⟩⟩

/-- An event of `ss_table` writes one channel at most. -/
theorem simple_fits (t : θ) (x : K) (action : SimpleAction) (st : Int) :
    ∃ kind : StepKind, kind.Fits (γ := γ) (mc.thread ch)
      ((simpleOps (.model (ch t x)) action st).map .write) := by
  by_cases hx : x = mc.idle
  · refine ⟨.idle, ModelChans.idle_fits hinj fun op hop => ⟨t, ?_⟩⟩
    rw [simpleOps_chan hop, hx]
  · exact ⟨.other, ModelChans.other_fits hinj fun op hop => ⟨t, x, hx, simpleOps_chan hop⟩⟩

/-- The writes when the models are connected. -/
theorem connect_fits (threads : List θ) :
    StepKind.idle.Fits (γ := γ) (mc.thread ch)
      ((connectOps threads (mc.thread ch).idle).map .write) := by
  apply ModelChans.idle_fits hinj
  intro op hop
  obtain ⟨t, -, rfl⟩ := List.mem_map.mp hop
  exact ⟨t, rfl⟩

end

end

/-! ## The task events -/

section

variable {θ γ π χ κ K : Type} [DecidableEq χ]

/-- Writes of some channels of a thread other than its idle channel. -/
def WritesOther (mc : ModelChans K) (ch : K → χ) (b b' : Bay χ κ) : Prop :=
  ∃ ops : List (ChanOp χ), (∀ op ∈ ops, ∃ x, x ≠ mc.idle ∧ op.chan = ch x) ∧
    writeAll ops b = .ok b'

variable {mc : ModelChans K} {ch : K → χ} {b b' b'' : Bay χ κ}

theorem WritesOther.refl : WritesOther mc ch b b :=
  ⟨[], fun _ hop => absurd hop List.not_mem_nil, rfl⟩

theorem WritesOther.trans (h : WritesOther mc ch b b') (h' : WritesOther mc ch b' b'') :
    WritesOther mc ch b b'' := by
  obtain ⟨ops, hops, hwrite⟩ := h
  obtain ⟨ops', hops', hwrite'⟩ := h'
  refine ⟨ops ++ ops', fun op hop => ?_, (writeAll_append hwrite).trans hwrite'⟩
  exact (List.mem_append.mp hop).elim (hops op) (hops' op)

theorem WritesOther.show {ks : List K} {v : K → Value} (hks : ∀ x ∈ ks, x ≠ mc.idle)
    (h : writeAll (showOps ch ks v) b = .ok b') : WritesOther mc ch b b' := by
  refine ⟨_, fun op hop => ?_, h⟩
  obtain ⟨x, hx, rfl⟩ := List.mem_map.mp hop
  exact ⟨x, hks x hx, rfl⟩

variable {s s' : Tasks θ π} {th : TaskThread θ π} {ev : TaskEvent}

/-- `update_task` writes the subsystem and the channels of the task. -/
theorem updateTaskWith_writes (mc : ModelChans K) {state : TaskM θ π Unit} {stTaskBody : Int}
    {running : Option Nat → Tasks θ π → Bay χ κ → Except EmuFault (Bay χ κ)}
    {stopped : Bay χ κ → Except EmuFault (Bay χ κ)}
    {switch : Option Nat → Option Nat → Tasks θ π → Bay χ κ → Except EmuFault (Bay χ κ)}
    (hrunning : ∀ {next s b b'}, running next s b = .ok b' → WritesOther mc ch b b')
    (hstopped : ∀ {b b'}, stopped b = .ok b' → WritesOther mc ch b b')
    (hswitch : ∀ {prev next s b b'}, switch prev next s b = .ok b' → WritesOther mc ch b b')
    {ss : χ} (hss : ss = ch mc.ss)
    (h : updateTaskWith th ev state ss stTaskBody running stopped switch s b = .ok (s', b')) :
    WritesOther mc ch b b' := by
  obtain ⟨s1, -, h⟩ := bind_ok h
  obtain ⟨b1, hb1, h⟩ := bind_ok h
  obtain ⟨tr, -, h⟩ := bind_ok h
  obtain ⟨b2, hb2, h⟩ := bind_ok h
  obtain ⟨-, -, h⟩ := bind_ok h
  cases h
  have hfirst : WritesOther mc ch b b1 := by
    obtain ⟨ops, hops, hwrite⟩ := updateTaskSsChannel_ok hb1
    exact ⟨ops, fun op hop => ⟨mc.ss, Ne.symm mc.apart.1, (hops op hop).trans hss⟩, hwrite⟩
  apply hfirst.trans
  rcases updateTaskChannels_ok hb2 with hrun | ⟨-, hstop⟩ | hsw
  · exact hrunning hrun
  · exact hstopped hstop
  · exact hswitch hsw

/-- A call that only changes the tasks. -/
theorem runTask_writes {call : TaskM θ π Unit}
    (h : (do return (← runTask call s, b) : Except EmuFault (Tasks θ π × Bay χ κ)) =
      .ok (s', b')) : WritesOther mc ch b b' := by
  obtain ⟨s1, -, h⟩ := bind_ok h
  cases h
  exact .refl

end

section

variable {θ γ π χ κ : Type} [DecidableEq χ] [DecidableEq θ] [DecidableEq π] {s s' : Tasks θ π}
  {th : TaskThread θ π} {ev : TaskEvent} {state : Thread γ} {b b' : Bay χ κ}

/-- The task and type events of nOS-V. -/
theorem nosv_processEv_writes {ch : NosvChan → χ}
    (h : Nosv.processEv ch th state ev s b = .ok (s', b')) : WritesOther nosvChans ch b b' := by
  have hidle : ∀ x ∈ nosvTaskChans th, x ≠ nosvChans.idle := fun x hx =>
    (nosvTaskChans_tasked hx).2
  have hupdate : Nosv.updateTask ch th ev s b = .ok (s', b') →
      WritesOther nosvChans ch b b' := by
    intro h
    refine updateTaskWith_writes nosvChans ?_ ?_ ?_ rfl h
    · intro next s b b' hrun
      obtain ⟨body, -, hwrite⟩ := chanBodyRunning_ok hrun
      exact .show hidle hwrite
    · intro b b' hstop
      exact .show hidle ((chanBodyStopped_eq ch th _).symm.trans hstop)
    · intro prev next s b b' hsw
      obtain ⟨body, -, hwrite⟩ := chanBodySwitch_ok hsw
      exact .show hidle hwrite
  obtain ⟨-, h⟩ := guard_ok h
  obtain ⟨-, h⟩ := guard_ok h
  split at h
  · unfold Nosv.preTask at h
    split at h
    · exact runTask_writes h
    · exact runTask_writes h
    · exact hupdate h
    · exact hupdate h
    · exact hupdate h
    · exact hupdate h
    · cases h
  · exact runTask_writes h
  · cases h

/-- The task and type events of Nanos6. -/
theorem nanos6_processEv_writes {ch : Nanos6Chan → χ}
    (h : Nanos6.processEv ch th state ev s b = .ok (s', b')) :
    WritesOther nanos6Chans ch b b' := by
  have hidle : ∀ x ∈ nanos6TaskChans th, x ≠ nanos6Chans.idle := fun x hx =>
    (nanos6TaskChans_tasked hx).2.2
  have hupdate : Nanos6.updateTask ch th ev s b = .ok (s', b') →
      WritesOther nanos6Chans ch b b' := by
    intro h
    refine updateTaskWith_writes nanos6Chans ?_ ?_ ?_ rfl h
    · intro next s b b' hrun
      obtain ⟨body, -, hwrite⟩ := chanTaskRunning_ok hrun
      exact .show hidle hwrite
    · intro b b' hstop
      exact .show hidle ((chanTaskStopped_eq ch th _).symm.trans hstop)
    · intro prev next s b b' hsw
      obtain ⟨body, -, hwrite⟩ := chanTaskSwitch_ok hsw
      exact .show hidle hwrite
  obtain ⟨-, h⟩ := guard_ok h
  split at h
  · unfold Nanos6.preTask at h
    split at h
    · cases h
      exact .refl
    · exact runTask_writes h
    · exact hupdate h
    · exact hupdate h
    · exact hupdate h
    · exact hupdate h
    · cases h
  · exact runTask_writes h
  · cases h

end

section

variable {θ γ π ℓ ξ μ ς ρ φ K : Type} [DecidableEq θ] [DecidableEq γ] [DecidableEq ξ]
  {sys : System θ γ π ℓ} {e : PatchEmu θ γ ξ μ ς ρ φ} {mc : ModelChans K} {ch : θ → K → ξ}
  {b : Bay (EmuChan θ γ ξ) (Cb μ (Hook ς ρ))}

/-- So the task events are actions of a step that writes no idle channel. -/
theorem WritesOther.fits (hinj : ∀ {t t' : θ} {x x' : K}, ch t x = ch t' x' → t = t' ∧ x = x')
    {t : θ} (h : WritesOther mc (fun x => .model (ch t x)) e.world.bay b) :
    ∃ acts : List (EmuAct θ γ ξ), StepKind.other.Fits (mc.thread ch) acts ∧
      runActs sys acts e = .ok { e with world := { e.world with bay := b } } := by
  obtain ⟨ops, hops, hwrite⟩ := h
  refine ⟨ops.map .write, ModelChans.other_fits hinj fun op hop => ?_, runActs_write hwrite⟩
  obtain ⟨x, hx, heq⟩ := hops op hop
  exact ⟨t, x, hx, heq⟩

end

/-! ## The connections -/

/-- The channels of a model and of its breakdown: those of the threads, their tracks, the
tracks of the CPUs, the channels of the breakdown and its rows. -/
inductive BreakdownChan (θ γ K : Type) where
  | thread (t : θ) (x : K)
  | threadTrack (t : θ) (x : K)
  | cpuTrack (c : γ) (x : K)
  | tr (c : γ)
  | tri (c : γ)
  | row (i : Nat)
  deriving DecidableEq

/-- The muxes: those of the tracks, and `mux0` and `mux1` of each CPU. -/
inductive BreakdownMux (θ γ K : Type) where
  | thread (t : θ) (x : K)
  | cpu (c : γ) (x : K)
  | mux0 (c : γ)
  | mux1 (c : γ)
  deriving DecidableEq

section

variable {θ γ π ℓ K : Type}

/-- The channels of a CPU. -/
def ModelChans.cpu (mc : ModelChans K) (c : γ) : BreakdownCpu (BreakdownChan θ γ K) where
  ss := .cpuTrack c mc.ss
  tt := .cpuTrack c mc.tt
  idle := .cpuTrack c mc.idle
  tr := .tr c
  tri := .tri c

/-- The muxes that write them. -/
def ModelChans.muxes (mc : ModelChans K) (c : γ) : BreakdownCpu (BreakdownMux θ γ K) where
  ss := .cpu c mc.ss
  tt := .cpu c mc.tt
  idle := .cpu c mc.idle
  tr := .mux0 c
  tri := .mux1 c

variable [DecidableEq K] (sys : System θ γ π ℓ) (k : BreakdownModel) (mc : ModelChans K)
  (cpus phycpus : List γ)

/-- The muxes and the sort module of a model with its breakdown. -/
def breakdownPatch : Patch (EmuChan θ γ (BreakdownChan θ γ K)) (BreakdownMux θ γ K) Unit Empty
    Empty where
  mux
    | .thread t x =>
        (Track.thread ((mc.thTrack x).getD .run) t (.thread t x) (.threadTrack t x)).mux sys
    | .cpu c x =>
        (Track.cpu c (fun t => .thread t x) (.cpuTrack c x)
          (if x = mc.idle then .int64 stResting else .null)).mux sys
    | .mux0 c => (mc.cpu c).mux0 k
    | .mux1 c => (mc.cpu c).mux1
  sort _ :=
    { inputs := phycpus.map fun c => .model (.tri c)
      outputs := (List.range phycpus.length).map fun i => .model (.row i)
      same := by rw [List.length_map, List.length_map, List.length_range] }
  rchan := Empty.elim
  nrows := Empty.elim

/-- The tracks of a thread, in the order of `track_connect_thread`. -/
def threadTrackParts (t : θ) : List (Part (BreakdownMux θ γ K) Unit Empty) :=
  (mc.all.filter fun x => (mc.thTrack x).isSome).map fun x => .mux (.thread t x)

/-- The tracks of a CPU, in the order of `connect_cpu` of `emu/model_cpu.c`. -/
def cpuTrackParts (c : γ) : List (Part (BreakdownMux θ γ K) Unit Empty) :=
  mc.all.map fun x => .mux (.cpu c x)

/-- `model_nosv_breakdown_connect` for one physical CPU. -/
def breakdownCpuParts (c : γ) (i : Nat) : List (Part (BreakdownMux θ γ K) Unit Empty) :=
  [.mux (.mux0 c), .mux (.mux1 c), .sortInput () i]

/-- The parts in the order in which a model makes and connects them. -/
def breakdownParts : List (Part (BreakdownMux θ γ K) Unit Empty) :=
  .sort () :: (sys.threads.flatMap (threadTrackParts mc) ++ cpus.flatMap (cpuTrackParts mc) ++
    phycpus.zipIdx.flatMap fun ci => breakdownCpuParts ci.1 ci.2)

variable {sys k mc cpus phycpus}

/-- The output of a mux of the model. -/
def BreakdownMux.out : BreakdownMux θ γ K → BreakdownChan θ γ K
  | .thread t x => .threadTrack t x
  | .cpu c x => .cpuTrack c x
  | .mux0 c => .tr c
  | .mux1 c => .tri c

theorem breakdownPatch_output (m : BreakdownMux θ γ K) :
    ((breakdownPatch sys k mc phycpus).mux m).output = .model m.out := by
  cases m <;> rfl

/-- The outputs of the parts: tracks, channels of the breakdown and rows. -/
theorem breakdownPatch_outs {part : Part (BreakdownMux θ γ K) Unit Empty}
    {x : EmuChan θ γ (BreakdownChan θ γ K)}
    (h : x ∈ (breakdownPatch sys k mc phycpus).partOuts part) :
    (∃ m : BreakdownMux θ γ K, x = .model m.out) ∨ ∃ i, x = .model (.row i) := by
  have hsort : x ∈ (List.range phycpus.length).map
      (fun i => EmuChan.model (BreakdownChan.row i)) → ∃ i, x = .model (.row i) := by
    intro hmem
    obtain ⟨i, -, heq⟩ := List.mem_map.mp hmem
    exact ⟨i, heq.symm⟩
  cases part with
  | mux m => exact .inl ⟨m, (List.mem_singleton.mp h).trans (breakdownPatch_output m)⟩
  | sort s => exact .inr (hsort h)
  | sortInput s i => exact .inr (hsort h)
  | prv r => exact r.elim

theorem breakdown_bay (parts : List (Part (BreakdownMux θ γ K) Unit Empty)) :
    EmuBay (breakdownPatch sys k mc phycpus) parts where
  sys part _ x hx := by
    rcases breakdownPatch_outs hx with ⟨m, rfl⟩ | ⟨i, rfl⟩
    · exact id
    · exact id
  mux m _ m' _ heq := by
    rw [breakdownPatch_output, breakdownPatch_output, EmuChan.model.injEq] at heq
    cases m <;> cases m' <;> cases heq <;> rfl
  sort x hx := by
    obtain ⟨s, hx⟩ := hx
    obtain ⟨i, -, rfl⟩ := List.mem_map.mp hx
    refine ⟨id, fun m _ heq => ?_⟩
    rw [breakdownPatch_output, EmuChan.model.injEq] at heq
    cases m <;> cases heq

/-- No part of the model writes the channels of the threads. -/
theorem thread_source (parts : List (Part (BreakdownMux θ γ K) Unit Empty)) (t : θ) (x : K) :
    (∀ part ∈ parts, .model (.thread t x) ∉ (breakdownPatch sys k mc phycpus).partOuts part) ∧
      ¬ (breakdownPatch sys k mc phycpus).sortOut (.model (.thread t x)) := by
  have hne : ∀ part : Part (BreakdownMux θ γ K) Unit Empty,
      .model (.thread t x) ∉ (breakdownPatch sys k mc phycpus).partOuts part := by
    intro part hmem
    rcases breakdownPatch_outs hmem with ⟨m, heq⟩ | ⟨i, heq⟩
    · cases m <;> cases heq
    · cases heq
  refine ⟨fun part _ => hne part, fun hout => ?_⟩
  obtain ⟨s, hmem⟩ := hout
  exact hne (.sort s) hmem

omit [DecidableEq K] in
theorem mem_breakdownParts {c : γ} {i : Nat} (hi : phycpus[i]? = some c)
    {part : Part (BreakdownMux θ γ K) Unit Empty} (hpart : part ∈ breakdownCpuParts c i) :
    part ∈ breakdownParts sys mc cpus phycpus := by
  apply List.mem_cons_of_mem
  apply List.mem_append_right
  refine List.mem_flatMap.mpr ⟨(c, i), ?_, hpart⟩
  exact List.mk_mem_zipIdx_iff_getElem?.mpr hi

omit [DecidableEq K] in
/-- The tracks of a CPU are connected in the order of its channels. -/
theorem cpuTracks_sublist {c : γ} (hc : c ∈ cpus) :
    (cpuTrackParts mc c).Sublist (breakdownParts sys mc cpus phycpus) := by
  have hcpu : (cpuTrackParts mc c : List (Part (BreakdownMux θ γ K) Unit Empty)).Sublist
      (cpus.flatMap (cpuTrackParts mc)) :=
    List.sublist_flatten_of_mem (List.mem_map_of_mem hc)
  have hall : (cpus.flatMap (cpuTrackParts mc)).Sublist (sys.threads.flatMap
      (threadTrackParts mc : θ → List (Part (BreakdownMux θ γ K) Unit Empty)) ++
        cpus.flatMap (cpuTrackParts mc)) := List.sublist_append_right _ _
  exact (hcpu.trans hall).trans ((List.sublist_append_left _ _).trans (List.sublist_cons_self _ _))

theorem cpu_track_setup {c : γ} (hc : c ∈ cpus) {x : K} (hx : x ∈ mc.all) {def_ : Value}
    (hdef : (if x = mc.idle then .int64 stResting else .null) = def_) :
    TrackSetup sys (breakdownPatch sys k mc phycpus) (breakdownParts sys mc cpus phycpus)
      (.cpu c x) (.cpu c (fun t => .thread t x) (.cpuTrack c x) def_) where
  mem := by
    apply mem_partMuxes.mpr
    exact (cpuTracks_sublist hc).subset (List.mem_map_of_mem hx)
  mux := by
    rw [← hdef]
    rfl
  source y hy := by
    obtain ⟨t, rfl⟩ := hy
    exact thread_source _ t x

/-- nOS-V and Nanos6 connect the breakdown of the physical CPUs for systems of any size. -/
theorem breakdown_connected {model : BreakdownChan θ γ K → Chan}
    (hnull : ∀ x, chanRead (model x) = .null) (hphy : ∀ c ∈ phycpus, c ∈ cpus) :
    BreakdownRows sys (breakdownPatch sys k mc phycpus) (breakdownParts sys mc cpus phycpus)
      model k (mc.thread .thread) phycpus mc.cpu mc.muxes () where
  bay := breakdown_bay _
  cpu c hc := by
    have hcpu := hphy c hc
    obtain ⟨i, hi⟩ := List.getElem?_of_mem hc
    have hss : mc.ss ∈ mc.all := mc.order.left
    have hidle : mc.idle ∈ mc.all := mc.order.right
    refine ⟨cpu_track_setup hcpu hss (if_neg (Ne.symm mc.apart.1)),
      cpu_track_setup hcpu mc.tt_mem (if_neg (Ne.symm mc.apart.2)),
      cpu_track_setup hcpu hidle (if_pos rfl), ⟨?_, rfl⟩, ⟨?_, rfl⟩, hnull _, hnull _⟩
    · exact mem_partMuxes.mpr (mem_breakdownParts hi List.mem_cons_self)
    · exact mem_partMuxes.mpr (mem_breakdownParts hi (List.mem_cons_of_mem _ List.mem_cons_self))
  order c hc := (mc.order.map _).trans (cpuTracks_sublist (hphy c hc))
  sort :=
    { init := List.mem_cons_self
      inputs := by
        intro index hindex
        have hlt : index < phycpus.length := by simpa [breakdownPatch] using hindex
        refine mem_breakdownParts (List.getElem?_eq_getElem hlt) ?_
        exact List.mem_cons_of_mem _ (List.mem_cons_of_mem _ List.mem_cons_self)
      nodup := by
        refine List.Nodup.map ?_ List.nodup_range
        intro i j heq
        cases heq
        rfl
      apart := by
        intro x hx hout
        obtain ⟨c, -, rfl⟩ := List.mem_map.mp hx
        obtain ⟨i, -, heq⟩ := List.mem_map.mp hout
        cases heq
      mux := by
        intro m _ hout
        obtain ⟨i, -, heq⟩ := List.mem_map.mp hout
        rw [breakdownPatch_output, EmuChan.model.injEq] at heq
        cases m <;> cases heq
      other := fun _ _ _ hne => absurd rfl hne }
  inputs := rfl
  null _ _ := hnull _

end

end Ovni
