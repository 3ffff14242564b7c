import Ovni.Stream.Model
import Mathlib.Logic.Relation

/-!
# Progress of the stream walk

`stream_step` advances by a size that the file itself declares, so a loop over
it ends only when every declared size is positive as an `int`.  The size of a
jumbo event is the `uint32_t` of the file narrowed twice, and it is not
positive for the size fields from 2^31 - 16 to 2^32 - 16.
-/

namespace Ovni

open Ovni.Lib Relation

/-- One call of `stream_step` that returns zero. -/
def StepOk (s s' : Stream) : Prop := streamStep s = .ok s'

/-- A freshly loaded stream with the options a caller may set before the walk. -/
def Stream.configured (s : Stream) (clkoff : Int) (unsorted : Bool) : Stream :=
  { s with clockOffset := clkoff, unsorted }

/-- The jumbo events whose size is not positive as an `int`. -/
def OversizedJumbo (ev : OvniEv) : Prop :=
  ev.isJumbo = true ∧ 2 ^ 31 - 16 ≤ ev.jumboSize ∧ ev.jumboSize ≤ 2 ^ 32 - 16

theorem loadObs_ok {file : List UInt8} {beyond : Mem} {s : Stream}
    (h : loadObs file beyond = .ok s) :
    s.curEv = none ∧ s.buf = beyond.patch 0 file ∧ s.size = file.length ∧
      s.lastclock = 0 ∧ s.offset = 8 ∧ 8 ≤ s.size ∧
      s.active = decide ((8 : Int) < s.size) ∧ s.unsorted = false ∧ s.clockOffset = 0 := by
  unfold loadObs at h
  simp only [bind, Except.bind, pure, Except.pure, throw, throwThe, MonadExceptOf.throw] at h
  split at h
  · cases h
  · split at h
    · cases h
    · rename_i hhdr
      split at h
      · cases h
      · rename_i hsize
        cases h
        unfold streamHeaderSize at *
        exact ⟨rfl, rfl, rfl, rfl, rfl, by simpa [Stream.fresh] using hsize, rfl, rfl, rfl⟩

/-! ## The invariant of the walk -/

/-- Once an event is loaded, it is the one at the offset, which is inside the
file and after the header. -/
structure Walking (s : Stream) : Prop where
  pos : s.curEv.isSome → s.curEv = some s.offset
  lo : 8 ≤ s.offset
  hi : s.curEv.isSome → s.offset < s.size
  act : s.active = true → s.offset < s.size

/-- The event that the next step leaves behind has a positive size. -/
def Advancing (s : Stream) : Prop :=
  ∀ p, s.curEv = some p → ¬ OversizedJumbo (evAt s.buf p)

theorem walking_configured {file : List UInt8} {beyond : Mem} {s : Stream}
    (h : loadObs file beyond = .ok s) (clkoff : Int) (unsorted : Bool) :
    Walking (s.configured clkoff unsorted) := by
  obtain ⟨hcur, -, -, -, hoff, -, hact, -, -⟩ := loadObs_ok h
  constructor
  · simp [Stream.configured, hcur]
  · simp [Stream.configured, hoff]
  · simp [Stream.configured, hcur]
  · simp [Stream.configured, hoff, hact]

/-- The event size added by a step is positive. -/
theorem nextOffset_gt {s : Stream} (hadv : Advancing s) (hcur : s.curEv.isSome) :
    s.offset < s.nextOffset := by
  obtain ⟨p, hp⟩ := Option.isSome_iff_exists.mp hcur
  have hpos : ¬ ovniEvSize (evAt s.buf p) ≤ 0 := by
    rw [ovniEvSize_nonpos_iff]
    exact hadv p hp
  simp only [Stream.nextOffset, hp]
  omega

theorem nextOffset_ge {s : Stream} (hadv : Advancing s) : s.offset ≤ s.nextOffset := by
  by_cases hcur : s.curEv.isSome
  · exact (nextOffset_gt hadv hcur).le
  · simp [Stream.nextOffset, Option.not_isSome_iff_eq_none.mp hcur]

theorem streamStep_ok_fields {s s' : Stream} (h : StepOk s s') :
    s'.offset = s.nextOffset ∧ s'.curEv = some s.nextOffset ∧ s'.size = s.size ∧
      s'.buf = s.buf ∧ s'.active = true := by
  obtain ⟨hact, -, hload⟩ := streamStep_ok h
  obtain ⟨-, -, rfl⟩ := loadEvent_ok hload
  exact ⟨rfl, rfl, rfl, rfl, hact⟩

theorem streamStep_ok_lt {s s' : Stream} (hw : Walking s) (h : StepOk s s') :
    s'.offset < s'.size := by
  obtain ⟨hact, hlt, -⟩ := streamStep_ok h
  obtain ⟨hoff, -, hsize, -, -⟩ := streamStep_ok_fields h
  rw [hoff, hsize]
  by_cases hcur : s.curEv.isSome
  · exact hlt hcur
  · simpa [Stream.nextOffset, Option.not_isSome_iff_eq_none.mp hcur] using hw.act hact

theorem walking_step {s s' : Stream} (hw : Walking s) (hadv : Advancing s)
    (h : StepOk s s') : Walking s' := by
  obtain ⟨hoff, hcur, hsize, -, -⟩ := streamStep_ok_fields h
  have hlt := streamStep_ok_lt hw h
  refine ⟨fun _ => by rw [hcur, hoff], ?_, fun _ => hlt, fun _ => hlt⟩
  rw [hoff]
  exact hw.lo.trans (nextOffset_ge hadv)

theorem walking_run {s₀ s : Stream} (hw : Walking s₀)
    (hadv : ∀ s, ReflTransGen StepOk s₀ s → Advancing s)
    (hrun : ReflTransGen StepOk s₀ s) : Walking s := by
  induction hrun with
  | refl => exact hw
  | tail hprev hstep ih => exact walking_step ih (hadv _ hprev) hstep

/-! ## The loop ends -/

/-- With an advancing walk the bytes left bound the calls that are left. -/
theorem stepAll_stops (n : Nat) (s : Stream) (hw : Walking s)
    (hadv : ∀ s', ReflTransGen StepOk s s' → Advancing s')
    (hcur : s.curEv.isSome) (hn : s.size - s.offset ≤ n) :
    ∃ r, stepAll (n + 1) s = some r := by
  induction n generalizing s with
  | zero =>
      have := hw.hi hcur
      omega
  | succ n ih =>
      rw [stepAll]
      cases hstep : streamStep s with
      | done s' => exact ⟨_, rfl⟩
      | err msg => exact ⟨_, rfl⟩
      | ok s' =>
          obtain ⟨hoff, hcur', hsize, -, -⟩ := streamStep_ok_fields hstep
          have hgt := nextOffset_gt (hadv s .refl) hcur
          apply ih s' (walking_step hw (hadv s .refl) hstep)
          · exact fun s'' hrun => hadv s'' (.head hstep hrun)
          · simp [hcur']
          · rw [hoff, hsize]
            omega

/-- In every walk of a loaded file that meets no jumbo event with a size field
from 2^31 - 16 to 2^32 - 16, each step over a loaded event strictly increases
the offset and keeps it between the header and the end, and the loop that steps
until a nonzero return ends. -/
theorem stream_step_progress (file : List UInt8) (beyond : Mem) (s₀ : Stream)
    (clkoff : Int) (unsorted : Bool) (hload : loadObs file beyond = .ok s₀)
    (hsize : ∀ s p, ReflTransGen StepOk (s₀.configured clkoff unsorted) s →
      s.curEv = some p → ¬ OversizedJumbo (evAt s.buf p)) :
    (∀ s s', ReflTransGen StepOk (s₀.configured clkoff unsorted) s → s.curEv.isSome →
      streamStep s = .ok s' →
      s.offset < s'.offset ∧ streamHeaderSize ≤ s'.offset ∧ s'.offset < s'.size) ∧
    ∃ fuel r, stepAll fuel (s₀.configured clkoff unsorted) = some r := by
  have hadv : ∀ s, ReflTransGen StepOk (s₀.configured clkoff unsorted) s → Advancing s :=
    fun s hrun p hp => hsize s p hrun hp
  have hw := walking_configured hload clkoff unsorted
  constructor
  · intro s s' hrun hcur hstep
    have hws := walking_run hw hadv hrun
    obtain ⟨hoff, -, -, -, -⟩ := streamStep_ok_fields hstep
    refine ⟨by rw [hoff]; exact nextOffset_gt (hadv s hrun) hcur, ?_, streamStep_ok_lt hws hstep⟩
    exact (walking_step hws (hadv s hrun) hstep).lo
  · cases hstep : streamStep (s₀.configured clkoff unsorted) with
    | done s' => exact ⟨1, _, by rw [stepAll, hstep]⟩
    | err msg => exact ⟨1, _, by rw [stepAll, hstep]⟩
    | ok s' =>
        have hrest : ∀ s'', ReflTransGen StepOk s' s'' → Advancing s'' :=
          fun s'' hrun => hadv s'' (.head hstep hrun)
        have hcur : s'.curEv.isSome := by simp [(streamStep_ok_fields hstep).2.1]
        obtain ⟨r, hr⟩ := stepAll_stops (s'.size - s'.offset).toNat s'
          (walking_step hw (hadv _ .refl) hstep) hrest hcur (by omega)
        exact ⟨(s'.size - s'.offset).toNat + 2, r, by rw [stepAll, hstep]; exact hr⟩

/-- A stream file with a single normal event and no payload. -/
def singleEventFile : List UInt8 :=
  ovniStreamMagic ++ [1, 0, 0, 0] ++ [0x00, 0x4f, 0x48, 0x65] ++ leBytes 8 100

/-- The stream of `singleEventFile` before the first step. -/
def singleEventStream : Stream := Stream.fresh (Mem.patch (fun _ => 0) 0 singleEventFile) 20

/-- A stream file with a normal event, a jumbo event and a normal event with a payload. -/
def threeEventFile : List UInt8 :=
  ovniStreamMagic ++ [1, 0, 0, 0] ++ [0x00, 0x4f, 0x48, 0x65] ++ leBytes 8 100 ++
    ([0x10, 0x56, 0x59, 0x63] ++ leBytes 8 110 ++ leBytes 4 8 ++ leBytes 4 7 ++
      [0x61, 0x62, 0x63, 0x00]) ++
    ([0x03, 0x56, 0x54, 0x78] ++ leBytes 8 120 ++ leBytes 4 1)

/-- The stream of `threeEventFile` before the first step. -/
def threeEventStream : Stream := Stream.fresh (Mem.patch (fun _ => 0) 0 threeEventFile) 60

/-- A run is over or goes on after its first step. -/
theorem stepOk_run_cases {s s' t : Stream} (h : streamStep s = .ok s')
    (hrun : ReflTransGen StepOk s t) : t = s ∨ ReflTransGen StepOk s' t := by
  obtain rfl | ⟨u, hu, hrest⟩ := hrun.cases_head
  · exact .inl rfl
  · have hstep : streamStep s = .ok u := hu
    rw [h, Ret.ok.injEq] at hstep
    rw [hstep]
    exact .inr hrest

/-- The stream of the three events, ready to be stepped. -/
def threeEventStart : Stream := threeEventStream.configured 0 false

theorem threeEvent_first : streamStep threeEventStart = .ok threeEventStart.stepped :=
  streamStep_stepped rfl nofun (by decide +kernel) (by decide +kernel)

theorem threeEvent_second :
    streamStep threeEventStart.stepped = .ok threeEventStart.stepped.stepped :=
  streamStep_stepped rfl (fun _ => by decide +kernel) (by decide +kernel) (by decide +kernel)

theorem threeEvent_third :
    streamStep threeEventStart.stepped.stepped = .ok threeEventStart.stepped.stepped.stepped :=
  streamStep_stepped rfl (fun _ => by decide +kernel) (by decide +kernel) (by decide +kernel)

theorem threeEvent_end (s : Stream) : ¬ StepOk threeEventStart.stepped.stepped.stepped s := by
  intro hs
  have hdone : streamStep threeEventStart.stepped.stepped.stepped = .done _ :=
    streamStep_eq_done rfl rfl (by decide +kernel)
  unfold StepOk at hs
  rw [hdone] at hs
  cases hs

/-- The size of the jumbo is an `int`. -/
theorem threeEvent_sized (s : Stream) (p : Int) (hrun : ReflTransGen StepOk threeEventStart s)
    (hp : s.curEv = some p) : ¬ OversizedJumbo (evAt s.buf p) := by
  rintro ⟨-, hover, -⟩
  revert hover
  obtain rfl | hrun := stepOk_run_cases threeEvent_first hrun
  · cases hp
  obtain rfl | hrun := stepOk_run_cases threeEvent_second hrun
  · obtain rfl : 8 = p := Option.some.inj hp
    decide +kernel
  obtain rfl | hrun := stepOk_run_cases threeEvent_third hrun
  · obtain rfl : 20 = p := (by decide +kernel : (20 : Int) = _).trans (Option.some.inj hp)
    decide +kernel
  obtain rfl | ⟨u, hu, -⟩ := hrun.cases_head
  · obtain rfl : 44 = p := (by decide +kernel : (44 : Int) = _).trans (Option.some.inj hp)
    decide +kernel
  · exact absurd hu (threeEvent_end u)

/-- The walk over the three events, the second of which is a jumbo. -/
theorem stream_step_progress_three :
    loadObs threeEventFile (fun _ => 0) = .ok threeEventStream ∧
    ∃ s1 s2 s3, streamStep (threeEventStream.configured 0 false) = .ok s1 ∧
      streamStep s1 = .ok s2 ∧ streamStep s2 = .ok s3 ∧
      (evAt s2.buf s2.offset).isJumbo = true ∧
      (s1.offset < s2.offset ∧ streamHeaderSize ≤ s2.offset ∧ s2.offset < s2.size) ∧
      (s2.offset < s3.offset ∧ streamHeaderSize ≤ s3.offset ∧ s3.offset < s3.size) ∧
      ∃ fuel r, stepAll fuel (threeEventStream.configured 0 false) = some r := by
  have hload : loadObs threeEventFile (fun _ => 0) = .ok threeEventStream := rfl
  obtain ⟨hsteps, hstop⟩ := stream_step_progress threeEventFile (fun _ => 0) threeEventStream 0
    false hload threeEvent_sized
  have hjumbo : (evAt threeEventStart.stepped.stepped.buf
      threeEventStart.stepped.stepped.offset).isJumbo = true := by
    decide +kernel
  refine ⟨hload, _, _, _, threeEvent_first, threeEvent_second, threeEvent_third, hjumbo, ?_, ?_,
    hstop⟩
  · exact hsteps _ _ (.single threeEvent_first) rfl threeEvent_second
  · exact hsteps _ _ (.tail (.single threeEvent_first) threeEvent_second) rfl threeEvent_third

/-! ## The zero step -/

/-- A stream file whose only event is a jumbo with a size field of 2^32 - 16. -/
def zeroStepFile : List UInt8 :=
  ovniStreamMagic ++ [1, 0, 0, 0] ++ [0x10, 0x4f, 0x55, 0x5b] ++ leBytes 8 0 ++
    leBytes 4 (2 ^ 32 - 16)

/-- The stream of `zeroStepFile` with its event loaded. -/
def zeroStepStream : Stream :=
  { Stream.fresh (Mem.patch (fun _ => 0) 0 zeroStepFile) 24 with curEv := some 8 }

/-- The file of one jumbo event of declared size 2^32 - 16 is accepted, its
step over the loaded event returns zero without moving, and the loop over it
never ends. -/
theorem stream_step_stalls :
    ∃ s₀, loadObs zeroStepFile (fun _ => 0) = .ok s₀ ∧
      (∃ s s', ReflTransGen StepOk s₀ s ∧ s.curEv.isSome ∧ streamStep s = .ok s' ∧
        ¬ s.offset < s'.offset) ∧
      ∀ fuel, stepAll fuel s₀ = none := by
  have hclock : streamEvclock zeroStepStream (evAt zeroStepStream.buf 8) = 0 := by
    decide +kernel
  have hloaded : zeroStepStream.loaded = zeroStepStream := by
    have hdelta : toInt64 0 = 0 := by decide
    simp only [Stream.loaded]
    rw [show zeroStepStream.offset = 8 from rfl, hclock]
    simp [zeroStepStream, Stream.fresh, streamHeaderSize, hdelta]
  have hload : loadEvent zeroStepStream = .ok zeroStepStream := by
    rw [loadEvent_eq_ok (by decide +kernel) (by decide +kernel), hloaded]
  have hfirst : streamStep { zeroStepStream with curEv := none } = .ok zeroStepStream := by
    rw [streamStep_eq_load rfl (by decide)]
    exact hload
  have hstall : streamStep zeroStepStream = .ok zeroStepStream := by
    have hnext : zeroStepStream.nextOffset = zeroStepStream.offset := by decide +kernel
    rw [streamStep_eq_load rfl (by rw [hnext]; decide), hnext]
    exact hload
  have hloop : ∀ fuel, stepAll fuel zeroStepStream = none := by
    intro fuel
    induction fuel with
    | zero => rfl
    | succ fuel ih => rw [stepAll, hstall]; exact ih
  refine ⟨{ zeroStepStream with curEv := none }, rfl, ?_, ?_⟩
  · exact ⟨zeroStepStream, zeroStepStream, .single hfirst, rfl, hstall, by simp⟩
  · intro fuel
    cases fuel with
    | zero => rfl
    | succ fuel => rw [stepAll, hfirst]; exact hloop fuel

end Ovni
