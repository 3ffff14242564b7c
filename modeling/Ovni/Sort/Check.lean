import Mathlib.Data.List.Chain
import Ovni.Sort.Winsort

/-!
# Checking a stream

`stream_check` walks over a stream and compares the clock of each event with that of the
one before.  The answer is right for every stream with an event; a stream without events
is inactive and its first step is an error, for the check and for the sort.
-/

namespace Ovni

open Ovni.Lib

/-- The loop of `stream_check`. -/
def checkLoop : Nat → Stream → Nat → Bool → Except SortFault Unit
  | 0, _, _, _ => .error .rounds
  | fuel + 1, s, lastClock, backjump =>
      match streamStep s with
      | .err _ => .error (.fail "stream_step failed")
      | .done _ => if backjump then .error (.fail "backwards jump in time") else .ok ()
      | .ok s =>
          match streamEv s with
          | none => .error (.die "NULL dereference in stream_check")
          | some ev =>
              let curClock := (ovniEvGetClock ev).toNat
              checkLoop fuel s curClock (backjump || decide (curClock < lastClock))

/-- `stream_check`. -/
def streamCheck (s : Stream) : Except SortFault Unit :=
  match streamStep s with
  | .err _ => .error (.fail "stream_step failed")
  -- Reached the end
  | .done _ => .ok ()
  | .ok s =>
      match streamEv s with
      | none => .error (.die "NULL dereference in stream_check")
      | some ev => checkLoop (s.size.toNat + 1) s ev.clock.toNat false

/-- The clocks of consecutive events do not decrease. -/
def ClockChain (chunks : List (List UInt8)) : Prop :=
  chunks.IsChain fun a b => clockOf a ≤ clockOf b

section

variable {s : Stream} {done todo : List (List UInt8)} {c : List UInt8}

/-- The event that a walk has loaded. -/
theorem Walked.streamEv (h : Walked s done c todo) :
    ∃ ev, streamEv s = some ev ∧ ev.clock.toNat = clockOf c ∧
      startsUnsortedRegion ev = startsUnsortedRegion (headEv c) := by
  have hslice := (laid_cons.mp (laid_append.mp h.holds.laid).2).1
  obtain ⟨hmodel, hcat, hval, hclock⟩ := h.event.evAt_eq hslice
  refine ⟨_, by rw [Ovni.streamEv, h.cur]; rfl, hclock, ?_⟩
  unfold startsUnsortedRegion
  rw [hmodel, hcat, hval]

/-! ## The check -/

/-- What the check returns: zero when the clocks of the pairs do not decrease, or minus
one. -/
def CheckReturns (r : Except SortFault Unit) (grow : Prop) : Prop :=
  grow ∧ r = .ok () ∨ ¬ grow ∧ r = .error (.fail "backwards jump in time")

theorem checkLoop_returns {fuel : Nat} {backjump : Bool} (hfuel : todo.length < fuel)
    (hwalk : Walked s done c todo) (hev : ∀ c ∈ todo, IsEvent c) :
    CheckReturns (checkLoop fuel s (clockOf c) backjump)
      (backjump = false ∧ ClockChain (c :: todo)) := by
  induction todo generalizing fuel s done c backjump with
  | nil =>
      obtain ⟨fuel, rfl⟩ : ∃ n, fuel = n + 1 := ⟨fuel - 1, by simp at hfuel; omega⟩
      obtain ⟨s', hstep, -⟩ := hwalk.pending hev
      rw [checkLoop, hstep]
      cases backjump <;> simp [CheckReturns, ClockChain]
  | cons c' cs ih =>
      obtain ⟨fuel, rfl⟩ : ∃ n, fuel = n + 1 := ⟨fuel - 1, by simp at hfuel; omega⟩
      obtain ⟨s', hstep, hwalk'⟩ := hwalk.pending hev
      obtain ⟨ev, hcur, hclock, -⟩ := hwalk'.streamEv
      rw [checkLoop, hstep]
      simp only [hcur, ovniEvGetClock, hclock]
      have hrest := @ih s' (done ++ [c]) c' fuel (backjump || decide (clockOf c' < clockOf c))
        (by simp only [List.length_cons] at hfuel; omega) hwalk'
        fun c hc => hev c (List.mem_cons_of_mem _ hc)
      have hsame : ((backjump || decide (clockOf c' < clockOf c)) = false ∧
          ClockChain (c' :: cs)) = (backjump = false ∧ ClockChain (c :: c' :: cs)) := by
        simp only [ClockChain, List.isChain_cons_cons, Bool.or_eq_false_iff,
          decide_eq_false_iff_not, not_lt, and_assoc]
      rwa [hsame] at hrest

/-! ## The sort of a stream without regions -/

theorem winsortLoop_plain (qsort : Qsort) (junk : Mem) {fuel : Nat} {w : Winsort}
    (hfuel : todo.length < fuel) (hst : w.st = .sorted)
    (hpending : Pending w.stream done todo) (hev : ∀ c ∈ todo, IsEvent c)
    (hplain : ∀ c ∈ todo, startsUnsortedRegion (headEv c) = false) :
    ∃ w', winsortLoop qsort junk fuel w = .ok w' ∧ w'.stream.buf = w.stream.buf ∧
      w'.stream.size = w.stream.size ∧ w'.updated = w.updated := by
  induction todo generalizing fuel w done with
  | nil =>
      obtain ⟨fuel, rfl⟩ : ∃ n, fuel = n + 1 := ⟨fuel - 1, by simp at hfuel; omega⟩
      obtain ⟨s', hstep, hbuf, hsize⟩ := hpending
      exact ⟨{ w with stream := s' }, by rw [winsortLoop, hstep], hbuf, hsize, rfl⟩
  | cons c cs ih =>
      obtain ⟨fuel, rfl⟩ : ∃ n, fuel = n + 1 := ⟨fuel - 1, by simp at hfuel; omega⟩
      obtain ⟨s', hstep, hwalk⟩ := hpending
      obtain ⟨-, -, hsize, hbuf, -⟩ := streamStep_ok_fields hstep
      obtain ⟨ev, hcur, -, hstarts⟩ := hwalk.streamEv
      have hat : startsUnsortedRegion
          (evAt s'.buf (streamHeaderSize + (done.flatten.length : Int))) = false := by
        rw [Ovni.streamEv, hwalk.cur] at hcur
        rw [Option.some.inj hcur, hstarts, hplain c List.mem_cons_self]
      have hevent : winsortEvent qsort junk { w with stream := s' }
          (streamHeaderSize + (done.flatten.length : Int)) = .ok { w with stream := s' } := by
        unfold winsortEvent
        simp only [hst]
        rw [hat]
        rfl
      rw [winsortLoop, hstep]
      simp only [hwalk.cur, hevent]
      obtain ⟨w', hrun, hbuf', hsize', hupdated⟩ := @ih (done ++ [c]) fuel { w with
          stream := s', ring := ringAdd w.ring (streamHeaderSize + (done.flatten.length : Int)) }
        (by simp only [List.length_cons] at hfuel; omega) hst
        (hwalk.pending fun c' hc' => hev c' (by simp [hc'])) (fun c' hc' => hev c' (by simp [hc']))
        fun c' hc' => hplain c' (by simp [hc'])
      exact ⟨w', hrun, hbuf'.trans hbuf, hsize'.trans hsize, hupdated⟩

end

/-! ## Both tools -/

/-- For a file of events, the check returns zero if and only if the clocks do not decrease
and the sort leaves a stream without regions as it is, exactly when there is an event. -/
theorem stream_check_iff (qsort : Qsort) (junk beyond : Mem) (r : Ring)
    (chunks : List (List UInt8)) (hev : ∀ c ∈ chunks, IsEvent c) (s : Stream)
    (hload : loadObs (headerOfStream ++ chunks.flatten) beyond = .ok s) :
    CheckReturns (streamCheck (streamAllowUnsorted s)) (ClockChain chunks) ∧
        ((∀ c ∈ chunks, startsUnsortedRegion (headEv c) = false) →
          ∃ w, streamWinsort qsort junk (streamAllowUnsorted s) r = .ok w ∧
            w.stream.buf = s.buf ∧ w.stream.size = s.size ∧ w.updated = false) ↔
      chunks ≠ [] := by
  have hholds := Stream.Holds.load hload
  have hsize : s.size = streamHeaderSize + chunks.flatten.length := hholds.size
  constructor
  · rintro ⟨hcheck, -⟩ rfl
    obtain ⟨-, -, -, -, -, -, hact, -, -⟩ := loadObs_ok hload
    have hoff : (streamAllowUnsorted s).active = false := by
      show s.active = false
      rw [hact, hsize]
      rfl
    unfold streamCheck at hcheck
    rw [streamStep, if_pos hoff] at hcheck
    rcases hcheck with ⟨-, hcheck⟩ | ⟨hnot, -⟩
    · cases hcheck
    · exact hnot .nil
  · intro hne
    have hpending := pending_load hne hev hload
    have hcount := length_le_flatten hev
    refine ⟨?_, fun hplain => ?_⟩
    · obtain ⟨c, cs, rfl⟩ := List.exists_cons_of_ne_nil hne
      obtain ⟨s', hstep, hwalk⟩ := hpending
      obtain ⟨ev, hcur, hclock, -⟩ := hwalk.streamEv
      obtain ⟨-, -, hsize', -, -⟩ := streamStep_ok_fields hstep
      unfold streamCheck
      rw [hstep]
      simp only [hcur, hclock]
      have hfuel : cs.length < s'.size.toNat + 1 := by
        rw [hsize', show (streamAllowUnsorted s).size = s.size from rfl, hsize]
        simp only [List.length_cons] at hcount
        unfold streamHeaderSize
        omega
      have hrest := @checkLoop_returns s' [] cs c _ false hfuel hwalk
        fun c hc => hev c (List.mem_cons_of_mem _ hc)
      simpa using hrest
    · refine winsortLoop_plain qsort junk ?_ rfl hpending hev hplain
      show chunks.length < s.size.toNat + 1
      rw [hsize]
      unfold streamHeaderSize
      omega

/-- Two events out of order, in no region. -/
def backwardsEvents : List (List UInt8) :=
  [bareEvent 0x4f 0x48 0x78 5, bareEvent 0x4f 0x48 0x65 3]

/-- They are found by the check and left by the sort. -/
theorem stream_check_backwards : ∃ s,
    loadObs (headerOfStream ++ backwardsEvents.flatten) zeroMem = .ok s ∧
      CheckReturns (streamCheck (streamAllowUnsorted s)) (ClockChain backwardsEvents) ∧
      ∃ w, streamWinsort insertionQsort zeroMem (streamAllowUnsorted s)
          { head := 0, tail := 0, size := 5, ev := fun _ => 0 } = .ok w ∧
        w.stream.buf = s.buf ∧ w.stream.size = s.size ∧ w.updated = false := by
  have hall : ∀ c ∈ backwardsEvents, ovniEvSize (headEv c) = c.length ∧
      sizedBytes (headEv c) ≤ c.length ∧ startsUnsortedRegion (headEv c) = false := by
    decide +kernel
  have hload := loadObs_header backwardsEvents.flatten zeroMem
  obtain ⟨hcheck, hsort⟩ := (stream_check_iff insertionQsort zeroMem zeroMem
    { head := 0, tail := 0, size := 5, ev := fun _ => 0 } backwardsEvents
    (fun c hc => ⟨(hall c hc).1, (hall c hc).2.1⟩) _ hload).mpr (by simp [backwardsEvents])
  exact ⟨_, hload, hcheck, hsort fun c hc => (hall c hc).2.2⟩

/-- A file without events is refused by both. -/
theorem stream_check_empty : ∃ s, loadObs headerOfStream zeroMem = .ok s ∧ ClockChain [] ∧
    streamCheck (streamAllowUnsorted s) = .error (.fail "stream_step failed") ∧
    (streamWinsort insertionQsort zeroMem (streamAllowUnsorted s)
      { head := 0, tail := 0, size := 5, ev := fun _ => 0 }).isOk = false := by
  have hload := loadObs_header [] zeroMem
  rw [List.append_nil] at hload
  exact ⟨_, hload, .nil, rfl, rfl⟩

end Ovni
