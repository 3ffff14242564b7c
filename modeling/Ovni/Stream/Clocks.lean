import Mathlib.Data.List.Chain
import Ovni.Stream.Progress

/-!
# The clocks of a sorted stream

A step in sorted mode compares the clock of the event, corrected with the offset of the
stream, with that of the event before.  The first event has none before it and is
compared with the zero that the stream was loaded with.
-/

namespace Ovni

open Ovni.Lib Relation

/-- The clock of the event at an offset, corrected. -/
def offsetClock (m : Mem) (clkoff p : Int) : Int := toInt64 (evAt m p).clock.toNat + clkoff

/-- A value that an `int64_t` can hold. -/
def InInt64 (x : Int) : Prop := -2 ^ 63 ≤ x ∧ x < 2 ^ 63

/-- Stepping the stream reaches its end without an error. -/
def ReachesEnd (s : Stream) : Prop := ∃ fuel s', stepAll fuel s = some (.done s')

/-- The corrected clocks do not go backwards. -/
def ClocksGrow (m : Mem) (clkoff : Int) (offs : List Int) : Prop :=
  (offs.map (offsetClock m clkoff)).IsChain (· ≤ ·)

/-- From the second event on, a step sets `deltaclock` to the difference of the corrected
clocks. -/
def DeltasRight (s : Stream) : Prop :=
  ∀ s1 s2 p, ReflTransGen StepOk s s1 → s1.curEv = some p → streamStep s1 = .ok s2 →
    ∃ p', s2.curEv = some p' ∧ s2.deltaclock =
      offsetClock s.buf s.clockOffset p' - offsetClock s.buf s.clockOffset p

/-! ## Reaching the end -/

theorem streamEvclock_eq {s : Stream} {p : Int}
    (h : InInt64 (offsetClock s.buf s.clockOffset p)) :
    streamEvclock s (evAt s.buf p) = offsetClock s.buf s.clockOffset p :=
  toInt64_of_range h.1 h.2

theorem reachesEnd_of_ok {s s' : Stream} (h : streamStep s = .ok s') :
    ReachesEnd s ↔ ReachesEnd s' := by
  constructor
  · rintro ⟨fuel, r, hr⟩
    cases fuel with
    | zero => cases hr
    | succ fuel =>
        rw [stepAll, h] at hr
        exact ⟨fuel, r, hr⟩
  · rintro ⟨fuel, r, hr⟩
    exact ⟨fuel + 1, r, by rw [stepAll, h]; exact hr⟩

theorem not_reachesEnd_of_err {s : Stream} {msg : String} (h : streamStep s = .err msg) :
    ¬ ReachesEnd s := by
  rintro ⟨fuel, r, hr⟩
  cases fuel with
  | zero => cases hr
  | succ fuel =>
      rw [stepAll, h] at hr
      cases hr

/-- The walk over the events that are left. -/
theorem reachesEnd_iff {buf : Mem} {size off clkoff : Int} {offs : List Int}
    (hev : EventsFrom buf size off offs) {s : Stream} (hbuf : s.buf = buf) (hsize : s.size = size)
    (hclkoff : s.clockOffset = clkoff) (hoff : s.nextOffset = off) (hact : s.active = true)
    (hmode : s.unsorted = false) (hcur : offs = [] → s.curEv.isSome)
    (hrange : ∀ p ∈ offs, InInt64 (offsetClock buf clkoff p)) :
    ReachesEnd s ↔ (s.lastclock :: offs.map (offsetClock buf clkoff)).IsChain (· ≤ ·) := by
  induction hev generalizing s with
  | done =>
      have hdone := streamStep_eq_done hact (hcur rfl) (by rw [hoff, hsize])
      refine iff_of_true ⟨1, _, by rw [stepAll, hdone]⟩ (by simp)
  | @event off offs inside fits rest ih =>
      have hstep := streamStep_eq_load hact (fun _ => by rw [hoff, hsize]; exact inside)
      rw [hoff] at hstep
      have hclock : streamEvclock s (evAt s.buf off) = offsetClock buf clkoff off := by
        have := hrange off List.mem_cons_self
        rw [← hbuf, ← hclkoff] at this ⊢
        exact streamEvclock_eq this
      rw [List.map_cons, List.isChain_cons_cons]
      by_cases hle : s.lastclock ≤ offsetClock buf clkoff off
      · have hload : streamStep s = .ok { s with offset := off }.loaded := by
          rw [hstep]
          refine loadEvent_eq_ok ?_ (.inr ?_)
          · simp only [hbuf, hsize]
            exact fits
          · exact hle.trans_eq hclock.symm
        rw [reachesEnd_of_ok hload, and_iff_right hle]
        have hlast : { s with offset := off }.loaded.lastclock = offsetClock buf clkoff off := by
          rw [Stream.loaded_lastclock, streamEvclock_offset]
          exact hclock
        rw [← hlast]
        refine ih hbuf hsize hclkoff ?_ hact hmode (fun _ => rfl)
          fun p hp => hrange p (List.mem_cons_of_mem _ hp)
        show off + ovniEvSize (evAt s.buf off) = _
        rw [hbuf]
      · have herr : streamStep s = .err "clock goes backwards" := by
          rw [hstep]
          unfold loadEvent
          simp only
          rw [if_neg, if_pos]
          · exact ⟨hmode, (hclock.trans_lt (not_le.mp hle))⟩
          · rw [hbuf, hsize]
            omega
        exact iff_of_false (not_reachesEnd_of_err herr) fun hand => hle hand.1

/-! ## The differences -/

theorem EventsFrom.next {buf : Mem} {size off : Int} {offs : List Int}
    (h : EventsFrom buf size off offs) (hlt : off < size) :
    ∃ rest, offs = off :: rest ∧ EventsFrom buf size (off + ovniEvSize (evAt buf off)) rest := by
  cases h with
  | done => exact absurd hlt (lt_irrefl _)
  | event _ _ hrest => exact ⟨_, rfl, hrest⟩

theorem EventsFrom.eq_of_nil {buf : Mem} {size off : Int} (h : EventsFrom buf size off []) :
    off = size := by
  cases h
  rfl

theorem EventsFrom.lt_of_cons {buf : Mem} {size off p : Int} {offs : List Int}
    (h : EventsFrom buf size off (p :: offs)) : off < size := by
  cases h
  assumption

theorem Stream.loaded_nextOffset (s : Stream) :
    s.loaded.nextOffset = s.offset + ovniEvSize (evAt s.buf s.offset) := by
  simp only [Stream.nextOffset, Stream.loaded]

theorem Stream.loaded_deltaclock (s : Stream) :
    s.loaded.deltaclock = toInt64 (streamEvclock s (evAt s.buf s.offset) - s.lastclock) := by
  simp only [Stream.loaded]

/-- Some events were loaded, and the rest starts at the next offset. -/
structure AlongEvents (s₀ : Stream) (offs : List Int) (s : Stream) : Prop where
  buf : s.buf = s₀.buf
  size : s.size = s₀.size
  clkoff : s.clockOffset = s₀.clockOffset
  first : s.curEv = none → s.active = true → s.offset < s.size
  split : ∃ before rest, offs = before ++ rest ∧
    EventsFrom s₀.buf s₀.size s.nextOffset rest ∧
    ∀ p, s.curEv = some p → before.getLast? = some p ∧
      s.lastclock = offsetClock s₀.buf s₀.clockOffset p

/-- The event that a step loads is the next one of the stream. -/
theorem AlongEvents.step {s₀ s s' : Stream} {offs : List Int} (h : AlongEvents s₀ offs s)
    (hrange : ∀ p ∈ offs, InInt64 (offsetClock s₀.buf s₀.clockOffset p))
    (hstep : streamStep s = .ok s') :
    AlongEvents s₀ offs s' ∧ s'.curEv = some s.nextOffset ∧
      s'.deltaclock = toInt64 (offsetClock s₀.buf s₀.clockOffset s.nextOffset - s.lastclock) ∧
      ∀ p, s.curEv = some p → ∃ before rest, offs = before ++ s.nextOffset :: rest ∧
        before.getLast? = some p ∧ s.lastclock = offsetClock s₀.buf s₀.clockOffset p := by
  obtain ⟨before, rest, heq, hev, hlast⟩ := h.split
  obtain ⟨hact, hlt, hload⟩ := streamStep_ok hstep
  obtain ⟨-, -, rfl⟩ := loadEvent_ok hload
  have hin : s.nextOffset < s₀.size := by
    rw [← h.size]
    cases hcur : s.curEv with
    | none => simpa [Stream.nextOffset, hcur] using h.first hcur hact
    | some p => exact hlt (by simp [hcur])
  obtain ⟨rest', rfl, hrest⟩ := hev.next hin
  have hclock : streamEvclock s (evAt s.buf s.nextOffset) =
      offsetClock s₀.buf s₀.clockOffset s.nextOffset := by
    have := hrange s.nextOffset (by simp [heq])
    rw [← h.buf, ← h.clkoff] at this ⊢
    exact streamEvclock_eq this
  refine ⟨⟨h.buf, h.size, h.clkoff, fun hcur => (by cases hcur), before ++ [s.nextOffset], rest',
    by simp [heq], ?_, fun p hp => ?_⟩, rfl, ?_, fun p hp => ⟨before, rest', heq, hlast p hp⟩⟩
  · rw [Stream.loaded_nextOffset]
    simp only [h.buf]
    exact hrest
  · obtain rfl : s.nextOffset = p := Option.some.inj hp
    rw [Stream.loaded_lastclock, streamEvclock_offset]
    exact ⟨by simp, hclock⟩
  · rw [Stream.loaded_deltaclock, streamEvclock_offset, hclock]

theorem AlongEvents.run {s₀ s s' : Stream} {offs : List Int} (h : AlongEvents s₀ offs s)
    (hrange : ∀ p ∈ offs, InInt64 (offsetClock s₀.buf s₀.clockOffset p))
    (hrun : ReflTransGen StepOk s s') : AlongEvents s₀ offs s' := by
  induction hrun with
  | refl => exact h
  | tail _ hstep ih => exact (ih.step hrange hstep).1

theorem AlongEvents.deltas {s : Stream} {offs : List Int} (h : AlongEvents s offs s)
    (hrange : ∀ p ∈ offs, InInt64 (offsetClock s.buf s.clockOffset p))
    (hdelta : offs.IsChain fun p p' => InInt64 (offsetClock s.buf s.clockOffset p' -
      offsetClock s.buf s.clockOffset p)) : DeltasRight s := by
  intro s1 s2 p hrun hcur hstep
  obtain ⟨-, hcur', hd, hprev⟩ := (h.run hrange hrun).step hrange hstep
  obtain ⟨before, rest, heq, hlast, hclock⟩ := hprev p hcur
  refine ⟨_, hcur', ?_⟩
  rw [heq, List.isChain_append] at hdelta
  have hin := hdelta.2.2 p hlast s1.nextOffset (by simp)
  rw [hd, hclock]
  exact toInt64_of_range hin.1 hin.2

/-! ## Whole streams -/

/-- A stream in sorted mode is stepped to its end if and only if its corrected clocks
grow, exactly when it has an event and the first corrected clock is not negative or they do
not grow; the differences are right in any case. -/
theorem stream_clocks_iff {file : List UInt8} {beyond : Mem} {s₀ : Stream} {clkoff : Int}
    {offs : List Int} (hload : loadObs file beyond = .ok s₀) (hev : s₀.Events offs)
    (hrange : ∀ p ∈ offs, InInt64 (offsetClock s₀.buf clkoff p))
    (hdelta : offs.IsChain fun p p' => InInt64 (offsetClock s₀.buf clkoff p' -
      offsetClock s₀.buf clkoff p)) :
    (ReachesEnd (s₀.configured clkoff false) ↔ ClocksGrow s₀.buf clkoff offs) ∧
        DeltasRight (s₀.configured clkoff false) ↔
      ∃ p rest, offs = p :: rest ∧
        (0 ≤ offsetClock s₀.buf clkoff p ∨ ¬ ClocksGrow s₀.buf clkoff offs) := by
  obtain ⟨hcur, -, -, hlast, hoff, -, hact, -, -⟩ := loadObs_ok hload
  have hnext : (s₀.configured clkoff false).nextOffset = 8 := by
    simp [Stream.nextOffset, Stream.configured, hcur, hoff]
  have hdeltas : DeltasRight (s₀.configured clkoff false) := by
    refine AlongEvents.deltas ⟨rfl, rfl, rfl, fun _ hon => ?_, [], offs, rfl, ?_, ?_⟩ hrange hdelta
    · simp only [Stream.configured, hact, decide_eq_true_eq] at hon
      simpa [Stream.configured, hoff] using hon
    · rw [hnext]
      exact hev
    · simp [Stream.configured, hcur]
  rw [and_iff_left hdeltas]
  cases offs with
  | nil =>
      have hsize : s₀.size = 8 := (EventsFrom.eq_of_nil hev).symm
      have hoff : streamStep (s₀.configured clkoff false) =
          .err "stream is inactive, cannot step" := by
        unfold streamStep
        rw [if_pos]
        simp [Stream.configured, hact, hsize]
      have hnot := not_reachesEnd_of_err hoff
      simp [hnot, ClocksGrow]
  | cons p rest =>
      have hin : (8 : Int) < s₀.size := EventsFrom.lt_of_cons hev
      have hend := reachesEnd_iff hev (s := s₀.configured clkoff false) rfl rfl rfl hnext
        (by simp [Stream.configured, hact, hin]) rfl (by simp) hrange
      have hzero : (s₀.configured clkoff false).lastclock = 0 := hlast
      rw [hzero, List.map_cons, List.isChain_cons_cons, ← List.map_cons] at hend
      rw [hend]
      unfold ClocksGrow
      constructor
      · intro hiff
        refine ⟨p, rest, rfl, ?_⟩
        by_cases hgrow : ((p :: rest).map (offsetClock s₀.buf clkoff)).IsChain (· ≤ ·)
        · exact .inl (hiff.mpr hgrow).1
        · exact .inr hgrow
      · rintro ⟨p', rest', heq, hcond⟩
        obtain ⟨rfl, rfl⟩ := List.cons.inj heq
        refine ⟨fun hand => hand.2, fun hgrow => ⟨?_, hgrow⟩⟩
        exact hcond.resolve_right fun hnot => hnot hgrow

theorem EventsFrom.event_of_eq {buf : Mem} {size off next : Int} {offs : List Int}
    (hnext : off + ovniEvSize (evAt buf off) = next) (hlo : off < size) (hhi : next ≤ size)
    (h : EventsFrom buf size next offs) : EventsFrom buf size off (off :: offs) := by
  refine .event hlo ?_ ?_
  · rw [hnext]
    exact hhi
  · rw [hnext]
    exact h

/-- The offsets of the three events, a normal one, a jumbo and one with a payload. -/
theorem threeEvent_events : threeEventStream.Events [8, 20, 44] := by
  have hend : EventsFrom threeEventStream.buf 60 60 [] := .done
  have h44 : EventsFrom threeEventStream.buf 60 44 [44] :=
    hend.event_of_eq (by decide +kernel) (by decide) (by decide)
  have h20 : EventsFrom threeEventStream.buf 60 20 [20, 44] :=
    h44.event_of_eq (by decide +kernel) (by decide) (by decide)
  exact h20.event_of_eq (by decide +kernel) (by decide) (by decide)

/-- The clocks of the events are 100, 110 and 120, and with an offset of -100 the first is
zero. -/
theorem stream_clocks_three :
    threeEventStream.Events [8, 20, 44] ∧
      [8, 20, 44].map (offsetClock threeEventStream.buf (-100)) = [0, 10, 20] ∧
      ReachesEnd (threeEventStream.configured (-100) false) ∧
      ∃ s1 s2, streamStep (threeEventStream.configured (-100) false) = .ok s1 ∧
        streamStep s1 = .ok s2 ∧ s2.curEv = some 20 ∧ s2.deltaclock = 10 := by
  have hfirst : offsetClock threeEventStream.buf (-100) 8 = 0 := by decide +kernel
  have hsecond : offsetClock threeEventStream.buf (-100) 20 = 10 := by decide +kernel
  have hthird : offsetClock threeEventStream.buf (-100) 44 = 20 := by decide +kernel
  have hclocks : [8, 20, 44].map (offsetClock threeEventStream.buf (-100)) = [0, 10, 20] := by
    simp only [List.map_cons, List.map_nil, hfirst, hsecond, hthird]
  have hgrow : ClocksGrow threeEventStream.buf (-100) [8, 20, 44] := by
    unfold ClocksGrow
    rw [hclocks]
    decide
  have hload : loadObs threeEventFile (fun _ => 0) = .ok threeEventStream := rfl
  have hrange : ∀ p ∈ [8, 20, 44], InInt64 (offsetClock threeEventStream.buf (-100) p) := by
    intro p hp
    have hmem := List.mem_map_of_mem (f := offsetClock threeEventStream.buf (-100)) hp
    rw [hclocks] at hmem
    simp only [List.mem_cons, List.not_mem_nil, or_false] at hmem
    unfold InInt64
    omega
  have hchain : [8, 20, 44].IsChain fun p p' => InInt64
      (offsetClock threeEventStream.buf (-100) p' - offsetClock threeEventStream.buf (-100) p) := by
    simp [hfirst, hsecond, hthird, InInt64]
  obtain ⟨hend, hdeltas⟩ := (stream_clocks_iff hload threeEvent_events hrange hchain).mpr
    ⟨8, [20, 44], rfl, .inl hfirst.ge⟩
  have h1 : streamStep (threeEventStream.configured (-100) false) =
      .ok (threeEventStream.configured (-100) false).stepped :=
    streamStep_stepped rfl nofun (by decide +kernel) (by decide +kernel)
  have h2 : streamStep (threeEventStream.configured (-100) false).stepped =
      .ok (threeEventStream.configured (-100) false).stepped.stepped :=
    streamStep_stepped rfl (fun _ => by decide +kernel) (by decide +kernel) (by decide +kernel)
  have hcur : (threeEventStream.configured (-100) false).stepped.stepped.curEv = some 20 := by
    decide +kernel
  obtain ⟨p, hp, hdelta⟩ := hdeltas _ _ 8 (.single h1) rfl h2
  obtain rfl : 20 = p := Option.some.inj (hcur.symm.trans hp)
  refine ⟨threeEvent_events, hclocks, hend.mpr hgrow, _, _, h1, h2, hcur, hdelta.trans ?_⟩
  show offsetClock threeEventStream.buf (-100) 20 - offsetClock threeEventStream.buf (-100) 8 = 10
  rw [hfirst, hsecond]
  rfl

/-- The event of the file with one event. -/
theorem singleEvent_events : singleEventStream.Events [8] :=
  EventsFrom.event_of_eq (by decide +kernel) (by decide) (by decide) .done

/-- Its clock is 100: with an offset of -101 it is -1, and the stream is refused. -/
theorem stream_clocks_negative :
    loadObs singleEventFile (fun _ => 0) = .ok singleEventStream ∧
      singleEventStream.Events [8] ∧
      InInt64 (offsetClock singleEventStream.buf (-101) 8) ∧
      ClocksGrow singleEventStream.buf (-101) [8] ∧
      ¬ ReachesEnd (singleEventStream.configured (-101) false) := by
  have herr : streamStep (singleEventStream.configured (-101) false) =
      .err "clock goes backwards" := rfl
  exact ⟨rfl, singleEvent_events, ⟨by decide +kernel, by decide +kernel⟩, by simp [ClocksGrow],
    not_reachesEnd_of_err herr⟩

end Ovni
