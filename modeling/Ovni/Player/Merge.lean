import Mathlib.Data.List.Pairwise
import Ovni.Player.Model

/-!
# The player merges the streams

The invariant of a run says where each stream is: waiting in the heap with a
loaded event, taken by the last step, or finished.  In each case the offsets
delivered so far are the events the stream has passed, so when the heap is
empty every stream was delivered whole.
-/

namespace Ovni

open Ovni.Lib Ovni.Lib.HeapOrder Ovni.Heap

/-! ## One stream -/

/-- The fields that the walk over a stream leaves alone, and the sorted clock. -/
structure Same (s₀ s : Stream) : Prop where
  buf : s.buf = s₀.buf
  size : s.size = s₀.size
  clockOffset : s.clockOffset = s₀.clockOffset
  sorted : s.unsorted = false
  clockLo : 0 ≤ s.lastclock
  clockHi : s.lastclock < 2 ^ 63

/-- The events at `D` are those before `off`. -/
def Reached (s : Stream) (D : List Int) (off : Int) : Prop :=
  ∀ rest, EventsFrom s.buf s.size off rest → s.Events (D ++ rest)

/-- The next step of the stream goes on after the events at `D`. -/
structure Ready (s : Stream) (D : List Int) : Prop where
  active : s.active = true
  reached : Reached s D s.nextOffset
  start : s.curEv = none → s.offset < s.size

/-- An event is loaded after those at `D`. -/
structure Waiting (s : Stream) (D : List Int) : Prop where
  active : s.active = true
  cur : s.curEv = some s.offset
  inside : s.offset < s.size
  fits : s.offset + ovniEvSize (evAt s.buf s.offset) ≤ s.size
  reached : Reached s D s.offset
  clock : s.lastclock = streamEvclock s (evAt s.buf s.offset)

/-- The events at `D` are all there were. -/
structure Finished (s : Stream) (D : List Int) : Prop where
  inactive : s.active = false
  events : s.Events D

theorem Waiting.ready {s : Stream} {D : List Int} (h : Waiting s D) :
    Ready s (D ++ [s.offset]) := by
  have hnext : s.nextOffset = s.offset + ovniEvSize (evAt s.buf s.offset) := by
    simp [Stream.nextOffset, h.cur]
  refine ⟨h.active, fun rest hrest => ?_, fun hnone => by simp [h.cur] at hnone⟩
  rw [hnext] at hrest
  rw [List.append_assoc]
  exact h.reached _ (.event h.inside h.fits hrest)

theorem streamStep_waiting {s₀ s s' : Stream} {D : List Int} (hsame : Same s₀ s)
    (hready : Ready s D) (h : streamStep s = .ok s') : Waiting s' D ∧ Same s₀ s' := by
  obtain ⟨hact, hlt, hload⟩ := streamStep_ok h
  obtain ⟨hfit, hclk, rfl⟩ := loadEvent_ok hload
  have hle : s.lastclock ≤ streamEvclock s (evAt s.buf s.nextOffset) := by
    rcases hclk with hu | hle
    · simp [hsame.sorted] at hu
    · exact hle
  have hinside : s.nextOffset < s.size := by
    obtain hc | ⟨p, hc⟩ := Option.eq_none_or_eq_some s.curEv
    · simpa [Stream.nextOffset, hc] using hready.start hc
    · exact hlt (by simp [hc])
  constructor
  · refine ⟨hact, rfl, hinside, hfit, hready.reached, ?_⟩
    rw [Stream.loaded_lastclock, streamEvclock_loaded]
    rfl
  · refine ⟨hsame.buf, hsame.size, hsame.clockOffset, hsame.sorted, ?_, ?_⟩
    · rw [Stream.loaded_lastclock, streamEvclock_offset]
      exact hsame.clockLo.trans hle
    · rw [Stream.loaded_lastclock]
      exact streamEvclock_lt _ _

theorem streamStep_finished {s₀ s s' : Stream} {D : List Int} (hsame : Same s₀ s)
    (hready : Ready s D) (h : streamStep s = .done s') : Finished s' D ∧ Same s₀ s' := by
  obtain ⟨-, -, hend, rfl⟩ := streamStep_done h
  constructor
  · refine ⟨rfl, ?_⟩
    have hall := hready.reached [] (by rw [hend]; exact .done)
    rwa [List.append_nil] at hall
  · exact ⟨hsame.buf, hsame.size, hsame.clockOffset, hsame.sorted, hsame.clockLo,
      hsame.clockHi⟩

/-! ## Fresh streams -/

/-- A stream as the player gets it: a loaded file with a clock offset. -/
def FreshStream (s : Stream) : Prop :=
  ∃ file beyond s₀ clkoff, loadObs file beyond = .ok s₀ ∧ s = s₀.configured clkoff false

theorem FreshStream.same {s : Stream} (h : FreshStream s) : Same s s := by
  obtain ⟨file, beyond, s₀, clkoff, hload, rfl⟩ := h
  obtain ⟨-, -, -, hclk, -⟩ := loadObs_ok hload
  exact ⟨rfl, rfl, rfl, rfl, by simp [Stream.configured, hclk],
    by simp [Stream.configured, hclk]⟩

theorem FreshStream.ready {s : Stream} (h : FreshStream s) (hact : s.active = true) :
    Ready s [] := by
  obtain ⟨file, beyond, s₀, clkoff, hload, rfl⟩ := h
  obtain ⟨hcur, -, -, -, hoff, -, hactive, -⟩ := loadObs_ok hload
  have hlt : s₀.offset < s₀.size := by
    have : s₀.active = true := hact
    simpa [hactive, hoff] using this
  refine ⟨hact, fun rest hrest => ?_, fun _ => hlt⟩
  simp only [Stream.nextOffset, Stream.configured, hcur, hoff] at hrest
  exact hrest

theorem FreshStream.size_of_inactive {s : Stream} (h : FreshStream s)
    (hact : s.active = false) : s.size = streamHeaderSize := by
  obtain ⟨file, beyond, s₀, clkoff, hload, rfl⟩ := h
  obtain ⟨-, -, -, -, -, hsize, hactive, -⟩ := loadObs_ok hload
  have : s₀.active = false := hact
  simp only [hactive, decide_eq_false_iff_not, not_lt] at this
  exact le_antisymm this hsize

theorem FreshStream.finished {s : Stream} (h : FreshStream s) (hact : s.active = false) :
    Finished s [] := by
  refine ⟨hact, ?_⟩
  unfold Stream.Events
  rw [h.size_of_inactive hact]
  exact .done

/-! ## All streams -/

/-- The offsets delivered from stream `i`. -/
def offsetsOf (i : Nat) (ds : List Delivery) : List Int :=
  (ds.filter fun d => d.stream = i).map (·.offset)

theorem offsetsOf_append_self {i : Nat} {ds : List Delivery} {d : Delivery}
    (h : d.stream = i) : offsetsOf i (ds ++ [d]) = offsetsOf i ds ++ [d.offset] := by
  simp [offsetsOf, List.filter_append, h]

theorem offsetsOf_append_of_ne {i : Nat} {ds : List Delivery} {d : Delivery}
    (h : d.stream ≠ i) : offsetsOf i (ds ++ [d]) = offsetsOf i ds := by
  simp [offsetsOf, List.filter_append, h]

theorem streamCmp_totalPreorder (t : Trace) (S : Set Nat) :
    TotalPreorder (streamCmp t) S := by
  constructor
  · intro a _ b _
    simp only [streamCmp]
    split_ifs <;> omega
  · intro a _ b _ c _
    simp only [streamCmp]
    split_ifs <;> omega

/-- The streams of `S` wait in the heap and those of `out` are aside; the rest
is finished. -/
structure Merging (trace : Trace) (out S : Set Nat) (ds : List Delivery) (p : Player) :
    Prop where
  nstreams : p.trace.nstreams = trace.nstreams
  heap : IsHeap (streamCmp p.trace) p.heap S
  same : ∀ i, i < trace.nstreams → Same (trace.stream i) (p.trace.stream i)
  apart : ∀ i ∈ out, i ∉ S
  waiting : ∀ i ∈ S, i < trace.nstreams ∧ Waiting (p.trace.stream i) (offsetsOf i ds)
  finished : ∀ i, i < trace.nstreams → i ∉ S → i ∉ out →
    Finished (p.trace.stream i) (offsetsOf i ds)

/-- The clocks and the stream of the player, which stepping a stream leaves
alone. -/
structure SameClocks (p q : Player) : Prop where
  firstEvent : q.firstEvent = p.firstEvent
  firstclock : q.firstclock = p.firstclock
  lastclock : q.lastclock = p.lastclock
  unsorted : q.unsorted = p.unsorted
  stream : q.stream = p.stream

section Step

variable {trace : Trace} {out S : Set Nat} {ds : List Delivery} {p q : Player} {i : Nat}

/-- Storing a stream that is in no set moves nothing else. -/
theorem Merging.setStream (h : Merging trace (insert i out) S ds p) (hi : i ∉ out) {s : Stream}
    (hsame : Same (trace.stream i) s) (hfin : Finished s (offsetsOf i ds)) :
    Merging trace out S ds (p.setStream i s) := by
  have hiS : i ∉ S := h.apart i (.inl rfl)
  have hset : ∀ j, (p.setStream i s).trace.stream j =
      if j = i then s else p.trace.stream j := by
    intro j
    simp [Player.setStream, Function.update_apply]
  have hne : ∀ j ∈ S, j ≠ i := by
    rintro j hj rfl
    exact hiS hj
  refine ⟨h.nstreams, ?_, fun j hj => ?_, fun j hj => h.apart j (.inr hj), fun j hj => ?_,
    fun j hj hjS hjo => ?_⟩
  · apply h.heap.congr
    intro a ha b hb
    simp only [streamCmp, hset, hne a ha, hne b hb, if_false]
  · rw [hset]
    split
    · rename_i hji
      rw [hji]
      exact hsame
    · exact h.same j hj
  · rw [hset, if_neg (hne j hj)]
    exact h.waiting j hj
  · rw [hset]
    split
    · rename_i hji
      rw [hji]
      exact hfin
    · rename_i hji
      exact h.finished j hj hjS (by simp [hji, hjo])

/-- Stepping a stream that is aside puts it in the heap or finishes it. -/
theorem stepStream_merging (h : Merging trace (insert i out) S ds p) (hi : i ∉ out)
    (hin : i < trace.nstreams)
    (hready : (p.trace.stream i).active = true → Ready (p.trace.stream i) (offsetsOf i ds))
    (hfin : (p.trace.stream i).active = false → Finished (p.trace.stream i) (offsetsOf i ds))
    (hstep : stepStream p i = .ok q ∨ stepStream p i = .done q) :
    (∃ S', Merging trace out S' ds q) ∧ SameClocks p q ∧
      ∀ j, j ≠ i → q.trace.stream j = p.trace.stream j := by
  rcases hstep with hok | hdone
  · obtain ⟨s, heap, hs, hheap, rfl⟩ := stepStream_ok hok
    have hiS : i ∉ S := h.apart i (.inl rfl)
    have hset : ∀ j, (p.setStream i s).trace.stream j =
        if j = i then s else p.trace.stream j := by
      intro j
      simp [Player.setStream, Function.update_apply]
    have hne : ∀ j ∈ S, j ≠ i := by
      rintro j hj rfl
      exact hiS hj
    obtain ⟨hwait, hsame⟩ :=
      streamStep_waiting (h.same i hin) (hready (streamStep_ok hs).1) hs
    -- The keys of the streams in the heap are the ones they were inserted with
    have hkeys : ∀ a ∈ S, ∀ b ∈ S,
        streamCmp (p.setStream i s).trace a b = streamCmp p.trace a b := by
      intro a ha b hb
      simp only [streamCmp, hset, hne a ha, hne b hb, if_false]
    obtain ⟨heap', hok', -, hheap'⟩ :=
      heapInsert_spec (h.heap.congr hkeys) hiS (streamCmp_totalPreorder _ _)
    rw [hheap] at hok'
    cases hok'
    refine ⟨⟨insert i S, h.nstreams, hheap', fun j hj => ?_, fun j hj => ?_, fun j hj => ?_,
      fun j hj hjS hjo => ?_⟩, ⟨rfl, rfl, rfl, rfl, rfl⟩, fun j hj => ?_⟩
    · simp only [hset]
      split
      · rename_i hji
        rw [hji]
        exact hsame
      · exact h.same j hj
    · rintro (rfl | hjS)
      · exact hi hj
      · exact h.apart j (.inr hj) hjS
    · simp only [hset]
      split
      · rename_i hji
        rw [hji]
        exact ⟨hin, hwait⟩
      · rename_i hji
        exact h.waiting j (by simpa [hji] using hj)
    · have hji : j ≠ i := fun hji => hjS (.inl hji)
      simp only [hset, if_neg hji]
      exact h.finished j hj (fun hj' => hjS (.inr hj')) (by simp [hji, hjo])
    · simp only [hset, if_neg hj]
  · obtain ⟨hact, rfl⟩ | ⟨s, hs, rfl⟩ := stepStream_done hdone
    · refine ⟨⟨S, ?_⟩, ⟨rfl, rfl, rfl, rfl, rfl⟩, fun _ _ => rfl⟩
      have hset : q.setStream i (q.trace.stream i) = q := by simp [Player.setStream]
      rw [← hset]
      exact h.setStream hi (h.same i hin) (hfin hact)
    · obtain ⟨hfin', hsame⟩ :=
        streamStep_finished (h.same i hin) (hready (streamStep_done hs).1) hs
      refine ⟨⟨S, h.setStream hi hsame hfin'⟩, ⟨rfl, rfl, rfl, rfl, rfl⟩, fun j hj => ?_⟩
      simp [Player.setStream, Function.update_of_ne hj]

/-- Taking the next stream delivers the event it had loaded. -/
theorem deliverNext_merging {d : Delivery} (h : Merging trace ∅ S ds p)
    (hstep : deliverNext p = .ok q) (hd : q.delivery? = some d) :
    d.stream < trace.nstreams ∧ d.oev = evAt (trace.stream d.stream).buf d.offset ∧
      d.ev.sclock = streamEvclock (trace.stream d.stream) d.oev ∧
      q.stream = some d.stream ∧
      Ready (q.trace.stream d.stream) (offsetsOf d.stream (ds ++ [d])) ∧
      Merging trace {d.stream} (S \ {d.stream}) (ds ++ [d]) q := by
  obtain ⟨i, heap, off, hpop, hcur, -, rfl⟩ := deliverNext_ok hstep
  simp only [Player.delivery?, Player.delivered, hcur, bind, Option.bind, pure,
    Option.some.injEq] at hd
  subst hd
  obtain ⟨-, hnone⟩ | ⟨i', heap', hpop', hiS, -, -, hheap⟩ :=
    heapPopMax_spec h.heap (streamCmp_totalPreorder p.trace S)
  · rw [hpop] at hnone
    simp at hnone
  rw [hpop] at hpop'
  cases hpop'
  obtain ⟨hin, hwait⟩ := h.waiting i hiS
  have hsame := h.same i hin
  obtain rfl : (p.trace.stream i).offset = off := by
    have := hwait.cur
    rw [hcur] at this
    exact (Option.some.inj this).symm
  refine ⟨hin, by rw [hsame.buf], ?_, rfl, ?_, h.nstreams, hheap, h.same, ?_, fun j hj => ?_,
    fun j hj hjS hjo => ?_⟩
  · have hoff : ∀ ev, streamEvclock (trace.stream i) ev = streamEvclock (p.trace.stream i) ev :=
      fun ev => by simp only [streamEvclock, hsame.clockOffset]
    rw [emuEv_sclock, hoff]
    exact hwait.clock
  · rw [offsetsOf_append_self rfl]
    exact hwait.ready
  · simp
  · rw [offsetsOf_append_of_ne (fun hji => hj.2 hji.symm)]
    exact h.waiting j hj.1
  · have hji : j ≠ i := fun hji => hjo hji
    rw [offsetsOf_append_of_ne (fun hij => hji hij.symm)]
    exact h.finished j hj (fun hj' => hjS ⟨hj', hji⟩) (by simp)

/-- When no stream is left, all of them were delivered whole. -/
theorem deliverNext_finished (h : Merging trace ∅ S ds p) (hstep : deliverNext p = .done q)
    (hin : i < trace.nstreams) : (trace.stream i).Events (offsetsOf i ds) := by
  obtain ⟨heap, hpop⟩ := deliverNext_done hstep
  obtain ⟨rfl, -⟩ | ⟨i', heap', hpop', -⟩ :=
    heapPopMax_spec h.heap (streamCmp_totalPreorder p.trace S)
  · have hevents := (h.finished i hin (by simp) (by simp)).events
    have hsame := h.same i hin
    unfold Stream.Events at hevents ⊢
    rwa [hsame.buf, hsame.size] at hevents
  · rw [hpop] at hpop'
    simp at hpop'

end Step

/-! ## player_init -/

/-- The loop of `player_init` puts every stream in the heap or finds it empty. -/
theorem loadStreams_merging {trace : Trace} {todo : List Nat} {S : Set Nat} {p q : Player}
    (hfresh : ∀ i, i < trace.nstreams → FreshStream (trace.stream i))
    (hnodup : todo.Nodup) (hin : ∀ i ∈ todo, i < trace.nstreams)
    (hsame : ∀ i ∈ todo, p.trace.stream i = trace.stream i)
    (hp : p.firstEvent = true ∧ p.unsorted = false ∧ p.stream = none)
    (h : Merging trace { i | i ∈ todo } S [] p) (hload : loadStreams p todo = .ok q) :
    (∃ S', Merging trace ∅ S' [] q) ∧ q.firstEvent = true ∧ q.unsorted = false ∧
      q.stream = none := by
  induction todo generalizing p S with
  | nil =>
      cases hload
      exact ⟨⟨S, by simpa using h⟩, hp⟩
  | cons i rest ih =>
      obtain ⟨hi, hrest⟩ := List.nodup_cons.mp hnodup
      have hfi := hfresh i (hin i (by simp))
      have hsi := hsame i (by simp)
      have hset : { j | j ∈ i :: rest } = insert i { j | j ∈ rest } := by
        ext j
        simp
      rw [hset] at h
      -- Both outcomes that are not errors go on with the rest of the list
      have hnext : ∀ p', stepStream p i = .ok p' ∨ stepStream p i = .done p' →
          loadStreams p' rest = .ok q →
          (∃ S', Merging trace ∅ S' [] q) ∧ q.firstEvent = true ∧ q.unsorted = false ∧
            q.stream = none := by
        intro p' hstep hload
        obtain ⟨⟨S', hm⟩, hclk, hframe⟩ := stepStream_merging h hi (hin i (by simp))
          (by rw [hsi]; exact hfi.ready) (by rw [hsi]; exact hfi.finished) hstep
        refine ih hrest (fun j hj => hin j (by simp [hj])) (fun j hj => ?_) ?_ hm hload
        · have hji : j ≠ i := fun hji => hi (hji ▸ hj)
          rw [hframe j hji, hsame j (by simp [hj])]
        · rw [hclk.firstEvent, hclk.unsorted, hclk.stream]
          exact hp
      simp only [loadStreams, hp.2.1, Bool.false_eq_true, if_false] at hload
      split at hload
      · exact hnext _ (.inl ‹_›) hload
      · exact hnext _ (.inr ‹_›) hload
      · cases hload

theorem playerInit_merging {trace : Trace} {p : Player}
    (hfresh : ∀ i, i < trace.nstreams → FreshStream (trace.stream i))
    (hinit : playerInit trace false = .ok p) :
    (∃ S, Merging trace ∅ S [] p) ∧ p.firstEvent = true ∧ p.unsorted = false ∧
      p.stream = none := by
  unfold playerInit at hinit
  simp only [bind, Except.bind, pure, Except.pure, throw, throwThe, MonadExceptOf.throw]
    at hinit
  split at hinit
  · cases hinit
  · rename_i q hq
    split at hinit
    · cases hinit
    · cases hinit
      refine loadStreams_merging hfresh List.nodup_range (fun i hi => List.mem_range.mp hi)
        (fun _ _ => rfl) ⟨rfl, rfl, rfl⟩ (S := ∅) ?_ hq
      refine ⟨rfl, heapInit_isHeap _ _ 0, fun i hi => (hfresh i hi).same, by simp, by simp,
        fun i hi _ hout => ?_⟩
      exact absurd (List.mem_range.mpr hi) hout

/-! ## Clocks -/

/-- The clocks of the player and of the events delivered so far. -/
structure Clocks (ds : List Delivery) (p : Player) : Prop where
  sorted : p.unsorted = false
  first : p.firstEvent = true ↔ ds = []
  bounds : ds ≠ [] → 0 ≤ p.firstclock ∧ p.firstclock ≤ p.lastclock
  head : ∀ d, ds.head? = some d → d.ev.sclock = p.firstclock
  last : ∀ d ∈ ds, d.ev.sclock ≤ p.lastclock
  nondecreasing : ds.Pairwise fun a b => a.ev.sclock ≤ b.ev.sclock
  delta : ∀ d ∈ ds, d.ev.dclock = d.ev.sclock - p.firstclock

theorem Clocks.of_same {ds : List Delivery} {p q : Player} (h : Clocks ds p)
    (hs : SameClocks p q) : Clocks ds q where
  sorted := by rw [hs.unsorted]; exact h.sorted
  first := by rw [hs.firstEvent]; exact h.first
  bounds := by rw [hs.firstclock, hs.lastclock]; exact h.bounds
  head := by rw [hs.firstclock]; exact h.head
  last := by rw [hs.lastclock]; exact h.last
  nondecreasing := h.nondecreasing
  delta := by rw [hs.firstclock]; exact h.delta

theorem deliverNext_clocks {trace : Trace} {S : Set Nat} {ds : List Delivery} {p q : Player}
    {d : Delivery} (hm : Merging trace ∅ S ds p) (h : Clocks ds p)
    (hstep : deliverNext p = .ok q) (hd : q.delivery? = some d) : Clocks (ds ++ [d]) q := by
  obtain ⟨i, heap, off, hpop, hcur, hle, rfl⟩ := deliverNext_ok hstep
  obtain ⟨-, hnone⟩ | ⟨i', heap', hpop', hiS, -⟩ :=
    heapPopMax_spec hm.heap (streamCmp_totalPreorder p.trace S)
  · rw [hpop] at hnone
    simp at hnone
  rw [hpop] at hpop'
  cases hpop'
  have hsame := hm.same i (hm.waiting i hiS).1
  have hlo := hsame.clockLo
  have hhi := hsame.clockHi
  simp only [Player.delivery?, Player.delivered, hcur, bind, Option.bind, pure,
    Option.some.injEq] at hd
  have hsc : d.ev.sclock = (p.trace.stream i).lastclock := by rw [← hd, emuEv_sclock]
  unfold Player.delivered
  by_cases hds : ds = []
  · have hfirst := h.first.2 hds
    have hdc : d.ev.dclock = 0 := by
      rw [← hd, emuEv_dclock, if_pos hfirst, Int.sub_self]
      exact toInt64_of_range (by omega) (by omega)
    subst hds
    constructor
    · exact h.sorted
    · simp
    · intro _
      simp only [hfirst, if_true]
      omega
    · simp only [List.nil_append, List.head?_cons, Option.some.injEq, forall_eq', hfirst,
        if_true, hsc]
    · simp [hsc]
    · simp
    · simp [hfirst, hsc, hdc]
  · have hfirst : p.firstEvent = false := by
      rw [← Bool.not_eq_true, h.first]
      exact hds
    have hstart := h.bounds hds
    have hlast := hle h.sorted hfirst
    have hdc : d.ev.dclock = d.ev.sclock - p.firstclock := by
      rw [hsc, ← hd, emuEv_dclock, hfirst]
      exact toInt64_of_range (by simp only [Bool.false_eq_true, if_false]; omega)
        (by simp only [Bool.false_eq_true, if_false]; omega)
    simp only [hfirst, Bool.false_eq_true, if_false]
    constructor
    · exact h.sorted
    · simp
    · intro _
      simp only
      omega
    · intro a ha
      obtain ⟨b, rest, rfl⟩ := List.exists_cons_of_ne_nil hds
      exact h.head a (by simpa using ha)
    · intro a ha
      rcases List.mem_append.mp ha with ha | ha
      · exact (h.last a ha).trans hlast
      · rw [List.mem_singleton.mp ha, hsc]
    · rw [List.pairwise_append]
      refine ⟨h.nondecreasing, List.pairwise_singleton .., fun a ha b hb => ?_⟩
      rw [List.mem_singleton.mp hb, hsc]
      exact (h.last a ha).trans hlast
    · intro a ha
      rcases List.mem_append.mp ha with ha | ha
      · exact h.delta a ha
      · rw [List.mem_singleton.mp ha]
        exact hdc

/-- The recorder accepts every sequence of nondecreasing times. -/
theorem prvAdvance_all (times : List Int) (prv : Prv) (hle : ∀ t ∈ times, prv.time ≤ t)
    (hsorted : times.Pairwise (· ≤ ·)) : ∃ prv', times.foldlM prvAdvance prv = .ok prv' := by
  induction times generalizing prv with
  | nil => exact ⟨prv, rfl⟩
  | cons t rest ih =>
      obtain ⟨hfirst, hrest⟩ := List.pairwise_cons.mp hsorted
      have hstep : prvAdvance prv t = .ok ⟨t⟩ := by
        have := hle t (by simp)
        unfold prvAdvance
        rw [if_neg (by omega)]
      obtain ⟨prv', hprv'⟩ := ih ⟨t⟩ hfirst hrest
      exact ⟨prv', by rw [List.foldlM_cons, hstep]; exact hprv'⟩

/-! ## Runs -/

/-- The invariant of the states between two steps: only the stream of the last
delivery is aside, ready for its next step. -/
structure Between (trace : Trace) (ds : List Delivery) (p : Player) : Prop where
  merging : ∃ out S, Merging trace out S ds p ∧ ∀ i, i ∈ out ↔ p.stream = some i
  ready : ∀ i, p.stream = some i → i < trace.nstreams ∧
    Ready (p.trace.stream i) (offsetsOf i ds)
  clocks : Clocks ds p
  faithful : ∀ d ∈ ds, d.stream < trace.nstreams ∧
    d.oev = evAt (trace.stream d.stream).buf d.offset ∧
    d.ev.sclock = streamEvclock (trace.stream d.stream) d.oev

theorem playerInit_between {trace : Trace} {p : Player}
    (hfresh : ∀ i, i < trace.nstreams → FreshStream (trace.stream i))
    (hinit : playerInit trace false = .ok p) : Between trace [] p := by
  obtain ⟨⟨S, hm⟩, hfirst, hsorted, hstream⟩ := playerInit_merging hfresh hinit
  refine ⟨⟨∅, S, hm, by simp [hstream]⟩, by simp [hstream], ?_, by simp⟩
  exact ⟨hsorted, by simp [hfirst], by simp, by simp, by simp, by simp, by simp⟩

/-- The first half of a step: the stream of the last delivery moves on, and no
stream is aside. -/
theorem playerStep_back {trace : Trace} {ds : List Delivery} {p : Player} {r : Ret Player}
    (h : Between trace ds p) (hstep : playerStep p = r) (hr : ∀ msg, r ≠ .err msg) :
    ∃ q S, Merging trace ∅ S ds q ∧ Clocks ds q ∧ deliverNext q = r := by
  obtain ⟨⟨out, S, hm, hout⟩, hready, hclk, -⟩ := h
  unfold playerStep at hstep
  obtain hp | ⟨i, hp⟩ := Option.eq_none_or_eq_some p.stream
  · have hempty : out = ∅ := by
      ext i
      simp [hout, hp]
    rw [hempty] at hm
    exact ⟨p, S, hm, hclk, by simpa [hp] using hstep⟩
  · have hone : out = insert i ∅ := by
      ext j
      simp [hout, hp, eq_comm]
    rw [hone] at hm
    obtain ⟨hin, hri⟩ := hready i hp
    have hnext : ∀ q, stepStream p i = .ok q ∨ stepStream p i = .done q →
        deliverNext q = r → ∃ q S, Merging trace ∅ S ds q ∧ Clocks ds q ∧
          deliverNext q = r := by
      intro q hq hdel
      obtain ⟨⟨S', hm'⟩, hsame, -⟩ := stepStream_merging hm (by simp) hin (fun _ => hri)
        (fun hact => by simp [hri.active] at hact) hq
      exact ⟨q, S', hm', hclk.of_same hsame, hdel⟩
    simp only [hp] at hstep
    split at hstep
    · exact absurd hstep.symm (hr _)
    · exact hnext _ (.inl ‹_›) hstep
    · exact hnext _ (.inr ‹_›) hstep

theorem playerStep_between {trace : Trace} {ds : List Delivery} {p q : Player} {d : Delivery}
    (h : Between trace ds p) (hstep : playerStep p = .ok q) (hd : q.delivery? = some d) :
    Between trace (ds ++ [d]) q := by
  obtain ⟨p', S, hm, hclk, hdel⟩ := playerStep_back h hstep (by simp)
  obtain ⟨hin, hoev, hsc, hstream, hready, hm'⟩ := deliverNext_merging hm hdel hd
  refine ⟨⟨_, _, hm', ?_⟩, ?_, deliverNext_clocks hm hclk hdel hd, ?_⟩
  · simp [hstream, eq_comm]
  · intro i hi
    rw [hstream] at hi
    cases hi
    exact ⟨hin, hready⟩
  · intro a ha
    rcases List.mem_append.mp ha with ha | ha
    · exact h.faithful a ha
    · rw [List.mem_singleton.mp ha]
      exact ⟨hin, hoev, hsc⟩

theorem PlayerRun.between {trace : Trace} {p₀ p : Player} {ds : List Delivery}
    (hfresh : ∀ i, i < trace.nstreams → FreshStream (trace.stream i))
    (hinit : playerInit trace false = .ok p₀) (hrun : PlayerRun p₀ ds p) :
    Between trace ds p := by
  induction hrun with
  | start => exact playerInit_between hfresh hinit
  | step before run out ih => exact playerStep_between ih run out

/-- The clock of an event corrected with the offset of its stream. -/
def correctedClock (s : Stream) (ev : OvniEv) : Int :=
  toInt64 ev.clock.toNat + s.clockOffset

/-- A run of the player that ends has delivered every event of every stream
once and in its order, by nondecreasing corrected clocks, and with times from
zero on that the recorder accepts. -/
theorem player_merges (trace : Trace) (p₀ p pend : Player) (ds : List Delivery)
    (hfresh : ∀ i, i < trace.nstreams → FreshStream (trace.stream i))
    (hclock : ∀ i offs off, i < trace.nstreams → (trace.stream i).Events offs → off ∈ offs →
      -2 ^ 63 ≤ correctedClock (trace.stream i) (evAt (trace.stream i).buf off) ∧
        correctedClock (trace.stream i) (evAt (trace.stream i).buf off) < 2 ^ 63)
    (hinit : playerInit trace false = .ok p₀) (hrun : PlayerRun p₀ ds p)
    (hend : playerStep p = .done pend) :
    (∀ i, i < trace.nstreams → (trace.stream i).Events (offsetsOf i ds)) ∧
    (∀ d ∈ ds, d.stream < trace.nstreams ∧ (trace.stream d.stream).active = true ∧
      d.oev = evAt (trace.stream d.stream).buf d.offset ∧
      d.ev.sclock = correctedClock (trace.stream d.stream) d.oev) ∧
    ds.Pairwise (fun a b => a.ev.sclock ≤ b.ev.sclock) ∧
    (∀ d, ds.head? = some d → d.ev.dclock = 0) ∧
    ds.Pairwise (fun a b => a.ev.dclock ≤ b.ev.dclock) ∧
    ∃ prv, (ds.map (·.ev.dclock)).foldlM prvAdvance ⟨0⟩ = .ok prv := by
  have hb := hrun.between hfresh hinit
  obtain ⟨q, S, hm, -, hdel⟩ := playerStep_back hb hend (by simp)
  have hevents : ∀ i, i < trace.nstreams → (trace.stream i).Events (offsetsOf i ds) :=
    fun i hi => deliverNext_finished hm hdel hi
  have hdelta : ds.Pairwise fun a b => a.ev.dclock ≤ b.ev.dclock := by
    refine hb.clocks.nondecreasing.imp_of_mem fun ha hb' hle => ?_
    rw [hb.clocks.delta _ ha, hb.clocks.delta _ hb']
    omega
  have hzero : ∀ d, ds.head? = some d → d.ev.dclock = 0 := by
    intro d hd
    rw [hb.clocks.delta d (List.mem_of_mem_head? hd), hb.clocks.head d hd, Int.sub_self]
  refine ⟨hevents, fun d hd => ?_, hb.clocks.nondecreasing, hzero, hdelta, ?_⟩
  · obtain ⟨hin, hoev, hsc⟩ := hb.faithful d hd
    have hmem : d.offset ∈ offsetsOf d.stream ds :=
      List.mem_map.mpr ⟨d, List.mem_filter.mpr ⟨hd, by simp⟩, rfl⟩
    refine ⟨hin, ?_, hoev, ?_⟩
    · by_contra hact
      have hsize := (hfresh _ hin).size_of_inactive (by simpa using hact)
      have hwhole := hevents _ hin
      unfold Stream.Events at hwhole
      rw [hsize] at hwhole
      -- An event would have to start before the end of the header
      generalize offsetsOf d.stream ds = offs at hwhole hmem
      cases hwhole with
      | done => simp at hmem
      | event inside => omega
    · obtain ⟨hlo, hhi⟩ := hclock d.stream _ d.offset hin (hevents _ hin) hmem
      rw [hsc, hoev]
      exact toInt64_of_range hlo hhi
  · refine prvAdvance_all _ _ ?_ (List.pairwise_map.mpr hdelta)
    cases ds with
    | nil => simp
    | cons a rest =>
        have ha := hzero a rfl
        have hle := (List.pairwise_cons.mp hdelta).1
        rw [ha] at hle
        simpa [ha] using hle

/-- Two streams of one event each, the first one ten nanoseconds late. -/
def twoStreams : Trace where
  nstreams := 2
  stream := fun i => singleEventStream.configured (if i = 0 then 10 else 0) false

theorem singleEvent_offsets {clkoff : Int} {offs : List Int}
    (h : (singleEventStream.configured clkoff false).Events offs) : offs = [8] := by
  have hnext : streamHeaderSize + ovniEvSize (evAt singleEventStream.buf streamHeaderSize) =
      20 := by decide +kernel
  have hfrom : EventsFrom singleEventStream.buf 20 streamHeaderSize offs := h
  cases hfrom with
  | event inside fits rest =>
      rw [hnext] at rest
      cases rest with
      | done => rfl
      | event inside => omega

theorem player_merges_two :
    ∃ p₀ p pend ds, playerInit twoStreams false = .ok p₀ ∧ PlayerRun p₀ ds p ∧
      playerStep p = .done pend ∧ ds.map (·.stream) = [1, 0] ∧
      ds.Pairwise (fun a b => a.ev.sclock ≤ b.ev.sclock) := by
  have heval : ((playTrace 3 twoStreams false).any fun r =>
      r.2.1.map (·.stream) == [1, 0]) = true := by decide +kernel
  obtain ⟨⟨p₀, ds, p, pend⟩, hplay, hstreams⟩ := (Option.any_eq_true _ _).mp heval
  obtain ⟨hinit, hrun, hend⟩ := playTrace_run hplay
  refine ⟨p₀, p, pend, ds, hinit, hrun, hend, by simpa using hstreams, ?_⟩
  refine (player_merges twoStreams p₀ p pend ds (fun i _ => ?_) ?_ hinit hrun hend).2.2.1
  · exact ⟨singleEventFile, fun _ => 0, singleEventStream, _, rfl, rfl⟩
  · intro i offs off hi hoffs hoff
    rw [singleEvent_offsets hoffs, List.mem_singleton] at hoff
    subst hoff
    obtain rfl | rfl : i = 0 ∨ i = 1 := by
      have : i < 2 := hi
      omega
    · decide +kernel
    · decide +kernel

end Ovni
