import Ovni.Stream.Layout

/-!
# Sorting the marked regions of a stream

`emu/ovnisort.c` walks over a stream with a ring of pointers to the last events.
At the end of a region between `OU[` and `OU]` it looks back in the ring for an
event that is earlier than all the region, sorts the bytes from there on and
writes them over the stream.

Pointers are offsets in the stream, and the write to the file is the same as the
write to the mapped stream.  `qsort` is a parameter, as is what `malloc` leaves
in a new buffer.
-/

namespace Ovni

open Ovni.Lib

/-- How a sort ends early: with `-1`, with `die`, or in a loop that does not end. -/
inductive SortFault where
  | fail (msg : String)
  | die (msg : String)
  | rounds

/-- `qsort` on an array of pointers, with a comparison of pointers. -/
abbrev Qsort := (Int → Int → Int) → List Int → List Int

/-! ## The ring -/

/-- `struct ring`. -/
structure Ring where
  head : Nat
  tail : Nat
  size : Nat
  ev : Nat → Int

/-- `ring_reset`. -/
def ringReset (r : Ring) : Ring := { r with head := 0, tail := 0 }

/-- The index after `i`. -/
def Ring.next (r : Ring) (i : Nat) : Nat := if r.size ≤ i + 1 then 0 else i + 1

/-- The index before `i`. -/
def Ring.prev (r : Ring) (i : Nat) : Nat := if i = 0 then r.size - 1 else i - 1

/-- `ring_add`. -/
def ringAdd (r : Ring) (ev : Int) : Ring :=
  let tail := if r.size ≤ r.tail + 1 then 0 else r.tail + 1
  let head := if r.head = tail then tail + 1 else r.head
  let head := if r.size ≤ head then 0 else head
  { r with ev := Function.update r.ev r.tail ev, tail, head }

/-- The loop of `ring_check`. -/
def ringCheckLoop (buf : Mem) (r : Ring) : Nat → Nat → Nat → Except SortFault Unit
  | 0, _, _ => .error .rounds
  | fuel + 1, i, lastClock =>
      if i = r.tail then .ok ()
      else
        let clock := (evAt buf (r.ev i)).clock.toNat
        if clock < lastClock then .error (.die "ring not sorted")
        else ringCheckLoop buf r fuel ((i + 1) % r.size) clock

/-- `ring_check`. -/
def ringCheck (buf : Mem) (r : Ring) (start : Nat) : Except SortFault Unit :=
  ringCheckLoop buf r r.size start 0

/-- The loop of `find_destination`: the index found, or how many events were
looked at. -/
def findLoop (buf : Mem) (r : Ring) (clock stop : Nat) :
    Nat → Nat → Nat → Except SortFault (Nat ⊕ Nat)
  | 0, _, _ => .error .rounds
  | fuel + 1, i, nback =>
      if i = stop then .ok (.inr nback)
      else if (evAt buf (r.ev i)).clock.toNat < clock then .ok (.inl i)
      else findLoop buf r clock stop fuel (r.prev i) (nback + 1)

/-- `find_destination`. -/
def findDestination (buf : Mem) (r : Ring) (clock : Nat) : Except SortFault Nat := do
  match ← findLoop buf r clock (r.prev r.head) r.size (r.prev r.tail) 0 with
  | .inl i => return i
  | .inr nback =>
      -- The ring is not full yet, so it starts at the first event
      if nback + 1 < r.size then
        if r.head ≠ 0 then throw (.die "ring head expected to be 0")
        if r.size ≤ r.tail + 1 then throw (.die "ring tail expected to be less")
        return r.head
      throw (.fail "cannot find a event previous to clock")

/-! ## Regions -/

/-- `starts_unsorted_region`. -/
def startsUnsortedRegion (ev : OvniEv) : Bool :=
  ev.model == 0x4f && ev.category == 0x55 && ev.value == 0x5b

/-- `ends_unsorted_region`. -/
def endsUnsortedRegion (ev : OvniEv) : Bool :=
  ev.model == 0x4f && ev.category == 0x55 && ev.value == 0x5d

/-- The loop of `find_min_clock`. -/
def minClockLoop (buf : Mem) (stop : Int) : Nat → Int → Nat → Except SortFault Nat
  | 0, _, _ => .error .rounds
  | fuel + 1, p, minClock =>
      if stop ≤ p then .ok minClock
      else
        let ev := evAt buf p
        let minClock := if ev.clock.toNat < minClock then ev.clock.toNat else minClock
        minClockLoop buf stop fuel (p + ovniEvSize ev) minClock

/-- `find_min_clock`. -/
def findMinClock (buf : Mem) (src stop : Int) : Except SortFault Nat :=
  minClockLoop buf stop ((stop - src).toNat + 1) src (evAt buf src).clock.toNat

/-! ## sort_buf -/

/-- The loop of `count_events`. -/
def countLoop (buf : Mem) (stop : Int) : Nat → Int → Nat → Except SortFault Nat
  | 0, _, _ => .error .rounds
  | fuel + 1, p, n =>
      if stop ≤ p then .ok n
      else countLoop buf stop fuel (p + ovniEvSize (evAt buf p)) (n + 1)

/-- `count_events`. -/
def countEvents (buf : Mem) (src stop : Int) : Except SortFault Nat :=
  countLoop buf stop ((stop - src).toNat + 1) src 0

/-- `index_events`. -/
def indexEvents (buf : Mem) : Nat → Int → List Int
  | 0, _ => []
  | n + 1, p => p :: indexEvents buf n (p + ovniEvSize (evAt buf p))

/-- `cmp_ev`. -/
def cmpEv (buf : Mem) (a b : Int) : Int :=
  let clock1 := toInt64 (evAt buf a).clock.toNat
  let clock2 := toInt64 (evAt buf b).clock.toNat
  if clock1 < clock2 then -1 else if clock2 < clock1 then 1 else 0

/-- `write_events`: the bytes written one event after the other. -/
def writeEvents (buf : Mem) (table : List Int) : List UInt8 :=
  (table.map fun p => buf.slice p (toSize (ovniEvSize (evAt buf p)))).flatten

/-- `sort_buf`: the contents of the working buffer. -/
def sortBuf (qsort : Qsort) (junk : Mem) (src : List UInt8) : Except SortFault (List UInt8) := do
  let buf2 := junk.patch 0 src
  let n ← countEvents buf2 0 src.length
  let table := qsort (cmpEv buf2) (indexEvents buf2 n 0)
  return (junk.patch 0 (writeEvents buf2 table)).slice 0 src.length

/-! ## The sort plan -/

/-- The loop of `rebuild_ring`, which ends with the next event pointer. -/
def rebuildLoop (buf : Mem) (last : Int) : Nat → Ring → Nat → Int → Except SortFault Ring
  | 0, _, _, _ => .error .rounds
  | fuel + 1, r, i, ev =>
      if i = r.tail then
        if ev ≠ last then .error (.die "inconsistency: ev != last") else .ok r
      else if last ≤ ev then .error (.die "exceeding last pointer")
      else
        let size := toSize (ovniEvSize (evAt buf ev))
        rebuildLoop buf last fuel { r with ev := Function.update r.ev i ev } (r.next i)
          (ev + size)

/-- `rebuild_ring`. -/
def rebuildRing (buf : Mem) (r : Ring) (start : Nat) (first last : Int) :
    Except SortFault Ring :=
  rebuildLoop buf last r.size r start first

/-- `execute_sort_plan` with the stream in `buf`: the stream and the ring after
it. -/
def executeSortPlan (qsort : Qsort) (junk buf : Mem) (r : Ring) (bad0 next : Int) :
    Except SortFault (Mem × Ring) := do
  let clock := (evAt buf bad0).clock.toNat
  let minClock ← findMinClock buf bad0 next
  let clock0 := if minClock < clock then minClock else clock
  -- Cannot sort in one pass; just fail for now
  let i0 ← findDestination buf r clock0
  let first := r.ev i0
  let bufsize := next - first
  if bufsize = 0 then throw (.die "bufsize is non-positive")
  -- The size is unsigned, so a negative one asks for too much memory
  if bufsize < 0 then throw (.die "malloc failed:")
  let sorted ← sortBuf qsort junk (buf.slice first bufsize.toNat)
  let buf := buf.patch first sorted
  let r ← rebuildRing buf r i0 first next
  ringCheck buf r i0
  return (buf, r)

/-! ## stream_winsort -/

/-- The states of `stream_winsort`: sorted, in an empty region, and in a region
with events. -/
inductive SortState where
  | sorted
  | unsorted
  | events
  deriving DecidableEq

/-- The variables of the loop of `stream_winsort`. -/
structure Winsort where
  stream : Stream
  ring : Ring
  st : SortState
  bad0 : Int
  emptyRegions : Nat
  updated : Bool

/-- What the loop does with the event it has just loaded, before adding it to
the ring. -/
def winsortEvent (qsort : Qsort) (junk : Mem) (w : Winsort) (p : Int) :
    Except SortFault Winsort :=
  let ev := evAt w.stream.buf p
  match w.st with
  | .sorted =>
      if startsUnsortedRegion ev then .ok { w with st := .unsorted } else .ok w
  | .unsorted =>
      if endsUnsortedRegion ev then
        .ok { w with st := .sorted, emptyRegions := w.emptyRegions + 1 }
      else .ok { w with st := .events, bad0 := p }
  | .events =>
      if endsUnsortedRegion ev then do
        let (buf, ring) ← executeSortPlan qsort junk w.stream.buf w.ring w.bad0 p
        return { w with stream := { w.stream with buf }, ring, updated := true, st := .sorted }
      else .ok w

/-- The loop of `stream_winsort`. -/
def winsortLoop (qsort : Qsort) (junk : Mem) : Nat → Winsort → Except SortFault Winsort
  | 0, _ => .error .rounds
  | fuel + 1, w =>
      match streamStep w.stream with
      | .err _ => .error (.fail "stream_step failed")
      | .done stream => .ok { w with stream }
      | .ok stream =>
          match stream.curEv with
          | none => .error (.die "NULL dereference in stream_winsort")
          | some p => do
              let w ← winsortEvent qsort junk { w with stream } p
              winsortLoop qsort junk fuel { w with ring := ringAdd w.ring p }

/-- `stream_winsort` on a stream that allows unsorted events. -/
def streamWinsort (qsort : Qsort) (junk : Mem) (stream : Stream) (r : Ring) :
    Except SortFault Winsort :=
  winsortLoop qsort junk (stream.size.toNat + 1)
    { stream, ring := ringReset r, st := .sorted, bad0 := 0, emptyRegions := 0,
      updated := false }

end Ovni
