import Mathlib.Data.List.Sort
import Ovni.Sort.Plan
import Ovni.Stream.Progress

/-!
# The window sort of a stream

The loop of `stream_winsort` reads events while it rewrites the ones behind it.
A rewrite never reaches the event that was just loaded, so the walk goes on over
the events of the original file while those behind it are the same events in
another order.
-/

namespace Ovni

open Ovni.Lib

/-! ## Streams with regions -/

/-- Every region is closed, and each event outside the regions, markers included,
is not earlier than any event before it. -/
def RegionsOk : Bool → List (List UInt8) → List (List UInt8) → Prop
  | inside, _, [] => inside = false
  | false, seen, c :: cs =>
      (∀ a ∈ seen, clockOf a ≤ clockOf c) ∧
        RegionsOk (startsUnsortedRegion (headEv c)) (seen ++ [c]) cs
  | true, seen, c :: cs =>
      if endsUnsortedRegion (headEv c) then
        (∀ a ∈ seen, clockOf a ≤ clockOf c) ∧ RegionsOk false (seen ++ [c]) cs
      else RegionsOk true (seen ++ [c]) cs

/-- Whether the loop is inside a region. -/
def SortState.inside : SortState → Bool
  | .sorted => false
  | .unsorted => true
  | .events => true

/-! ## The walk -/

/-- The stream maps a file with these events. -/
structure Stream.Holds (s : Stream) (chunks : List (List UInt8)) : Prop where
  size : s.size = streamHeaderSize + chunks.flatten.length
  header : s.buf.slice 0 8 = headerOfStream
  laid : Laid s.buf streamHeaderSize chunks

/-- The stream has loaded `c`, after `done` and before `todo`. -/
structure Walked (s : Stream) (done : List (List UInt8)) (c : List UInt8)
    (todo : List (List UInt8)) : Prop where
  holds : s.Holds (done ++ c :: todo)
  event : IsEvent c
  active : s.active = true
  unsorted : s.unsorted = true
  cur : s.curEv = some (streamHeaderSize + done.flatten.length)
  offset : s.offset = streamHeaderSize + done.flatten.length

/-- What the next step of a stream does, with `done` behind it and `todo` ahead. -/
def Pending (s : Stream) (done : List (List UInt8)) : List (List UInt8) → Prop
  | [] => ∃ s', streamStep s = .done s' ∧ s'.buf = s.buf ∧ s'.size = s.size
  | c :: cs => ∃ s', streamStep s = .ok s' ∧ Walked s' done c cs

section Walk

variable {s : Stream} {done todo : List (List UInt8)} {c : List UInt8}

/-- A stream loads the first event ahead of it. -/
theorem loadEvent_walked (h : s.Holds (done ++ c :: todo)) (hc : IsEvent c)
    (hactive : s.active = true) (hunsorted : s.unsorted = true)
    (hoff : s.offset = streamHeaderSize + done.flatten.length) :
    ∃ s', loadEvent s = .ok s' ∧ Walked s' done c todo := by
  have hslice := (laid_cons.mp (laid_append.mp h.laid).2).1
  have hfit : s.offset + ovniEvSize (evAt s.buf s.offset) ≤ s.size := by
    rw [hoff, hc.size_at hslice, h.size]
    simp only [List.flatten_append, List.flatten_cons, List.length_append]
    omega
  exact ⟨s.loaded, loadEvent_eq_ok hfit (Or.inl hunsorted),
    ⟨h.size, h.header, h.laid⟩, hc, hactive, hunsorted, by simp only [Stream.loaded, hoff], hoff⟩

theorem Walked.nextOffset (h : Walked s done c todo) :
    s.nextOffset = streamHeaderSize + ((done ++ [c]).flatten.length : Nat) := by
  have hslice := (laid_cons.mp (laid_append.mp h.holds.laid).2).1
  unfold Stream.nextOffset
  simp only [h.cur, h.offset, h.event.size_at hslice, List.flatten_append, List.flatten_cons,
    List.flatten_nil, List.append_nil, List.length_append]
  omega

theorem Walked.pending (h : Walked s done c todo) (hev : ∀ c' ∈ todo, IsEvent c') :
    Pending s (done ++ [c]) todo := by
  have hnext := h.nextOffset
  have hsize := h.holds.size
  have hcur : s.curEv.isSome := by simp [h.cur]
  cases todo with
  | nil =>
      refine ⟨_, streamStep_eq_done h.active hcur ?_, rfl, rfl⟩
      rw [hnext, hsize]
  | cons c' cs =>
      have hsplit : done ++ c :: c' :: cs = (done ++ [c]) ++ c' :: cs := by simp
      rw [hsplit] at hsize
      have hpos := (hev c' (by simp)).length_ge
      have hlen : ((done ++ [c]) ++ c' :: cs).flatten.length =
          (done ++ [c]).flatten.length + (c'.length + cs.flatten.length) := by
        rw [List.flatten_append, List.length_append, List.flatten_cons, List.length_append]
      have hlt : s.nextOffset < s.size := by
        rw [hnext, hsize, hlen]
        omega
      unfold Pending
      rw [streamStep_eq_load h.active fun _ => hlt]
      have hholds := h.holds
      rw [hsplit] at hholds
      exact loadEvent_walked ⟨hholds.size, hholds.header, hholds.laid⟩ (hev c' (by simp))
        h.active h.unsorted hnext

/-- A file of events, loaded to be sorted. -/
theorem Stream.Holds.load {chunks : List (List UInt8)} {beyond : Mem}
    (hload : loadObs (headerOfStream ++ chunks.flatten) beyond = .ok s) :
    (streamAllowUnsorted s).Holds chunks := by
  have hheader : headerOfStream.length = 8 := rfl
  have hlen : (headerOfStream ++ chunks.flatten).length = 8 + chunks.flatten.length := by
    rw [List.length_append, hheader]
  rw [loadObs_header] at hload
  obtain rfl := Except.ok.inj hload
  refine ⟨?_, ?_, ?_⟩
  · show ((headerOfStream ++ chunks.flatten).length : Int) = _
    rw [hlen]
    push_cast
    rfl
  · have := Mem.slice_patch_within beyond 0 (headerOfStream ++ chunks.flatten) 0 8 (by omega)
    show (beyond.patch 0 (headerOfStream ++ chunks.flatten)).slice 0 8 = headerOfStream
    simpa [List.take_append_of_le_length, hheader] using this
  · have := Mem.slice_patch_within beyond 0 (headerOfStream ++ chunks.flatten) 8
      chunks.flatten.length (by omega)
    rw [List.drop_left' hheader, List.take_length] at this
    exact this

/-- Its first step, when it has an event. -/
theorem pending_load {chunks : List (List UInt8)} {beyond : Mem} (hne : chunks ≠ [])
    (hev : ∀ c ∈ chunks, IsEvent c)
    (hload : loadObs (headerOfStream ++ chunks.flatten) beyond = .ok s) :
    Pending (streamAllowUnsorted s) [] chunks := by
  have hholds := Stream.Holds.load hload
  obtain ⟨c, cs, rfl⟩ := List.exists_cons_of_ne_nil hne
  obtain ⟨hcur, -, -, -, hoff, -, hact, -, -⟩ := loadObs_ok hload
  have hge := (hev c (by simp)).length_ge
  have hactive : (streamAllowUnsorted s).active = true := by
    have hsize : s.size = streamHeaderSize + (c :: cs).flatten.length := hholds.size
    show s.active = true
    rw [hact, decide_eq_true_iff, hsize, List.flatten_cons, List.length_append]
    unfold streamHeaderSize
    omega
  have hnext : (streamAllowUnsorted s).nextOffset = 8 := by
    simp [Stream.nextOffset, streamAllowUnsorted, hcur, hoff]
  unfold Pending
  rw [streamStep_eq_load hactive fun h => by simp [streamAllowUnsorted, hcur] at h]
  exact loadEvent_walked ⟨hholds.size, hholds.header, hholds.laid⟩ (hev c (by simp)) hactive rfl
    hnext

/-- Rewriting the events behind the loaded one in another order. -/
theorem Walked.rewrite (h : Walked s done c todo) {done' : List (List UInt8)} {buf' : Mem}
    (hperm : done'.Perm done) (hlaid : Laid buf' streamHeaderSize done')
    (hsame : ∀ i, i < streamHeaderSize ∨ streamHeaderSize + done.flatten.length ≤ i →
      buf' i = s.buf i) :
    Walked { s with buf := buf' } done' c todo := by
  have hlen : done'.flatten.length = done.flatten.length := hperm.flatten.length_eq
  have hahead := (laid_append.mp h.holds.laid).2
  have hsize : (done' ++ c :: todo).flatten.length = (done ++ c :: todo).flatten.length := by
    rw [List.flatten_append, List.length_append, List.flatten_append, List.length_append, hlen]
  refine ⟨⟨?_, ?_, laid_append.mpr ⟨hlaid, ?_⟩⟩, h.event, h.active, h.unsorted, ?_, ?_⟩
  · rw [hsize]
    exact h.holds.size
  · rw [← h.holds.header]
    apply Mem.slice_congr
    intro i hi
    exact hsame _ (Or.inl (by unfold streamHeaderSize; omega))
  · rw [hlen]
    unfold Laid at hahead ⊢
    rw [← hahead]
    simp only [Mem.length_slice]
    apply Mem.slice_congr
    intro i hi
    exact hsame _ (Or.inr (by omega))
  · rw [hlen]
    exact h.cur
  · rw [hlen]
    exact h.offset

end Walk

/-! ## One event -/

/-- The events behind the loop in each of its states. -/
def SortState.Behind (st : SortState) (bad0 : Int) (done : List (List UInt8)) : Prop :=
  match st with
  | .sorted => ClockSorted done
  | .unsorted => ClockSorted done
  | .events => ∃ pre region, done = pre ++ region ∧ region ≠ [] ∧ ClockSorted pre ∧
      bad0 = streamHeaderSize + pre.flatten.length

theorem clockSorted_concat {done : List (List UInt8)} {c : List UInt8} (h : ClockSorted done)
    (hc : ∀ a ∈ done, clockOf a ≤ clockOf c) : ClockSorted (done ++ [c]) := by
  unfold ClockSorted
  rw [List.pairwise_append]
  exact ⟨h, by simp, fun a ha b hb => by rw [List.mem_singleton.mp hb]; exact hc a ha⟩

/-- The ring points to the last events read. -/
def Winsort.RingOver (w : Winsort) (done : List (List UInt8)) : Prop :=
  RingHolds w.ring (window w.ring.size (offsetsFrom streamHeaderSize done))

section Event

variable {qsort : Qsort} (hqs : qsort.Sorts) (junk : Mem) {w : Winsort}
  {seen done todo : List (List UInt8)} {c : List UInt8}

theorem headEv_markers (h : Walked w.stream done c todo) :
    startsUnsortedRegion (evAt w.stream.buf (streamHeaderSize + done.flatten.length)) =
        startsUnsortedRegion (headEv c) ∧
      endsUnsortedRegion (evAt w.stream.buf (streamHeaderSize + done.flatten.length)) =
        endsUnsortedRegion (headEv c) := by
  have hslice := (laid_cons.mp (laid_append.mp h.holds.laid).2).1
  obtain ⟨hm, hcat, hval, -⟩ := h.event.evAt_eq hslice
  unfold startsUnsortedRegion endsUnsortedRegion
  rw [hm, hcat, hval]
  exact ⟨rfl, rfl⟩

include hqs

/-- One event takes the loop to its next state, sorting the events behind it at
the end of a region. -/
theorem winsortEvent_spec (hwalk : Walked w.stream done c todo)
    (hev : ∀ c ∈ done, IsEvent c) (hclk : ∀ c ∈ done, clockOf c < 2 ^ 63)
    (hring : w.RingOver done) (hbehind : w.st.Behind w.bad0 done) (hseen : done.Perm seen)
    (hreg : RegionsOk w.st.inside seen (c :: todo)) :
    (∃ msg, winsortEvent qsort junk w (streamHeaderSize + done.flatten.length) =
        .error (.fail msg)) ∨
    ∃ w' done', winsortEvent qsort junk w (streamHeaderSize + done.flatten.length) = .ok w' ∧
      done'.Perm done ∧ Walked w'.stream done' c todo ∧ w'.RingOver done' ∧
      w'.st.Behind w'.bad0 (done' ++ [c]) ∧
      RegionsOk w'.st.inside (seen ++ [c]) todo := by
  obtain ⟨hstarts, hends⟩ := headEv_markers hwalk
  -- An event outside the regions may follow any order of the events behind it
  have hlater : (∀ a ∈ seen, clockOf a ≤ clockOf c) →
      ∀ done' : List (List UInt8), done'.Perm done → ∀ a ∈ done', clockOf a ≤ clockOf c := by
    intro hle done' hperm a ha
    exact hle a (hseen.mem_iff.mp (hperm.mem_iff.mp ha))
  unfold winsortEvent
  simp only [hstarts, hends]
  cases hst : w.st with
  | sorted =>
      simp only [hst, SortState.inside, SortState.Behind, RegionsOk] at hreg hbehind
      have hsorted := clockSorted_concat hbehind (hlater hreg.1 done (.refl _))
      right
      cases hstart : startsUnsortedRegion (headEv c) with
      | true =>
          rw [hstart] at hreg
          exact ⟨_, done, if_pos rfl, .refl _, hwalk, hring, hsorted, hreg.2⟩
      | false =>
          rw [hstart] at hreg
          refine ⟨w, done, if_neg (by simp), .refl _, hwalk, hring, ?_, ?_⟩
          · rw [hst]
            exact hsorted
          · rw [hst]
            exact hreg.2
  | unsorted =>
      simp only [hst, SortState.inside, SortState.Behind, RegionsOk] at hreg hbehind
      right
      cases hend : endsUnsortedRegion (headEv c) with
      | true =>
          rw [hend, if_pos rfl] at hreg
          exact ⟨_, done, if_pos rfl, .refl _, hwalk, hring,
            clockSorted_concat hbehind (hlater hreg.1 done (.refl _)), hreg.2⟩
      | false =>
          rw [hend, if_neg (by simp)] at hreg
          exact ⟨_, done, if_neg (by simp), .refl _, hwalk, hring,
            ⟨done, [c], rfl, by simp, hbehind, rfl⟩, hreg⟩
  | events =>
      simp only [hst, SortState.inside, SortState.Behind, RegionsOk] at hreg hbehind
      obtain ⟨pre, region, hsplit, hne, hpre, hbad0⟩ := hbehind
      cases hend : endsUnsortedRegion (headEv c) with
      | true =>
          rw [hend, if_pos rfl] at hreg
          simp only [if_true]
          have hlaid := (laid_append.mp hwalk.holds.laid).1
          unfold Winsort.RingOver at hring
          rw [hsplit] at hev hclk hlaid hring
          rcases executeSortPlan_spec hqs junk hev hclk hlaid hne hpre hring with
            ⟨msg, hfail⟩ | ⟨buf', r', done', hrun, hperm, hsorted, hlaid', hsame, hholds, -⟩
          · left
            rw [hbad0, hsplit, hfail]
            exact ⟨msg, rfl⟩
          · right
            rw [← hsplit] at hperm hsame
            rw [hbad0, hsplit, hrun]
            exact ⟨_, done', rfl, hsplit ▸ hperm, hwalk.rewrite hperm hlaid' hsame, hholds,
              clockSorted_concat hsorted (hlater hreg.1 done' hperm), hreg.2⟩
      | false =>
          rw [hend, if_neg (by simp)] at hreg
          right
          refine ⟨w, done, if_neg (by simp), .refl _, hwalk, hring, ?_, ?_⟩
          · rw [hst]
            exact ⟨pre, region ++ [c], by rw [hsplit, List.append_assoc], by simp, hpre, hbad0⟩
          · rw [hst]
            exact hreg

end Event

/-! ## The whole stream -/

section Loop

variable {qsort : Qsort} (hqs : qsort.Sorts) (junk : Mem)

include hqs

/-- The loop fails, or ends with all the events in clock order. -/
theorem winsortLoop_spec (todo : List (List UInt8)) {fuel : Nat} {w : Winsort}
    {seen done : List (List UInt8)} (hfuel : todo.length < fuel)
    (hholds : w.stream.Holds (done ++ todo)) (hpending : Pending w.stream done todo)
    (hev : ∀ c ∈ done ++ todo, IsEvent c) (hclk : ∀ c ∈ done ++ todo, clockOf c < 2 ^ 63)
    (hring : w.RingOver done) (hbehind : w.st.Behind w.bad0 done) (hseen : done.Perm seen)
    (hreg : RegionsOk w.st.inside seen todo) :
    (∃ msg, winsortLoop qsort junk fuel w = .error (.fail msg)) ∨
    ∃ w' out, winsortLoop qsort junk fuel w = .ok w' ∧ out.Perm (done ++ todo) ∧
      ClockSorted out ∧ w'.stream.Holds out := by
  induction todo generalizing fuel w seen done with
  | nil =>
      obtain ⟨fuel, rfl⟩ : ∃ n, fuel = n + 1 := ⟨fuel - 1, by simp at hfuel; omega⟩
      obtain ⟨s', hstep, hbuf, hsize⟩ := hpending
      right
      refine ⟨{ w with stream := s' }, done, ?_, by simp, ?_, ?_⟩
      · rw [winsortLoop, hstep]
      · cases hst : w.st with
        | sorted => simpa only [hst, SortState.Behind] using hbehind
        | unsorted => simp [hst, SortState.inside, RegionsOk] at hreg
        | events => simp [hst, SortState.inside, RegionsOk] at hreg
      · rw [List.append_nil] at hholds
        exact ⟨hsize ▸ hholds.size, hbuf ▸ hholds.header, hbuf ▸ hholds.laid⟩
  | cons c cs ih =>
      obtain ⟨fuel, rfl⟩ : ∃ n, fuel = n + 1 := ⟨fuel - 1, by simp at hfuel; omega⟩
      obtain ⟨s', hstep, hwalk⟩ := hpending
      have hcur := hwalk.cur
      rw [winsortLoop, hstep]
      simp only [hcur]
      rcases winsortEvent_spec (w := { w with stream := s' }) hqs junk hwalk
        (fun c hc => hev c (by simp [hc])) (fun c hc => hclk c (by simp [hc])) hring hbehind
        hseen hreg with ⟨msg, hfail⟩ | ⟨w', done', hrun, hperm, hwalk', hring', hbehind', hreg'⟩
      · left
        rw [hfail]
        exact ⟨msg, rfl⟩
      · rw [hrun]
        have hperm' : (done' ++ [c]).Perm (done ++ [c]) := hperm.append_right [c]
        have hall : ((done' ++ [c]) ++ cs).Perm (done ++ c :: cs) := by
          simpa using hperm.append_right (c :: cs)
        have hadd := RingHolds.add hring' (streamHeaderSize + done'.flatten.length)
        have hlen : done'.flatten.length = done.flatten.length := hperm.flatten.length_eq
        have hwin : window w'.ring.size (window w'.ring.size (offsetsFrom streamHeaderSize done') ++
            [streamHeaderSize + (done'.flatten.length : Int)]) =
            window w'.ring.size (offsetsFrom streamHeaderSize (done' ++ [c])) := by
          rw [window_append _ hring'.size, offsetsFrom_append]
          rfl
        rw [hwin, hlen] at hadd
        have hnext := @ih fuel
          { w' with ring := ringAdd w'.ring (streamHeaderSize + done.flatten.length) }
          (seen ++ [c]) (done' ++ [c])
          (by simp only [List.length_cons] at hfuel; omega)
          (by simpa using hwalk'.holds)
          (hwalk'.pending fun c' hc' => hev c' (by simp [hc']))
          (fun c' hc' => hev c' (hall.mem_iff.mp hc'))
          (fun c' hc' => hclk c' (hall.mem_iff.mp hc'))
          hadd hbehind' (hperm'.trans (hseen.append_right [c])) hreg'
        rcases hnext with ⟨msg, hfail⟩ | ⟨w'', out, hrun', hpermOut, hsorted, hholds'⟩
        · exact Or.inl ⟨msg, hfail⟩
        · exact Or.inr ⟨w'', out, hrun', hpermOut.trans hall, hsorted, hholds'⟩

end Loop

/-- A window sort fails, or leaves the same header and the same events in clock
order; it neither dies nor runs on for ever. -/
theorem stream_winsort_sorts {qsort : Qsort} (hqs : qsort.Sorts) (junk beyond : Mem) (r : Ring)
    (hr : 2 ≤ r.size) (chunks : List (List UInt8)) (hev : ∀ c ∈ chunks, IsEvent c)
    (hclk : ∀ c ∈ chunks, clockOf c < 2 ^ 63) (hreg : RegionsOk false [] chunks) (s : Stream)
    (hload : loadObs (headerOfStream ++ chunks.flatten) beyond = .ok s) :
    (∃ msg, streamWinsort qsort junk (streamAllowUnsorted s) r = .error (.fail msg)) ∨
    ∃ w chunks', streamWinsort qsort junk (streamAllowUnsorted s) r = .ok w ∧
      w.stream.size = s.size ∧
      w.stream.buf.slice 0 w.stream.size.toNat = headerOfStream ++ chunks'.flatten ∧
      chunks'.Perm chunks ∧ ClockSorted chunks' := by
  have hholds := Stream.Holds.load hload
  have hsize : s.size = streamHeaderSize + chunks.flatten.length := hholds.size
  unfold streamWinsort
  cases chunks with
  | nil =>
      -- An empty stream is inactive from the start
      left
      obtain ⟨-, -, -, -, -, -, hact, -, -⟩ := loadObs_ok hload
      have hoff : (streamAllowUnsorted s).active = false := by
        show s.active = false
        rw [hact, hsize]
        rfl
      exact ⟨"stream_step failed", by rw [winsortLoop, streamStep, if_pos hoff]⟩
  | cons c cs =>
      have hpending := pending_load (by simp) hev hload
      have hring : RingHolds (ringReset r) (window r.size (offsetsFrom streamHeaderSize [])) := by
        refine ⟨hr, by simp only [ringReset]; omega, ?_, ?_, ?_, fun _ => rfl⟩
        · rw [length_window]
          simp only [offsetsFrom, List.length_nil, ringReset]
          omega
        · simp [ringReset, Ring.at, window, offsetsFrom]
        · intro j hj
          simp [window, offsetsFrom] at hj
      have hfuel : (c :: cs).length < (streamAllowUnsorted s).size.toNat + 1 := by
        have := length_le_flatten hev
        show (c :: cs).length < s.size.toNat + 1
        rw [hsize]
        unfold streamHeaderSize
        omega
      rcases @winsortLoop_spec qsort hqs junk (c :: cs) _ {
          stream := streamAllowUnsorted s, ring := ringReset r, st := .sorted, bad0 := 0,
          emptyRegions := 0, updated := false } [] [] hfuel hholds hpending
          (by simpa using hev) (by simpa using hclk) hring List.Pairwise.nil (.refl _) hreg with
        ⟨msg, hfail⟩ | ⟨w', out, hrun, hperm, hsorted, hout⟩
      · exact Or.inl ⟨msg, hfail⟩
      · right
        have hsum : out.flatten.length = (c :: cs).flatten.length := hperm.flatten.length_eq
        have hn : w'.stream.size.toNat = 8 + out.flatten.length := by
          rw [hout.size]
          unfold streamHeaderSize
          omega
        refine ⟨w', out, hrun, ?_, ?_, by simpa using hperm, hsorted⟩
        · rw [hout.size, hsum, hsize]
        · rw [hn, Mem.slice_add, hout.header]
          congr 1
          exact hout.laid

/-- A sort by insertion, as one `qsort`. -/
def insertionQsort : Qsort := fun cmp table => table.insertionSort fun a b => cmp a b ≤ 0

theorem insertionQsort_sorts : insertionQsort.Sorts := by
  constructor
  · intro cmp _ table
    exact List.perm_insertionSort _ table
  · intro cmp hcmp table
    have htotal : Std.Total fun a b => cmp a b ≤ 0 := ⟨fun a b => by
      have := hcmp.sign b a
      omega⟩
    have htrans : IsTrans Int fun a b => cmp a b ≤ 0 := ⟨hcmp.trans⟩
    exact List.pairwise_insertionSort _ table

/-- A normal event without payload. -/
def bareEvent (model category value clock : UInt8) : List UInt8 :=
  [0, model, category, value, clock, 0, 0, 0, 0, 0, 0, 0]

/-- A thread that starts, and then two events that were added late. -/
def lateEvents : List (List UInt8) :=
  [bareEvent 0x4f 0x48 0x78 1, bareEvent 0x4f 0x55 0x5b 5, bareEvent 0x4f 0x48 0x72 3,
    bareEvent 0x4f 0x48 0x70 2, bareEvent 0x4f 0x55 0x5d 6]

/-- Memory of zeros. -/
def zeroMem : Mem := fun _ => 0

/-- The stream with the late events, as it is loaded to be sorted. -/
def lateStream : Stream :=
  Stream.fresh (zeroMem.patch 0 (headerOfStream ++ lateEvents.flatten))
    (headerOfStream ++ lateEvents.flatten).length

theorem lateEvents_isEvent : ∀ c ∈ lateEvents, IsEvent c := by
  have hall : ∀ c ∈ lateEvents,
      ovniEvSize (headEv c) = c.length ∧ sizedBytes (headEv c) ≤ c.length := by
    decide +kernel
  exact fun c hc => ⟨(hall c hc).1, (hall c hc).2⟩

theorem lateEvents_regions : RegionsOk false [] lateEvents := by
  have hstart : startsUnsortedRegion (headEv (bareEvent 0x4f 0x48 0x78 1)) = false ∧
      startsUnsortedRegion (headEv (bareEvent 0x4f 0x55 0x5b 5)) = true ∧
      endsUnsortedRegion (headEv (bareEvent 0x4f 0x48 0x72 3)) = false ∧
      endsUnsortedRegion (headEv (bareEvent 0x4f 0x48 0x70 2)) = false ∧
      endsUnsortedRegion (headEv (bareEvent 0x4f 0x55 0x5d 6)) = true := by
    decide +kernel
  obtain ⟨h1, h2, h3, h4, h5⟩ := hstart
  simp only [lateEvents, RegionsOk, h1, h2, h3, h4, h5, Bool.false_eq_true, if_false, if_true,
    List.nil_append, List.cons_append]
  decide +kernel

/-- A ring of five entries sorts the late events. -/
theorem stream_winsort_late :
    ∃ w chunks', streamWinsort insertionQsort zeroMem (streamAllowUnsorted lateStream)
        { head := 0, tail := 0, size := 5, ev := fun _ => 0 } = .ok w ∧
      w.stream.size = lateStream.size ∧
      w.stream.buf.slice 0 w.stream.size.toNat = headerOfStream ++ chunks'.flatten ∧
      chunks'.Perm lateEvents ∧ ClockSorted chunks' := by
  have hok : (streamWinsort insertionQsort zeroMem (streamAllowUnsorted lateStream)
      { head := 0, tail := 0, size := 5, ev := fun _ => 0 }).isOk = true := by
    decide +kernel
  rcases stream_winsort_sorts insertionQsort_sorts zeroMem zeroMem
      { head := 0, tail := 0, size := 5, ev := fun _ => 0 } (by decide) lateEvents
      lateEvents_isEvent (by decide +kernel) lateEvents_regions lateStream
      (loadObs_header _ _) with ⟨msg, hfail⟩ | hsorted
  · rw [hfail] at hok
    cases hok
  · exact hsorted

end Ovni
