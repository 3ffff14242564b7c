import Ovni.Stream.Model

/-!
# Events as byte strings

A stream file is a header followed by the bytes of its events.  `IsEvent` is a
byte string that declares its own length, so a concatenation of such strings is
walked string by string whatever surrounds it in memory.
-/

namespace Ovni

open Ovni.Lib

/-! ## Reading the same bytes -/

section Congr

variable {m m' : Mem} {p q : Int} {n : Nat}

theorem slice_getElem_eq (h : m.slice p n = m'.slice q n) {i : Nat} (hi : i < n) :
    m (p + i) = m' (q + i) := by
  have hl := Mem.getElem_slice m p n i (by simpa using hi)
  have hr := Mem.getElem_slice m' q n i (by simpa using hi)
  simp only [h] at hl
  rw [← hl, ← hr]

theorem slice_sub_eq (h : m.slice p n = m'.slice q n) {i k : Nat} (hi : i + k ≤ n) :
    m.slice (p + i) k = m'.slice (q + i) k := by
  apply Mem.slice_congr
  intro j hj
  have := slice_getElem_eq h (i := i + j) (by omega)
  push_cast at this
  rwa [← Int.add_assoc, ← Int.add_assoc] at this

/-- Two copies of at least a header hold the same header and payload. -/
theorem evAt_congr (h : m.slice p n = m'.slice q n) (hn : 12 ≤ n) :
    (evAt m p).flags = (evAt m' q).flags ∧ (evAt m p).model = (evAt m' q).model ∧
      (evAt m p).category = (evAt m' q).category ∧ (evAt m p).value = (evAt m' q).value ∧
      (evAt m p).clock = (evAt m' q).clock ∧
      ∀ i, i + 12 < n → (evAt m p).payload i = (evAt m' q).payload i := by
  have hbyte := fun i hi => slice_getElem_eq h (i := i) hi
  refine ⟨?_, ?_, ?_, ?_, ?_, fun i hi => ?_⟩
  · have := hbyte 0 (by omega)
    simp only [Nat.cast_zero, Int.add_zero] at this
    exact this
  · exact hbyte 1 (by omega)
  · exact hbyte 2 (by omega)
  · exact hbyte 3 (by omega)
  · have hclock : m.slice (p + 4) 8 = m'.slice (q + 4) 8 := slice_sub_eq h (i := 4) (by omega)
    simp only [evAt, hclock]
  · have := hbyte (12 + i) (by omega)
    simp only [evAt]
    push_cast at this
    rwa [← Int.add_assoc, ← Int.add_assoc] at this

/-- The bytes that decide the size of an event. -/
def sizedBytes (ev : OvniEv) : Nat := if ev.isJumbo then 16 else 12

theorem ovniEvSize_congr (h : m.slice p n = m'.slice q n) (hn : sizedBytes (evAt m p) ≤ n) :
    ovniEvSize (evAt m p) = ovniEvSize (evAt m' q) := by
  have hn12 : 12 ≤ n := by
    unfold sizedBytes at hn
    split at hn <;> omega
  obtain ⟨hflags, -, -, -, -, hpay⟩ := evAt_congr h hn12
  have hj : (evAt m p).isJumbo = (evAt m' q).isJumbo := by
    unfold OvniEv.isJumbo
    rw [hflags]
  have hsize : ovniPayloadSize (evAt m p) = ovniPayloadSize (evAt m' q) := by
    unfold ovniPayloadSize
    rw [← hj, ← hflags]
    cases hjm : (evAt m p).isJumbo with
    | false => simp only [Bool.false_eq_true, if_false]
    | true =>
        have hbytes : (evAt m p).payloadBytes 4 = (evAt m' q).payloadBytes 4 := by
          apply List.map_congr_left
          intro i hi
          simp only [sizedBytes, hjm, if_true] at hn
          exact hpay i (by have := List.mem_range.mp hi; omega)
        simp only [if_true, getJumboPayloadSize, OvniEv.jumboSize, hbytes]
  unfold ovniEvSize
  rw [hsize]

end Congr

/-! ## Byte strings -/

/-- The event that starts a byte string. -/
def headEv (bs : List UInt8) : OvniEv := evAt (Mem.patch (fun _ => 0) 0 bs) 0

/-- The bytes are one event, of the size it declares. -/
structure IsEvent (bs : List UInt8) : Prop where
  size : ovniEvSize (headEv bs) = bs.length
  whole : sizedBytes (headEv bs) ≤ bs.length

theorem IsEvent.length_ge {bs : List UInt8} (h : IsEvent bs) : 12 ≤ bs.length := by
  have := h.whole
  unfold sizedBytes at this
  split at this <;> omega

theorem IsEvent.length_lt {bs : List UInt8} (h : IsEvent bs) : bs.length < 2 ^ 31 := by
  have hhi : ovniEvSize (headEv bs) < 2 ^ 31 := (toInt32_bounds _).2
  rw [h.size] at hhi
  omega

theorem slice_headEv (bs : List UInt8) :
    (Mem.patch (fun _ => 0) 0 bs).slice 0 bs.length = bs :=
  Mem.slice_patch_same _ _ _

/-- Wherever the bytes of an event lie, they are read with the same size. -/
theorem IsEvent.size_at {bs : List UInt8} (h : IsEvent bs) {m : Mem} {p : Int}
    (hm : m.slice p bs.length = bs) : ovniEvSize (evAt m p) = bs.length := by
  have hslice : (Mem.patch (fun _ => 0) 0 bs).slice 0 bs.length = m.slice p bs.length := by
    rw [slice_headEv, hm]
  rw [← ovniEvSize_congr hslice h.whole]
  exact h.size

/-- The bytes of the event at an offset. -/
def chunkAt (m : Mem) (off : Int) : List UInt8 := m.slice off (ovniEvSize (evAt m off)).toNat

/-- The offsets of consecutive byte strings from `p` on. -/
def offsetsFrom (p : Int) : List (List UInt8) → List Int
  | [] => []
  | c :: cs => p :: offsetsFrom (p + c.length) cs

/-- Where some byte strings end, counted from the end of the first. -/
theorem end_cons (p : Int) (c : List UInt8) (cs : List (List UInt8)) :
    p + ((c :: cs).flatten.length : Nat) = p + c.length + cs.flatten.length := by
  rw [List.flatten_cons, List.length_append]
  push_cast
  ring

@[simp] theorem length_offsetsFrom (p : Int) (chunks : List (List UInt8)) :
    (offsetsFrom p chunks).length = chunks.length := by
  induction chunks generalizing p with
  | nil => rfl
  | cons c cs ih => simp [offsetsFrom, ih]

theorem offsetsFrom_append (p : Int) (a b : List (List UInt8)) :
    offsetsFrom p (a ++ b) = offsetsFrom p a ++ offsetsFrom (p + a.flatten.length) b := by
  induction a generalizing p with
  | nil => simp [offsetsFrom]
  | cons c cs ih => simp only [List.cons_append, offsetsFrom, ih, end_cons]

/-- The memory at `p` holds the byte strings one after the other. -/
def Laid (m : Mem) (p : Int) (chunks : List (List UInt8)) : Prop :=
  m.slice p chunks.flatten.length = chunks.flatten

theorem laid_append {m : Mem} {p : Int} {a b : List (List UInt8)} :
    Laid m p (a ++ b) ↔ Laid m p a ∧ Laid m (p + a.flatten.length) b := by
  unfold Laid
  rw [List.flatten_append, List.length_append, Mem.slice_add]
  constructor
  · intro h
    exact List.append_inj h (by simp)
  · rintro ⟨ha, hb⟩
    rw [ha, hb]

theorem laid_cons {m : Mem} {p : Int} {c : List UInt8} {cs : List (List UInt8)} :
    Laid m p (c :: cs) ↔ m.slice p c.length = c ∧ Laid m (p + c.length) cs := by
  have := laid_append (m := m) (p := p) (a := [c]) (b := cs)
  simpa [Laid] using this

/-- The clock of the event in a byte string. -/
def clockOf (c : List UInt8) : Nat := (headEv c).clock.toNat

/-- An event reads the same in memory as alone. -/
theorem IsEvent.evAt_eq {c : List UInt8} (h : IsEvent c) {m : Mem} {p : Int}
    (hm : m.slice p c.length = c) :
    (evAt m p).model = (headEv c).model ∧ (evAt m p).category = (headEv c).category ∧
      (evAt m p).value = (headEv c).value ∧ (evAt m p).clock.toNat = clockOf c := by
  have hslice : m.slice p c.length = (Mem.patch (fun _ => 0) 0 c).slice 0 c.length := by
    rw [slice_headEv, hm]
  obtain ⟨-, hmodel, hcat, hval, hclock, -⟩ := evAt_congr hslice h.length_ge
  exact ⟨hmodel, hcat, hval, by rw [hclock]; rfl⟩

/-- A memory that holds the concatenation of some events is walked event by
event. -/
theorem eventsFrom_flatten (m : Mem) (p : Int) (chunks : List (List UInt8))
    (hm : Laid m p chunks) (hev : ∀ c ∈ chunks, IsEvent c) :
    EventsFrom m (p + chunks.flatten.length) p (offsetsFrom p chunks) ∧
      (offsetsFrom p chunks).map (chunkAt m) = chunks := by
  induction chunks generalizing p with
  | nil =>
      constructor
      · have hend : EventsFrom m p p [] := .done
        simpa [offsetsFrom] using hend
      · rfl
  | cons c cs ih =>
      have hc := hev c (by simp)
      obtain ⟨hfirst, hrest⟩ := laid_cons.mp hm
      obtain ⟨hwalk, hchunks⟩ := ih (p + c.length) hrest fun c' hc' => hev c' (by simp [hc'])
      have hsize := hc.size_at hfirst
      have hge := hc.length_ge
      constructor
      · rw [end_cons]
        refine .event (by omega) (by rw [hsize]; omega) ?_
        rw [hsize]
        exact hwalk
      · simp only [offsetsFrom, List.map_cons, hchunks, chunkAt, hsize, Int.toNat_natCast,
          hfirst]

/-! ## Whole files -/

/-- The eight bytes that start a stream. -/
def headerOfStream : List UInt8 := ovniStreamMagic ++ leBytes 4 ovniStreamVersion

theorem loadObs_header (bytes : List UInt8) (beyond : Mem) :
    loadObs (headerOfStream ++ bytes) beyond =
      .ok (Stream.fresh (beyond.patch 0 (headerOfStream ++ bytes))
        (headerOfStream ++ bytes).length) := by
  have hlen : (headerOfStream ++ bytes).length = 8 + bytes.length := by
    rw [List.length_append]
    rfl
  have hmagic : (beyond.patch 0 (headerOfStream ++ bytes)).slice 0 4 = ovniStreamMagic := by
    have := Mem.slice_patch_within beyond 0 (headerOfStream ++ bytes) 0 4 (by omega)
    simpa [headerOfStream, ovniStreamMagic] using this
  have hversion : leNat ((beyond.patch 0 (headerOfStream ++ bytes)).slice 4 4) =
      ovniStreamVersion := by
    have hslice : (beyond.patch 0 (headerOfStream ++ bytes)).slice 4 4 =
        leBytes 4 ovniStreamVersion := by
      have := Mem.slice_patch_within beyond 0 (headerOfStream ++ bytes) 4 4 (by omega)
      simpa [headerOfStream, ovniStreamMagic] using this
    rw [hslice]
    decide
  have hsize : ¬ ((headerOfStream ++ bytes).length : Int) < streamHeaderSize := by
    unfold streamHeaderSize
    omega
  have hcheck : checkStreamHeader (beyond.patch 0 (headerOfStream ++ bytes))
      (headerOfStream ++ bytes).length = .ok () := by
    unfold checkStreamHeader
    rw [if_neg hsize, if_neg (by simp [hmagic]), if_neg (by simp [hversion])]
  unfold loadObs
  simp only [hcheck, bind, Except.bind, if_neg hsize]
  rw [if_neg (by omega)]
  rfl

/-- A file that holds the header and some events is walked event by event. -/
theorem stream_of_chunks (chunks : List (List UInt8)) (beyond : Mem)
    (hev : ∀ c ∈ chunks, IsEvent c) :
    ∃ s offs, loadObs (headerOfStream ++ chunks.flatten) beyond = .ok s ∧ s.Events offs ∧
      offs.map (chunkAt s.buf) = chunks := by
  set file := headerOfStream ++ chunks.flatten with hfile
  have hlen : file.length = 8 + chunks.flatten.length := by
    rw [hfile, List.length_append]
    rfl
  have hbody : (beyond.patch 0 file).slice (0 + (8 : Nat)) chunks.flatten.length =
      chunks.flatten := by
    rw [Mem.slice_patch_within _ _ _ _ _ (by omega), hfile, List.drop_left' (by rfl),
      List.take_length]
  obtain ⟨hwalk, hchunks⟩ := eventsFrom_flatten (beyond.patch 0 file) (0 + (8 : Nat)) chunks
    hbody hev
  refine ⟨_, _, loadObs_header _ _, ?_, hchunks⟩
  have hend : ((0 + (8 : Nat) : Int) + chunks.flatten.length) = file.length := by
    rw [hlen]
    push_cast
    ring
  rw [hend] at hwalk
  exact hwalk

end Ovni
