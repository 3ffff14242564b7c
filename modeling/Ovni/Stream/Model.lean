import Ovni.Event

/-!
# Streams

The reader side of `emu/stream.c`: a stream file is mapped whole and an event
pointer walks over it, each step advancing by the size the event declares.
Nothing but the header is checked when the file is loaded, so the walk is over
untrusted bytes.
-/

namespace Ovni

open Ovni.Lib

/-- The `0`, `+1` and `-1` of the functions that step something. -/
inductive Ret (σ : Type) where
  | ok (s : σ)
  | done (s : σ)
  | err (msg : String)

/-- `struct stream`, with the event pointer as its distance to `buf`. -/
structure Stream where
  curEv : Option Int
  buf : Mem
  size : Int
  lastclock : Int
  deltaclock : Int
  clockOffset : Int
  active : Bool
  unsorted : Bool
  usize : Int
  offset : Int

/-- `sizeof(struct ovni_stream_header)`. -/
def streamHeaderSize : Int := 8

/-- `OVNI_STREAM_MAGIC`. -/
def ovniStreamMagic : List UInt8 := [0x6f, 0x76, 0x6e, 0x69]

/-- `OVNI_STREAM_VERSION`. -/
def ovniStreamVersion : Nat := 1

/-- `check_stream_header`: both fields are checked before it fails. -/
def checkStreamHeader (buf : Mem) (size : Int) : Except String Unit :=
  if size < streamHeaderSize then .error "incomplete stream header"
  else if buf.slice 0 4 ≠ ovniStreamMagic then .error "wrong stream magic"
  else if leNat (buf.slice 4 4) ≠ ovniStreamVersion then .error "stream version mismatch"
  else .ok ()

/-- A stream that maps `size` bytes at `buf`, before its first step. -/
def Stream.fresh (buf : Mem) (size : Int) : Stream :=
  { curEv := none, buf, size, lastclock := 0, deltaclock := 0, clockOffset := 0,
    active := decide (streamHeaderSize < size), unsorted := false,
    usize := size - streamHeaderSize, offset := streamHeaderSize }

/-- `load_obs` on a file with the given bytes.  The mapping is readable past
the file's end, where it shows `beyond`. -/
def loadObs (file : List UInt8) (beyond : Mem) : Except String Stream := do
  if file.length = 0 then throw "stream is empty"
  let buf := beyond.patch 0 file
  let size : Int := file.length
  checkStreamHeader buf size
  if size < streamHeaderSize then throw "impossible, offset bigger than size"
  return Stream.fresh buf size

/-- `stream_clkoff_set`. -/
def streamClkoffSet (s : Stream) (clkoff : Int) : Except String Stream :=
  if s.curEv.isSome then .error "cannot set clokoff in started stream"
  else if s.clockOffset ≠ 0 then .error "already has a clock offset"
  else .ok { s with clockOffset := clkoff }

/-- `stream_ev`. -/
def streamEv (s : Stream) : Option OvniEv := s.curEv.map (evAt s.buf)

/-- `stream_evclock`. -/
def streamEvclock (s : Stream) (ev : OvniEv) : Int :=
  toInt64 (toInt64 (ovniEvGetClock ev).toNat + s.clockOffset)

/-- `stream_lastclock`. -/
def streamLastclock (s : Stream) : Int := s.lastclock

/-- `stream_allow_unsorted`. -/
def streamAllowUnsorted (s : Stream) : Stream := { s with unsorted := true }

/-- The second half of `stream_step`: load the event at the current offset. -/
def loadEvent (s : Stream) : Ret Stream :=
  let ev := evAt s.buf s.offset
  -- Ensure the event fits
  if s.size < s.offset + ovniEvSize ev then .err "ends with incomplete event"
  else
    let clock := streamEvclock s ev
    if s.unsorted = false ∧ clock < s.lastclock then .err "clock goes backwards"
    else .ok { s with
      curEv := some s.offset
      deltaclock := toInt64 (clock - s.lastclock)
      lastclock := clock }

/-- `stream_step`. -/
def streamStep (s : Stream) : Ret Stream :=
  if s.active = false then .err "stream is inactive, cannot step"
  else
    match s.curEv with
    | none => loadEvent s
    | some p =>
        -- Only step the offset if we have loaded an event
        let offset := s.offset + ovniEvSize (evAt s.buf p)
        if s.size < offset then .err "stream offset exceeds size"
        else if offset = s.size then
          .done { s with offset, active := false, curEv := none }
        else loadEvent { s with offset }

/-- Call `stream_step` until it stops returning zero, at most `fuel` times. -/
def stepAll : Nat → Stream → Option (Ret Stream)
  | 0, _ => none
  | fuel + 1, s =>
      match streamStep s with
      | .ok s' => stepAll fuel s'
      | r => some r

/-- The offsets of the events from `off` to the end of a stream: each one fits
and the next one starts where it ends. -/
inductive EventsFrom (buf : Mem) (size : Int) : Int → List Int → Prop where
  | done : EventsFrom buf size size []
  | event {off : Int} {offs : List Int} (inside : off < size)
      (fits : off + ovniEvSize (evAt buf off) ≤ size)
      (rest : EventsFrom buf size (off + ovniEvSize (evAt buf off)) offs) :
      EventsFrom buf size off (off :: offs)

/-- The offsets of the events of a stream. -/
def Stream.Events (s : Stream) (offs : List Int) : Prop :=
  EventsFrom s.buf s.size streamHeaderSize offs

/-! ## What one step can do -/

@[simp] theorem streamEvclock_offset (s : Stream) (o : Int) (ev : OvniEv) :
    streamEvclock { s with offset := o } ev = streamEvclock s ev := rfl

/-- The state after an event was loaded at the current offset. -/
def Stream.loaded (s : Stream) : Stream :=
  { s with
    curEv := some s.offset
    deltaclock := toInt64 (streamEvclock s (evAt s.buf s.offset) - s.lastclock)
    lastclock := streamEvclock s (evAt s.buf s.offset) }

@[simp] theorem Stream.loaded_lastclock (s : Stream) :
    s.loaded.lastclock = streamEvclock s (evAt s.buf s.offset) := by
  simp only [Stream.loaded]

@[simp] theorem streamEvclock_loaded (s : Stream) (ev : OvniEv) :
    streamEvclock s.loaded ev = streamEvclock s ev := rfl

theorem streamEvclock_lt (s : Stream) (ev : OvniEv) : streamEvclock s ev < 2 ^ 63 := by
  unfold streamEvclock
  exact (toInt64_bounds _).2

theorem loadEvent_ok {s s' : Stream} (h : loadEvent s = .ok s') :
    s.offset + ovniEvSize (evAt s.buf s.offset) ≤ s.size ∧
      (s.unsorted = true ∨ s.lastclock ≤ streamEvclock s (evAt s.buf s.offset)) ∧
      s' = s.loaded := by
  simp only [loadEvent] at h
  split at h
  · cases h
  · rename_i hfit
    split at h
    · cases h
    · rename_i hclk
      refine ⟨by simpa using hfit, ?_, by simpa [Stream.loaded] using h.symm⟩
      cases hu : s.unsorted with
      | true => exact Or.inl rfl
      | false =>
          right
          simpa [hu] using hclk

theorem loadEvent_eq_ok {s : Stream}
    (hfit : s.offset + ovniEvSize (evAt s.buf s.offset) ≤ s.size)
    (hclk : s.unsorted = true ∨ s.lastclock ≤ streamEvclock s (evAt s.buf s.offset)) :
    loadEvent s = .ok s.loaded := by
  unfold loadEvent
  rw [if_neg (by omega), if_neg]
  · rfl
  · rintro ⟨hu, hlt⟩
    rcases hclk with hu' | hle
    · simp [hu] at hu'
    · omega

theorem loadEvent_not_done {s s' : Stream} : loadEvent s ≠ .done s' := by
  intro h
  simp only [loadEvent] at h
  split at h
  · cases h
  · split at h <;> cases h

/-- The offset the next step moves to. -/
def Stream.nextOffset (s : Stream) : Int :=
  match s.curEv with
  | none => s.offset
  | some p => s.offset + ovniEvSize (evAt s.buf p)

theorem streamStep_eq_load {s : Stream} (hact : s.active = true)
    (hlt : s.curEv.isSome → s.nextOffset < s.size) :
    streamStep s = loadEvent { s with offset := s.nextOffset } := by
  unfold streamStep
  rw [if_neg (by simp [hact])]
  obtain hc | ⟨p, hc⟩ := Option.eq_none_or_eq_some s.curEv
  · have hnext : s.nextOffset = s.offset := by simp [Stream.nextOffset, hc]
    simp only [hc, hnext]
    rw [← hc]
  · have hnext : s.nextOffset = s.offset + ovniEvSize (evAt s.buf p) := by
      simp [Stream.nextOffset, hc]
    have hlt' := hlt (by simp [hc])
    simp only [hc]
    rw [← hnext, if_neg (by omega), if_neg (by omega), ← hc]

/-- The state after a step that loads the next event. -/
def Stream.stepped (s : Stream) : Stream := { s with offset := s.nextOffset }.loaded

theorem streamStep_stepped {s : Stream} (hact : s.active = true)
    (hlt : s.curEv.isSome → s.nextOffset < s.size)
    (hfit : s.nextOffset + ovniEvSize (evAt s.buf s.nextOffset) ≤ s.size)
    (hclk : s.lastclock ≤ streamEvclock s (evAt s.buf s.nextOffset)) :
    streamStep s = .ok s.stepped := by
  rw [streamStep_eq_load hact hlt]
  exact loadEvent_eq_ok hfit (.inr hclk)

theorem streamStep_eq_done {s : Stream} (hact : s.active = true) (hcur : s.curEv.isSome)
    (heq : s.nextOffset = s.size) :
    streamStep s = .done { s with offset := s.size, active := false, curEv := none } := by
  obtain ⟨p, hc⟩ := Option.isSome_iff_exists.mp hcur
  have hnext : s.nextOffset = s.offset + ovniEvSize (evAt s.buf p) := by
    simp [Stream.nextOffset, hc]
  unfold streamStep
  rw [if_neg (by simp [hact])]
  simp only [hc]
  rw [← hnext, heq, if_neg (by omega), if_pos rfl]

/-- A step that returns zero loads the event at the next offset. -/
theorem streamStep_ok {s s' : Stream} (h : streamStep s = .ok s') :
    s.active = true ∧ (s.curEv.isSome → s.nextOffset < s.size) ∧
      loadEvent { s with offset := s.nextOffset } = .ok s' := by
  unfold streamStep at h
  split at h
  · cases h
  · rename_i hact
    refine ⟨by simpa using hact, ?_⟩
    obtain hc | ⟨p, hc⟩ := Option.eq_none_or_eq_some s.curEv
    · have hnext : s.nextOffset = s.offset := by simp [Stream.nextOffset, hc]
      simp only [hc] at h
      exact ⟨by simp [hc], by rw [hnext]; exact h⟩
    · have hnext : s.nextOffset = s.offset + ovniEvSize (evAt s.buf p) := by
        simp [Stream.nextOffset, hc]
      rw [hnext]
      simp only [hc] at h
      split at h
      · cases h
      · split at h
        · cases h
        · exact ⟨fun _ => by omega, h⟩

/-- A step returns one exactly when the loaded event ends the file. -/
theorem streamStep_done {s s' : Stream} (h : streamStep s = .done s') :
    s.active = true ∧ s.curEv.isSome ∧ s.nextOffset = s.size ∧
      s' = { s with offset := s.size, active := false, curEv := none } := by
  unfold streamStep at h
  split at h
  · cases h
  · rename_i hact
    refine ⟨by simpa using hact, ?_⟩
    obtain hc | ⟨p, hc⟩ := Option.eq_none_or_eq_some s.curEv
    · simp only [hc] at h
      exact absurd h loadEvent_not_done
    · have hnext : s.nextOffset = s.offset + ovniEvSize (evAt s.buf p) := by
        simp [Stream.nextOffset, hc]
      simp only [hc] at h
      split at h
      · cases h
      · split at h
        · rename_i heq
          refine ⟨by simp [hc], by rw [hnext, heq], ?_⟩
          simp only [Ret.done.injEq] at h
          rw [← h, heq]
        · exact absurd h loadEvent_not_done

end Ovni
