import Ovni.Lib.MemReads
import Ovni.Player.Model

/-!
# What is read of a stream

A call of `stream_step` reads bytes of the events to know how large they are, before and
after it checks that they fit.  The flags of an event are in the file, but the size field
of a jumbo event is read before that check, and the size of the event is an `int`.
-/

namespace Ovni

open Ovni.Lib

/-! ## Reading an event -/

/-- `get_jumbo_payload_size` of the event at a position. -/
def getJumboPayloadSizeReads (m : Mem) (p : Int) : MemReads Nat := do
  let size ← m.readSlice (p + 12) 4
  return 4 + leNat size

/-- `ovni_payload_size` of the event at a position. -/
def ovniPayloadSizeReads (m : Mem) (p : Int) : MemReads Int := do
  let flags ← m.readByte p
  if flags &&& ovniEvJumbo != 0 then
    let size ← getJumboPayloadSizeReads m p
    return toInt32 size
  else
    let flags ← m.readByte p
    let size := (flags &&& 0x0f).toNat
    return if size = 0 then 0 else (size + 1 : Nat)

/-- `ovni_ev_size` of the event at a position. -/
def ovniEvSizeReads (m : Mem) (p : Int) : MemReads Int := do
  let size ← ovniPayloadSizeReads m p
  return toInt32 (evHeaderSize + size)

/-- `ovni_ev_get_clock` of the event at a position. -/
def ovniEvGetClockReads (m : Mem) (p : Int) : MemReads UInt64 := do
  let clock ← m.readSlice (p + 4) 8
  return UInt64.ofNat (leNat clock)

/-- `stream_evclock` of the event at a position. -/
def streamEvclockReads (s : Stream) (p : Int) : MemReads Int := do
  let clock ← ovniEvGetClockReads s.buf p
  return toInt64 (toInt64 clock.toNat + s.clockOffset)

/-- `emu_ev` of the event at a position. -/
def emuEvReads (ev : EmuEv) (m : Mem) (p sclock dclock : Int) : MemReads EmuEv := do
  let model ← m.readByte (p + 1)
  let category ← m.readByte (p + 2)
  let value ← m.readByte (p + 3)
  let clock ← ovniEvGetClockReads m p
  let size ← ovniPayloadSizeReads m p
  let ev := { ev with
    m := model, c := category, v := value
    rclock := toInt64 clock.toNat, sclock, dclock, payloadSize := toSize size }
  if 0 < ev.payloadSize then
    let flags ← m.readByte p
    return { ev with
      hasPayload := true
      payload := some fun i => m (p + 12 + i)
      isJumbo := if flags &&& ovniEvJumbo != 0 then true else ev.isJumbo }
  else return { ev with hasPayload := false, payload := none, isJumbo := false }

/-! ## Calls and the state they leave -/

/-- The second half of `stream_step`: what it returns and the state it leaves, also when
it fails. -/
def loadCall (s : Stream) : MemReads (Int × Stream) := do
  let s := { s with curEv := some s.offset }
  -- Ensure the event fits
  let size ← ovniEvSizeReads s.buf s.offset
  if s.size < s.offset + size then return (-1, s)
  let clock ← streamEvclockReads s s.offset
  if s.unsorted = false ∧ clock < s.lastclock then return (-1, s)
  return (0, { s with deltaclock := toInt64 (clock - s.lastclock), lastclock := clock })

/-- `stream_step` with the state it leaves, also when it fails. -/
def streamCall (s : Stream) : MemReads (Int × Stream) := do
  if s.active = false then return (-1, s)
  match s.curEv with
  | none => loadCall s
  | some p =>
      let size ← ovniEvSizeReads s.buf p
      let s := { s with offset := s.offset + size }
      if s.size < s.offset then return (-1, s)
      if s.offset = s.size then return (1, { s with active := false, curEv := none })
      loadCall s

/-- The call looks at the event at the next offset. -/
def Stream.Loads (s : Stream) : Prop :=
  s.active = true ∧ (s.curEv.isSome → s.nextOffset < s.size)

/-- A position of the file. -/
def Stream.Inside (s : Stream) (b : Int) : Prop := 0 ≤ b ∧ b < s.size

/-- The event is in the file, and so is what `emu_ev` reads of it. -/
structure EventInside (s : Stream) (p : Int) : Prop where
  lo : 0 ≤ p
  hi : p + 12 + toSize (ovniPayloadSize (evAt s.buf p)) ≤ s.size
  reads : ∀ ev sclock dclock, ∀ b ∈ (emuEvReads ev s.buf p sclock dclock).reads, s.Inside b

/-- A call reads bytes of the file only, fails on an event whose header or size field
is not whole, and accepts an event only when it is in the file. -/
structure InBounds (s : Stream) : Prop where
  reads : ∀ b ∈ (streamCall s).reads, s.Inside b
  truncated : s.Loads → (s.size < s.nextOffset + 12 ∨
    (evAt s.buf s.nextOffset).isJumbo = true ∧ s.size < s.nextOffset + 16) →
    (streamCall s).value.1 = -1
  accepted : ∀ s', (streamCall s).value = (0, s') → ∃ p, s'.curEv = some p ∧ EventInside s' p

/-! ## What an event gives and what is read of it -/

/-- The bytes that decide the size of an event: the flags, and the size field of a jumbo
event. -/
def SizeReads (m : Mem) (p b : Int) : Prop :=
  b = p ∨ (evAt m p).isJumbo = true ∧ p + 12 ≤ b ∧ b < p + 16

theorem payloadSizeReads_gives (m : Mem) (p : Int) :
    ∃ reads, (ovniPayloadSizeReads m p).Gives (ovniPayloadSize (evAt m p)) reads ∧
      ∀ b ∈ reads, SizeReads m p b := by
  have hflags := MemReads.gives_readByte m p
  cases hjumbo : (evAt m p).isJumbo with
  | true =>
      have hmark : (m p &&& ovniEvJumbo != 0) = true := hjumbo
      have hsize : ovniPayloadSize (evAt m p) =
          toInt32 (4 + leNat (m.slice (p + 12) 4) : Nat) := by
        unfold ovniPayloadSize getJumboPayloadSize
        rw [if_pos hjumbo]
        rfl
      refine ⟨[p] ++ (List.range 4).map fun i : Nat => p + 12 + i, hflags.bind ?_, fun b hb => ?_⟩
      · rw [if_pos hmark, hsize]
        exact ((MemReads.gives_readSlice m (p + 12) 4).map fun size => 4 + leNat size).map
          fun size : Nat => toInt32 size
      · rw [List.singleton_append, List.mem_cons, MemReads.mem_slice_reads] at hb
        rcases hb with rfl | hb
        · exact .inl rfl
        · exact .inr ⟨hjumbo, hb.1, by omega⟩
  | false =>
      have hmark : (m p &&& ovniEvJumbo != 0) = false := hjumbo
      have hsize : ovniPayloadSize (evAt m p) =
          if (m p &&& 0x0f).toNat = 0 then (0 : Int) else ((m p &&& 0x0f).toNat + 1 : Nat) := by
        unfold ovniPayloadSize
        rw [hjumbo]
        rfl
      refine ⟨[p] ++ [p], hflags.bind ?_, fun b hb => ?_⟩
      · rw [if_neg (by rw [hmark]; exact Bool.false_ne_true), hsize]
        exact hflags.map fun flags =>
          if (flags &&& 0x0f).toNat = 0 then (0 : Int) else ((flags &&& 0x0f).toNat + 1 : Nat)
      · rw [List.singleton_append, List.mem_cons, List.mem_singleton, or_self] at hb
        exact .inl hb

theorem evSizeReads_gives (m : Mem) (p : Int) :
    ∃ reads, (ovniEvSizeReads m p).Gives (ovniEvSize (evAt m p)) reads ∧
      ∀ b ∈ reads, SizeReads m p b := by
  obtain ⟨reads, hgives, hreads⟩ := payloadSizeReads_gives m p
  exact ⟨reads, hgives.map fun size => toInt32 (evHeaderSize + size), hreads⟩

/-- The positions of the clock of an event. -/
def clockReads (p : Int) : List Int := (List.range 8).map fun i : Nat => p + 4 + i

theorem getClockReads_gives (m : Mem) (p : Int) :
    (ovniEvGetClockReads m p).Gives (evAt m p).clock (clockReads p) :=
  (MemReads.gives_readSlice m (p + 4) 8).map fun clock => UInt64.ofNat (leNat clock)

theorem evclockReads_gives (s : Stream) (p : Int) :
    (streamEvclockReads s p).Gives (streamEvclock s (evAt s.buf p)) (clockReads p) :=
  (getClockReads_gives s.buf p).map fun clock => toInt64 (toInt64 clock.toNat + s.clockOffset)

/-- What `emu_ev` reads up to the payload. -/
def headerReads (p : Int) (size : List Int) : List Int :=
  [p + 1] ++ ([p + 2] ++ ([p + 3] ++ (clockReads p ++ size)))

theorem mem_headerReads {m : Mem} {p b : Int} {size : List Int}
    (hsize : ∀ b ∈ size, SizeReads m p b) (h : b ∈ headerReads p size) :
    p ≤ b ∧ b < p + 12 ∨ SizeReads m p b := by
  unfold headerReads clockReads at h
  simp only [List.mem_append, List.mem_singleton, MemReads.mem_slice_reads] at h
  rcases h with h | h | h | h | h
  · omega
  · omega
  · omega
  · omega
  · exact .inr (hsize b h)

/-- `emu_ev` fills the event with what it reads of the header and the size field. -/
theorem emuEvReads_gives (ev : EmuEv) (m : Mem) (p sclock dclock : Int) :
    ∃ reads, (emuEvReads ev m p sclock dclock).Gives (emuEv ev (evAt m p) sclock dclock) reads ∧
      ∀ b ∈ reads, p ≤ b ∧ b < p + 12 ∨ SizeReads m p b := by
  obtain ⟨size, hsize, hreads⟩ := payloadSizeReads_gives m p
  have hbyte := MemReads.gives_readByte m
  by_cases hpay : 0 < toSize (ovniPayloadSize (evAt m p))
  · refine ⟨headerReads p (size ++ [p]), (hbyte (p + 1)).bind ((hbyte (p + 2)).bind
      ((hbyte (p + 3)).bind ((getClockReads_gives m p).bind (hsize.bind ?_)))), fun b hb => ?_⟩
    · unfold emuEv
      rw [if_pos hpay, if_pos hpay]
      exact (hbyte p).map _
    · refine mem_headerReads (fun b hb => ?_) hb
      rcases List.mem_append.mp hb with hb | hb
      · exact hreads b hb
      · exact .inl (List.mem_singleton.mp hb)
  · refine ⟨headerReads p (size ++ []), (hbyte (p + 1)).bind ((hbyte (p + 2)).bind
      ((hbyte (p + 3)).bind ((getClockReads_gives m p).bind (hsize.bind ?_)))), fun b hb => ?_⟩
    · unfold emuEv
      rw [if_neg hpay, if_neg hpay]
      exact MemReads.gives_pure _
    · rw [List.append_nil] at hb
      exact mem_headerReads hreads hb

/-! ## What a call can do -/

/-- The bytes that a call reads: for the size of the event that it leaves, for the size
of the next one and, when that fits, for its clock. -/
inductive CallReads (s : Stream) : Int → Prop where
  | left {p b : Int} (hact : s.active = true) (hcur : s.curEv = some p)
      (h : SizeReads s.buf p b) : CallReads s b
  | size {b : Int} (hload : s.Loads) (h : SizeReads s.buf s.nextOffset b) : CallReads s b
  | clock {b : Int} (hload : s.Loads)
      (hfit : s.nextOffset + ovniEvSize (evAt s.buf s.nextOffset) ≤ s.size)
      (h : s.nextOffset + 4 ≤ b ∧ b < s.nextOffset + 12) : CallReads s b

/-- What a call returns, and the state it leaves. -/
inductive CallOutcome (s : Stream) : Int × Stream → Prop where
  | inactive (hact : s.active = false) : CallOutcome s (-1, s)
  | beyond {p : Int} (hact : s.active = true) (hcur : s.curEv = some p)
      (hover : s.size < s.nextOffset) : CallOutcome s (-1, { s with offset := s.nextOffset })
  | finished {p : Int} (hact : s.active = true) (hcur : s.curEv = some p)
      (hend : s.nextOffset = s.size) :
      CallOutcome s (1, { s with offset := s.nextOffset, active := false, curEv := none })
  | loaded (hload : s.Loads)
      (hok : loadEvent { s with offset := s.nextOffset } =
        .ok { s with offset := s.nextOffset }.loaded) :
      CallOutcome s (0, { s with offset := s.nextOffset }.loaded)
  | refused {msg : String} (hload : s.Loads)
      (herr : loadEvent { s with offset := s.nextOffset } = .err msg) :
      CallOutcome s (-1, { s with offset := s.nextOffset, curEv := some s.nextOffset })

theorem loadCall_outcome (s : Stream) :
    ∃ r reads, (loadCall s).Gives r reads ∧
      (loadEvent s = .ok s.loaded ∧ r = (0, s.loaded) ∨
        (∃ msg, loadEvent s = .err msg) ∧ r = (-1, { s with curEv := some s.offset })) ∧
      ∀ b ∈ reads, SizeReads s.buf s.offset b ∨
        s.offset + ovniEvSize (evAt s.buf s.offset) ≤ s.size ∧
          s.offset + 4 ≤ b ∧ b < s.offset + 12 := by
  obtain ⟨size, hsize, hreads⟩ := evSizeReads_gives s.buf s.offset
  by_cases hfit : s.size < s.offset + ovniEvSize (evAt s.buf s.offset)
  · refine ⟨_, size ++ [], hsize.bind ?_, .inr ⟨?_, rfl⟩, fun b hb => ?_⟩
    · exact .of_pos hfit (MemReads.gives_pure _)
    · unfold loadEvent
      exact ⟨_, if_pos hfit⟩
    · rw [List.append_nil] at hb
      exact .inl (hreads b hb)
  · have hread : ∀ b ∈ size ++ (clockReads s.offset ++ []), SizeReads s.buf s.offset b ∨
        s.offset + ovniEvSize (evAt s.buf s.offset) ≤ s.size ∧
          s.offset + 4 ≤ b ∧ b < s.offset + 12 := by
      intro b hb
      rw [List.append_nil, List.mem_append] at hb
      rcases hb with hb | hb
      · exact .inl (hreads b hb)
      · have := MemReads.mem_slice_reads.mp hb
        omega
    have hclock := evclockReads_gives { s with curEv := some s.offset } s.offset
    by_cases hback : s.unsorted = false ∧ streamEvclock s (evAt s.buf s.offset) < s.lastclock
    · refine ⟨_, _, hsize.bind (.of_neg hfit (hclock.bind ?_)), .inr ⟨?_, rfl⟩, hread⟩
      · exact .of_pos hback (MemReads.gives_pure _)
      · unfold loadEvent
        simp only
        rw [if_neg hfit, if_pos hback]
        exact ⟨_, rfl⟩
    · refine ⟨_, _, hsize.bind (.of_neg hfit (hclock.bind ?_)), .inl ⟨?_, rfl⟩, hread⟩
      · exact .of_neg hback (MemReads.gives_pure _)
      · unfold loadEvent
        simp only
        rw [if_neg hfit, if_neg hback]
        rfl

/-- A call that looks at the event at the next offset. -/
theorem loadCall_next {s : Stream} (hload : s.Loads) :
    ∃ r reads, (loadCall { s with offset := s.nextOffset }).Gives r reads ∧ CallOutcome s r ∧
      ∀ b ∈ reads, CallReads s b := by
  obtain ⟨r, reads, hgives, hr, hreads⟩ := loadCall_outcome { s with offset := s.nextOffset }
  refine ⟨r, reads, hgives, ?_, fun b hb => ?_⟩
  · rcases hr with ⟨hok, rfl⟩ | ⟨⟨msg, herr⟩, rfl⟩
    · exact .loaded hload hok
    · exact .refused hload herr
  · rcases hreads b hb with hb | ⟨hfit, hb⟩
    · exact .size hload hb
    · exact .clock hload hfit hb

theorem streamCall_gives (s : Stream) :
    ∃ r reads, (streamCall s).Gives r reads ∧ CallOutcome s r ∧ ∀ b ∈ reads, CallReads s b := by
  unfold streamCall
  by_cases hact : s.active = false
  · refine ⟨_, [], ?_, .inactive hact, by simp⟩
    rw [if_pos hact]
    exact MemReads.gives_pure _
  rw [if_neg hact]
  rw [Bool.not_eq_false] at hact
  cases hcur : s.curEv with
  | none =>
      have hnext : s.nextOffset = s.offset := by simp [Stream.nextOffset, hcur]
      have hcall := loadCall_next (s := s) ⟨hact, by simp [hcur]⟩
      rwa [hnext] at hcall
  | some p =>
      have hnext : s.nextOffset = s.offset + ovniEvSize (evAt s.buf p) := by
        simp [Stream.nextOffset, hcur]
      obtain ⟨size, hsize, hreads⟩ := evSizeReads_gives s.buf p
      have hleft : ∀ b ∈ size ++ [], CallReads s b := by
        intro b hb
        rw [List.append_nil] at hb
        exact .left hact hcur (hreads b hb)
      by_cases hover : s.size < s.nextOffset
      · refine ⟨_, _, hsize.bind ?_, .beyond hact hcur hover, hleft⟩
        rw [hnext] at hover ⊢
        rw [if_pos hover, hcur]
        exact MemReads.gives_pure _
      by_cases hend : s.nextOffset = s.size
      · refine ⟨_, _, hsize.bind ?_, .finished hact hcur hend, hleft⟩
        rw [hnext] at hover hend ⊢
        rw [if_neg hover, if_pos hend]
        exact MemReads.gives_pure _
      · obtain ⟨r, reads, hgives, hr, hload⟩ :=
          loadCall_next (s := s) ⟨hact, fun _ => by omega⟩
        refine ⟨r, size ++ reads, hsize.bind ?_, hr, fun b hb => ?_⟩
        · rw [hnext] at hover hend hgives
          rw [if_neg hover, if_neg hend, ← hcur]
          exact hgives
        · rcases List.mem_append.mp hb with hb | hb
          · exact hleft b (List.mem_append_left _ hb)
          · exact hload b hb

theorem streamCall_outcome (s : Stream) : CallOutcome s (streamCall s).value := by
  obtain ⟨r, reads, hgives, hr, -⟩ := streamCall_gives s
  rwa [hgives.value_eq]

theorem mem_streamCall_reads {s : Stream} {b : Int} (h : b ∈ (streamCall s).reads) :
    CallReads s b := by
  obtain ⟨r, reads, hgives, -, hreads⟩ := streamCall_gives s
  rw [hgives.reads_eq] at h
  exact hreads b h

/-- The call returns what the step does, with its state when it does not fail. -/
theorem streamCall_eq (s : Stream) :
    match streamStep s with
    | .ok s' => (streamCall s).value = (0, s')
    | .done s' => (streamCall s).value = (1, s')
    | .err _ => (streamCall s).value.1 = -1 := by
  generalize hr : (streamCall s).value = r
  have hout := streamCall_outcome s
  rw [hr] at hout
  cases hout with
  | inactive hact =>
      unfold streamStep
      rw [if_pos hact]
  | beyond hact hcur hover =>
      have hnext := hover
      simp only [Stream.nextOffset, hcur] at hnext
      unfold streamStep
      rw [if_neg (by rw [hact]; exact Bool.true_eq_false.mp), hcur]
      simp only
      rw [if_pos hnext]
      trivial
  | finished hact hcur hend =>
      rw [streamStep_eq_done hact (by rw [hcur]; rfl) hend, hend]
  | loaded hload hok => rw [streamStep_eq_load hload.1 hload.2, hok]
  | refused hload herr => rw [streamStep_eq_load hload.1 hload.2, herr]

/-! ## One call -/

/-- The sizes of a jumbo event that are not what its size field says, as an `int`. -/
def WrappedSize (ev : OvniEv) : Prop := 2 ^ 31 - 16 ≤ ev.jumboSize ∧ ev.jumboSize < 2 ^ 32 - 4

/-- When a jumbo event comes next, its size field is in the file and its size is an `int`. -/
def SizedAhead (s : Stream) : Prop :=
  s.Loads → (evAt s.buf s.nextOffset).isJumbo = true →
    s.nextOffset + 16 ≤ s.size ∧ ¬ WrappedSize (evAt s.buf s.nextOffset)

/-- The event that a call leaves. -/
structure LeftEvent (s : Stream) (p : Int) : Prop where
  lo : 8 ≤ p
  hi : p < s.size
  jumbo : (evAt s.buf p).isJumbo = true → p + 16 ≤ s.size
  pos : 0 < ovniEvSize (evAt s.buf p)

/-- The state between calls. -/
structure Bounded (s : Stream) : Prop where
  lo : 8 ≤ s.offset
  first : s.active = true → s.curEv = none → s.offset < s.size
  left : ∀ p, s.curEv = some p → LeftEvent s p

/-- The size of a jumbo event that is not wrapped. -/
theorem jumbo_size {ev : OvniEv} (h : ev.isJumbo = true) (hwrap : ¬ WrappedSize ev) :
    0 ≤ ovniPayloadSize ev ∧ ovniEvSize ev = 12 + ovniPayloadSize ev := by
  have hlt := ev.jumboSize_lt
  have hpay : ovniPayloadSize ev = toInt32 (4 + (ev.jumboSize : Int)) := by
    simp [ovniPayloadSize, h, getJumboPayloadSize]
  rw [toInt32_of_turn (by omega) (by omega)] at hpay
  unfold WrappedSize at hwrap
  rw [ovniEvSize_jumbo h, hpay]
  split_ifs <;> omega

/-- An event that is not a wrapped jumbo. -/
theorem event_size {ev : OvniEv} (hwrap : ev.isJumbo = true → ¬ WrappedSize ev) :
    0 ≤ ovniPayloadSize ev ∧ ovniEvSize ev = 12 + ovniPayloadSize ev := by
  cases hj : ev.isJumbo with
  | false =>
      have hp := ovniPayloadSize_normal hj
      exact ⟨by omega, ovniEvSize_normal hj⟩
  | true => exact jumbo_size hj (hwrap hj)

theorem Bounded.nextOffset {s : Stream} (h : Bounded s) (hload : s.Loads) :
    8 ≤ s.nextOffset ∧ s.nextOffset < s.size := by
  obtain ⟨hact, hlt⟩ := hload
  have hlo := h.lo
  cases hcur : s.curEv with
  | none =>
      have hnext : s.nextOffset = s.offset := by simp [Stream.nextOffset, hcur]
      rw [hnext]
      exact ⟨hlo, h.first hact hcur⟩
  | some p =>
      have hnext : s.nextOffset = s.offset + ovniEvSize (evAt s.buf p) := by
        simp [Stream.nextOffset, hcur]
      have hpos := (h.left p hcur).pos
      exact ⟨by omega, hlt (by simp [hcur])⟩

/-- The event that the call looks at may be left by the next one. -/
theorem Bounded.ahead {s : Stream} (h : Bounded s) (hahead : SizedAhead s) (hload : s.Loads) :
    LeftEvent s s.nextOffset := by
  obtain ⟨hlo, hhi⟩ := h.nextOffset hload
  obtain ⟨hpay, hsize⟩ := event_size fun hj => (hahead hload hj).2
  exact ⟨hlo, hhi, fun hj => (hahead hload hj).1, by omega⟩

theorem LeftEvent.sizeReads {s : Stream} {p b : Int} (h : LeftEvent s p)
    (hb : SizeReads s.buf p b) : 0 ≤ b ∧ b < s.size := by
  have hlo := h.lo
  have hhi := h.hi
  rcases hb with rfl | ⟨hj, hb⟩
  · omega
  · have hjumbo := h.jumbo hj
    omega

/-- A call that returns zero has checked that the event fits, and leaves it loaded. -/
theorem streamCall_zero {s s' : Stream} (h : (streamCall s).value = (0, s')) :
    s.Loads ∧ s.nextOffset + ovniEvSize (evAt s.buf s.nextOffset) ≤ s.size ∧
      s'.curEv = some s.nextOffset ∧ s'.buf = s.buf ∧ s'.size = s.size := by
  have hout := streamCall_outcome s
  rw [h] at hout
  cases hout with
  | loaded hload hok => exact ⟨hload, (loadEvent_ok hok).1, rfl, rfl, rfl⟩

/-- A call that looks at an event that does not fit fails. -/
theorem streamCall_misfit {s : Stream} (hload : s.Loads)
    (hfit : s.size < s.nextOffset + ovniEvSize (evAt s.buf s.nextOffset)) :
    (streamCall s).value.1 = -1 := by
  have heq := streamCall_eq s
  rw [streamStep_eq_load hload.1 hload.2] at heq
  unfold loadEvent at heq
  rw [if_pos hfit] at heq
  exact heq

/-- An event that a call accepts, when it is not a wrapped jumbo. -/
theorem Bounded.accepted {s s' : Stream} (h : Bounded s) (hahead : SizedAhead s)
    (hok : (streamCall s).value = (0, s')) :
    ∃ p, s'.curEv = some p ∧ EventInside s' p := by
  obtain ⟨hload, hfit, hcur, hbuf, hsize⟩ := streamCall_zero hok
  obtain ⟨hlo, -⟩ := h.nextOffset hload
  obtain ⟨hpay, heq⟩ := event_size fun hj => (hahead hload hj).2
  have hleft := h.ahead hahead hload
  have hbound := (toInt32_bounds (12 + ovniPayloadSize (evAt s.buf s.nextOffset))).2
  have hle : ovniPayloadSize (evAt s.buf s.nextOffset) < 2 ^ 31 := by
    unfold ovniEvSize evHeaderSize at heq
    push_cast at heq
    omega
  refine ⟨s.nextOffset, hcur, by omega, ?_, fun ev sclock dclock b hb => ?_⟩
  · rw [hbuf, hsize, toSize_of_nonneg hpay (by omega)]
    omega
  · obtain ⟨reads, hgives, hreads⟩ := emuEvReads_gives ev s.buf s.nextOffset sclock dclock
    rw [hbuf, hgives.reads_eq] at hb
    unfold Stream.Inside
    rw [hsize]
    rcases hreads b hb with hb | hb
    · omega
    · exact hleft.sizeReads hb

theorem Bounded.inBounds {s : Stream} (h : Bounded s) (hahead : SizedAhead s) : InBounds s := by
  have hsize : s.Loads → 0 ≤ ovniPayloadSize (evAt s.buf s.nextOffset) ∧
      ovniEvSize (evAt s.buf s.nextOffset) =
        12 + ovniPayloadSize (evAt s.buf s.nextOffset) :=
    fun hload => event_size fun hj => (hahead hload hj).2
  refine ⟨fun b hb => ?_, fun hload htrunc => ?_, fun s' hok => h.accepted hahead hok⟩
  · cases mem_streamCall_reads hb with
    | left hact hcur hb => exact (h.left _ hcur).sizeReads hb
    | size hload hb => exact (h.ahead hahead hload).sizeReads hb
    | clock hload hfit hb =>
        have hlo := (h.nextOffset hload).1
        obtain ⟨hpay, heq⟩ := hsize hload
        exact ⟨by omega, by omega⟩
  · obtain ⟨hpay, heq⟩ := hsize hload
    apply streamCall_misfit hload
    rcases htrunc with hlt | ⟨hj, hlt⟩
    · omega
    · have := (hahead hload hj).1
      omega

/-! ## All calls -/

/-- The state that a call leaves on an event. -/
theorem LeftEvent.bounded {s s' : Stream} {p : Int} (h : LeftEvent s p)
    (hcur : s'.curEv = some p) (hbuf : s'.buf = s.buf) (hsize : s'.size = s.size)
    (hlo : 8 ≤ s'.offset) : Bounded s' := by
  refine ⟨hlo, fun _ hnone => ?_, fun p' hp' => ?_⟩
  · rw [hcur] at hnone
    cases hnone
  · obtain rfl : p = p' := Option.some.inj (hcur.symm.trans hp')
    refine ⟨h.lo, ?_, ?_, ?_⟩
    · rw [hsize]
      exact h.hi
    · rw [hbuf, hsize]
      exact h.jumbo
    · rw [hbuf]
      exact h.pos

/-- Every call leaves a state where the next one can start. -/
theorem Bounded.call {s : Stream} (h : Bounded s) (hahead : SizedAhead s) :
    Bounded (streamCall s).value.2 := by
  have hpast : ∀ {p}, s.curEv = some p → 8 ≤ s.nextOffset := by
    intro p hcur
    have hnext : s.nextOffset = s.offset + ovniEvSize (evAt s.buf p) := by
      simp [Stream.nextOffset, hcur]
    have hlo := h.lo
    have hpos := (h.left p hcur).pos
    omega
  generalize hr : (streamCall s).value = r
  have hout := streamCall_outcome s
  rw [hr] at hout
  cases hout with
  | inactive hact => exact h
  | beyond hact hcur hover => exact (h.left _ hcur).bounded hcur rfl rfl (hpast hcur)
  | finished hact hcur hend =>
      refine ⟨hpast hcur, fun hact => ?_, fun p hp => ?_⟩
      · cases hact
      · cases hp
  | loaded hload hok =>
      have hleft := h.ahead hahead hload
      exact hleft.bounded rfl rfl rfl hleft.lo
  | refused hload herr =>
      have hleft := h.ahead hahead hload
      exact hleft.bounded rfl rfl rfl hleft.lo

/-- The states after any number of calls, whatever they return, as long as the jumbo
events that come next are sized. -/
inductive CallRun (s₀ : Stream) : Stream → Prop where
  | start : CallRun s₀ s₀
  | call {s : Stream} (h : CallRun s₀ s) (hahead : SizedAhead s) :
      CallRun s₀ (streamCall s).value.2

theorem CallRun.bounded {s₀ s : Stream} (h : CallRun s₀ s) (hs : Bounded s₀) : Bounded s := by
  induction h with
  | start => exact hs
  | call _ hahead ih => exact ih.call hahead

/-- In every sequence of calls on a loaded file, while no jumbo event comes next whose
size field is not in the file or whose size is not an `int`, every byte that a call reads
is in the file, an event that is not whole is refused, and an accepted one is in the file
with all that is read of it. -/
theorem stream_reads_inside {file : List UInt8} {beyond : Mem} {s₀ s : Stream} (clkoff : Int)
    (unsorted : Bool) (hload : loadObs file beyond = .ok s₀)
    (h : CallRun (s₀.configured clkoff unsorted) s) (hahead : SizedAhead s) : InBounds s := by
  obtain ⟨hcur, -, -, -, hoff, -, hact, -, -⟩ := loadObs_ok hload
  refine (h.bounded ⟨?_, fun hon _ => ?_, fun p hp => ?_⟩).inBounds hahead
  · simp [Stream.configured, hoff]
  · simp only [Stream.configured, hact, decide_eq_true_eq] at hon
    simpa [Stream.configured, hoff] using hon
  · rw [Stream.configured, hcur] at hp
    cases hp

/-- The file of three events, cut in the header of the last one. -/
def cutEventStream : Stream :=
  Stream.fresh (Mem.patch (fun _ => 0) 0 (threeEventFile.take 49)) 49

/-- The stream before the calls, and after each of the first two. -/
def cutStart : Stream := cutEventStream.configured 0 false

def cutFirst : Stream := (streamCall cutStart).value.2

def cutSecond : Stream := (streamCall cutFirst).value.2

theorem cutStart_sized : SizedAhead cutStart := fun _ hj => absurd hj (by decide +kernel)

theorem cutFirst_sized : SizedAhead cutFirst := fun _ _ =>
  ⟨by decide +kernel, fun hwrap => absurd hwrap.1 (by decide +kernel)⟩

theorem cutSecond_sized : SizedAhead cutSecond := fun _ hj => absurd hj (by decide +kernel)

/-- The calls over a normal event, a jumbo event and the start of an event. -/
theorem stream_reads_inside_cut :
    loadObs (threeEventFile.take 49) (fun _ => 0) = .ok cutEventStream ∧
    ∃ s0 s1 s2, s0 = cutEventStream.configured 0 false ∧ s1 = (streamCall s0).value.2 ∧
      s2 = (streamCall s1).value.2 ∧ InBounds s0 ∧ InBounds s1 ∧ InBounds s2 ∧
      (evAt s1.buf s1.nextOffset).isJumbo = true ∧ (∃ s', (streamCall s1).value = (0, s')) ∧
      (streamCall s2).reads = [20, 32, 33, 34, 35, 44, 44] ∧ (streamCall s2).value.1 = -1 := by
  have hload : loadObs (threeEventFile.take 49) (fun _ => 0) = .ok cutEventStream := rfl
  have hrun1 : CallRun cutStart cutFirst := .call .start cutStart_sized
  have hrun2 : CallRun cutStart cutSecond := .call hrun1 cutFirst_sized
  have hin0 : InBounds cutStart := stream_reads_inside 0 false hload .start cutStart_sized
  have hin1 : InBounds cutFirst := stream_reads_inside 0 false hload hrun1 cutFirst_sized
  have hin2 : InBounds cutSecond := stream_reads_inside 0 false hload hrun2 cutSecond_sized
  have hjumbo : (evAt cutFirst.buf cutFirst.nextOffset).isJumbo = true := by
    decide +kernel
  have htaken : (streamCall cutFirst).value = (0, cutSecond) :=
    Prod.ext (by decide +kernel) rfl
  have hreads : (streamCall cutSecond).reads = [20, 32, 33, 34, 35, 44, 44] := by
    decide +kernel
  refine ⟨hload, cutStart, cutFirst, cutSecond, rfl, rfl, rfl, hin0, hin1, hin2, hjumbo,
    ⟨cutSecond, htaken⟩, hreads, ?_⟩
  exact hin2.truncated ⟨rfl, fun _ => by decide +kernel⟩ (.inl (by decide +kernel))

/-- A stream file that ends after the header of a jumbo event. -/
def cutJumboFile : List UInt8 :=
  ovniStreamMagic ++ [1, 0, 0, 0] ++ [0x10, 0x4f, 0x55, 0x5b] ++ leBytes 8 0

/-- The first call reads the size field of the jumbo event, which starts where the file
ends. -/
theorem stream_reads_past_end : ∃ s₀, loadObs cutJumboFile (fun _ => 0) = .ok s₀ ∧
    s₀.size ∈ (streamCall s₀).reads ∧ ¬ InBounds s₀ := by
  have hload : loadObs cutJumboFile (fun _ => 0) =
      .ok (Stream.fresh (Mem.patch (fun _ => 0) 0 cutJumboFile) 20) := rfl
  have hreads : (20 : Int) ∈
      (streamCall (Stream.fresh (Mem.patch (fun _ => 0) 0 cutJumboFile) 20)).reads := by
    decide +kernel
  refine ⟨_, hload, hreads, fun hin => ?_⟩
  exact absurd (hin.reads 20 hreads).2 (by decide +kernel)

end Ovni
