import Ovni.Runtime.Encode
import Ovni.Stream.Progress

/-!
# What the writer leaves in the stream

The file together with the buffer always holds the stream header and a sequence
of records: the events of the user and the flush events.  A flush moves bytes
from the buffer to the file and a copy adds one record at the end, so every
call is described by the records it adds.
-/

namespace Ovni

open Ovni.Lib

/-- An event in the stream: one of the user, or the start or end of a flush. -/
inductive Record where
  | user (bytes : List UInt8)
  | opened (t : UInt64)
  | closed (t : UInt64)

/-- The bytes of a record. -/
def Record.bytes : Record → List UInt8
  | .user bytes => bytes
  | .opened t => normalBytes (flushOpen t)
  | .closed t => normalBytes (flushClose t)

/-- The thread is ready and its file and buffer hold the header and the records. -/
structure Holds (st : Rthread) (recs : List Record) : Prop where
  ready : st.ready = true
  procReady : st.procReady = true
  room : st.evlen < ovniMaxEvBuf
  content : st.file ++ st.evbuf.slice 0 st.evlen =
    headerOfStream ++ (recs.map Record.bytes).flatten

/-- A call returns with `Q` or dies; it neither leaves the buffer nor recurses
without end. -/
def Returns (Q : Rthread → Prop) : Runtime → Prop
  | .ok st => Q st
  | .error (.die _) => True
  | .error .overflow => False
  | .error .rounds => False

theorem Returns.bind {P Q : Rthread → Prop} {x : Runtime} {f : Rthread → Runtime}
    (hx : Returns P x) (hf : ∀ st, P st → Returns Q (f st)) : Returns Q (x >>= f) := by
  match x, hx with
  | .ok st, hx => exact hf st hx
  | .error (.die _), _ => trivial

theorem Returns.imp {P Q : Rthread → Prop} {x : Runtime} (hx : Returns P x)
    (h : ∀ st, P st → Q st) : Returns Q x := by
  match x, hx with
  | .ok st, hx => exact h st hx
  | .error (.die _), _ => trivial

/-! ## Copies and flushes -/

section Steps

variable {st : Rthread} {recs : List Record}

theorem slice_patch_end (m : Mem) (n : Nat) (bs : List UInt8) :
    (m.patch n bs).slice 0 (n + bs.length) = m.slice 0 n ++ bs := by
  rw [Mem.slice_add, Mem.slice_patch_disjoint _ _ _ _ _ (by omega), Int.zero_add,
    Mem.slice_patch_same]

/-- A copy that fits adds its bytes to what the thread holds. -/
theorem copyToBuf_spec (st : Rthread) (bs : List UInt8)
    (hfit : st.evlen + bs.length < ovniMaxEvBuf) :
    ∃ st', copyToBuf st bs = .ok st' ∧ st'.evlen = st.evlen + bs.length ∧
      st'.reads = st.reads ∧ st'.ready = st.ready ∧ st'.procReady = st.procReady ∧
      st'.file = st.file ∧
      st'.evbuf.slice 0 st'.evlen = st.evbuf.slice 0 st.evlen ++ bs := by
  unfold copyToBuf
  rw [if_neg (by omega)]
  exact ⟨_, rfl, rfl, rfl, rfl, rfl, rfl, slice_patch_end _ _ _⟩

theorem Holds.copy {r : Record} (h : Holds st recs)
    (hfit : st.evlen + r.bytes.length < ovniMaxEvBuf) :
    ∃ st', copyToBuf st r.bytes = .ok st' ∧ Holds st' (recs ++ [r]) ∧
      st'.evlen = st.evlen + r.bytes.length ∧ st'.reads = st.reads ∧ st'.file = st.file := by
  obtain ⟨st', hok, hlen, hreads, hready, hproc, hfile, hbuf⟩ := copyToBuf_spec st r.bytes hfit
  refine ⟨st', hok, ⟨hready ▸ h.ready, hproc ▸ h.procReady, by omega, ?_⟩, hlen, hreads,
    hfile⟩
  rw [hfile, hbuf, ← List.append_assoc, h.content]
  simp

/-- A record copied in two parts. -/
theorem Holds.copyTwo {r : Record} {a b : List UInt8} (h : Holds st recs)
    (hr : r.bytes = a ++ b) (hfit : st.evlen + r.bytes.length < ovniMaxEvBuf) :
    ∃ st₁ st', copyToBuf st a = .ok st₁ ∧ copyToBuf st₁ b = .ok st' ∧
      Holds st' (recs ++ [r]) ∧ st'.evlen = st.evlen + r.bytes.length ∧
      st'.reads = st.reads := by
  have hlen : r.bytes.length = a.length + b.length := by rw [hr, List.length_append]
  obtain ⟨st₁, hok₁, hlen₁, hreads₁, hready₁, hproc₁, hfile₁, hbuf₁⟩ :=
    copyToBuf_spec st a (by omega)
  obtain ⟨st', hok', hlen', hreads', hready', hproc', hfile', hbuf'⟩ :=
    copyToBuf_spec st₁ b (by omega)
  refine ⟨st₁, st', hok₁, hok', ⟨?_, ?_, by omega, ?_⟩, by omega, by omega⟩
  · rw [hready', hready₁, h.ready]
  · rw [hproc', hproc₁, h.procReady]
  · rw [hfile', hfile₁, hbuf', hbuf₁, List.append_assoc, ← hr, ← List.append_assoc, h.content]
    simp

/-- The state after a flush of the buffer between two clock reads. -/
theorem Holds.timedFlush (clk : Nat → UInt64) (h : Holds st recs) :
    ∃ st', timedFlush clk st = (clk st.reads, clk (st.reads + 1), st') ∧ Holds st' recs ∧
      st'.evlen = 0 ∧ st'.reads = st.reads + 2 ∧
      st'.file = headerOfStream ++ (recs.map Record.bytes).flatten := by
  refine ⟨_, rfl, ⟨h.ready, h.procReady, by simp [flushEvbuf, ovniMaxEvBuf], ?_⟩, rfl, rfl,
    h.content⟩
  simpa [flushEvbuf, writeEvbuf, ovniClockNow, Mem.slice] using h.content

end Steps

/-! ## Insertion of normal events -/

section Add

variable (clk : Nat → UInt64) {st : Rthread} {recs : List Record} {ev : OvniEv} {r : Record}

omit clk in
theorem isJumbo_of_flags_zero (h : ev.flags = 0) : ev.isJumbo = false := by
  unfold OvniEv.isJumbo
  rw [h]
  decide

omit clk in
theorem ovniPayloadSize_of_flags_zero (h : ev.flags = 0) : ovniPayloadSize ev = 0 := by
  simp [ovniPayloadSize, isJumbo_of_flags_zero h, h]

omit clk in
/-- An event without flags is a bare header. -/
theorem length_normalBytes_bare (h : ev.flags = 0) : (normalBytes ev).length = 12 := by
  have hj := isJumbo_of_flags_zero h
  have hpay := ovniPayloadSize_of_flags_zero h
  have hsize := (toSize_ovniEvSize_normal hj).2.2
  rw [ovniEvSize_normal hj, hpay] at hsize
  rw [length_normalBytes hj, ovniEvSize_normal hj, hpay]
  omega

omit clk in
@[simp] theorem length_opened (t : UInt64) : (Record.opened t).bytes.length = 12 :=
  length_normalBytes_bare rfl

omit clk in
@[simp] theorem length_closed (t : UInt64) : (Record.closed t).bytes.length = 12 :=
  length_normalBytes_bare rfl

/-- An event that fits is copied and nothing else happens. -/
theorem ovniEvAdd_fits (fuel : Nat) (h : Holds st recs) (hj : ev.isJumbo = false)
    (hr : r.bytes = normalBytes ev) (hfit : st.evlen + r.bytes.length < ovniMaxEvBuf) :
    ∃ st', ovniEvAdd clk (fuel + 1) st ev = .ok st' ∧ Holds st' (recs ++ [r]) ∧
      st'.evlen = st.evlen + r.bytes.length ∧ st'.reads = st.reads ∧ st'.file = st.file := by
  obtain ⟨st', hok, hholds, hlen, hreads, hfile⟩ := h.copy hfit
  refine ⟨st', ?_, hholds, hlen, hreads, hfile⟩
  have hsize : toSize (ovniEvSize ev) = r.bytes.length := by rw [hr, length_normalBytes hj]
  have hcopy : copyToBuf st (ev.bytes (toSize (ovniEvSize ev))) = .ok st' := by
    rw [← hok, hr]
    rfl
  rw [ovniEvAdd, if_neg (by simp [h.ready]), if_neg (by omega)]
  exact hcopy

/-- Flush events that fit are copied one after the other. -/
theorem addFlushEvents_fits (fuel : Nat) (t0 t1 : UInt64) (h : Holds st recs)
    (hfit : st.evlen + 24 < ovniMaxEvBuf) :
    ∃ st', addFlushEvents (ovniEvAdd clk (fuel + 1)) st t0 t1 = .ok st' ∧
      Holds st' (recs ++ [.opened t0, .closed t1]) ∧ st'.evlen = st.evlen + 24 ∧
      st'.reads = st.reads ∧ st'.file = st.file := by
  obtain ⟨st1, hok1, hh1, hlen1, hreads1, hfile1⟩ := ovniEvAdd_fits clk fuel (r := .opened t0) h
    (isJumbo_of_flags_zero rfl) rfl (by simp; omega)
  rw [length_opened] at hlen1
  obtain ⟨st2, hok2, hh2, hlen2, hreads2, hfile2⟩ := ovniEvAdd_fits clk fuel (r := .closed t1) hh1
    (isJumbo_of_flags_zero rfl) rfl (by simp; omega)
  rw [length_closed] at hlen2
  refine ⟨st2, ?_, by simpa using hh2, by omega, by omega, by rw [hfile2, hfile1]⟩
  unfold addFlushEvents
  rw [hok1]
  exact hok2

/-- A normal event that does not fit is copied after a flush, with the flush
events behind it. -/
theorem ovniEvAdd_flushes (fuel : Nat) (h : Holds st recs) (hj : ev.isJumbo = false)
    (hr : r.bytes = normalBytes ev) (hfull : ovniMaxEvBuf ≤ st.evlen + r.bytes.length) :
    ∃ st', ovniEvAdd clk (fuel + 2) st ev = .ok st' ∧
      Holds st' (recs ++ [r, .opened (clk st.reads), .closed (clk (st.reads + 1))]) ∧
      st'.evlen = r.bytes.length + 24 ∧ st'.reads = st.reads + 2 := by
  obtain ⟨st0, hflush, hh0, hlen0, hreads0, -⟩ := h.timedFlush clk
  have hsize : toSize (ovniEvSize ev) = r.bytes.length := by rw [hr, length_normalBytes hj]
  have hsmall := (toSize_ovniEvSize_normal hj).2.1
  have hmax : ovniMaxEvBuf = 2097152 := rfl
  obtain ⟨st1, hok1, hh1, hlen1, hreads1, -⟩ := hh0.copy (r := r) (by omega)
  obtain ⟨st2, hok2, hh2, hlen2, hreads2, -⟩ := addFlushEvents_fits clk fuel
    (clk st.reads) (clk (st.reads + 1)) hh1 (by omega)
  refine ⟨st2, ?_, by simpa using hh2, by omega, by omega⟩
  have hcopy : copyToBuf st0 (ev.bytes (toSize (ovniEvSize ev))) = .ok st1 := by
    rw [← hok1, hr]
    rfl
  rw [ovniEvAdd, if_neg (by simp [h.ready]), if_pos (by omega), hflush]
  simp only [hcopy]
  exact hok2

/-- Flush events of which the second one needs another flush. -/
theorem addFlushEvents_twice (fuel : Nat) (t0 t1 : UInt64) (h : Holds st recs)
    (hopen : st.evlen + 12 < ovniMaxEvBuf) (hclose : ovniMaxEvBuf ≤ st.evlen + 24) :
    ∃ st', addFlushEvents (ovniEvAdd clk (fuel + 2)) st t0 t1 = .ok st' ∧
      Holds st' (recs ++ [.opened t0, .closed t1, .opened (clk st.reads),
        .closed (clk (st.reads + 1))]) ∧
      st'.evlen = 36 ∧ st'.reads = st.reads + 2 := by
  obtain ⟨st1, hok1, hh1, hlen1, hreads1, -⟩ :=
    ovniEvAdd_fits clk (fuel + 1) (r := .opened t0) h (isJumbo_of_flags_zero rfl) rfl
      (by rw [length_opened]; omega)
  rw [length_opened] at hlen1
  obtain ⟨st2, hok2, hh2, hlen2, hreads2⟩ :=
    ovniEvAdd_flushes clk fuel (r := .closed t1) hh1 (isJumbo_of_flags_zero rfl) rfl
      (by rw [length_closed]; omega)
  rw [length_closed] at hlen2
  rw [hreads1] at hh2 hreads2
  refine ⟨st2, ?_, by simpa using hh2, hlen2, hreads2⟩
  unfold addFlushEvents
  rw [hok1]
  exact hok2

/-- Flush events of which the first one needs another flush: its own flush
events go between the two. -/
theorem addFlushEvents_nested (fuel : Nat) (t0 t1 : UInt64) (h : Holds st recs)
    (hopen : ovniMaxEvBuf ≤ st.evlen + 12) :
    ∃ st', addFlushEvents (ovniEvAdd clk (fuel + 2)) st t0 t1 = .ok st' ∧
      Holds st' (recs ++ [.opened t0, .opened (clk st.reads), .closed (clk (st.reads + 1)),
        .closed t1]) ∧
      st'.evlen = 48 ∧ st'.reads = st.reads + 2 := by
  obtain ⟨st1, hok1, hh1, hlen1, hreads1⟩ :=
    ovniEvAdd_flushes clk fuel (r := .opened t0) h (isJumbo_of_flags_zero rfl) rfl
      (by rw [length_opened]; omega)
  rw [length_opened] at hlen1
  have hmax : ovniMaxEvBuf = 2097152 := rfl
  obtain ⟨st2, hok2, hh2, hlen2, hreads2, -⟩ :=
    ovniEvAdd_fits clk (fuel + 1) (r := .closed t1) hh1 (isJumbo_of_flags_zero rfl) rfl
      (by rw [length_closed]; omega)
  rw [length_closed] at hlen2
  refine ⟨st2, ?_, by simpa using hh2, by omega, by omega⟩
  unfold addFlushEvents
  rw [hok1]
  exact hok2

end Add

/-! ## Calls -/

/-- A normal event is emitted without the jumbo flag. -/
def Call.Unflagged : Call → Prop
  | .emit ev => ev.isJumbo = false
  | _ => True

/-- The record of the event that a call emits. -/
def Call.records : Call → List Record
  | .emit ev => [.user (normalBytes ev)]
  | .jumboEmit ev buf => [.user (jumboBytes ev buf)]
  | .flush => []

/-- A jumbo event that leaves no room in the buffer for the start of a flush. -/
def Call.BigJumbo : Call → Prop
  | .jumboEmit _ buf => ovniMaxEvBuf ≤ 16 + buf.length + 12
  | _ => False

/-- The records that a call adds, with `k` clock reads before it: those of the
call itself and the events of its flushes.  The last index marks the flush
events that come out nested. -/
inductive Inserted (clk : Nat → UInt64) (k : Nat) (own : List Record) :
    List Record → Nat → Bool → Prop where
  | plain : Inserted clk k own own k false
  | once : Inserted clk k own (own ++ [.opened (clk k), .closed (clk (k + 1))]) (k + 2) false
  | twice : Inserted clk k own
      (own ++ [.opened (clk k), .closed (clk (k + 1)), .opened (clk (k + 2)),
        .closed (clk (k + 3))]) (k + 4) false
  | nested : Inserted clk k own
      (own ++ [.opened (clk k), .opened (clk (k + 2)), .closed (clk (k + 3)),
        .closed (clk (k + 1))]) (k + 4) true

/-- What a call leaves behind. -/
structure After (clk : Nat → UInt64) (st : Rthread) (recs : List Record) (c : Call)
    (st' : Rthread) : Prop where
  records : ∃ new nested, Holds st' (recs ++ new) ∧
    Inserted clk st.reads c.records new st'.reads nested ∧
    (nested = true ↔ c.BigJumbo ∧ st.evlen ≠ 0)
  used : 12 ≤ st'.evlen
  events : ∀ r ∈ c.records, IsEvent r.bytes

section Calls

variable (clk : Nat → UInt64) {st : Rthread} {recs : List Record}

/-- A normal event is always stored. -/
theorem ovniEvEmit_ok (h : Holds st recs) {ev : OvniEv} (hj : ev.isJumbo = false) :
    ∃ st', ovniEvEmit clk st ev = .ok st' ∧ After clk st recs (.emit ev) st' := by
  have hlen := length_normalBytes hj
  have hlo := (toSize_ovniEvSize_normal hj).1
  have hev : ∀ r ∈ (Call.emit ev).records, IsEvent r.bytes := by
    simpa [Call.records, Record.bytes] using normalBytes_isEvent hj
  unfold ovniEvEmit addRounds
  by_cases hfit : st.evlen + (normalBytes ev).length < ovniMaxEvBuf
  · obtain ⟨st', hok, hh, hlen', hreads, -⟩ :=
      ovniEvAdd_fits clk 2 (r := .user (normalBytes ev)) h hj rfl hfit
    refine ⟨st', hok, ⟨_, false, hh, ?_, by simp [Call.BigJumbo]⟩, ?_, hev⟩
    · rw [hreads]
      exact .plain
    · rw [hlen']
      simp only [Record.bytes]
      omega
  · obtain ⟨st', hok, hh, hlen', hreads⟩ :=
      ovniEvAdd_flushes clk 1 (r := .user (normalBytes ev)) h hj rfl
        (by simp only [Record.bytes]; omega)
    refine ⟨st', hok, ⟨_, false, hh, ?_, by simp [Call.BigJumbo]⟩, by omega, hev⟩
    rw [hreads]
    exact .once

/-- A flush leaves everything stored before in the file. -/
theorem ovniFlush_ok (h : Holds st recs) :
    ∃ st', ovniFlush clk st = .ok st' ∧ After clk st recs .flush st' ∧
      st'.file = headerOfStream ++ (recs.map Record.bytes).flatten := by
  obtain ⟨st0, hflush, hh0, hlen0, hreads0, hfile0⟩ := h.timedFlush clk
  have hmax : ovniMaxEvBuf = 2097152 := rfl
  obtain ⟨st', hok, hh, hlen, hreads, hfile⟩ :=
    addFlushEvents_fits clk 2 (clk st.reads) (clk (st.reads + 1)) hh0 (by omega)
  have hrun : ovniFlush clk st = .ok st' := by
    unfold ovniFlush
    simp only [h.ready, h.procReady, hflush, Bool.true_eq_false, if_false]
    exact hok
  refine ⟨st', hrun, ⟨⟨_, false, hh, ?_, by simp [Call.BigJumbo]⟩, by omega,
    by simp [Call.records]⟩, by rw [hfile, hfile0]⟩
  rw [hreads, hreads0]
  exact Inserted.once

omit clk in
/-- The size field of a jumbo event is added as a payload of four bytes. -/
theorem ovniPayloadAdd_size {ev : OvniEv} (hj : ev.isJumbo = false)
    (hempty : ovniPayloadSize ev = 0) (n : Nat) :
    ∃ ev', ovniPayloadAdd ev (leBytes 4 n) = .ok ev' ∧ toSize (ovniEvSize ev') = 16 ∧
      ({ ev' with flags := ev'.flags ||| ovniEvJumbo } : OvniEv).bytes 16 =
        (jumboHeader ev).headerBytes ++ leBytes 4 n := by
  have hzero : toSize (ovniPayloadSize ev) = 0 := by rw [hempty]; rfl
  have hadd : ovniPayloadAdd ev (leBytes 4 n) = .ok
      { ev with
        payload := fun i => if 0 ≤ i ∧ i < 0 + 4 then (leBytes 4 n).getD (i - 0) 0
          else ev.payload i
        flags := (ev.flags &&& 0xf0) ||| (UInt8.ofNat 3 &&& 0x0f) } := by
    simp [ovniPayloadAdd, hzero, hj, evPayloadUnion]
  refine ⟨_, hadd, ?_, ?_⟩
  · have hnormal : ∀ {e : OvniEv},
        e.flags = (ev.flags &&& 0xf0) ||| (UInt8.ofNat 3 &&& 0x0f) →
        toSize (ovniEvSize e) = 16 := by
      intro e he
      have hje : e.isJumbo = false := by
        unfold OvniEv.isJumbo at hj ⊢
        rw [he, flags_jumbo_kept]
        exact hj
      have hpay : ovniPayloadSize e = 4 := by
        simp only [ovniPayloadSize, hje, he, flags_size_three, Bool.false_eq_true, if_false]
        rfl
      have hsize := (toSize_ovniEvSize_normal hje).2.2
      rw [ovniEvSize_normal hje, hpay] at hsize ⊢
      omega
    exact hnormal rfl
  · rw [OvniEv.bytes_eq _ (by omega)]
    rfl

/-- A jumbo event without payload that is not too large is always stored. -/
theorem ovniEvJumboEmit_ok (h : Holds st recs) (hused : st.evlen ≠ 0 → 12 ≤ st.evlen)
    {ev : OvniEv} {buf : List UInt8} (hj : ev.isJumbo = false)
    (hempty : ovniPayloadSize ev = 0) (hsmall : 16 + buf.length < ovniMaxEvBuf) :
    ∃ st', ovniEvJumboEmit clk st ev buf = .ok st' ∧
      After clk st recs (.jumboEmit ev buf) st' := by
  have hmax : ovniMaxEvBuf = 2097152 := rfl
  have hlen := length_jumboBytes ev buf
  have hev : ∀ r ∈ (Call.jumboEmit ev buf).records, IsEvent r.bytes := by
    simpa [Call.records, Record.bytes] using jumboBytes_isEvent ev (by omega)
  obtain ⟨ev', hadd, hsize, hbytes⟩ := ovniPayloadAdd_size hj hempty buf.length
  have hr : (Record.user (jumboBytes ev buf)).bytes =
      ((jumboHeader ev).headerBytes ++ leBytes 4 buf.length) ++ buf := by
    simp only [Record.bytes, jumboBytes, List.append_assoc]
  have hrlen : (Record.user (jumboBytes ev buf)).bytes.length = 16 + buf.length := hlen
  unfold ovniEvJumboEmit ovniEvAddJumbo
  simp only [h.ready, hempty, hadd, hsize, hbytes, Bool.true_eq_false, if_false, ne_eq,
    not_true, bind, Except.bind, if_neg (not_le.mpr hsmall)]
  by_cases hfull : ovniMaxEvBuf ≤ st.evlen + (16 + buf.length)
  · rw [if_pos hfull]
    obtain ⟨st0, hflush, hh0, hlen0, hreads0, -⟩ := h.timedFlush clk
    obtain ⟨st1, st2, hok1, hok2, hh2, hlen2, hreads2⟩ := hh0.copyTwo hr (by omega)
    rw [hrlen] at hlen2
    simp only [hflush, hok1, hok2, addRounds]
    -- How much room the event leaves decides where the next flush falls
    by_cases hnested : ovniMaxEvBuf ≤ 16 + buf.length + 12
    · obtain ⟨st3, hok3, hh3, hlen3, hreads3⟩ := addFlushEvents_nested clk 1
        (clk st.reads) (clk (st.reads + 1)) hh2 (by omega)
      refine ⟨st3, hok3, ⟨_, true, by simpa using hh3, ?_, ?_⟩, by omega, hev⟩
      · rw [hreads3, hreads2, hreads0]
        exact .nested
      · simp only [Call.BigJumbo, true_iff]
        omega
    by_cases htwice : ovniMaxEvBuf ≤ 16 + buf.length + 24
    · obtain ⟨st3, hok3, hh3, hlen3, hreads3⟩ := addFlushEvents_twice clk 1
        (clk st.reads) (clk (st.reads + 1)) hh2 (by omega) (by omega)
      refine ⟨st3, hok3, ⟨_, false, by simpa using hh3, ?_, by simp [Call.BigJumbo, hnested]⟩,
        by omega, hev⟩
      rw [hreads3, hreads2, hreads0]
      exact .twice
    · obtain ⟨st3, hok3, hh3, hlen3, hreads3, -⟩ := addFlushEvents_fits clk 2
        (clk st.reads) (clk (st.reads + 1)) hh2 (by omega)
      refine ⟨st3, hok3, ⟨_, false, by simpa using hh3, ?_, by simp [Call.BigJumbo, hnested]⟩,
        by omega, hev⟩
      rw [hreads3, hreads2, hreads0]
      exact .once
  · rw [if_neg hfull]
    obtain ⟨st1, st2, hok1, hok2, hh2, hlen2, hreads2⟩ := h.copyTwo hr (by omega)
    rw [hrlen] at hlen2
    simp only [hok1]
    refine ⟨st2, hok2, ⟨_, false, hh2, ?_, ?_⟩, by omega, hev⟩
    · rw [hreads2]
      exact .plain
    · simp only [Call.BigJumbo, Bool.false_eq_true, false_iff]
      omega

theorem ovniEvJumboEmit_after (h : Holds st recs) (hused : st.evlen ≠ 0 → 12 ≤ st.evlen)
    (ev : OvniEv) (buf : List UInt8) :
    Returns (After clk st recs (.jumboEmit ev buf)) (ovniEvJumboEmit clk st ev buf) := by
  by_cases hempty : ovniPayloadSize ev = 0
  · by_cases hj : ev.isJumbo = true
    · have hdie : ovniPayloadAdd ev (leBytes 4 buf.length) =
          .error (.die "event is marked as jumbo") := by
        simp [ovniPayloadAdd, hj]
      unfold ovniEvJumboEmit ovniEvAddJumbo
      simp only [h.ready, hempty, hdie, Bool.true_eq_false, if_false, ne_eq, not_true]
      trivial
    · by_cases hlarge : ovniMaxEvBuf ≤ 16 + buf.length
      · obtain ⟨ev', hadd, hsize, -⟩ :=
          ovniPayloadAdd_size (by simpa using hj) hempty buf.length
        unfold ovniEvJumboEmit ovniEvAddJumbo
        simp only [h.ready, hempty, hadd, hsize, Bool.true_eq_false, if_false, ne_eq,
          not_true, bind, Except.bind, if_pos hlarge]
        trivial
      · obtain ⟨st', hok, hafter⟩ :=
          ovniEvJumboEmit_ok clk h hused (by simpa using hj) hempty (not_le.mp hlarge)
        rw [hok]
        exact hafter
  · unfold ovniEvJumboEmit ovniEvAddJumbo
    simp only [h.ready, Bool.true_eq_false, if_false, if_pos hempty]
    trivial

/-- Every call on a thread that holds some records adds its own, or dies. -/
theorem runCall_after (h : Holds st recs) (hused : st.evlen ≠ 0 → 12 ≤ st.evlen) {c : Call}
    (hc : c.Unflagged) : Returns (After clk st recs c) (runCall clk st c) := by
  cases c with
  | emit ev =>
      obtain ⟨st', hok, hafter⟩ := ovniEvEmit_ok clk h hc
      rw [runCall, hok]
      exact hafter
  | jumboEmit ev buf => exact ovniEvJumboEmit_after clk h hused ev buf
  | flush =>
      obtain ⟨st', hok, hafter, -⟩ := ovniFlush_ok clk h
      rw [runCall, hok]
      exact hafter

/-- The calls that do not die on a ready thread. -/
def Call.Accepted : Call → Prop
  | .emit ev => ev.isJumbo = false
  | .jumboEmit ev buf =>
      ev.isJumbo = false ∧ ovniPayloadSize ev = 0 ∧ 16 + buf.length < ovniMaxEvBuf
  | .flush => True

theorem runCall_ok (h : Holds st recs) (hused : st.evlen ≠ 0 → 12 ≤ st.evlen) {c : Call}
    (hc : c.Accepted) : ∃ st', runCall clk st c = .ok st' := by
  cases c with
  | emit ev =>
      obtain ⟨st', hok, -⟩ := ovniEvEmit_ok clk h hc
      exact ⟨st', hok⟩
  | jumboEmit ev buf =>
      obtain ⟨st', hok, -⟩ := ovniEvJumboEmit_ok clk h hused hc.1 hc.2.1 hc.2.2
      exact ⟨st', hok⟩
  | flush =>
      obtain ⟨st', hok, -⟩ := ovniFlush_ok clk h
      exact ⟨st', hok⟩

end Calls

end Ovni
