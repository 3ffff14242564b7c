import Ovni.Runtime.Records

/-!
# The reader gets back what the writer wrote

For every sequence of calls that ends with a flush, the file is a stream that
the reader accepts and walks to its end, and the byte strings it finds are the
emitted events in order with the flush events in between.  No sequence of calls
copies out of the buffer.
-/

namespace Ovni

open Ovni.Lib

/-- The bytes of an event of the user. -/
def Record.userBytes? : Record → Option (List UInt8)
  | .user bytes => some bytes
  | _ => none

/-- The bytes that a call is asked to store. -/
def Call.emitted : Call → List (List UInt8)
  | .emit ev => [normalBytes ev]
  | .jumboEmit ev buf => [jumboBytes ev buf]
  | .flush => []

/-! ## One call -/

theorem flushRecord_isEvent {ev : OvniEv} (h : ev.flags = 0) : IsEvent (normalBytes ev) :=
  normalBytes_isEvent (isJumbo_of_flags_zero h)

section Inserted

variable {clk : Nat → UInt64} {k k' : Nat} {own new : List Record} {nested : Bool}

/-- Whatever a call adds besides its own records are flush events. -/
theorem Inserted.append (h : Inserted clk k own new k' nested) :
    ∃ marks, new = own ++ marks ∧ ∀ r ∈ marks, ∃ t, r = .opened t ∨ r = .closed t := by
  cases h with
  | plain => exact ⟨[], by simp, by simp⟩
  | once => exact ⟨_, rfl, by simp⟩
  | twice => exact ⟨_, rfl, by simp⟩
  | nested => exact ⟨_, rfl, by simp⟩

theorem Inserted.isEvent (h : Inserted clk k own new k' nested)
    (hown : ∀ r ∈ own, IsEvent r.bytes) : ∀ r ∈ new, IsEvent r.bytes := by
  obtain ⟨marks, rfl, hmarks⟩ := h.append
  intro r hr
  rcases List.mem_append.mp hr with hr | hr
  · exact hown r hr
  · obtain ⟨t, rfl | rfl⟩ := hmarks r hr
    · exact flushRecord_isEvent rfl
    · exact flushRecord_isEvent rfl

theorem Inserted.userBytes (h : Inserted clk k own new k' nested) :
    new.filterMap Record.userBytes? = own.filterMap Record.userBytes? := by
  obtain ⟨marks, rfl, hmarks⟩ := h.append
  have hnone : marks.filterMap Record.userBytes? = [] := by
    rw [List.filterMap_eq_nil_iff]
    intro r hr
    obtain ⟨t, rfl | rfl⟩ := hmarks r hr <;> rfl
  rw [List.filterMap_append, hnone, List.append_nil]

end Inserted

theorem Call.records_userBytes (c : Call) :
    c.records.filterMap Record.userBytes? = c.emitted := by
  cases c <;> rfl

/-! ## Sequences of calls -/

/-- The file and the buffer of a thread after its first calls. -/
structure Wrote (st : Rthread) (calls : List Call) (recs : List Record) : Prop where
  holds : Holds st recs
  used : st.evlen ≠ 0 → 12 ≤ st.evlen
  events : ∀ r ∈ recs, IsEvent r.bytes
  emitted : recs.filterMap Record.userBytes? = calls.flatMap Call.emitted

theorem ovniThreadInit_wrote (evbuf : Mem) : Wrote (ovniThreadInit evbuf) [] [] := by
  refine ⟨⟨rfl, rfl, by simp [ovniThreadInit, writeStreamHeader, flushEvbuf, ovniMaxEvBuf],
    ?_⟩, fun h => absurd rfl h, by simp, rfl⟩
  have hslice : (evbuf.patch 0 headerOfStream).slice 0 8 = headerOfStream :=
    Mem.slice_patch_same evbuf 0 headerOfStream
  have hempty : ∀ m : Mem, m.slice 0 0 = [] := fun m => rfl
  simpa [ovniThreadInit, writeStreamHeader, flushEvbuf, writeEvbuf, hempty, headerOfStream]
    using hslice

theorem Wrote.call (clk : Nat → UInt64) {st : Rthread} {calls : List Call}
    {recs : List Record} (h : Wrote st calls recs) {c : Call} (hc : c.Unflagged) :
    Returns (fun st' => ∃ recs', Wrote st' (calls ++ [c]) recs') (runCall clk st c) := by
  apply (runCall_after clk h.holds h.used hc).imp
  intro st' hafter
  obtain ⟨new, nested, hh, hins, -⟩ := hafter.records
  refine ⟨recs ++ new, hh, fun _ => hafter.used, ?_, ?_⟩
  · rw [List.forall_mem_append]
    exact ⟨h.events, hins.isEvent hafter.events⟩
  · rw [List.filterMap_append, h.emitted, hins.userBytes, c.records_userBytes,
      List.flatMap_append, List.flatMap_singleton]

theorem Wrote.calls (clk : Nat → UInt64) {st : Rthread} {before : List Call}
    {recs : List Record} (h : Wrote st before recs) (calls : List Call)
    (hcalls : ∀ c ∈ calls, c.Unflagged) :
    Returns (fun st' => ∃ recs', Wrote st' (before ++ calls) recs')
      (runCalls clk st calls) := by
  induction calls generalizing st before recs with
  | nil => exact ⟨recs, by simpa using h⟩
  | cons c rest ih =>
      unfold runCalls
      rw [List.foldlM_cons]
      apply (h.call clk (hcalls c (by simp))).bind
      intro st' hst'
      obtain ⟨recs', hw⟩ := hst'
      have := ih hw fun c' hc' => hcalls c' (by simp [hc'])
      rwa [List.append_assoc] at this

/-! ## The file -/

/-- Decoding the file up to the last flush gives back the emitted events, and
no sequence of calls leaves the buffer. -/
theorem runtime_round_trip (clk : Nat → UInt64) (evbuf beyond : Mem) (calls : List Call)
    (hcalls : ∀ c ∈ calls, c.Unflagged) :
    (∀ fault, runCalls clk (ovniThreadInit evbuf) calls = .error fault →
      ∃ msg, fault = .die msg) ∧
    (∀ st, runCalls clk (ovniThreadInit evbuf) calls = .ok st → st.evlen < ovniMaxEvBuf) ∧
    ∀ st, runCalls clk (ovniThreadInit evbuf) (calls ++ [.flush]) = .ok st →
      ∃ (s : Stream) (offs : List Int) (recs : List Record),
        loadObs st.file beyond = .ok s ∧ s.Events offs ∧
        offs.map (chunkAt s.buf) = recs.map Record.bytes ∧
        recs.filterMap Record.userBytes? = calls.flatMap Call.emitted := by
  have hrun := (ovniThreadInit_wrote evbuf).calls clk calls hcalls
  refine ⟨fun fault hfault => ?_, fun st hst => ?_, fun st hst => ?_⟩
  · rw [hfault] at hrun
    match fault, hrun with
    | .die msg, _ => exact ⟨msg, rfl⟩
  · rw [hst] at hrun
    obtain ⟨recs, hw⟩ := hrun
    exact hw.holds.room
  · unfold runCalls at hst hrun
    rw [List.foldlM_append] at hst
    cases hmid : calls.foldlM (runCall clk) (ovniThreadInit evbuf) with
    | error fault =>
        rw [hmid] at hst
        cases hst
    | ok mid =>
        rw [hmid] at hst hrun
        obtain ⟨recs, hw⟩ := hrun
        have hlast : (ovniFlush clk mid >>= pure) = .ok st := hst
        rw [bind_pure] at hlast
        obtain ⟨st', hok, -, hfile⟩ := ovniFlush_ok clk hw.holds
        rw [hlast] at hok
        cases hok
        obtain ⟨s, offs, hload, hevents, hchunks⟩ := stream_of_chunks
          (recs.map Record.bytes) beyond (by simpa using hw.events)
        refine ⟨s, offs, recs, ?_, hevents, hchunks, by simpa using hw.emitted⟩
        rw [hfile]
        exact hload

/-- A clock that ticks by one at every read until it saturates. -/
def tickClock (k : Nat) : UInt64 := UInt64.ofNat (min k (2 ^ 64 - 1))

/-- An execute event of a thread, a jumbo task type and an explicit flush before
the last one. -/
def sampleCalls : List Call :=
  [.emit (ovniEvSetMcv { OvniEv.zero with clock := 1 } 0x4f 0x48 0x78), .flush,
    .jumboEmit (ovniEvSetMcv { OvniEv.zero with clock := 5 } 0x56 0x59 0x63) [7, 0, 0, 0, 0]]

theorem runtime_round_trip_sample :
    ∃ (st : Rthread) (s : Stream) (offs : List Int) (recs : List Record),
      runCalls tickClock (ovniThreadInit fun _ => 0) (sampleCalls ++ [.flush]) = .ok st ∧
      loadObs st.file (fun _ => 0) = .ok s ∧ s.Events offs ∧
      offs.map (chunkAt s.buf) = recs.map Record.bytes ∧
      recs.filterMap Record.userBytes? = sampleCalls.flatMap Call.emitted := by
  have hcalls : ∀ c ∈ sampleCalls, c.Unflagged := by
    simp only [sampleCalls, List.forall_mem_cons, Call.Unflagged]
    exact ⟨isJumbo_of_flags_zero rfl, trivial, trivial, by simp⟩
  have heval : (runCalls tickClock (ovniThreadInit fun _ => 0)
      (sampleCalls ++ [.flush])).isOk = true := by decide +kernel
  cases hrun : runCalls tickClock (ovniThreadInit fun _ => 0) (sampleCalls ++ [.flush]) with
  | error fault =>
      rw [hrun] at heval
      cases heval
  | ok st =>
      obtain ⟨s, offs, recs, hread⟩ := (runtime_round_trip tickClock (fun _ => 0) (fun _ => 0)
        sampleCalls hcalls).2.2 st hrun
      exact ⟨st, s, offs, recs, rfl, hread⟩

end Ovni
