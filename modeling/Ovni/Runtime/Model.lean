import Ovni.Stream.Model

/-!
# The runtime writer

`rt/ovni.c` stores the events of a thread in a buffer of 2 MiB that is written
to the stream file when the next event would fill it.  The two events that mark
such a flush go through the same function, which may flush again.

The clock is the sequence of values that `ovni_clock_now` returns, and `write`
is taken to write all bytes.  A copy that would leave the buffer and an
insertion that recurses without end are faults of their own, apart from the
calls to `die`.
-/

namespace Ovni

open Ovni.Lib

/-- Why a call does not return. -/
inductive Fault where
  | die (msg : String)
  | overflow
  | rounds

/-- `struct ovni_rthread`, with the contents of the stream file and the number
of times that the clock was read. -/
structure Rthread where
  ready : Bool
  procReady : Bool
  evbuf : Mem
  evlen : Nat
  file : List UInt8
  reads : Nat

/-- A call of the runtime on the thread. -/
abbrev Runtime := Except Fault Rthread

/-! ## Events -/

/-- `struct ovni_ev ev = {0}`. -/
def OvniEv.zero : OvniEv :=
  { flags := 0, model := 0, category := 0, value := 0, clock := 0, payload := fun _ => 0 }

/-- `ovni_ev_set_clock`. -/
def ovniEvSetClock (ev : OvniEv) (clock : UInt64) : OvniEv := { ev with clock }

/-- `ovni_ev_set_mcv`. -/
def ovniEvSetMcv (ev : OvniEv) (m c v : UInt8) : OvniEv :=
  { ev with model := m, category := c, value := v }

/-- `ovni_payload_add`. -/
def ovniPayloadAdd (ev : OvniEv) (buf : List UInt8) : Except Fault OvniEv :=
  let payloadSize := toSize (ovniPayloadSize ev)
  if ev.isJumbo then .error (.die "event is marked as jumbo")
  else if buf.length < 2 then .error (.die "payload size too small")
  else if evPayloadUnion < payloadSize + buf.length then .error (.die "no space left")
  else
    let payload := fun i =>
      if payloadSize ≤ i ∧ i < payloadSize + buf.length then buf.getD (i - payloadSize) 0
      else ev.payload i
    .ok { ev with
      payload
      flags := (ev.flags &&& 0xf0) |||
        (UInt8.ofNat (payloadSize + buf.length - 1) &&& 0x0f) }

/-! ## The buffer -/

/-- Copy bytes to the end of the buffer. -/
def copyToBuf (st : Rthread) (bytes : List UInt8) : Runtime :=
  if ovniMaxEvBuf ≤ st.evlen + bytes.length then .error .overflow
  else .ok { st with
    evbuf := st.evbuf.patch st.evlen bytes
    evlen := st.evlen + bytes.length }

/-- `write_evbuf`. -/
def writeEvbuf (st : Rthread) (bytes : List UInt8) : Rthread :=
  { st with file := st.file ++ bytes }

/-- `flush_evbuf`. -/
def flushEvbuf (st : Rthread) : Rthread :=
  { writeEvbuf st (st.evbuf.slice 0 st.evlen) with evlen := 0 }

/-- `write_stream_header`. -/
def writeStreamHeader (st : Rthread) : Rthread :=
  flushEvbuf { st with
    evbuf := st.evbuf.patch 0 (ovniStreamMagic ++ leBytes 4 ovniStreamVersion)
    evlen := 8 }

/-- The part of `ovni_thread_init` that sets up the stream, with the contents
of the buffer that `malloc` returned. -/
def ovniThreadInit (evbuf : Mem) : Rthread :=
  { writeStreamHeader
      { ready := false, procReady := true, evbuf, evlen := 0, file := [], reads := 0 } with
    ready := true }

/-! ## Insertion -/

section Clock

variable (clk : Nat → UInt64)

/-- `ovni_clock_now`. -/
def ovniClockNow (st : Rthread) : UInt64 × Rthread :=
  (clk st.reads, { st with reads := st.reads + 1 })

/-- The flush of a full buffer, with the clock before and after it. -/
def timedFlush (st : Rthread) : UInt64 × UInt64 × Rthread :=
  let (t0, st) := ovniClockNow clk st
  let (t1, st) := ovniClockNow clk (flushEvbuf st)
  (t0, t1, st)

omit clk in
/-- The event that opens a flush. -/
def flushOpen (t : UInt64) : OvniEv :=
  ovniEvSetMcv { OvniEv.zero with clock := t } 0x4f 0x46 0x5b

omit clk in
/-- The event that closes a flush. -/
def flushClose (t : UInt64) : OvniEv :=
  ovniEvSetMcv { OvniEv.zero with clock := t } 0x4f 0x46 0x5d

omit clk in
/-- `add_flush_events`, with the insertion it calls. -/
def addFlushEvents (add : Rthread → OvniEv → Runtime) (st : Rthread) (t0 t1 : UInt64) :
    Runtime := do
  let st ← add st (flushOpen t0)
  add st (flushClose t1)

/-- `ovni_ev_add`. -/
def ovniEvAdd : Nat → Rthread → OvniEv → Runtime
  | 0, _, _ => .error .rounds
  | fuel + 1, st, ev =>
      let size := toSize (ovniEvSize ev)
      if st.ready = false then .error (.die "thread is not initialized")
      else if ovniMaxEvBuf ≤ st.evlen + size then do
        let (t0, t1, st) := timedFlush clk st
        let st ← copyToBuf st (ev.bytes size)
        addFlushEvents (ovniEvAdd fuel) st t0 t1
      else copyToBuf st (ev.bytes size)

/-- How deep an insertion may recurse. -/
def addRounds : Nat := 3

/-- `ovni_ev_add_jumbo`. -/
def ovniEvAddJumbo (st : Rthread) (ev : OvniEv) (buf : List UInt8) : Runtime := do
  if st.ready = false then throw (.die "thread is not initialized")
  if ovniPayloadSize ev ≠ 0 then throw (.die "the event payload must be empty")
  let ev ← ovniPayloadAdd ev (leBytes 4 buf.length)
  let evsize := toSize (ovniEvSize ev)
  let totalsize := evsize + buf.length
  if ovniMaxEvBuf ≤ totalsize then throw (.die "event too large")
  let ev' := { ev with flags := ev.flags ||| ovniEvJumbo }
  if ovniMaxEvBuf ≤ st.evlen + totalsize then
    let (t0, t1, st) := timedFlush clk st
    let st ← copyToBuf st (ev'.bytes evsize)
    let st ← copyToBuf st buf
    addFlushEvents (ovniEvAdd clk addRounds) st t0 t1
  else
    let st ← copyToBuf st (ev'.bytes evsize)
    copyToBuf st buf

/-- `ovni_flush`. -/
def ovniFlush (st : Rthread) : Runtime := do
  if st.ready = false then throw (.die "thread is not initialized")
  if st.procReady = false then throw (.die "process not ready")
  let (t0, t1, st) := timedFlush clk st
  addFlushEvents (ovniEvAdd clk addRounds) st t0 t1

/-- `ovni_ev_emit`. -/
def ovniEvEmit (st : Rthread) (ev : OvniEv) : Runtime := ovniEvAdd clk addRounds st ev

/-- `ovni_ev_jumbo_emit`. -/
def ovniEvJumboEmit (st : Rthread) (ev : OvniEv) (buf : List UInt8) : Runtime :=
  ovniEvAddJumbo clk st ev buf

/-! ## Sequences of calls -/

/-- A call of the user. -/
inductive Call where
  | emit (ev : OvniEv)
  | jumboEmit (ev : OvniEv) (buf : List UInt8)
  | flush

/-- One call. -/
def runCall (st : Rthread) : Call → Runtime
  | .emit ev => ovniEvEmit clk st ev
  | .jumboEmit ev buf => ovniEvJumboEmit clk st ev buf
  | .flush => ovniFlush clk st

/-- One call after another. -/
def runCalls (st : Rthread) (calls : List Call) : Runtime := calls.foldlM (runCall clk) st

end Clock

end Ovni
