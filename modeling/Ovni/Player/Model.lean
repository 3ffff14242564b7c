import Ovni.Stream.Progress
import Ovni.Heap.Spec

/-!
# The player

`emu/player.c` merges the streams of a trace by clock: a heap holds the streams
with a loaded event, each step puts the last delivered stream back after moving
it to its next event and takes the one with the smallest clock.  The event is
handed over in the single `emu_ev` of the player, which is reused.
-/

namespace Ovni

open Ovni.Lib Ovni.Heap

/-! ## The emulation event -/

/-- `struct emu_ev`, with the payload as the memory it points to. -/
structure EmuEv where
  m : UInt8
  c : UInt8
  v : UInt8
  rclock : Int
  sclock : Int
  dclock : Int
  hasPayload : Bool
  payloadSize : Nat
  isJumbo : Bool
  payload : Option (Nat → UInt8)

/-- The event after the `memset` of `player_init`. -/
def EmuEv.zero : EmuEv :=
  { m := 0, c := 0, v := 0, rclock := 0, sclock := 0, dclock := 0, hasPayload := false,
    payloadSize := 0, isJumbo := false, payload := none }

/-- `emu_ev`: fills the event that was there before. -/
def emuEv (ev : EmuEv) (oev : OvniEv) (sclock dclock : Int) : EmuEv :=
  let payloadSize := toSize (ovniPayloadSize oev)
  let ev := { ev with
    m := oev.model, c := oev.category, v := oev.value
    rclock := toInt64 oev.clock.toNat, sclock, dclock, payloadSize }
  if 0 < payloadSize then
    { ev with
      hasPayload := true
      payload := some oev.payload
      -- Nothing is assigned when the flag is not set
      isJumbo := if oev.isJumbo then true else ev.isJumbo }
  else { ev with hasPayload := false, payload := none, isJumbo := false }

@[simp] theorem emuEv_sclock (ev : EmuEv) (oev : OvniEv) (sclock dclock : Int) :
    (emuEv ev oev sclock dclock).sclock = sclock := by
  unfold emuEv
  by_cases h : 0 < toSize (ovniPayloadSize oev) <;> simp [h]

@[simp] theorem emuEv_dclock (ev : EmuEv) (oev : OvniEv) (sclock dclock : Int) :
    (emuEv ev oev sclock dclock).dclock = dclock := by
  unfold emuEv
  by_cases h : 0 < toSize (ovniPayloadSize oev) <;> simp [h]

/-- The check at the start of the handlers of jumbo events: `pre_type` of nosv,
nanos6 and openmp and `event_hwc_count`. -/
def expectJumbo (ev : EmuEv) : Except String Unit :=
  if !ev.isJumbo then .error "expecting a jumbo event" else .ok ()

/-! ## The trace and the player -/

/-- `struct trace`: the streams in the order of the list. -/
structure Trace where
  nstreams : Nat
  stream : Nat → Stream

/-- `struct player`.  The heap nodes are the streams' numbers. -/
structure Player where
  trace : Trace
  heap : HeapHead Nat
  firstclock : Int
  lastclock : Int
  deltaclock : Int
  nprocessed : Int
  firstEvent : Bool
  unsorted : Bool
  stream : Option Nat
  ev : EmuEv

/-- Store back a stream of the trace. -/
def Player.setStream (p : Player) (i : Nat) (s : Stream) : Player :=
  { p with trace := { p.trace with stream := Function.update p.trace.stream i s } }

/-- `stream_cmp`: inverted, so the heap gives the smallest clock. -/
def streamCmp (t : Trace) : Compare Nat := fun a b =>
  let ca := streamLastclock (t.stream a)
  let cb := streamLastclock (t.stream b)
  if ca < cb then 1 else if cb < ca then -1 else 0

/-- `step_stream`. -/
def stepStream (p : Player) (i : Nat) : Ret Player :=
  if (p.trace.stream i).active = false then .done p
  else
    match streamStep (p.trace.stream i) with
    | .err _ => .err "cannot step stream"
    | .done s => .done (p.setStream i s)
    | .ok s =>
        match heapInsert p.heap i (streamCmp (p.setStream i s).trace) with
        | .error die => .err die
        | .ok heap => .ok { p.setStream i s with heap, nprocessed := p.nprocessed + 1 }

/-- `llabs`. -/
def llabs (x : Int) : Int := toInt64 (if x < 0 then -x else x)

/-- One hour in nanoseconds. -/
def maxgate : Int := 3600 * 1000 * 1000 * 1000

/-- One round of the loop of `check_clock_gate`: the first clock, if any, and
whether every stream was close to it. -/
def gateStep (acc : Option Int × Bool) (s : Stream) : Option Int × Bool :=
  if s.active = false then acc
  else
    match streamEv s with
    | none => acc
    | some oev =>
        let sclock := streamEvclock s oev
        let t0 := acc.1.getD sclock
        (some t0, acc.2 && !decide (maxgate < llabs (toInt64 (t0 - sclock))))

/-- `check_clock_gate`. -/
def checkClockGate (t : Trace) : Bool :=
  (((List.range t.nstreams).map t.stream).foldl gateStep (none, true)).2

/-- The loop of `player_init` over the streams. -/
def loadStreams (p : Player) : List Nat → Except String Player
  | [] => .ok p
  | i :: rest =>
      let p := if p.unsorted then p.setStream i (streamAllowUnsorted (p.trace.stream i)) else p
      match stepStream p i with
      | .ok p => loadStreams p rest
      -- No more events
      | .done p => loadStreams p rest
      | .err _ => .error "step_stream failed"

/-- `player_init`. -/
def playerInit (trace : Trace) (unsorted : Bool) : Except String Player := do
  let p : Player :=
    { trace, heap := heapInit fun _ => ⟨none, none, none⟩, firstclock := 0, lastclock := 0,
      deltaclock := 0, nprocessed := 0, firstEvent := true, unsorted, stream := none,
      ev := EmuEv.zero }
  let p ← loadStreams p (List.range trace.nstreams)
  -- The first clocks must be close, otherwise an offset table is mandatory
  if unsorted = false ∧ checkClockGate p.trace = false then throw "check_clock_gate failed"
  return p

/-- `update_clocks`. -/
def updateClocks (p : Player) (s : Stream) : Except String Player :=
  let sclock := streamLastclock s
  let q := if p.firstEvent then
      { p with firstEvent := false, firstclock := sclock, lastclock := sclock }
    else p
  if sclock < q.lastclock ∧ q.unsorted = false then .error "backwards jump in time"
  else .ok { q with lastclock := sclock, deltaclock := toInt64 (sclock - q.firstclock) }

/-- The part of `player_step` that takes the next stream. -/
def deliverNext (p : Player) : Ret Player :=
  match heapPopMax p.heap (streamCmp p.trace) with
  | .error die => .err die
  -- No more streams
  | .ok (none, heap) => .done { p with heap }
  | .ok (some i, heap) =>
      let s := p.trace.stream i
      match updateClocks { p with heap } s with
      | .error _ => .err "update_clocks() failed"
      | .ok p =>
          match streamEv s with
          | none => .err "NULL dereference in emu_ev"
          | some oev =>
              .ok { p with stream := some i, ev := emuEv p.ev oev p.lastclock p.deltaclock }

/-- `player_step`. -/
def playerStep (p : Player) : Ret Player :=
  match p.stream with
  | none => deliverNext p
  | some i =>
      -- Add the stream back if still active
      match stepStream p i with
      | .err _ => .err "step_stream() failed"
      | .ok p => deliverNext p
      | .done p => deliverNext p

/-! ## Runs -/

/-- An event handed to the emulator: where it lies, and what the player made
of it. -/
structure Delivery where
  stream : Nat
  offset : Int
  oev : OvniEv
  ev : EmuEv

/-- What the player holds after a step that returned zero. -/
def Player.delivery? (p : Player) : Option Delivery := do
  let i ← p.stream
  let offset ← (p.trace.stream i).curEv
  return { stream := i, offset, oev := evAt (p.trace.stream i).buf offset, ev := p.ev }

/-- The steps that returned zero, with the events they delivered. -/
inductive PlayerRun (p₀ : Player) : List Delivery → Player → Prop where
  | start : PlayerRun p₀ [] p₀
  | step {ds : List Delivery} {p p' : Player} {d : Delivery} (before : PlayerRun p₀ ds p)
      (run : playerStep p = .ok p') (out : p'.delivery? = some d) :
      PlayerRun p₀ (ds ++ [d]) p'

/-- Step the player until it returns nonzero, at most `fuel` times: the events
delivered, the last state and what the last step returned. -/
def playAll : Nat → Player → Option (List Delivery × Player × Ret Player)
  | 0, _ => none
  | fuel + 1, p =>
      match playerStep p with
      | .ok p' => do
          let d ← p'.delivery?
          let (ds, q, r) ← playAll fuel p'
          return (d :: ds, q, r)
      | r => some ([], p, r)

/-- Load a trace and play it to its end with at most `fuel` steps: the first state, the
events delivered, the last state and what the step past the end leaves. -/
def playTrace (fuel : Nat) (trace : Trace) (unsorted : Bool) :
    Option (Player × List Delivery × Player × Player) :=
  match playerInit trace unsorted with
  | .ok p₀ =>
      match playAll fuel p₀ with
      | some (ds, p, .done pend) => some (p₀, ds, p, pend)
      | _ => none
  | .error _ => none

/-! ## The recorder -/

/-- `struct prv`, with the time of the last record. -/
structure Prv where
  time : Int

/-- `prv_advance`. -/
def prvAdvance (prv : Prv) (time : Int) : Except String Prv :=
  if time < prv.time then .error "cannot move to previous time" else .ok ⟨time⟩

/-! ## What one step can do -/

theorem stepStream_ok {p q : Player} {i : Nat} (h : stepStream p i = .ok q) :
    ∃ s heap, streamStep (p.trace.stream i) = .ok s ∧
      heapInsert p.heap i (streamCmp (p.setStream i s).trace) = .ok heap ∧
      q = { p.setStream i s with heap, nprocessed := p.nprocessed + 1 } := by
  unfold stepStream at h
  split at h
  · cases h
  · split at h
    · cases h
    · cases h
    · rename_i s hs
      split at h
      · cases h
      · rename_i heap hheap
        exact ⟨s, heap, hs, hheap, by simpa using h.symm⟩

theorem stepStream_done {p q : Player} {i : Nat} (h : stepStream p i = .done q) :
    ((p.trace.stream i).active = false ∧ q = p) ∨
      ∃ s, streamStep (p.trace.stream i) = .done s ∧ q = p.setStream i s := by
  unfold stepStream at h
  split at h
  · cases h
    exact .inl ⟨‹_›, rfl⟩
  · split at h
    · cases h
    · rename_i s hs
      cases h
      exact .inr ⟨s, hs, rfl⟩
    · split at h <;> cases h

theorem updateClocks_ok {p q : Player} {s : Stream} (h : updateClocks p s = .ok q) :
    (p.unsorted = false → p.firstEvent = false → p.lastclock ≤ s.lastclock) ∧
      q = { p with
        firstEvent := false
        firstclock := if p.firstEvent then s.lastclock else p.firstclock
        lastclock := s.lastclock
        deltaclock := toInt64
          (s.lastclock - if p.firstEvent then s.lastclock else p.firstclock) } := by
  unfold updateClocks streamLastclock at h
  cases hf : p.firstEvent <;> simp only [hf, if_true, Bool.false_eq_true, if_false] at h ⊢
  · split at h
    · cases h
    · rename_i hback
      refine ⟨fun hu _ => ?_, by simpa [hf] using h.symm⟩
      simpa [hu] using hback
  · split at h
    · cases h
    · exact ⟨fun _ hf' => by simp at hf', by simpa using h.symm⟩

/-- The state after stream `i`, with `oev` loaded, was taken from the heap. -/
def Player.delivered (p : Player) (heap : HeapHead Nat) (i : Nat) (oev : OvniEv) : Player :=
  let sclock := (p.trace.stream i).lastclock
  let first := if p.firstEvent then sclock else p.firstclock
  { p with
    heap
    firstEvent := false
    firstclock := first
    lastclock := sclock
    deltaclock := toInt64 (sclock - first)
    stream := some i
    ev := emuEv p.ev oev sclock (toInt64 (sclock - first)) }

theorem deliverNext_ok {p p' : Player} (h : deliverNext p = .ok p') :
    ∃ i heap off, heapPopMax p.heap (streamCmp p.trace) = .ok (some i, heap) ∧
      (p.trace.stream i).curEv = some off ∧
      (p.unsorted = false → p.firstEvent = false →
        p.lastclock ≤ (p.trace.stream i).lastclock) ∧
      p' = p.delivered heap i (evAt (p.trace.stream i).buf off) := by
  unfold deliverNext at h
  split at h
  · cases h
  · cases h
  · rename_i i heap hpop
    simp only at h
    split at h
    · cases h
    · rename_i q hq
      obtain ⟨hle, rfl⟩ := updateClocks_ok hq
      simp only [streamEv] at h
      obtain hc | ⟨off, hc⟩ := Option.eq_none_or_eq_some (p.trace.stream i).curEv
      · simp [hc] at h
      · simp only [hc, Option.map_some, Ret.ok.injEq] at h
        exact ⟨i, heap, off, hpop, hc, hle, h.symm⟩

theorem deliverNext_done {p p' : Player} (h : deliverNext p = .done p') :
    ∃ heap, heapPopMax p.heap (streamCmp p.trace) = .ok (none, heap) := by
  unfold deliverNext at h
  split at h
  · cases h
  · exact ⟨_, ‹_›⟩
  · simp only at h
    split at h
    · cases h
    · split at h <;> cases h

/-- Every step that returns zero delivers an event. -/
theorem playerStep_delivers {p p' : Player} (h : playerStep p = .ok p') :
    ∃ d, p'.delivery? = some d := by
  have hnext : ∀ {q : Player}, deliverNext q = .ok p' → ∃ d, p'.delivery? = some d := by
    intro q hq
    obtain ⟨i, heap, off, -, hcur, -, rfl⟩ := deliverNext_ok hq
    simp [Player.delivery?, Player.delivered, hcur]
  unfold playerStep at h
  split at h
  · exact hnext h
  · split at h
    · cases h
    · exact hnext h
    · exact hnext h

theorem PlayerRun.cons {p₀ p₁ p : Player} {d : Delivery} {ds : List Delivery}
    (hstep : playerStep p₀ = .ok p₁) (hout : p₁.delivery? = some d)
    (hrun : PlayerRun p₁ ds p) : PlayerRun p₀ (d :: ds) p := by
  induction hrun with
  | start => exact .step .start hstep hout
  | step before run out ih => exact .step ih run out

theorem playAll_run {fuel : Nat} {p q : Player} {ds : List Delivery} {r : Ret Player}
    (h : playAll fuel p = some (ds, q, r)) : PlayerRun p ds q ∧ playerStep q = r := by
  induction fuel generalizing p ds with
  | zero => cases h
  | succ fuel ih =>
      rw [playAll] at h
      split at h
      · rename_i p' hstep
        obtain ⟨d, hd⟩ := playerStep_delivers hstep
        simp only [hd, bind, Option.bind] at h
        split at h
        · cases h
        · rename_i res hrest
          simp only [pure, Option.some.injEq, Prod.mk.injEq] at h
          obtain ⟨rfl, rfl, rfl⟩ := h
          obtain ⟨hrun, hlast⟩ := ih hrest
          exact ⟨hrun.cons hstep hd, hlast⟩
      · cases h
        exact ⟨.start, rfl⟩

theorem playTrace_run {fuel : Nat} {trace : Trace} {unsorted : Bool} {p₀ p pend : Player}
    {ds : List Delivery} (h : playTrace fuel trace unsorted = some (p₀, ds, p, pend)) :
    playerInit trace unsorted = .ok p₀ ∧ PlayerRun p₀ ds p ∧ playerStep p = .done pend := by
  rw [playTrace] at h
  split at h
  · rename_i q₀ hinit
    split at h
    · rename_i hplay
      cases h
      exact ⟨hinit, playAll_run hplay⟩
    · cases h
  · cases h

end Ovni
