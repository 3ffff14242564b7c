import Mathlib.Logic.Function.Basic

/-!
# Channels and the patch bay

`emu/chan.c` and `emu/bay.c`.  A channel holds a value, alone or on a stack, and
becomes dirty when it is written.  The bay keeps the dirty channels in a list and
propagates them: it calls the dirty callbacks of each one, which may write other
channels, then the emit callbacks, and it flushes them at the end.

Channels and callbacks are named by the values of two types, and the bay is part
of a world with the state that the callbacks keep for themselves.  A callback
list is walked by its links, so it may change while it is walked.
-/

namespace Ovni

/-- How the emulator ends early: with `-1`, with `die`, with a wild pointer, or in
a loop that does not end. -/
inductive EmuFault where
  | fail (msg : String)
  | die (msg : String)
  | crash
  | rounds

/-! ## Channels -/

/-- `struct value`; the bits of a double are all that is compared. -/
inductive Value where
  | null
  | int64 (i : Int)
  | double (bits : UInt64)
  deriving DecidableEq

/-- `enum chan_type`. -/
inductive ChanType where
  | single
  | stack
  deriving DecidableEq

/-- `struct chan`, with the properties one by one and the top of the stack first. -/
structure Chan where
  isDirty : Bool
  dirtyWrite : Bool
  allowDup : Bool
  ignoreDup : Bool
  lastValue : Value
  type : ChanType
  value : Value
  stack : List Value

/-- `MAX_CHAN_STACK`. -/
def maxChanStack : Nat := 512

/-- `chan_init`. -/
def chanInit (type : ChanType) : Chan :=
  { isDirty := false, dirtyWrite := false, allowDup := false, ignoreDup := false,
    lastValue := .null, type, value := .null, stack := [] }

/-- `chan_read`. -/
def chanRead (chan : Chan) : Value :=
  match chan.type with
  | .single => chan.value
  | .stack => chan.stack.headD .null

/-! ## The bay -/

/-- `enum bay_state`. -/
inductive BayState where
  | unknown
  | ready
  | propagating
  | emitting
  | flushing
  deriving DecidableEq

/-- `enum bay_cb_type`. -/
inductive BayCbType where
  | dirty
  | emit
  deriving DecidableEq

/-- `struct bay` with its channels `χ` and callbacks `κ`.  The `is_dirty` of a
`bay_chan` is only ever cleared, so it is not kept. -/
structure Bay (χ κ : Type) where
  state : BayState
  chan : χ → Chan
  dirty : List χ
  cb : BayCbType → χ → List κ
  enabled : κ → Bool

namespace Bay

variable {χ κ : Type} [DecidableEq χ] [DecidableEq κ]

/-- `chan_read` of a channel in the bay. -/
def read (b : Bay χ κ) (c : χ) : Value := chanRead (b.chan c)

/-- The bay with another state of a channel. -/
def put (b : Bay χ κ) (c : χ) (chan : Chan) : Bay χ κ :=
  { b with chan := Function.update b.chan c chan }

/-- `cb_chan_is_dirty`. -/
def cbChanIsDirty (b : Bay χ κ) (c : χ) : Except EmuFault (Bay χ κ) :=
  if b.state = .ready ∨ b.state = .propagating then .ok { b with dirty := b.dirty ++ [c] }
  else .error (.fail "cannot add dirty channel in current bay state")

/-- `set_dirty`. -/
def setDirty (b : Bay χ κ) (c : χ) : Except EmuFault (Bay χ κ) :=
  if (b.chan c).isDirty then
    -- Already dirty and allowed, no need to do anything
    if (b.chan c).dirtyWrite then .ok b else .error (.fail "already dirty")
  else cbChanIsDirty (b.put c { b.chan c with isDirty := true }) c

/-- The check of duplicates that `chan_set` and `chan_push` share: go on, or leave
the channel as it is. -/
def checkDup (chan : Chan) (v : Value) : Except EmuFault Bool :=
  if chan.allowDup = false ∧ chan.lastValue = v then
    if chan.ignoreDup then .ok false else .error (.fail "same value as last_value")
  else .ok true

/-- `chan_set`. -/
def chanSet (b : Bay χ κ) (c : χ) (v : Value) : Except EmuFault (Bay χ κ) := do
  if (b.chan c).type ≠ .single then throw (.fail "cannot set on non-single channel")
  if (b.chan c).isDirty ∧ (b.chan c).dirtyWrite = false then
    throw (.fail "cannot modify dirty channel")
  if ← checkDup (b.chan c) v then
    setDirty (b.put c { b.chan c with value := v }) c
  else return b

/-- `chan_push`. -/
def chanPush (b : Bay χ κ) (c : χ) (v : Value) : Except EmuFault (Bay χ κ) := do
  if (b.chan c).type ≠ .stack then throw (.fail "cannot push on non-stack channel")
  if (b.chan c).isDirty ∧ (b.chan c).dirtyWrite = false then
    throw (.fail "cannot modify dirty channel")
  if ← checkDup (b.chan c) v then
    if maxChanStack ≤ (b.chan c).stack.length then throw (.fail "channel stack full")
    setDirty (b.put c { b.chan c with stack := v :: (b.chan c).stack }) c
  else return b

/-- `chan_pop`. -/
def chanPop (b : Bay χ κ) (c : χ) (expected : Value) : Except EmuFault (Bay χ κ) := do
  if (b.chan c).type ≠ .stack then throw (.fail "cannot pop on non-stack channel")
  if (b.chan c).isDirty ∧ (b.chan c).dirtyWrite = false then
    throw (.fail "cannot modify dirty channel")
  match (b.chan c).stack with
  | [] => throw (.fail "channel stack empty")
  | v :: rest =>
      if v ≠ expected then throw (.fail "expected value different from top of stack")
      setDirty (b.put c { b.chan c with stack := rest }) c

/-- `chan_flush`. -/
def chanFlush (b : Bay χ κ) (c : χ) : Except EmuFault (Bay χ κ) :=
  if (b.chan c).isDirty = false then .error (.fail "channel is not dirty")
  else .ok (b.put c { b.chan c with lastValue := b.read c, isDirty := false })

/-- `bay_enable_cb` on a callback of the given type and channel. -/
def enableCb (b : Bay χ κ) (ty : BayCbType) (c : χ) (k : κ) : Bay χ κ :=
  if b.enabled k then b
  else { b with
    enabled := Function.update b.enabled k true
    cb := fun ty' c' => if ty' = ty ∧ c' = c then b.cb ty' c' ++ [k] else b.cb ty' c' }

/-- `bay_disable_cb` on a callback of the given type and channel. -/
def disableCb (b : Bay χ κ) (ty : BayCbType) (c : χ) (k : κ) : Bay χ κ :=
  if b.enabled k = false then b
  else { b with
    enabled := Function.update b.enabled k false
    cb := fun ty' c' => if ty' = ty ∧ c' = c then (b.cb ty' c').erase k else b.cb ty' c' }

/-- `bay_init` with the channels registered and no callbacks. -/
def init (chan : χ → Chan) : Bay χ κ :=
  { state := .ready, chan, dirty := [], cb := fun _ _ => [], enabled := fun _ => false }

/-- The loop that flushes the dirty channels. -/
def flushAll : List χ → Bay χ κ → Except EmuFault (Bay χ κ)
  | [], b => .ok b
  | c :: cs, b => do flushAll cs (← b.chanFlush c)

end Bay

/-! ## Propagation -/

/-- The bay and the state of the modules that its callbacks belong to. -/
structure World (χ κ σ : Type) where
  bay : Bay χ κ
  mod : σ

section Propagate

variable {χ κ σ : Type} [DecidableEq χ] [DecidableEq κ]

/-- The callbacks linked after `k`. -/
def cbsAfter (k : κ) (cbs : List κ) : List κ := (cbs.dropWhile (· ≠ k)).tail

variable (call : κ → χ → World χ κ σ → Except EmuFault (World χ κ σ))

/-- `propagate_chan` from the callback `cur` on. -/
def propagateChan (ty : BayCbType) (c : χ) :
    Nat → Option κ → World χ κ σ → Except EmuFault (World χ κ σ)
  | _, none, w => .ok w
  | 0, some _, _ => .error .rounds
  | fuel + 1, some k, w => do
      let w ← call k c w
      propagateChan ty c fuel (cbsAfter k (w.bay.cb ty c)).head? w

/-- The walk over the dirty list from position `i` on; it may grow meanwhile. -/
def propagateList (ty : BayCbType) :
    Nat → Nat → World χ κ σ → Except EmuFault (World χ κ σ)
  | 0, _, _ => .error .rounds
  | fuel + 1, i, w =>
      match w.bay.dirty[i]? with
      | none => .ok w
      | some c => do
          let w ← propagateChan call ty c fuel (w.bay.cb ty c).head? w
          propagateList ty fuel (i + 1) w

/-- The world with another state of the bay. -/
def World.setState (w : World χ κ σ) (state : BayState) : World χ κ σ :=
  { w with bay := { w.bay with state } }

/-- `bay_propagate`. -/
def bayPropagate (fuel : Nat) (w : World χ κ σ) : Except EmuFault (World χ κ σ) := do
  let w ← propagateList call .dirty fuel 0 (w.setState .propagating)
  -- Once the dirty callbacks have been propagated, begin the emit stage
  let w ← propagateList call .emit fuel 0 (w.setState .emitting)
  let bay ← (w.setState .flushing).bay.flushAll w.bay.dirty
  return { w with bay := { bay with dirty := [], state := .ready } }

end Propagate

end Ovni
