import Ovni.Bay.Model

/-!
# A channel on its own

`emu/chan.c` as it stands: the stack is an array with a counter, and a call that fails may
leave the channel changed.  The dirty callback belongs to whoever owns the channel, so
each operation is given whether the callback succeeds.

The list view of the array is the channel of the bay.
-/

namespace Ovni

/-- `struct chan_stack`. -/
structure ChanStack where
  n : Nat
  values : Nat → Value

/-- The values of the stack, the top one first. -/
def ChanStack.list (stack : ChanStack) : List Value :=
  ((List.range stack.n).map stack.values).reverse

/-- `struct chan`.  The value and the stack share their memory in a union, but only the
one of the channel type is ever used. -/
structure ChanRec where
  isDirty : Bool
  dirtyWrite : Bool
  allowDup : Bool
  ignoreDup : Bool
  lastValue : Value
  type : ChanType
  value : Value
  stack : ChanStack

/-- `enum chan_prop`. -/
inductive ChanProp where
  | dirtyWrite
  | allowDup
  | ignoreDup

namespace ChanRec

/-- `chan_init`. -/
def init (type : ChanType) : ChanRec :=
  { isDirty := false, dirtyWrite := false, allowDup := false, ignoreDup := false,
    lastValue := .null, type, value := .null, stack := { n := 0, values := fun _ => .null } }

/-- `chan_read`, and `get_value`. -/
def read (chan : ChanRec) : Value :=
  match chan.type with
  | .single => chan.value
  | .stack => if 0 < chan.stack.n then chan.stack.values (chan.stack.n - 1) else .null

/-- `set_dirty`. -/
def setDirty (cb : Bool) (chan : ChanRec) : Bool × ChanRec :=
  -- Already dirty and allowed, no need to do anything
  if chan.isDirty then (chan.dirtyWrite, chan)
  else (cb, { chan with isDirty := true })

/-- `chan_set`. -/
def set (cb : Bool) (chan : ChanRec) (v : Value) : Bool × ChanRec :=
  if chan.type ≠ .single then (false, chan)
  else if chan.isDirty ∧ chan.dirtyWrite = false then (false, chan)
  else if chan.allowDup = false ∧ chan.lastValue = v then (chan.ignoreDup, chan)
  else setDirty cb { chan with value := v }

/-- `chan_push`. -/
def push (cb : Bool) (chan : ChanRec) (v : Value) : Bool × ChanRec :=
  if chan.type ≠ .stack then (false, chan)
  else if chan.isDirty ∧ chan.dirtyWrite = false then (false, chan)
  else if chan.allowDup = false ∧ chan.lastValue = v then (chan.ignoreDup, chan)
  else if chan.stack.n ≥ maxChanStack then (false, chan)
  else setDirty cb { chan with
    stack := { n := chan.stack.n + 1
               values := Function.update chan.stack.values chan.stack.n v } }

/-- `chan_pop`. -/
def pop (cb : Bool) (chan : ChanRec) (v : Value) : Bool × ChanRec :=
  if chan.type ≠ .stack then (false, chan)
  else if chan.isDirty ∧ chan.dirtyWrite = false then (false, chan)
  else if chan.stack.n = 0 then (false, chan)
  else if chan.stack.values (chan.stack.n - 1) ≠ v then (false, chan)
  else setDirty cb { chan with stack := { chan.stack with n := chan.stack.n - 1 } }

/-- `chan_flush`. -/
def flush (chan : ChanRec) : Bool × ChanRec :=
  if chan.isDirty = false then (false, chan)
  else (true, { chan with lastValue := chan.read, isDirty := false })

/-- `chan_dirty`. -/
def dirty (cb : Bool) (chan : ChanRec) : Bool × ChanRec :=
  if chan.isDirty then (true, chan) else setDirty cb chan

/-- `chan_prop_set`. -/
def propSet (chan : ChanRec) (prop : ChanProp) (b : Bool) : ChanRec :=
  match prop with
  | .dirtyWrite => { chan with dirtyWrite := b }
  | .allowDup => { chan with allowDup := b }
  | .ignoreDup => { chan with ignoreDup := b }

/-- The channel as the bay sees it. -/
def view (chan : ChanRec) : Chan :=
  { isDirty := chan.isDirty, dirtyWrite := chan.dirtyWrite, allowDup := chan.allowDup,
    ignoreDup := chan.ignoreDup, lastValue := chan.lastValue, type := chan.type,
    value := chan.value, stack := chan.stack.list }

end ChanRec

/-- A write of a channel. -/
inductive ChanWrite where
  | set (v : Value)
  | push (v : Value)
  | pop (v : Value)

/-- The channel after a write, with its result. -/
def ChanWrite.run (cb : Bool) (chan : ChanRec) : ChanWrite → Bool × ChanRec
  | set v => chan.set cb v
  | push v => chan.push cb v
  | pop v => chan.pop cb v

/-- An operation on a channel. -/
inductive ChanCall where
  | write (w : ChanWrite)
  | flush
  | dirty
  | prop (p : ChanProp) (b : Bool)

/-- The channel after an operation, whatever its result. -/
def ChanCall.run (cb : Bool) (chan : ChanRec) : ChanCall → ChanRec
  | write w => (w.run cb chan).2
  | flush => chan.flush.2
  | dirty => (chan.dirty cb).2
  | prop p b => chan.propSet p b

/-- The channel after a history of operations, each with the result of the callback. -/
def ChanRec.after (chan : ChanRec) (history : List (ChanCall × Bool)) : ChanRec :=
  history.foldl (fun chan call => call.1.run call.2 chan) chan

/-! ## The list view of the stack -/

namespace ChanStack

variable (stack : ChanStack)

@[simp] theorem length_list : stack.list.length = stack.n := by
  simp [list]

theorem list_push (v : Value) :
    ({ n := stack.n + 1, values := Function.update stack.values stack.n v } : ChanStack).list =
      v :: stack.list := by
  have hbelow : (List.range stack.n).map (Function.update stack.values stack.n v) =
      (List.range stack.n).map stack.values := by
    refine List.map_congr_left fun i hi => Function.update_of_ne ?_ _ _
    have hlt := List.mem_range.mp hi
    omega
  rw [list, List.range_succ, List.map_append, hbelow, List.reverse_append]
  simp [list]

theorem list_pop (hn : stack.n ≠ 0) : stack.list =
    stack.values (stack.n - 1) :: ({ stack with n := stack.n - 1 } : ChanStack).list := by
  have hsucc : stack.n - 1 + 1 = stack.n := by omega
  have hrange := @List.range_succ (stack.n - 1)
  rw [Nat.succ_eq_add_one, hsucc] at hrange
  rw [list, hrange, List.map_append, List.reverse_append]
  rfl

theorem headD_list : stack.list.headD .null =
    if 0 < stack.n then stack.values (stack.n - 1) else .null := by
  by_cases hn : stack.n = 0
  · have hnil : stack.list = [] := by
      rw [← List.length_eq_zero_iff, length_list, hn]
    rw [hnil, if_neg (by omega)]
    rfl
  · rw [stack.list_pop hn, if_pos (by omega)]
    rfl

end ChanStack

/-! ## The channel of the bay -/

section

variable {χ κ : Type} [DecidableEq χ] {b b' : Bay χ κ} {c : χ} {chan : ChanRec} {v : Value}

/-- The callback of a channel in the bay, `cb_chan_is_dirty`, succeeds. -/
def Bay.takesDirty (b : Bay χ κ) : Bool := b.state = .ready ∨ b.state = .propagating

/-- A call in the bay and the same call on the channel alone. -/
def SameCall (c : χ) (call : Except EmuFault (Bay χ κ)) (res : Bool × ChanRec) : Prop :=
  match call with
  | .ok b' => res.1 = true ∧ b'.chan c = res.2.view
  | .error _ => res.1 = false

namespace ChanRec

theorem read_view (chan : ChanRec) : chanRead chan.view = chan.read := by
  unfold chanRead view read
  cases chan.type with
  | single => rfl
  | stack => exact chan.stack.headD_list

theorem setDirty_bay (h : b.chan c = chan.view) :
    SameCall c (b.setDirty c) (chan.setDirty b.takesDirty) := by
  unfold Bay.setDirty setDirty SameCall
  rw [h]
  cases hd : chan.isDirty with
  | true =>
      cases hw : chan.dirtyWrite with
      | true => simpa [view, hd, hw] using h
      | false => simp [view, hd, hw]
  | false =>
      unfold Bay.cbChanIsDirty Bay.takesDirty
      by_cases hs : b.state = .ready ∨ b.state = .propagating
      · simp [view, hd, hs, Bay.put]
      · simp [view, hd, hs, Bay.put]

omit [DecidableEq χ] in
theorem sameCall_guard {p : Prop} [Decidable p] {e : EmuFault}
    {rest : Except EmuFault (Bay χ κ)} {res : Bool × ChanRec}
    (h : ¬ p → SameCall c rest res) :
    SameCall c (do
      if p then throw e
      rest) (if p then (false, chan) else res) := by
  by_cases hp : p
  · simp only [hp, if_true]
    rfl
  · simp only [hp, if_false]
    exact h hp

omit [DecidableEq χ] in
/-- The check of duplicates that `chan_set` and `chan_push` share. -/
theorem sameCall_dup {rest : Except EmuFault (Bay χ κ)} {res : Bool × ChanRec}
    (h : b.chan c = chan.view) (hrest : SameCall c rest res) :
    SameCall c (do
      if ← Bay.checkDup chan.view v then rest else return b)
      (if chan.allowDup = false ∧ chan.lastValue = v then (chan.ignoreDup, chan) else res) := by
  unfold Bay.checkDup
  by_cases hdup : chan.allowDup = false ∧ chan.lastValue = v
  · rw [if_pos hdup, if_pos (show chan.view.allowDup = false ∧ chan.view.lastValue = v from hdup)]
    cases hi : chan.ignoreDup with
    | true =>
        rw [if_pos (show chan.view.ignoreDup = true from hi)]
        exact ⟨rfl, h⟩
    | false =>
        rw [if_neg (show ¬ chan.view.ignoreDup = true by simp [view, hi])]
        rfl
  · have hview : ¬ (chan.view.allowDup = false ∧ chan.view.lastValue = v) := hdup
    rw [if_neg hdup, if_neg hview]
    exact hrest

theorem setDirty_put (chan : ChanRec) :
    SameCall c ((b.put c chan.view).setDirty c) (chan.setDirty b.takesDirty) := by
  have hput : (b.put c chan.view).chan c = chan.view := by simp [Bay.put]
  exact setDirty_bay hput

/-- `chan_set` in the bay is `chan_set` on the channel. -/
theorem set_bay (h : b.chan c = chan.view) :
    SameCall c (b.chanSet c v) (chan.set b.takesDirty v) := by
  unfold Bay.chanSet
  rw [h]
  refine sameCall_guard fun _ => sameCall_guard fun _ => sameCall_dup h ?_
  exact setDirty_put { chan with value := v }

theorem push_bay (h : b.chan c = chan.view) :
    SameCall c (b.chanPush c v) (chan.push b.takesDirty v) := by
  unfold Bay.chanPush
  rw [h]
  refine sameCall_guard fun _ => sameCall_guard fun _ => sameCall_dup h ?_
  have hlength : chan.view.stack.length = chan.stack.n := chan.stack.length_list
  rw [hlength]
  apply sameCall_guard
  intro _
  have hput := setDirty_put (b := b) (c := c) { chan with
    stack := { n := chan.stack.n + 1
               values := Function.update chan.stack.values chan.stack.n v } }
  rw [view, ChanStack.list_push] at hput
  exact hput

theorem pop_bay (h : b.chan c = chan.view) :
    SameCall c (b.chanPop c v) (chan.pop b.takesDirty v) := by
  unfold Bay.chanPop
  rw [h]
  refine sameCall_guard fun _ => sameCall_guard fun _ => ?_
  by_cases hn : chan.stack.n = 0
  · have hnil : chan.view.stack = [] := by
      rw [← List.length_eq_zero_iff]
      exact chan.stack.length_list.trans hn
    rw [hnil, if_pos hn]
    rfl
  · have hcons : chan.view.stack = _ := chan.stack.list_pop hn
    rw [hcons, if_neg hn]
    exact sameCall_guard fun _ =>
      setDirty_put { chan with stack := { chan.stack with n := chan.stack.n - 1 } }

theorem flush_bay (h : b.chan c = chan.view) : SameCall c (b.chanFlush c) chan.flush := by
  unfold Bay.chanFlush flush Bay.read
  rw [h, read_view]
  cases hd : chan.isDirty with
  | true => simp [SameCall, view, hd, Bay.put]
  | false => simp [SameCall, view, hd]

end ChanRec

end

end Ovni
