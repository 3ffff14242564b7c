import Ovni.Bay.Model

/-!
# Multiplexers

`emu/mux.c`: a mux copies to its output the input that its select channel chooses.
The callback of the select channel is always enabled; of the inputs, only that of
the chosen one is, so the callback lists change while the bay propagates.

The muxes of a bay are named by a type `μ`.  Other modules (sorting, tracing) have
callbacks `ν` of their own in the same bay, with a state `τ`.
-/

namespace Ovni

/-- A `select_func`: with the number of inputs and the channels it may read, the
input chosen for a value of the select channel. -/
abbrev SelectFunc (χ : Type) := Nat → (χ → Value) → Value → Except String (Option Nat)

/-- `struct mux` as it is connected; an input without channel was not set. -/
structure Mux (χ : Type) where
  select : χ
  output : χ
  inputs : List (Option χ)
  selectFunc : Option (SelectFunc χ)
  def_ : Value

/-- `default_select`. -/
def defaultSelect {χ : Type} : SelectFunc χ := fun ninputs _ key =>
  match key with
  | .null => .ok none
  | .int64 i =>
      if i < 0 ∨ (ninputs : Int) ≤ i then .error "index out of bounds" else .ok (some i.toNat)
  | .double _ => .error "only null and int64 values supported"

/-- The callbacks of a bay: of the select channel of a mux, of an input of a mux,
and of other modules. -/
inductive Cb (μ ν : Type) where
  | select (m : μ)
  | input (m : μ) (i : Nat)
  | other (k : ν)
  deriving DecidableEq

/-- The state of the modules: the `selected` of each mux and that of the others. -/
structure Modules (μ τ : Type) where
  selected : μ → Int
  other : τ

/-- The muxes of a bay and what the other callbacks do. -/
structure Net (χ μ ν τ : Type) where
  mux : μ → Mux χ
  other : ν → χ → World χ (Cb μ ν) (Modules μ τ) →
    Except EmuFault (World χ (Cb μ ν) (Modules μ τ))

/-- A bay with muxes. -/
abbrev MuxWorld (χ μ ν τ : Type) := World χ (Cb μ ν) (Modules μ τ)

section

variable {χ μ ν τ : Type} [DecidableEq χ] [DecidableEq μ] [DecidableEq ν]
  (net : Net χ μ ν τ)

/-- The channel of an input, when it was set. -/
def Mux.input (mux : Mux χ) (i : Nat) : Option χ := mux.inputs[i]?.join

/-- `select_input`. -/
def selectInput (mux : Mux χ) (read : χ → Value) (key : Value) :
    Except EmuFault (Option Nat) :=
  match mux.selectFunc with
  | none => (defaultSelect mux.inputs.length read key).mapError .fail
  | some f => (f mux.inputs.length read key).mapError .fail

/-- The world with another `selected` of a mux. -/
def World.setSelected (w : MuxWorld χ μ ν τ) (m : μ) (i : Int) : MuxWorld χ μ ν τ :=
  { w with mod := { w.mod with selected := Function.update w.mod.selected m i } }

/-- The first part of `cb_select`: clear the previous selected input. -/
def clearSelected (m : μ) (w : MuxWorld χ μ ν τ) : Except EmuFault (MuxWorld χ μ ν τ) :=
  if 0 ≤ w.mod.selected m then
    let old := (w.mod.selected m).toNat
    match (net.mux m).input old with
    | none => .error .crash
    | some c =>
        .ok ({ w with bay := w.bay.disableCb .dirty c (.input m old) }.setSelected m (-1))
  else .ok w

/-- The second part of `cb_select`: enable the chosen input and give the value for
the output. -/
def enableSelected (m : μ) (choice : Option Nat) (w : MuxWorld χ μ ν τ) :
    Except EmuFault (MuxWorld χ μ ν τ × Value) :=
  match choice with
  | none => .ok (w, (net.mux m).def_)
  | some i =>
      match (net.mux m).input i with
      | none => .error .crash
      | some c =>
          .ok ({ w with bay := w.bay.enableCb .dirty c (.input m i) }.setSelected m i,
            w.bay.read c)

/-- `chan_set` in the bay of a world. -/
def World.chanSet (w : MuxWorld χ μ ν τ) (c : χ) (v : Value) :
    Except EmuFault (MuxWorld χ μ ν τ) := do
  return { w with bay := ← w.bay.chanSet c v }

/-- `cb_select`. -/
def cbSelect (m : μ) (selChan : χ) (w : MuxWorld χ μ ν τ) :
    Except EmuFault (MuxWorld χ μ ν τ) := do
  let selValue := w.bay.read selChan
  let w ← clearSelected net m w
  let choice ← selectInput (net.mux m) w.bay.read selValue
  let (w, outValue) ← enableSelected net m choice w
  w.chanSet (net.mux m).output outValue

/-- `cb_input`. -/
def cbInput (m : μ) (inChan : χ) (w : MuxWorld χ μ ν τ) :
    Except EmuFault (MuxWorld χ μ ν τ) :=
  w.chanSet (net.mux m).output (w.bay.read inChan)

/-- The call of a callback. -/
def Net.call (k : Cb μ ν) (c : χ) (w : MuxWorld χ μ ν τ) :
    Except EmuFault (MuxWorld χ μ ν τ) :=
  match k with
  | .select m => cbSelect net m c w
  | .input m _ => cbInput net m c w
  | .other k => net.other k c w

/-- `mux_init` followed by `mux_set_input` on each of its inputs, whose callbacks
stay disabled until selected. -/
def muxInit (w : MuxWorld χ μ ν τ) (m : μ) : Except EmuFault (MuxWorld χ μ ν τ) := do
  let mux := net.mux m
  if (w.bay.chan mux.output).type ≠ .single then
    throw (.fail "output channel must be of type single")
  if mux.select = mux.output then
    throw (.fail "cannot use same channel as select and output")
  if some mux.output ∈ mux.inputs then
    throw (.fail "cannot use same input channel as output")
  -- The output channel must accept multiple writes while it is dirty, and
  -- switching to an input with the same value
  let bay := w.bay.put mux.output
    { w.bay.chan mux.output with dirtyWrite := true, allowDup := true }
  return { w with bay := bay.enableCb .dirty mux.select (.select m) }.setSelected m 0

/-- Connect some muxes one after the other. -/
def connectMuxes : List μ → MuxWorld χ μ ν τ → Except EmuFault (MuxWorld χ μ ν τ)
  | [], w => .ok w
  | m :: ms, w => do connectMuxes ms (← muxInit net w m)

end

end Ovni
