import Ovni.System.Resting

/-!
# The breakdown muxes of a CPU

`nosv/breakdown.c` and `nanos6/breakdown.c`, which only differ in the values of the model.
Two muxes follow the subsystem, task type and idle tracks of each physical CPU: the first
one shows the type of the task or the subsystem in the channel `tr`, and the second one
shows `tr`, or why the CPU is idle, in the channel `tri`.
-/

namespace Ovni

/-- The model whose breakdown is shown. -/
inductive BreakdownModel where
  | nosv
  | nanos6
  deriving DecidableEq

/-- `ST_TASK_BODY`. -/
def BreakdownModel.stTaskBody : BreakdownModel → Int
  | .nosv => 11
  | .nanos6 => 1

/-- `ST_UNKNOWN_SS` of both models. -/
def stUnknownSs : Int := 2

/-- The channels of a CPU: the outputs of three of its tracks and the two of
`struct nosv_breakdown_cpu`. -/
structure BreakdownCpu (ξ : Type) where
  ss : ξ
  tt : ξ
  idle : ξ
  tr : ξ
  tri : ξ

/-- `select_tr`; the inputs of the mux are `ss` and `tt`. -/
def selectTr {χ : Type} (k : BreakdownModel) (ss tt : χ) : SelectFunc χ := fun _ read value =>
  -- Only show task type if we have a task
  if value = .int64 k.stTaskBody ∧ read tt ≠ .null then .ok (some 1)
  -- Don't select anything, so the default output is shown
  else if read ss = .null then .ok none
  else .ok (some 0)

/-- `select_idle`. -/
def selectIdle {χ : Type} : SelectFunc χ := fun _ _ value =>
  if value = .int64 stProgressing then .ok (some 0) else .ok (some 1)

/-- `mux0` of `connect_cpu`. -/
def BreakdownCpu.mux0 {θ γ ξ : Type} (k : BreakdownModel) (b : BreakdownCpu ξ) :
    Mux (EmuChan θ γ ξ) where
  select := .model b.ss
  output := .model b.tr
  inputs := [some (.model b.ss), some (.model b.tt)]
  selectFunc := some (selectTr k (.model b.ss) (.model b.tt))
  def_ := .int64 stUnknownSs

/-- `mux1` of `connect_cpu`. -/
def BreakdownCpu.mux1 {θ γ ξ : Type} (b : BreakdownCpu ξ) : Mux (EmuChan θ γ ξ) where
  select := .model b.idle
  output := .model b.tri
  inputs := [some (.model b.tr), some (.model b.idle)]
  selectFunc := some selectIdle
  def_ := .null

/-! ## What the channels are meant to show -/

section

variable {θ γ ξ μ ν τ : Type}

/-- The type of the task in a task body, otherwise the subsystem, or that it is unknown. -/
def BreakdownCpu.trValue (k : BreakdownModel) (b : BreakdownCpu ξ) (e : Emu θ γ ξ μ ν τ) :
    Value :=
  if e.read (.model b.ss) = .int64 k.stTaskBody ∧ e.read (.model b.tt) ≠ .null then
    e.read (.model b.tt)
  else if e.read (.model b.ss) ≠ .null then e.read (.model b.ss)
  else .int64 stUnknownSs

/-- What the thread of the CPU does when it is progressing, or why it is idle. -/
def BreakdownCpu.triValue (b : BreakdownCpu ξ) (e : Emu θ γ ξ μ ν τ) : Value :=
  if e.read (.model b.idle) = .int64 stProgressing then e.read (.model b.tr)
  else e.read (.model b.idle)

/-- The channels show what they are meant to. -/
def BreakdownCpu.Shows (k : BreakdownModel) (b : BreakdownCpu ξ) (e : Emu θ γ ξ μ ν τ) : Prop :=
  e.read (.model b.tr) = b.trValue k e ∧ e.read (.model b.tri) = b.triValue e

end

/-! ## The muxes -/

section

variable {θ γ ξ : Type} {k : BreakdownModel} {b : BreakdownCpu ξ} {c : EmuChan θ γ ξ}

theorem BreakdownCpu.port0 :
    (b.mux0 k : Mux (EmuChan θ γ ξ)).HasPort c ↔ c = .model b.ss ∨ c = .model b.tt := by
  unfold Mux.HasPort Mux.input BreakdownCpu.mux0
  constructor
  · rintro (h | ⟨i, hi⟩)
    · exact .inl h
    · rcases i with _ | _ | i
      · exact .inl (by simpa using hi.symm)
      · exact .inr (by simpa using hi.symm)
      · simp at hi
  · rintro (h | h)
    · exact .inl h
    · exact .inr ⟨1, by simp [h]⟩

theorem BreakdownCpu.port1 :
    (b.mux1 : Mux (EmuChan θ γ ξ)).HasPort c ↔ c = .model b.idle ∨ c = .model b.tr := by
  unfold Mux.HasPort Mux.input BreakdownCpu.mux1
  constructor
  · rintro (h | ⟨i, hi⟩)
    · exact .inl h
    · rcases i with _ | _ | i
      · exact .inr (by simpa using hi.symm)
      · exact .inl (by simpa using hi.symm)
      · simp at hi
  · rintro (h | h)
    · exact .inl h
    · exact .inr ⟨0, by simp [h]⟩

end

end Ovni
