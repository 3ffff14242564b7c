import Mathlib.Data.List.Basic

/-!
# Runs of several parties

Parties that act on a shared state one step at a time, in any order.  A run keeps the log of
what they did, and the actions of one party are its part of the log.
-/

namespace Ovni.Lib

variable {ι α β σ : Type}

/-- The runs of the parties `ι` from a state, with what they did in order. -/
inductive Runs (step : ι → α → σ → σ → Prop) (init : σ) : List (ι × α) → σ → Prop where
  | nil : Runs step init [] init
  | snoc {log : List (ι × α)} {s s' : σ} {i : ι} {a : α} (h : Runs step init log s)
      (hstep : step i a s s') : Runs step init (log ++ [(i, a)]) s'

/-- What holds at the start and is kept by every step holds in every run. -/
theorem Runs.inv {step : ι → α → σ → σ → Prop} {init : σ} {P : List (ι × α) → σ → Prop}
    (hinit : P [] init)
    (hkeep : ∀ log s i a s', P log s → step i a s s' → P (log ++ [(i, a)]) s')
    {log : List (ι × α)} {s : σ} (h : Runs step init log s) : P log s := by
  induction h with
  | nil => exact hinit
  | snoc _ hstep ih => exact hkeep _ _ _ _ _ ih hstep

/-- The runs of a function that takes the steps. -/
theorem Runs.exec {step : ι → α → σ → σ → Prop} {init : σ} {f : ι → α → σ → Option σ}
    (hf : ∀ i a s s', f i a s = some s' → step i a s s') (acts : List (ι × α))
    {log : List (ι × α)} {s s' : σ} (h : Runs step init log s)
    (hrun : acts.foldlM (fun s entry => f entry.1 entry.2 s) s = some s') :
    Runs step init (log ++ acts) s' := by
  induction acts generalizing log s with
  | nil =>
      rw [List.append_nil, ← Option.some.inj hrun]
      exact h
  | cons entry rest ih =>
      rw [List.foldlM_cons, Option.bind_eq_bind, Option.bind_eq_some_iff] at hrun
      obtain ⟨s₁, hstep, hrest⟩ := hrun
      have hsnoc := ih (h.snoc (hf _ _ _ _ hstep)) hrest
      rwa [List.append_assoc] at hsnoc

/-! ## The actions of one party -/

variable [DecidableEq ι]

/-- What a function picks from the actions of one party. -/
def pick (f : α → Option β) (i : ι) (log : List (ι × α)) : List β :=
  log.filterMap fun entry => if entry.1 = i then f entry.2 else none

@[simp] theorem pick_nil (f : α → Option β) (i : ι) : pick f i [] = [] := rfl

theorem mem_pick {f : α → Option β} {i : ι} {log : List (ι × α)} {b : β} (h : b ∈ pick f i log) :
    ∃ a, (i, a) ∈ log ∧ f a = some b := by
  obtain ⟨entry, hentry, heq⟩ := List.mem_filterMap.mp h
  split at heq
  · obtain rfl := ‹entry.1 = i›
    exact ⟨entry.2, hentry, heq⟩
  · cases heq

theorem pick_snoc_of_ne {f : α → Option β} {i j : ι} (hij : j ≠ i) (log : List (ι × α)) (a : α) :
    pick f i (log ++ [(j, a)]) = pick f i log := by
  unfold pick
  rw [List.filterMap_append]
  simp [hij]

theorem pick_snoc_self {f : α → Option β} (i : ι) (log : List (ι × α)) (a : α) :
    pick f i (log ++ [(i, a)]) = pick f i log ++ (f a).toList := by
  unfold pick
  rw [List.filterMap_append]
  cases h : f a <;> simp [h]

end Ovni.Lib
