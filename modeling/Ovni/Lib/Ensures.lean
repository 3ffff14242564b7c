/-!
# Programs that keep their state when they fail

A program may fail after it has changed the state, and what it did stays.  What it
ensures is said of its result and of the state it leaves, whether it fails or not.
-/

namespace Ovni.Lib

/-- Programs over a state `σ` that fail with an `ε`. -/
abbrev Prog (ε σ α : Type) := ExceptT ε (StateM σ) α

section

variable {ε σ α β : Type} {s : σ}

/-- The result and the state after it satisfy `post`. -/
def Ensures (x : Prog ε σ α) (s : σ) (post : Except ε α → σ → Prop) : Prop :=
  post (x.run.run s).1 (x.run.run s).2

/-- What is asked from the rest of a program: nothing when it has failed. -/
def Next (f : α → Prog ε σ β) (post : Except ε β → σ → Prop) : Except ε α → σ → Prop
  | .ok a, s => Ensures (f a) s post
  | .error e, s => post (.error e) s

@[simp] theorem next_ok {a : α} {f : α → Prog ε σ β} {post : Except ε β → σ → Prop} :
    Next f post (.ok a) s ↔ Ensures (f a) s post := Iff.rfl

@[simp] theorem next_error {e : ε} {f : α → Prog ε σ β} {post : Except ε β → σ → Prop} :
    Next f post (.error e) s ↔ post (.error e) s := Iff.rfl

@[simp] theorem ensures_bind {x : Prog ε σ α} {f : α → Prog ε σ β} {post : Except ε β → σ → Prop} :
    Ensures (x >>= f) s post ↔ Ensures x s (Next f post) := by
  have hrun : ((x >>= f).run.run s) = match x.run.run s with
      | (.ok a, s') => (f a).run.run s'
      | (.error e, s') => (.error e, s') := by
    show ((x >>= f).run.run s) = _
    simp only [ExceptT.run_bind, StateT.run_bind]
    cases hx : x.run.run s with
    | mk r s' => cases r <;> rfl
  unfold Ensures
  rw [hrun]
  cases x.run.run s with
  | mk r s' => cases r <;> rfl

@[simp] theorem ensures_pure {a : α} {post : Except ε α → σ → Prop} :
    Ensures (pure a) s post ↔ post (.ok a) s := Iff.rfl

@[simp] theorem ensures_throw {e : ε} {post : Except ε α → σ → Prop} :
    Ensures (throw e) s post ↔ post (.error e) s := Iff.rfl

@[simp] theorem ensures_get {post : Except ε σ → σ → Prop} :
    Ensures (get : Prog ε σ σ) s post ↔ post (.ok s) s := Iff.rfl

@[simp] theorem ensures_modify {f : σ → σ} {post : Except ε PUnit → σ → Prop} :
    Ensures (modify f : Prog ε σ PUnit) s post ↔ post (.ok ⟨⟩) (f s) := Iff.rfl

@[simp] theorem ensures_ite {p : Prop} [Decidable p] {x y : Prog ε σ α}
    {post : Except ε α → σ → Prop} :
    Ensures (if p then x else y) s post ↔
      (p → Ensures x s post) ∧ (¬ p → Ensures y s post) := by
  split
  · simp_all
  · simp_all

theorem Ensures.mono {x : Prog ε σ α} {post post' : Except ε α → σ → Prop}
    (h : Ensures x s post) (himp : ∀ r s', post r s' → post' r s') : Ensures x s post' :=
  himp _ _ h

end

end Ovni.Lib
