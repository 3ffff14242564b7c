import Mathlib.Data.List.Basic

/-!
# Bracket words

Words of opening and closing brackets with labels, read with the stack of the brackets that
are open.  A rule bounds how deep they nest, and may forbid to open a bracket directly in
another one with its label.  The words that leave no bracket open are those of a forest,
and of a single one.
-/

namespace Ovni.Lib

/-- An opening or a closing bracket with its label. -/
inductive Bracket (α : Type) where
  | enter (a : α)
  | leave (a : α)
  deriving DecidableEq

/-- How deep brackets may nest, and whether one may be directly in another one with its
label. -/
structure BracketRule where
  depth : Nat
  repeats : Bool

/-- The brackets of a word with what is inside of the first one and what comes after it. -/
inductive Forest (α : Type) where
  | nil
  | node (a : α) (inside next : Forest α)

namespace Forest

variable {α : Type}

/-- The word of a forest. -/
def word : Forest α → List (Bracket α)
  | nil => []
  | node a inside next => .enter a :: (inside.word ++ .leave a :: next.word)

def depth : Forest α → Nat
  | nil => 0
  | node _ inside next => max (inside.depth + 1) next.depth

/-- No bracket has the label of the one it is directly in; the outer one is given. -/
def Apart : Option α → Forest α → Prop
  | _, nil => True
  | outer, node a inside next => outer ≠ some a ∧ Apart (some a) inside ∧ Apart outer next

end Forest

namespace BracketRule

variable {α : Type} [DecidableEq α] {r : BracketRule} {s t : List α} {w : List (Bracket α)}

/-- The brackets that are open after one more, the innermost first. -/
def step (r : BracketRule) (s : List α) : Bracket α → Option (List α)
  | .enter a =>
      if r.depth ≤ s.length then none
      else if r.repeats = false ∧ s.head? = some a then none
      else some (a :: s)
  | .leave a => if s.head? = some a then some s.tail else none

/-- The brackets that are open after a word. -/
def run (r : BracketRule) (s : List α) (w : List (Bracket α)) : Option (List α) :=
  w.foldlM r.step s

/-- The forest can stand where the brackets `s` are open. -/
def Allows (r : BracketRule) (s : List α) : Forest α → Prop
  | .nil => True
  | .node a inside next =>
      (s.length < r.depth ∧ (r.repeats = false → s.head? ≠ some a)) ∧
        Allows r (a :: s) inside ∧ Allows r s next

/-! ## One bracket -/

theorem step_enter {a : α} : r.step s (.enter a) = some t ↔
    (s.length < r.depth ∧ (r.repeats = false → s.head? ≠ some a)) ∧ t = a :: s := by
  simp only [step]
  by_cases hdepth : r.depth ≤ s.length
  · simp only [if_pos hdepth]
    constructor
    · intro h
      cases h
    · intro h
      omega
  · rw [if_neg hdepth]
    by_cases hrep : r.repeats = false ∧ s.head? = some a
    · simp only [if_pos hrep]
      constructor
      · intro h
        cases h
      · intro h
        exact absurd hrep.2 (h.1.2 hrep.1)
    · rw [if_neg hrep]
      constructor
      · intro h
        exact ⟨⟨by omega, fun hr hhead => hrep ⟨hr, hhead⟩⟩, (Option.some.inj h).symm⟩
      · rintro ⟨-, rfl⟩
        rfl

theorem step_leave {a : α} : r.step s (.leave a) = some t ↔ s = a :: t := by
  simp only [step]
  cases s with
  | nil => simp
  | cons b s =>
      by_cases hb : b = a
      · subst hb
        simp
      · simp [hb]

/-! ## Words -/

@[simp] theorem run_nil : r.run s [] = some s := rfl

theorem run_cons {b : Bracket α} : r.run s (b :: w) = (r.step s b).bind fun s => r.run s w := by
  unfold run
  rw [List.foldlM_cons]
  rfl

theorem run_append {w' : List (Bracket α)} :
    r.run s (w ++ w') = (r.run s w).bind fun s => r.run s w' := by
  unfold run
  rw [List.foldlM_append]
  rfl

theorem run_enter {a : α} : r.run s (.enter a :: w) = some t ↔
    (s.length < r.depth ∧ (r.repeats = false → s.head? ≠ some a)) ∧
      r.run (a :: s) w = some t := by
  rw [run_cons, Option.bind_eq_some_iff]
  constructor
  · rintro ⟨s', hs', hrun⟩
    obtain ⟨hfits, rfl⟩ := step_enter.mp hs'
    exact ⟨hfits, hrun⟩
  · rintro ⟨hfits, hrun⟩
    exact ⟨a :: s, step_enter.mpr ⟨hfits, rfl⟩, hrun⟩

theorem run_leave {a : α} :
    r.run s (.leave a :: w) = some t ↔ ∃ s', s = a :: s' ∧ r.run s' w = some t := by
  rw [run_cons, Option.bind_eq_some_iff]
  simp only [step_leave]

/-- The brackets never nest deeper than the rule says. -/
theorem run_length (h : r.run s w = some t) (hs : s.length ≤ r.depth) : t.length ≤ r.depth := by
  induction w generalizing s with
  | nil =>
      rw [run_nil] at h
      rw [← Option.some.inj h]
      exact hs
  | cons b w ih =>
      cases b with
      | enter a =>
          obtain ⟨⟨hlt, -⟩, hrun⟩ := run_enter.mp h
          exact ih hrun (by rw [List.length_cons]; omega)
      | leave a =>
          obtain ⟨s', rfl, hrun⟩ := run_leave.mp h
          exact ih hrun (by rw [List.length_cons] at hs; omega)

/-- What is open was open before or is opened by the word. -/
theorem mem_of_run {a : α} (h : r.run s w = some t) (hmem : a ∈ t) :
    a ∈ s ∨ Bracket.enter a ∈ w := by
  induction w generalizing s with
  | nil =>
      rw [run_nil] at h
      rw [Option.some.inj h]
      exact Or.inl hmem
  | cons b w ih =>
      cases b with
      | enter a' =>
          rcases ih (run_enter.mp h).2 with hs | hw
          · rcases List.mem_cons.mp hs with rfl | hs
            · exact Or.inr List.mem_cons_self
            · exact Or.inl hs
          · exact Or.inr (List.mem_cons_of_mem _ hw)
      | leave a' =>
          obtain ⟨s', rfl, hrun⟩ := run_leave.mp h
          rcases ih hrun with hs | hw
          · exact Or.inl (List.mem_cons_of_mem _ hs)
          · exact Or.inr (List.mem_cons_of_mem _ hw)

/-! ## Forests -/

/-- The word of a forest is read if the forest is allowed, and leaves the stack as it was. -/
theorem run_word (f : Forest α) {w : List (Bracket α)} :
    r.run s (f.word ++ w) = some t ↔ r.Allows s f ∧ r.run s w = some t := by
  induction f generalizing s w with
  | nil => simp [Forest.word, Allows]
  | node a inside next ihin ihnext =>
      have hword : (Forest.node a inside next).word ++ w =
          .enter a :: (inside.word ++ .leave a :: (next.word ++ w)) := by
        simp [Forest.word]
      rw [hword, run_enter, ihin, run_leave]
      constructor
      · rintro ⟨hfits, hin, s', hs', hrun⟩
        cases hs'
        obtain ⟨hnext, hrun⟩ := ihnext.mp hrun
        exact ⟨⟨hfits, hin, hnext⟩, hrun⟩
      · rintro ⟨⟨hfits, hin, hnext⟩, hrun⟩
        exact ⟨hfits, hin, s, rfl, ihnext.mpr ⟨hnext, hrun⟩⟩

/-- A word that closes everything starts with a forest, and then closes the innermost
bracket. -/
theorem run_split (n : Nat) (hlen : w.length ≤ n) (h : r.run s w = some []) :
    ∃ f : Forest α, (s = [] ∧ w = f.word) ∨
      ∃ a s' w', s = a :: s' ∧ w = f.word ++ .leave a :: w' ∧ r.run s' w' = some [] := by
  induction n generalizing s w with
  | zero =>
      obtain rfl : w = [] := List.length_eq_zero_iff.mp (by omega)
      exact ⟨.nil, Or.inl ⟨Option.some.inj h, rfl⟩⟩
  | succ n ih =>
      cases w with
      | nil => exact ⟨.nil, Or.inl ⟨Option.some.inj h, rfl⟩⟩
      | cons b w =>
          rw [List.length_cons] at hlen
          cases b with
          | leave a =>
              obtain ⟨s', rfl, hrun⟩ := run_leave.mp h
              exact ⟨.nil, Or.inr ⟨a, s', w, rfl, rfl, hrun⟩⟩
          | enter a =>
              obtain ⟨-, hrun⟩ := run_enter.mp h
              -- First what is inside of the bracket, and then what comes after it
              have hshort : w.length ≤ n := by omega
              obtain ⟨f, ⟨hnil, -⟩ | ⟨a', s', w', hs', rfl, hrun'⟩⟩ := ih hshort hrun
              · cases hnil
              · cases hs'
                rw [List.length_append, List.length_cons] at hshort
                have hshort' : w'.length ≤ n := by omega
                obtain ⟨g, ⟨rfl, rfl⟩ | ⟨a', s', w'', rfl, rfl, hrun''⟩⟩ := ih hshort' hrun'
                · exact ⟨.node a f g, Or.inl ⟨rfl, by simp [Forest.word]⟩⟩
                · exact ⟨.node a f g, Or.inr ⟨a', s', w'', rfl, by simp [Forest.word], hrun''⟩⟩

/-- The words that leave no bracket open are those of the forests that are allowed. -/
theorem run_closed_iff : r.run [] w = some [] ↔ ∃ f : Forest α, f.word = w ∧ r.Allows [] f := by
  constructor
  · intro h
    obtain ⟨f, ⟨-, rfl⟩ | ⟨a, s', w', hs', -⟩⟩ := run_split w.length Nat.le.refl h
    · rw [← List.append_nil f.word] at h
      exact ⟨f, rfl, ((run_word f).mp h).1⟩
    · cases hs'
  · rintro ⟨f, rfl, hallows⟩
    rw [← List.append_nil f.word]
    exact (run_word f).mpr ⟨hallows, rfl⟩

omit [DecidableEq α] in
/-- What the rule allows, by the depth of the forest and by its labels. -/
theorem allows_iff (f : Forest α) (hs : s.length ≤ r.depth) : r.Allows s f ↔
    s.length + f.depth ≤ r.depth ∧ (r.repeats = false → f.Apart s.head?) := by
  induction f generalizing s with
  | nil => simp [Allows, Forest.depth, Forest.Apart, hs]
  | node a inside next ihin ihnext =>
      rw [Allows, ihnext hs, Forest.depth, Forest.Apart]
      constructor
      · rintro ⟨⟨hlt, hhead⟩, hin, hdepth, hnext⟩
        obtain ⟨hdepth', hin⟩ := (ihin (s := a :: s) (by rw [List.length_cons]; omega)).mp hin
        rw [List.length_cons] at hdepth'
        exact ⟨by omega, fun hr => ⟨hhead hr, hin hr, hnext hr⟩⟩
      · rintro ⟨hdepth, hapart⟩
        have hlt : s.length < r.depth := by omega
        refine ⟨⟨hlt, fun hr => (hapart hr).1⟩, ?_, by omega, fun hr => (hapart hr).2.2⟩
        rw [ihin (by rw [List.length_cons]; omega), List.length_cons]
        exact ⟨by omega, fun hr => (hapart hr).2.1⟩

end BracketRule

/-! ## One forest for a word -/

section

variable {α : Type}

theorem Forest.word_append_inj {f g : Forest α} {u v : List (Bracket α)}
    (hu : ∀ a, u.head? ≠ some (.enter a)) (hv : ∀ a, v.head? ≠ some (.enter a))
    (h : f.word ++ u = g.word ++ v) : f = g ∧ u = v := by
  induction f generalizing g u v with
  | nil =>
      cases g with
      | nil => exact ⟨rfl, h⟩
      | node b inside next =>
          refine absurd ?_ (hu b)
          rw [show u = _ from h]
          rfl
  | node a inside next ihin ihnext =>
      cases g with
      | nil =>
          refine absurd ?_ (hv a)
          rw [show v = _ from h.symm]
          rfl
      | node b inside' next' =>
          simp only [word, List.cons_append, List.append_assoc, List.cons.injEq,
            Bracket.enter.injEq] at h
          obtain ⟨rfl, h⟩ := h
          obtain ⟨rfl, hrest⟩ := ihin (by simp) (by simp) h
          obtain ⟨rfl, rfl⟩ := ihnext hu hv (List.cons.inj hrest).2
          exact ⟨rfl, rfl⟩

/-- The word says what the forest is. -/
theorem Forest.word_injective : Function.Injective (Forest.word : Forest α → _) := by
  intro f g h
  have happ : f.word ++ [] = g.word ++ [] := by rw [h]
  exact (word_append_inj (by simp) (by simp) happ).1

end

end Ovni.Lib
