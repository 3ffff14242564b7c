import Mathlib.Data.List.Infix
import Ovni.Lib.Keyed

/-!
# Nested records

Records whose fields may be records again, so that a path of keys leads to a value.  A value
that is set at a path is found there, and paths that do not go on with each other do not
disturb each other: after many values were set, the last one of a path is found.
-/

namespace Ovni.Lib

/-- The values that are records, with their fields. -/
structure Shape (κ V : Type) where
  wrap : List (κ × V) → V
  fields : V → Option (List (κ × V))
  fields_wrap : ∀ obj, fields (wrap obj) = some obj

variable {κ V : Type} [DecidableEq κ]

/-! ## One level -/

/-- The value of a field. -/
def getKey (obj : List (κ × V)) (k : κ) : Option V :=
  (obj.find? fun field => field.1 = k).map Prod.snd

/-- Sets a field, in its place or at the end. -/
def setKey (obj : List (κ × V)) (k : κ) (v : V) : List (κ × V) := put Prod.fst (k, v) obj

section

variable {obj : List (κ × V)} {k k' : κ} {v : V}

theorem getKey_setKey : getKey (setKey obj k v) k = some v := by
  have hfind := @find_put _ _ obj Prod.fst (k, v) _
  unfold getKey setKey
  rw [hfind]
  rfl

theorem getKey_setKey_of_ne (h : k' ≠ k) : getKey (setKey obj k v) k' = getKey obj k' := by
  have hfind := @find_put_of_ne _ _ obj Prod.fst (k, v) _ _ h
  unfold getKey setKey
  rw [hfind]

theorem mem_setKey {field : κ × V} (h : field ∈ setKey obj k v) : field = (k, v) ∨ field ∈ obj :=
  (mem_put.mp h).imp_right And.left

theorem mem_of_getKey (h : getKey obj k = some v) : (k, v) ∈ obj := by
  obtain ⟨field, hfind, rfl⟩ := Option.map_eq_some_iff.mp h
  have hkey : field.1 = k := by simpa using List.find?_some hfind
  rw [← hkey]
  exact List.mem_of_find?_eq_some hfind

end

/-! ## What was set last -/

section

variable {α V : Type} [DecidableEq α] {q : α}

/-- The last value of a key in a list. -/
def lastSet (q : α) (sets : List (α × V)) : Option V :=
  (sets.reverse.find? fun entry => entry.1 = q).map Prod.snd

theorem lastSet_append (a b : List (α × V)) :
    lastSet q (a ++ b) = (lastSet q b).or (lastSet q a) := by
  unfold lastSet
  rw [List.reverse_append, List.find?_append, Option.map_or]

theorem lastSet_none {sets : List (α × V)} (h : ∀ entry ∈ sets, entry.1 ≠ q) :
    lastSet q sets = none := by
  rw [lastSet, Option.map_eq_none_iff, List.find?_eq_none]
  intro entry he
  simpa using h entry (List.mem_reverse.mp he)

theorem lastSet_mem {sets : List (α × V)} {v : V} (h : lastSet q sets = some v) :
    (q, v) ∈ sets := by
  obtain ⟨entry, hfind, rfl⟩ := Option.map_eq_some_iff.mp h
  have hkey : entry.1 = q := by simpa using List.find?_some hfind
  rw [← hkey]
  exact List.mem_reverse.mp (List.mem_of_find?_eq_some hfind)

end

/-! ## Paths -/

/-- Neither of the paths goes on with the other. -/
def Diverge (p q : List κ) : Prop := ¬ p <+: q ∧ ¬ q <+: p

instance decidableDiverge (p q : List κ) : Decidable (Diverge p q) :=
  inferInstanceAs (Decidable (_ ∧ _))

theorem diverge_cons {κ : Type} {a b : κ} {p q : List κ} :
    Diverge (a :: p) (b :: q) ↔ a ≠ b ∨ Diverge p q := by
  unfold Diverge
  rw [List.cons_prefix_cons, List.cons_prefix_cons]
  by_cases h : a = b
  · simp [h]
  · simp [h, Ne.symm h]

theorem diverge_append {κ : Type} {p q : List κ} (first : List κ) :
    Diverge (first ++ p) (first ++ q) ↔ Diverge p q := by
  unfold Diverge
  rw [List.prefix_append_right_inj, List.prefix_append_right_inj]

/-- A path that leaves another one leaves every path that goes on with it. -/
theorem Diverge.append {κ : Type} {p q : List κ} (h : Diverge p q) (r : List κ) :
    Diverge p (q ++ r) := by
  constructor
  · intro hp
    rcases List.prefix_or_prefix_of_prefix hp (List.prefix_append q r) with hpq | hqp
    · exact h.1 hpq
    · exact h.2 hqp
  · intro hq
    exact h.2 ((List.prefix_append q r).trans hq)

/-- Two paths that differ in the last key only. -/
theorem diverge_last {κ : Type} (q : List κ) {a b : κ} (h : a ≠ b) :
    Diverge (q ++ [a]) (q ++ [b]) := by
  have hne : ∀ {a b : κ}, a ≠ b → ¬ q ++ [a] <+: q ++ [b] := by
    intro a b h hp
    have heq := hp.eq_of_length (by simp)
    exact h (by simpa using heq)
  exact ⟨hne h, hne h.symm⟩

namespace Shape

variable (shape : Shape κ V)

/-- The value at a path. -/
def getAt : List (κ × V) → List κ → Option V
  | _, [] => none
  | obj, [k] => getKey obj k
  | obj, k :: rest => ((getKey obj k).bind shape.fields).bind fun sub => getAt sub rest

/-- Updates the record under a key, or a new one where there is nothing. -/
def setUnder (obj : List (κ × V)) (k : κ) (set : List (κ × V) → Option (List (κ × V))) :
    Option (List (κ × V)) :=
  match getKey obj k with
  | none => (set []).map fun sub => setKey obj k (shape.wrap sub)
  | some old =>
      match shape.fields old with
      | none => none
      | some sub => (set sub).map fun sub => setKey obj k (shape.wrap sub)

/-- Sets the value at a path, with new records on the way where there is nothing. -/
def setAt : List (κ × V) → List κ → V → Option (List (κ × V))
  | _, [], _ => none
  | obj, [k], v => some (setKey obj k v)
  | obj, k :: rest, v => shape.setUnder obj k fun sub => setAt sub rest v

/-- One value after the other. -/
def setAll (sets : List (List κ × V)) (obj : List (κ × V)) : Option (List (κ × V)) :=
  sets.foldlM (fun obj entry => shape.setAt obj entry.1 entry.2) obj

variable {shape} {obj obj' : List (κ × V)} {k : κ} {v : V} {p q : List κ}

theorem getAt_cons (hq : q ≠ []) : shape.getAt obj (k :: q) =
    ((getKey obj k).bind shape.fields).bind fun sub => shape.getAt sub q := by
  cases q with
  | nil => exact absurd rfl hq
  | cons k' q => rfl

theorem getAt_nil (q : List κ) : shape.getAt [] q = none := by
  cases q with
  | nil => rfl
  | cons k q =>
      cases q with
      | nil => rfl
      | cons k' q => rfl

theorem getAt_append_one (hp : p ≠ []) : shape.getAt obj (p ++ [k]) =
    ((shape.getAt obj p).bind shape.fields).bind fun sub => getKey sub k := by
  induction p generalizing obj with
  | nil => exact absurd rfl hp
  | cons k' p ih =>
      by_cases hnil : p = []
      · subst hnil
        rfl
      · rw [List.cons_append, getAt_cons (by simp), getAt_cons hnil]
        cases (getKey obj k').bind shape.fields with
        | none => rfl
        | some sub => exact ih hnil

/-- The record under a key: the one that is there, or a new one. -/
def SubAt (shape : Shape κ V) (obj : List (κ × V)) (k : κ) (sub : List (κ × V)) : Prop :=
  (∃ old, getKey obj k = some old ∧ shape.fields old = some sub) ∨
    getKey obj k = none ∧ sub = []

theorem setAt_cons (hp : p ≠ []) : shape.setAt obj (k :: p) v = some obj' ↔
    ∃ sub sub', SubAt shape obj k sub ∧ shape.setAt sub p v = some sub' ∧
      obj' = setKey obj k (shape.wrap sub') := by
  have hnext : shape.setAt obj (k :: p) v =
      shape.setUnder obj k fun sub => shape.setAt sub p v := by
    cases p with
    | nil => exact absurd rfl hp
    | cons k' p => rfl
  unfold SubAt
  rw [hnext, setUnder]
  cases hget : getKey obj k with
  | none =>
      simp only [Option.map_eq_some_iff, reduceCtorEq, false_and, exists_false, false_or, true_and]
      constructor
      · rintro ⟨sub', hset, rfl⟩
        exact ⟨[], sub', rfl, hset, rfl⟩
      · rintro ⟨_, sub', rfl, hset, rfl⟩
        exact ⟨sub', hset, rfl⟩
  | some old =>
      simp only [Option.some.injEq, exists_eq_left', reduceCtorEq, false_and, or_false]
      cases hold : shape.fields old with
      | none => simp
      | some sub =>
          simp only [Option.map_eq_some_iff, Option.some.injEq]
          constructor
          · rintro ⟨sub', hset, rfl⟩
            exact ⟨sub, sub', rfl, hset, rfl⟩
          · rintro ⟨_, sub', rfl, hset, rfl⟩
            exact ⟨sub', hset, rfl⟩

theorem SubAt.get {sub : List (κ × V)} (h : SubAt shape obj k sub) (hq : q ≠ []) :
    shape.getAt obj (k :: q) = shape.getAt sub q := by
  rw [getAt_cons hq]
  rcases h with ⟨old, hget, hold⟩ | ⟨hget, rfl⟩
  · rw [hget, Option.bind_some, hold]
    rfl
  · rw [hget, getAt_nil]
    rfl

theorem getAt_setKey {sub : List (κ × V)} (hq : q ≠ []) :
    shape.getAt (setKey obj k (shape.wrap sub)) (k :: q) = shape.getAt sub q := by
  rw [getAt_cons hq, getKey_setKey, Option.bind_some, shape.fields_wrap]
  rfl

theorem getAt_setKey_of_ne {k' : κ} (h : k' ≠ k) :
    shape.getAt (setKey obj k v) (k' :: q) = shape.getAt obj (k' :: q) := by
  by_cases hq : q = []
  · subst hq
    exact getKey_setKey_of_ne h
  · rw [getAt_cons hq, getAt_cons hq, getKey_setKey_of_ne h]

/-- The value is found where it was set. -/
theorem getAt_setAt (h : shape.setAt obj p v = some obj') : shape.getAt obj' p = some v := by
  induction p generalizing obj obj' with
  | nil => cases h
  | cons k p ih =>
      by_cases hp : p = []
      · subst hp
        cases h
        exact getKey_setKey
      · obtain ⟨sub, sub', -, hset, rfl⟩ := (setAt_cons hp).mp h
        rw [getAt_setKey hp]
        exact ih hset

/-- The values at paths that are not on the way are kept. -/
theorem getAt_setAt_of_diverge (h : shape.setAt obj p v = some obj') (hpq : Diverge p q) :
    shape.getAt obj' q = shape.getAt obj q := by
  induction p generalizing obj obj' q with
  | nil => cases h
  | cons k p ih =>
      cases q with
      | nil => exact absurd List.nil_prefix hpq.2
      | cons k' q =>
          by_cases hp : p = []
          · subst hp
            cases h
            apply getAt_setKey_of_ne
            rintro rfl
            exact hpq.1 (List.cons_prefix_cons.mpr ⟨rfl, List.nil_prefix⟩)
          · obtain ⟨sub, sub', hat, hset, rfl⟩ := (setAt_cons hp).mp h
            by_cases hk : k' = k
            · subst hk
              have hq : q ≠ [] := by
                rintro rfl
                exact hpq.2 (List.cons_prefix_cons.mpr ⟨rfl, List.nil_prefix⟩)
              rw [getAt_setKey hq, hat.get hq]
              exact ih hset ((diverge_append [k']).mp hpq)
            · exact getAt_setKey_of_ne hk

/-- Nothing is found under a path that is not there. -/
theorem getAt_none_of_prefix (hp : p ≠ []) (hpq : p <+: q) (h : shape.getAt obj p = none) :
    shape.getAt obj q = none := by
  induction p generalizing obj q with
  | nil => exact absurd rfl hp
  | cons k p ih =>
      obtain ⟨rest, rfl⟩ := hpq
      by_cases hrest : p ++ rest = []
      · rw [List.append_eq_nil_iff] at hrest
        rw [hrest.1, hrest.2]
        rwa [hrest.1] at h
      · rw [List.cons_append, getAt_cons hrest]
        by_cases hp' : p = []
        · subst hp'
          have hget : getKey obj k = none := h
          rw [hget]
          rfl
        · rw [getAt_cons hp'] at h
          cases hsub : (getKey obj k).bind shape.fields with
          | none => rfl
          | some sub =>
              rw [hsub] at h
              exact ih hp' (List.prefix_append p rest) h

/-- There is a record at each path on the way. -/
theorem getAt_setAt_prefix (h : shape.setAt obj p v = some obj') (hq : q ≠ [])
    (hqp : q <+: p) (hne : q ≠ p) : ∃ sub, shape.getAt obj' q = some (shape.wrap sub) := by
  induction p generalizing obj obj' q with
  | nil => cases h
  | cons k p ih =>
      obtain ⟨k', q, rfl⟩ := List.exists_cons_of_ne_nil hq
      obtain ⟨rfl, hrest⟩ := List.cons_prefix_cons.mp hqp
      have hp : p ≠ [] := by
        rintro rfl
        rw [List.prefix_nil] at hrest
        exact hne (by rw [hrest])
      obtain ⟨sub, sub', -, hset, rfl⟩ := (setAt_cons hp).mp h
      by_cases hq' : q = []
      · subst hq'
        exact ⟨sub', getKey_setKey⟩
      · rw [getAt_setKey hq']
        exact ih hset hq' hrest fun heq => hne (by rw [heq])

/-- So nothing else than a record is found there. -/
theorem wrap_of_setAt (h : shape.setAt obj p v = some obj') (hq : q ≠ []) (hqp : q <+: p)
    (hne : q ≠ p) {w : V} (hw : shape.getAt obj' q = some w) : ∃ sub, w = shape.wrap sub := by
  obtain ⟨sub, hsub⟩ := getAt_setAt_prefix h hq hqp hne
  exact ⟨sub, Option.some.inj (hw.symm.trans hsub)⟩

/-- A value can be set when there is nothing but records on the way. -/
theorem setAt_isSome (hp : p ≠ []) (hway : ∀ q w, q ≠ [] → q <+: p → q ≠ p →
    shape.getAt obj q = some w → ∃ sub, w = shape.wrap sub) :
    ∃ obj', shape.setAt obj p v = some obj' := by
  induction p generalizing obj with
  | nil => exact absurd rfl hp
  | cons k p ih =>
      by_cases hp' : p = []
      · subst hp'
        exact ⟨_, rfl⟩
      · have hat : ∃ sub, SubAt shape obj k sub := by
          cases hget : getKey obj k with
          | none => exact ⟨[], Or.inr ⟨hget, rfl⟩⟩
          | some w =>
              obtain ⟨sub, rfl⟩ := hway [k] w (by simp) (by simp) (by simp [Ne.symm hp']) hget
              exact ⟨sub, Or.inl ⟨_, hget, shape.fields_wrap sub⟩⟩
        obtain ⟨sub, hat⟩ := hat
        have hset : ∃ sub', shape.setAt sub p v = some sub' := by
          apply ih hp'
          intro q w hq hqp hne hget
          refine hway (k :: q) w (by simp) ?_ (by simpa using hne) ?_
          · exact List.cons_prefix_cons.mpr ⟨rfl, hqp⟩
          · rwa [hat.get hq]
        obtain ⟨sub', hset⟩ := hset
        exact ⟨_, (setAt_cons hp').mpr ⟨sub, sub', hat, hset, rfl⟩⟩

/-! ## Many values -/

theorem setAll_cons {entry : List κ × V} {sets : List (List κ × V)} :
    shape.setAll (entry :: sets) obj =
      (shape.setAt obj entry.1 entry.2).bind (shape.setAll sets) := rfl

theorem setAll_append {a b : List (List κ × V)} :
    shape.setAll (a ++ b) obj = (shape.setAll a obj).bind (shape.setAll b) := by
  induction a generalizing obj with
  | nil => rfl
  | cons entry a ih =>
      rw [List.cons_append, setAll_cons, setAll_cons, Option.bind_assoc]
      congr 1
      funext mid
      exact ih

/-- A path has the value that was set last there, when the other paths do not disturb it. -/
theorem getAt_setAll {sets : List (List κ × V)} (h : shape.setAll sets obj = some obj')
    (hq : ∀ entry ∈ sets, entry.1 = q ∨ Diverge entry.1 q) :
    shape.getAt obj' q = (lastSet q sets).or (shape.getAt obj q) := by
  induction sets generalizing obj with
  | nil =>
      obtain rfl := Option.some.inj h
      rfl
  | cons entry sets ih =>
      rw [List.forall_mem_cons] at hq
      obtain ⟨mid, hset, hrest⟩ := Option.bind_eq_some_iff.mp (setAll_cons.symm.trans h)
      rw [ih hrest hq.2, show entry :: sets = [entry] ++ sets from rfl, lastSet_append,
        Option.or_assoc]
      congr 1
      rcases hq.1 with heq | hdiv
      · rw [← heq, getAt_setAt hset]
        simp [lastSet]
      · have hne : entry.1 ≠ q := by
          rintro rfl
          exact hdiv.1 List.prefix_rfl
        rw [getAt_setAt_of_diverge hset hdiv]
        simp [lastSet, hne]

end Shape

end Ovni.Lib
