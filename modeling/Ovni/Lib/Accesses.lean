import Mathlib.Data.Int.Notation
import Mathlib.Data.List.Basic
import Ovni.Lib.Ensures

/-!
# Programs that access an array

A program on an array keeps the indices of its accesses, and fails at the first one that
is not in the array.
-/

namespace Ovni.Lib

/-- An array and the indices at which it was accessed. -/
structure Accessed (α : Type) where
  arr : List α
  log : List Int

/-- Programs on an array that fail with an `ε`. -/
abbrev ArrayProg (ε α β : Type) := Prog ε (Accessed α) β

section

variable {ε α : Type} (fault : ε)

/-- Read the element at an index. -/
def loadAt (i : Int) : ArrayProg ε α α := do
  modify fun s => { s with log := s.log ++ [i] }
  let s ← get
  match if 0 ≤ i then s.arr[i.toNat]? else none with
  | some x => return x
  | none => throw fault

/-- Write the element at an index. -/
def storeAt (i : Int) (x : α) : ArrayProg ε α Unit := do
  modify fun s => { s with log := s.log ++ [i] }
  let s ← get
  if 0 ≤ i ∧ i < s.arr.length then modify fun s => { s with arr := s.arr.set i.toNat x }
  else throw fault

/-- Every access was in the array. -/
def Accessed.Inside (s : Accessed α) : Prop := ∀ i ∈ s.log, 0 ≤ i ∧ i < s.arr.length

variable {fault} {s : Accessed α} {i : Nat}

theorem Accessed.inside_nil (arr : List α) : (Accessed.mk arr []).Inside := by
  intro i hi
  cases hi

theorem Accessed.Inside.append (h : s.Inside) (hi : i < s.arr.length) :
    ({ s with log := s.log ++ [(i : Int)] } : Accessed α).Inside := by
  intro j hj
  rcases List.mem_append.mp hj with hj | hj
  · exact h j hj
  · rw [List.mem_singleton.mp hj]
    exact ⟨Int.natCast_nonneg i, Int.ofNat_lt.mpr hi⟩

/-- A read inside the array. -/
theorem ensures_loadAt (hs : s.Inside) (hi : i < s.arr.length)
    {post : Except ε α → Accessed α → Prop}
    (hpost : ∀ s' : Accessed α, s'.arr = s.arr → s'.Inside → post (.ok s.arr[i]) s') :
    Ensures (loadAt fault (i : Int)) s post := by
  have hget : s.arr[i]? = some s.arr[i] := List.getElem?_eq_getElem hi
  simp only [loadAt, ensures_bind, ensures_modify, ensures_get, next_ok, Int.natCast_nonneg,
    if_true, Int.toNat_natCast, hget, ensures_pure]
  exact hpost _ rfl (hs.append hi)

/-- A write inside the array. -/
theorem ensures_storeAt (hs : s.Inside) (hi : i < s.arr.length) {x : α}
    {post : Except ε Unit → Accessed α → Prop}
    (hpost : ∀ s' : Accessed α, s'.arr = s.arr.set i x → s'.Inside → post (.ok ()) s') :
    Ensures (storeAt fault (i : Int) x) s post := by
  have hlt : (i : Int) < s.arr.length := Int.ofNat_lt.mpr hi
  simp only [storeAt, ensures_bind, ensures_modify, ensures_get, next_ok, Int.natCast_nonneg,
    hlt, and_self, if_true, Int.toNat_natCast]
  apply hpost _ rfl
  intro j hj
  rw [List.length_set]
  exact hs.append hi j hj

end

end Ovni.Lib
