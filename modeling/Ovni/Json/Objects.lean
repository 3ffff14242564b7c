import Ovni.Json.Values
import Ovni.Lib.Records

/-!
# Values by their dotted names

`json_object_dotget_value` and `json_object_dotset_value` on objects with values of all kinds.
An object that can be read back still can after a value was set in it that is not too deep.
-/

namespace Ovni

open Ovni.Lib

variable {ν : Type}

/-- The names and values of an object. -/
abbrev JsonFields (ν : Type) := List (Name × Json ν)

/-- `json_value_get_object`. -/
def Json.getFields : Json ν → Option (JsonFields ν)
  | .object fields => some fields
  | _ => none

/-- `json_value_get_array`. -/
def Json.getItems : Json ν → Option (List (Json ν))
  | .array items => some items
  | _ => none

/-- `json_value_get_string`. -/
def Json.getText : Json ν → Option Name
  | .string s => some s
  | _ => none

/-- `json_value_get_number`, which is zero for what is no number. -/
def Json.getNumber : Json ν → Option ν
  | .number x => some x
  | _ => none

/-- Objects in objects. -/
def jsonShape : Shape Name (Json ν) := ⟨.object, Json.getFields, fun _ => rfl⟩

/-- The parts of a name with dots: the names of the objects on the way, and the last one. -/
def dotPath (name : Name) : List Name := name.splitOn 46

/-- `json_object_dotget_value`. -/
def dotgetValue (obj : JsonFields ν) (name : Name) : Option (Json ν) :=
  jsonShape.getAt obj (dotPath name)

/-- `json_object_dotset_value`. -/
def dotsetValue (obj : JsonFields ν) (name : Name) (v : Json ν) : Option (JsonFields ν) :=
  jsonShape.setAt obj (dotPath name) v

/-- `json_object_dotset_number`. -/
def dotsetNumber (obj : JsonFields ν) (name : Name) (x : ν) : Option (JsonFields ν) :=
  dotsetValue obj name (.number x)

/-- `json_object_dotset_string`. -/
def dotsetString (obj : JsonFields ν) (name : Name) (s : Name) : Option (JsonFields ν) :=
  if isValidUtf8 s then dotsetValue obj name (.string s) else none

/-! ## Names with dots -/

theorem dotPath_cons {first rest : Name} (h : 46 ∉ first) :
    dotPath (first ++ 46 :: rest) = first :: dotPath rest :=
  List.splitOn_append_cons_self_of_not_mem h rest

theorem dotPath_single {name : Name} (h : 46 ∉ name) : dotPath name = [name] :=
  List.splitOn_eq_singleton h

theorem dotsetString_some {obj obj' : JsonFields ν} {name s : Name}
    (h : dotsetString obj name s = some obj') :
    isValidUtf8 s = true ∧ jsonShape.setAt obj (dotPath name) (.string s) = some obj' := by
  unfold dotsetString at h
  split at h
  · exact ⟨‹_›, h⟩
  · cases h

/-! ## Objects that can be read back -/

theorem Json.Fits.mono {n m : Nat} {v : Json ν} (hv : v.Fits n) (h : n ≤ m) : v.Fits m := by
  induction hv generalizing m with
  | null =>
      obtain ⟨m, rfl⟩ : ∃ k, m = k + 1 := ⟨m - 1, by omega⟩
      exact .null
  | boolean b =>
      obtain ⟨m, rfl⟩ : ∃ k, m = k + 1 := ⟨m - 1, by omega⟩
      exact .boolean b
  | number x =>
      obtain ⟨m, rfl⟩ : ∃ k, m = k + 1 := ⟨m - 1, by omega⟩
      exact .number x
  | string s =>
      obtain ⟨m, rfl⟩ : ∃ k, m = k + 1 := ⟨m - 1, by omega⟩
      exact .string s
  | array _ ih =>
      obtain ⟨m, rfl⟩ : ∃ k, m = k + 1 := ⟨m - 1, by omega⟩
      exact .array fun v hv => ih v hv (by omega)
  | object hkeys hnul _ ih =>
      obtain ⟨m, rfl⟩ : ∃ k, m = k + 1 := ⟨m - 1, by omega⟩
      exact .object hkeys hnul fun f hf => ih f hf (by omega)

theorem Json.Fits.setKey {left : Nat} {obj : JsonFields ν} {k : Name} {v : Json ν}
    (hobj : Json.Fits (left + 1) (.object obj)) (hk : 0 ∉ k) (hv : v.Fits left) :
    Json.Fits (left + 1) (.object (Lib.setKey obj k v)) := by
  cases hobj with
  | object hkeys hnul h =>
      refine .object (nodup_put hkeys) (fun f hf => ?_) fun f hf => ?_
      · rcases mem_setKey hf with rfl | hf
        · exact hk
        · exact hnul f hf
      · rcases mem_setKey hf with rfl | hf
        · exact hv
        · exact h f hf

/-- A value that is as deep as there is room under its path can be set. -/
theorem Json.Fits.setAt {left : Nat} {obj obj' : JsonFields ν} {p : List Name} {v : Json ν}
    (hobj : Json.Fits (left + 1) (.object obj)) (hp : ∀ k ∈ p, 0 ∉ k) (hlen : p.length ≤ left)
    (hv : v.Fits (left + 1 - p.length)) (h : jsonShape.setAt obj p v = some obj') :
    Json.Fits (left + 1) (.object obj') := by
  induction p generalizing left obj obj' with
  | nil => cases h
  | cons k p ih =>
      rw [List.forall_mem_cons] at hp
      rw [List.length_cons] at hlen hv
      by_cases hnil : p = []
      · subst hnil
        obtain rfl := Option.some.inj h
        exact hobj.setKey hp.1 (by simpa using hv)
      · obtain ⟨sub, sub', hat, hset, rfl⟩ := (Shape.setAt_cons hnil).mp h
        have hpos := List.length_pos_iff.mpr hnil
        obtain ⟨left, rfl⟩ : ∃ n, left = n + 1 := ⟨left - 1, by omega⟩
        have hsub : Json.Fits (left + 1) (.object sub) := by
          rcases hat with ⟨old, hget, hold⟩ | ⟨-, rfl⟩
          · cases old with
            | object fields =>
                obtain rfl := Option.some.inj hold
                cases hobj with
                | object _ _ h => exact h _ (mem_of_getKey hget)
            | _ => cases hold
          · exact .object (by simp) (by simp) (by simp)
        refine hobj.setKey hp.1 (ih hsub hp.2 (by omega) ?_ hset)
        rwa [show left + 1 - p.length = left + 1 + 1 - (p.length + 1) by omega]

/-- What holds for one value holds for many. -/
theorem Json.Fits.setAll {left : Nat} {obj obj' : JsonFields ν} {sets : List (List Name × Json ν)}
    (hobj : Json.Fits (left + 1) (.object obj))
    (hsets : ∀ e ∈ sets, (∀ k ∈ e.1, 0 ∉ k) ∧ e.1.length ≤ left ∧
      e.2.Fits (left + 1 - e.1.length))
    (h : jsonShape.setAll sets obj = some obj') : Json.Fits (left + 1) (.object obj') := by
  induction sets generalizing obj with
  | nil =>
      obtain rfl := Option.some.inj h
      exact hobj
  | cons e sets ih =>
      rw [List.forall_mem_cons] at hsets
      obtain ⟨mid, hset, hrest⟩ := Option.bind_eq_some_iff.mp (Shape.setAll_cons.symm.trans h)
      exact ih (hobj.setAt hsets.1.1 hsets.1.2.1 hsets.1.2.2 hset) hsets.2 hrest

/-- A value in an object is not deeper than the object. -/
theorem Json.Fits.getAt {left : Nat} {obj : JsonFields ν} {p : List Name} {v : Json ν}
    (hobj : Json.Fits left (.object obj)) (h : jsonShape.getAt obj p = some v) : v.Fits left := by
  induction p generalizing left obj with
  | nil => cases h
  | cons k p ih =>
      cases hobj with
      | object _ _ hfields =>
          by_cases hnil : p = []
          · subst hnil
            exact (hfields _ (mem_of_getKey h)).mono (by omega)
          · rw [Shape.getAt_cons hnil] at h
            obtain ⟨sub, hsub, h⟩ := Option.bind_eq_some_iff.mp h
            obtain ⟨old, hget, hold⟩ := Option.bind_eq_some_iff.mp hsub
            cases old with
            | object fields =>
                obtain rfl := Option.some.inj hold
                exact (ih (hfields _ (mem_of_getKey hget)) h).mono (by omega)
            | _ => cases hold

end Ovni
