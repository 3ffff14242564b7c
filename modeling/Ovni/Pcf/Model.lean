import Ovni.Bay.Model
import Ovni.Lib.Except
import Ovni.Lib.Keyed
import Ovni.Text

/-!
# The values of a PCF type

The configuration file of a trace gives a label to each value that the events of a type
can have (`pv/pcf.c`).  The values of a type are in a hash table by number, which is a
list in the order in which they were added.
-/

namespace Ovni

/-- `struct pcf_value`, with its label as bytes of type `β`. -/
structure PcfValue (β : Type) where
  value : Int
  label : List β
  deriving DecidableEq

/-- `struct pcf_type`: no two of its values have the same number. -/
structure PcfType (β : Type) where
  id : Int
  label : List β
  values : List (PcfValue β)
  nodup : (values.map PcfValue.value).Nodup
  deriving DecidableEq

section

variable {β : Type}

/-- `pcf_find_value`. -/
def pcfFindValue (type : PcfType β) (value : Int) : Option (PcfValue β) :=
  type.values.find? fun v => v.value = value

theorem pcfFindValue_none {type : PcfType β} {value : Int} :
    pcfFindValue type value = none ↔ value ∉ type.values.map PcfValue.value := by
  simp [pcfFindValue]

/-- The type with one more value. -/
def PcfType.push (type : PcfType β) (v : PcfValue β) (h : pcfFindValue type v.value = none) :
    PcfType β where
  id := type.id
  label := type.label
  values := type.values ++ [v]
  nodup := by
    rw [List.map_append, List.map_singleton]
    rw [← List.concat_eq_append]
    exact List.Nodup.concat (pcfFindValue_none.mp h) type.nodup

/-- `pcf_add_value`, which returns the type with the new value. -/
def pcfAddValue (type : PcfType β) (value : Int) (label : List β) :
    Except EmuFault (PcfType β) :=
  match h : pcfFindValue type value with
  | some _ => throw (.fail "PCF value already in type")
  | none =>
      if maxPcfLabel ≤ label.length then throw (.fail "PCF value label too long")
      else return type.push { value, label } h

/-- `pcf_add_value` for each of some values. -/
def pcfAddValues (type : PcfType β) (values : List (PcfValue β)) : Except EmuFault (PcfType β) :=
  values.foldlM (fun type v => pcfAddValue type v.value v.label) type

/-- `pcf_find_type`, in the types of a PCF. -/
def pcfFindType (pcf : List (PcfType β)) (typeId : Int) : Option (PcfType β) :=
  pcf.find? fun type => type.id = typeId

/-- `pcf_add_type`, which returns the new type. -/
def pcfAddType (pcf : List (PcfType β)) (typeId : Int) (label : List β) :
    Except EmuFault (PcfType β) := do
  if (pcfFindType pcf typeId).isSome then throw (.fail "PCF type already defined")
  if maxPcfLabel ≤ label.length then throw (.fail "PCF type label too long")
  return { id := typeId, label, values := [], nodup := List.nodup_nil }

/-! ## What a value is found as -/

variable {type type' : PcfType β} {v : PcfValue β} {value : Int} {label : List β}

theorem pcfFindValue_some :
    pcfFindValue type value = some v ↔ v ∈ type.values ∧ v.value = value := by
  constructor
  · intro h
    exact ⟨List.mem_of_find?_eq_some h, by simpa using List.find?_some h⟩
  · rintro ⟨hv, heq⟩
    cases hfind : pcfFindValue type value with
    | none =>
        rw [pcfFindValue_none, ← heq] at hfind
        exact absurd (List.mem_map_of_mem hv) hfind
    | some w =>
        have hw : w ∈ type.values := List.mem_of_find?_eq_some hfind
        have hkey : w.value = value := by simpa using List.find?_some hfind
        rw [Lib.eq_of_key type.nodup hw hv (hkey.trans heq.symm)]

theorem pcfAddValue_ok_iff : pcfAddValue type value label = .ok type' ↔
    label.length < maxPcfLabel ∧
      ∃ h : pcfFindValue type value = none, type' = type.push { value, label } h := by
  unfold pcfAddValue
  split
  · rename_i v hv
    constructor
    · intro h
      cases h
    · rintro ⟨-, h, -⟩
      rw [hv] at h
      cases h
  · rename_i hnone
    split
    · rename_i hlong
      constructor
      · intro h
        cases h
      · rintro ⟨hlen, -⟩
        omega
    · rename_i hshort
      constructor
      · intro h
        cases h
        exact ⟨by omega, hnone, rfl⟩
      · rintro ⟨-, _, rfl⟩
        rfl

/-! ## Adding several values -/

theorem pcfAddValues_ok {values : List (PcfValue β)} (h : pcfAddValues type values = .ok type') :
    type'.id = type.id ∧ type'.values = type.values ++ values := by
  unfold pcfAddValues at h
  induction values generalizing type with
  | nil =>
      cases h
      exact ⟨rfl, (List.append_nil _).symm⟩
  | cons v values ih =>
      rw [List.foldlM_cons] at h
      obtain ⟨type₁, hadd, h⟩ := Lib.bind_ok h
      obtain ⟨-, hnone, rfl⟩ := pcfAddValue_ok_iff.mp hadd
      obtain ⟨hid, hvalues⟩ := ih h
      refine ⟨hid, hvalues.trans ?_⟩
      simp [PcfType.push]

/-- Values with different numbers and labels that fit are all added. -/
theorem pcfAddValues_of {values : List (PcfValue β)}
    (hnodup : ((type.values ++ values).map PcfValue.value).Nodup)
    (hlen : ∀ v ∈ values, v.label.length < maxPcfLabel) :
    ∃ type', pcfAddValues type values = .ok type' := by
  unfold pcfAddValues
  induction values generalizing type with
  | nil => exact ⟨type, rfl⟩
  | cons v values ih =>
      have hnone : pcfFindValue type v.value = none := by
        rw [pcfFindValue_none]
        rw [List.map_append, List.map_cons, List.nodup_append] at hnodup
        intro hmem
        exact hnodup.2.2 _ hmem _ List.mem_cons_self rfl
      have hadd := pcfAddValue_ok_iff.mpr ⟨hlen v List.mem_cons_self, hnone, rfl⟩
      rw [List.foldlM_cons, hadd]
      refine @ih (type.push v hnone) ?_ fun w hw => hlen w (List.mem_cons_of_mem _ hw)
      simpa [PcfType.push] using hnodup

/-! ## Adding types -/

theorem pcfAddType_ne_crash {pcf : List (PcfType β)} {typeId : Int} :
    pcfAddType pcf typeId label ≠ .error .crash := by
  unfold pcfAddType
  refine Lib.guard_ne_error (by rintro ⟨⟩) ?_
  refine Lib.guard_ne_error (by rintro ⟨⟩) ?_
  rintro ⟨⟩

theorem pcfAddType_ok {pcf : List (PcfType β)} {typeId : Int}
    (h : pcfAddType pcf typeId label = .ok type) :
    type = { id := typeId, label, values := [], nodup := List.nodup_nil } := by
  unfold pcfAddType at h
  obtain ⟨-, h⟩ := Lib.guard_ok h
  obtain ⟨-, h⟩ := Lib.guard_ok h
  exact (Except.ok.inj h).symm

end

end Ovni
