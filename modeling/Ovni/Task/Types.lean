import Mathlib.Data.List.Pairwise
import Ovni.Event
import Ovni.Lib.Merge
import Ovni.Pcf.Model
import Ovni.Task.Model

/-!
# The task types in the trace

Each process defines its task types by a number and a label.  In the trace a type is a
hash of its label, so that the types of all processes with the same label have the same
value, and two labels with the same hash are a collision, which
`task_create_pcf_types` finds when it gives the labels to the values.

The hash is any function of the label.
-/

namespace Ovni

/-! ## The definitions -/

/-- `task_get_type_gid` with a hash function. -/
def typeGid (hash : List UInt8 → UInt32) (label : List UInt8) : UInt32 :=
  let gid := (hash label + 666) &&& 0x7FFFFFFF
  if gid < pcfReserved then gid + pcfReserved else gid

/-- `task_type_create` with a hash function, on the types of a process. -/
def typeCreate (hash : List UInt8 → UInt32) (types : List TaskType) (typeId : UInt32)
    (label : List UInt8) : Except EmuFault (List TaskType) := do
  if (types.find? fun type => type.id = typeId).isSome then
    throw (.fail "a task type with that id already exists")
  if typeId = 0 then throw (.fail "invalid task type id")
  let label := taskTypeLabel typeId label
  if maxPcfLabel ≤ label.length then throw (.fail "task type label too long")
  return types ++ [{ id := typeId, gid := typeGid hash label, label }]

/-- The types of each process after some definitions. -/
def defineTypes {ι : Type} [DecidableEq ι] (hash : List UInt8 → UInt32)
    (defs : List (ι × UInt32 × List UInt8)) : Except EmuFault (ι → List TaskType) :=
  defs.foldlM (fun info d => do
    let types ← typeCreate hash (info d.1) d.2.1 d.2.2
    return Function.update info d.1 types) fun _ => []

/-- One turn of the loop of `task_create_pcf_types`, with what it will return. -/
def createPcfType (r : Int × PcfType UInt8) (tt : TaskType) :
    Except EmuFault (Int × PcfType UInt8) := do
  match pcfFindValue r.2 (toInt32 tt.gid.toNat) with
  | some pcfvalue =>
      if pcfvalue.label = tt.label then return r
      else
        -- The collision is reported, and the value added again
        let pcftype ← pcfAddValue r.2 (toInt32 tt.gid.toNat) tt.label
        return (-1, pcftype)
  | none =>
      let pcftype ← pcfAddValue r.2 (toInt32 tt.gid.toNat) tt.label
      return (r.1, pcftype)

/-- `task_create_pcf_types`. -/
def taskCreatePcfTypes (pcftype : PcfType UInt8) (types : List TaskType) :
    Except EmuFault (PcfType UInt8) := do
  let (ret, pcftype) ← types.foldlM createPcfType (0, pcftype)
  if ret ≠ 0 then throw (.fail "task_create_pcf_types failed")
  return pcftype

/-- The loop over the processes that calls `task_create_pcf_types`. -/
def createAllPcfTypes {ι : Type} (info : ι → List TaskType) (procs : List ι)
    (pcftype : PcfType UInt8) : Except EmuFault (PcfType UInt8) :=
  procs.foldlM (fun pcftype proc => taskCreatePcfTypes pcftype (info proc)) pcftype

/-- The value of a task type in the PCF. -/
def TaskType.pcfValue (tt : TaskType) : PcfValue UInt8 :=
  { value := toInt32 tt.gid.toNat, label := tt.label }

/-- The type has its old values and those of some task types. -/
structure PcfTypesOk (old : PcfType UInt8) (types : List TaskType) (pcftype : PcfType UInt8) :
    Prop where
  id : pcftype.id = old.id
  label : pcftype.label = old.label
  kept : ∀ v ∈ old.values, v ∈ pcftype.values
  added : ∀ tt ∈ types, tt.pcfValue ∈ pcftype.values
  only : ∀ v ∈ pcftype.values, v ∈ old.values ∨ ∃ tt ∈ types, v = tt.pcfValue

/-! ## The value of a type -/

section

variable {ι : Type} [DecidableEq ι] {hash : List UInt8 → UInt32}

theorem taskGetTypeGid_eq (label : List UInt8) :
    taskGetTypeGid label = typeGid hashJen label := rfl

theorem typeGid_range (hash : List UInt8 → UInt32) (label : List UInt8) :
    pcfReserved ≤ typeGid hash label ∧ (typeGid hash label).toNat < 2 ^ 31 := by
  unfold typeGid pcfReserved
  generalize hash label + 666 = h
  have hmask : (h &&& 0x7FFFFFFF).toNat < 2 ^ 31 := by
    rw [UInt32.toNat_and]
    exact Nat.and_lt_two_pow _ (by decide)
  simp only [UInt32.le_iff_toNat_le, UInt32.lt_iff_toNat_lt]
  split
  · rename_i hlt
    rw [UInt32.toNat_add]
    change (h &&& 0x7FFFFFFF).toNat < 1000 at hlt
    change 1000 ≤ ((h &&& 0x7FFFFFFF).toNat + 1000) % 2 ^ 32 ∧
      ((h &&& 0x7FFFFFFF).toNat + 1000) % 2 ^ 32 < 2 ^ 31
    omega
  · rename_i hge
    exact ⟨by omega, hmask⟩

/-- A process has the types that were defined, with their labels and values. -/
structure TypesOk (hash : List UInt8 → UInt32) (types : List TaskType) : Prop where
  gid : ∀ tt ∈ types, tt.gid = typeGid hash tt.label
  label : ∀ tt ∈ types, tt.label.length < maxPcfLabel

theorem TypesOk.create {types types' : List TaskType} {typeId : UInt32} {label : List UInt8}
    (h : TypesOk hash types) (hcreate : typeCreate hash types typeId label = .ok types') :
    TypesOk hash types' := by
  unfold typeCreate at hcreate
  obtain ⟨-, hcreate⟩ := Lib.guard_ok hcreate
  obtain ⟨-, hcreate⟩ := Lib.guard_ok hcreate
  obtain ⟨hlen, hcreate⟩ := Lib.guard_ok hcreate
  cases hcreate
  constructor
  · intro tt htt
    rcases List.mem_append.mp htt with htt | htt
    · exact h.gid tt htt
    · rw [List.mem_singleton.mp htt]
  · intro tt htt
    rcases List.mem_append.mp htt with htt | htt
    · exact h.label tt htt
    · rw [List.mem_singleton.mp htt]
      exact Nat.lt_of_not_le hlen

theorem defineTypes_ok {defs : List (ι × UInt32 × List UInt8)} {info : ι → List TaskType}
    (h : defineTypes hash defs = .ok info) (proc : ι) : TypesOk hash (info proc) := by
  refine Lib.foldlM_kept (P := fun info : ι → List TaskType => ∀ proc, TypesOk hash (info proc))
    ?_ (fun _ => ⟨by simp, by simp⟩) h proc
  intro info d info' hinfo hstep proc
  obtain ⟨types, hcreate, hstep⟩ := Lib.bind_ok hstep
  cases hstep
  by_cases hproc : proc = d.1
  · rw [hproc, Function.update_self]
    exact (hinfo d.1).create hcreate
  · rw [Function.update_of_ne hproc]
    exact hinfo proc

end

/-! ## The types in the PCF -/

section

variable {old pcftype pcftype' : PcfType UInt8} {types : List TaskType} {tt : TaskType}

/-- One task type in the PCF type: a collision is an error. -/
def mergePcfType (pcftype : PcfType UInt8) (tt : TaskType) : Except EmuFault (PcfType UInt8) :=
  match pcfFindValue pcftype (toInt32 tt.gid.toNat) with
  | some pcfvalue =>
      if pcfvalue.label = tt.label then return pcftype
      else throw (.fail "PCF value already in type")
  | none => pcfAddValue pcftype (toInt32 tt.gid.toNat) tt.label

theorem pcfAddValue_found {β : Type} {type : PcfType β} {value : Int} {label : List β}
    {v : PcfValue β} (h : pcfFindValue type value = some v) :
    pcfAddValue type value label = .error (.fail "PCF value already in type") := by
  unfold pcfAddValue
  split
  · rfl
  · rename_i hnone
    rw [h] at hnone
    cases hnone

theorem createPcfType_eq (pcftype : PcfType UInt8) (tt : TaskType) :
    createPcfType (0, pcftype) tt = mergePcfType pcftype tt >>= fun t => .ok (0, t) := by
  unfold createPcfType mergePcfType
  cases hfind : pcfFindValue pcftype (toInt32 tt.gid.toNat) with
  | none => rfl
  | some v =>
      simp only
      split
      · rfl
      · rw [pcfAddValue_found hfind]
        rfl

theorem foldlM_createPcfType (types : List TaskType) (pcftype : PcfType UInt8) :
    types.foldlM createPcfType (0, pcftype) =
      types.foldlM mergePcfType pcftype >>= fun t => .ok (0, t) := by
  induction types generalizing pcftype with
  | nil => rfl
  | cons tt types ih =>
      rw [List.foldlM_cons, List.foldlM_cons, createPcfType_eq, bind_assoc, bind_assoc]
      congr 1
      funext t
      exact ih t

theorem taskCreatePcfTypes_eq (types : List TaskType) (pcftype : PcfType UInt8) :
    taskCreatePcfTypes pcftype types = types.foldlM mergePcfType pcftype := by
  unfold taskCreatePcfTypes
  rw [foldlM_createPcfType, bind_assoc]
  cases types.foldlM mergePcfType pcftype with
  | error e => rfl
  | ok t => rfl

theorem createAllPcfTypes_eq {ι : Type} (info : ι → List TaskType) (procs : List ι)
    (pcftype : PcfType UInt8) :
    createAllPcfTypes info procs pcftype = (procs.flatMap info).foldlM mergePcfType pcftype := by
  unfold createAllPcfTypes
  induction procs generalizing pcftype with
  | nil => rfl
  | cons proc procs ih =>
      rw [List.foldlM_cons, List.flatMap_cons, List.foldlM_append, taskCreatePcfTypes_eq]
      congr 1
      funext t
      exact ih t

theorem PcfTypesOk.start (old : PcfType UInt8) : PcfTypesOk old [] old :=
  ⟨rfl, rfl, fun _ hv => hv, by simp, fun _ hv => Or.inl hv⟩

/-- A task type is merged when the value is there, or when its number is free. -/
theorem mergePcfType_cases (pcftype : PcfType UInt8) (tt : TaskType) :
    (tt.pcfValue ∈ pcftype.values ∧ mergePcfType pcftype tt = .ok pcftype) ∨
    (∃ v ∈ pcftype.values, v.value = tt.pcfValue.value ∧ v ≠ tt.pcfValue ∧
      ∀ t, mergePcfType pcftype tt ≠ .ok t) ∨
    ∃ hnone : pcfFindValue pcftype tt.pcfValue.value = none, ∀ t,
      mergePcfType pcftype tt = .ok t ↔
        tt.label.length < maxPcfLabel ∧ t = pcftype.push tt.pcfValue hnone := by
  have hvalue : toInt32 tt.gid.toNat = tt.pcfValue.value := by
    rw [TaskType.pcfValue]
  have hlabel : tt.label = tt.pcfValue.label := by
    rw [TaskType.pcfValue]
  unfold mergePcfType
  rw [hvalue, hlabel]
  generalize tt.pcfValue = w
  obtain hfind | ⟨v, hfind⟩ := Option.eq_none_or_eq_some (pcfFindValue pcftype w.value)
  · refine Or.inr (Or.inr ⟨hfind, fun t => ?_⟩)
    simp only [hfind]
    refine pcfAddValue_ok_iff.trans (and_congr_right fun _ => ?_)
    exact ⟨fun h => h.2, fun h => ⟨hfind, h⟩⟩
  · obtain ⟨hv, hvw⟩ := pcfFindValue_some.mp hfind
    simp only [hfind]
    by_cases hsame : v.label = w.label
    · have heq : v = w := by
        cases v
        cases w
        simp_all
      exact Or.inl ⟨heq ▸ hv, if_pos hsame⟩
    · rw [if_neg hsame]
      refine Or.inr (Or.inl ⟨v, hv, hvw, ?_, ?_⟩)
      · rintro rfl
        exact hsame rfl
      · rintro t ⟨⟩

/-- The label of a task type fits, and its value has no other label in the type. -/
def TypeFits (old : PcfType UInt8) (tt : TaskType) : Prop :=
  (tt.label.length < maxPcfLabel ∨ tt.pcfValue ∈ old.values) ∧
    ∀ v ∈ old.values, v.value = tt.pcfValue.value → v = tt.pcfValue

/-- Two task types with the same value have the same label. -/
def TypeAgree (tt tt' : TaskType) : Prop :=
  tt.pcfValue.value = tt'.pcfValue.value → tt.pcfValue = tt'.pcfValue

theorem PcfTypesOk.merged (h : PcfTypesOk old types pcftype) (hmem : tt.pcfValue ∈ pcftype.values) :
    PcfTypesOk old (types ++ [tt]) pcftype where
  id := h.id
  label := h.label
  kept := h.kept
  added := by
    intro tt' htt'
    rcases List.mem_append.mp htt' with htt' | htt'
    · exact h.added tt' htt'
    · rwa [List.mem_singleton.mp htt']
  only := by
    intro v hv
    apply (h.only v hv).imp_right
    rintro ⟨tt', htt', heq⟩
    exact ⟨tt', List.mem_append_left _ htt', heq⟩

theorem PcfTypesOk.push (h : PcfTypesOk old types pcftype)
    (hnone : pcfFindValue pcftype tt.pcfValue.value = none) :
    PcfTypesOk old (types ++ [tt]) (pcftype.push tt.pcfValue hnone) where
  id := h.id
  label := h.label
  kept := fun v hv => List.mem_append_left _ (h.kept v hv)
  added := by
    intro tt' htt'
    rcases List.mem_append.mp htt' with htt' | htt'
    · exact List.mem_append_left _ (h.added tt' htt')
    · rw [List.mem_singleton.mp htt']
      exact List.mem_append_right _ (List.mem_singleton.mpr rfl)
  only := by
    intro v hv
    rcases List.mem_append.mp hv with hv | hv
    · apply (h.only v hv).imp_right
      rintro ⟨tt', htt', heq⟩
      exact ⟨tt', List.mem_append_left _ htt', heq⟩
    · exact Or.inr ⟨tt, by simp, List.mem_singleton.mp hv⟩

/-- Every value with the number of a task type is its value. -/
theorem PcfTypesOk.unique (h : PcfTypesOk old types pcftype) (hfits : TypeFits old tt)
    (hagree : ∀ tt' ∈ types, TypeAgree tt' tt) {v : PcfValue UInt8} (hv : v ∈ pcftype.values)
    (hvalue : v.value = tt.pcfValue.value) : v = tt.pcfValue := by
  rcases h.only v hv with hold | ⟨tt', htt', rfl⟩
  · exact hfits.2 v hold hvalue
  · exact hagree tt' htt' hvalue

theorem PcfTypesOk.fits (h : PcfTypesOk old types pcftype) (htypes : ∀ tt ∈ types, TypeFits old tt)
    (hmem : tt.pcfValue ∈ pcftype.values) : TypeFits old tt := by
  have hkey : ∀ v ∈ old.values, v.value = tt.pcfValue.value → v = tt.pcfValue := by
    intro v hv hvalue
    exact Lib.eq_of_key pcftype.nodup (h.kept v hv) hmem hvalue
  rcases h.only _ hmem with hold | ⟨tt', htt', heq⟩
  · exact ⟨Or.inr hold, hkey⟩
  · refine ⟨(htypes tt' htt').1.imp ?_ ?_, hkey⟩
    · intro hlen
      have hlabel : tt.label = tt'.label := congrArg PcfValue.label heq
      rwa [hlabel]
    · intro hold
      rwa [heq]

/-- A task type can be merged when no value with its number has another label. -/
theorem PcfTypesOk.merge_ok_iff (h : PcfTypesOk old types pcftype)
    (htypes : ∀ tt ∈ types, TypeFits old tt) : (∃ t, mergePcfType pcftype tt = .ok t) ↔
      TypeFits old tt ∧ ∀ tt' ∈ types, TypeAgree tt' tt := by
  rcases mergePcfType_cases pcftype tt with
    ⟨hmem, hok⟩ | ⟨v, hv, hvalue, hne, hfail⟩ | ⟨hnone, hadd⟩
  · refine ⟨fun _ => ⟨h.fits htypes hmem, fun tt' htt' heq => ?_⟩, fun _ => ⟨_, hok⟩⟩
    exact Lib.eq_of_key pcftype.nodup (h.added tt' htt') hmem heq
  · constructor
    · rintro ⟨t, ht⟩
      exact absurd ht (hfail t)
    · rintro ⟨hfits, hagree⟩
      exact absurd (h.unique hfits hagree hv hvalue) hne
  · have hfree : ∀ v ∈ pcftype.values, v.value ≠ tt.pcfValue.value := by
      intro v hv hvalue
      exact pcfFindValue_none.mp hnone (hvalue ▸ List.mem_map_of_mem hv)
    constructor
    · rintro ⟨t, ht⟩
      refine ⟨⟨Or.inl ((hadd t).mp ht).1, fun v hv hvalue => ?_⟩, fun tt' htt' heq => ?_⟩
      · exact absurd hvalue (hfree v (h.kept v hv))
      · exact absurd heq (hfree _ (h.added tt' htt'))
    · rintro ⟨⟨hlen | hold, -⟩, -⟩
      · exact ⟨_, (hadd _).mpr ⟨hlen, rfl⟩⟩
      · exact absurd rfl (hfree _ (h.kept _ hold))

theorem PcfTypesOk.merge (h : PcfTypesOk old types pcftype)
    (hstep : mergePcfType pcftype tt = .ok pcftype') :
    PcfTypesOk old (types ++ [tt]) pcftype' := by
  rcases mergePcfType_cases pcftype tt with ⟨hmem, hok⟩ | ⟨-, -, -, -, hfail⟩ | ⟨hnone, hadd⟩
  · rw [hok] at hstep
    cases hstep
    exact h.merged hmem
  · exact absurd hstep (hfail pcftype')
  · obtain ⟨-, rfl⟩ := (hadd pcftype').mp hstep
    exact h.push hnone

theorem mergePcfType_merges (old : PcfType UInt8) :
    Lib.Merges mergePcfType
      (fun types pcftype => PcfTypesOk old types pcftype ∧ ∀ tt ∈ types, TypeFits old tt)
      (TypeFits old) TypeAgree where
  ok_iff := fun h => h.1.merge_ok_iff h.2
  kept := by
    rintro types pcftype tt pcftype' ⟨h, htypes⟩ hstep
    refine ⟨h.merge hstep, fun tt' htt' => ?_⟩
    rcases List.mem_append.mp htt' with htt' | htt'
    · exact htypes tt' htt'
    · rw [List.mem_singleton.mp htt']
      exact ((h.merge_ok_iff htypes).mp ⟨pcftype', hstep⟩).1

end

/-! ## All the processes -/

section

variable {ι : Type} [DecidableEq ι] {hash : List UInt8 → UInt32}

theorem TypesOk.pcfValue_eq {types : List TaskType} (h : TypesOk hash types) {tt : TaskType}
    (htt : tt ∈ types) : tt.pcfValue = { value := tt.gid.toNat, label := tt.label } := by
  have hrange := (typeGid_range hash tt.label).2
  rw [← h.gid tt htt] at hrange
  rw [TaskType.pcfValue, toInt32_of_range (by omega) (by omega)]

theorem pairwise_typeAgree {types : List TaskType}
    (hall : ∀ tt ∈ types, tt.label.length < maxPcfLabel ∧
      tt.pcfValue = { value := tt.gid.toNat, label := tt.label }) :
    types.Pairwise TypeAgree ↔
      ∀ tt ∈ types, ∀ tt' ∈ types, tt.gid = tt'.gid → tt.label = tt'.label := by
  have hagree : ∀ tt ∈ types, ∀ tt' ∈ types,
      (TypeAgree tt tt' ↔ (tt.gid = tt'.gid → tt.label = tt'.label)) := by
    intro tt htt tt' htt'
    have hgid : (tt.gid.toNat : Int) = tt'.gid.toNat ↔ tt.gid = tt'.gid := by
      rw [Int.ofNat_inj, UInt32.toNat_inj]
    unfold TypeAgree
    rw [(hall tt htt).2, (hall tt' htt').2]
    simp only [PcfValue.mk.injEq, hgid]
    exact forall_congr' fun h => and_iff_right h
  constructor
  · intro hpair tt htt tt' htt'
    have hsymm : Std.Symm TypeAgree := ⟨fun tt tt' h heq => (h heq.symm).symm⟩
    have hforall := hpair.forall_of_forall fun tt _ _ => rfl
    exact (hagree tt htt tt' htt').mp (hforall htt htt')
  · intro h
    exact List.pairwise_of_forall_mem_list fun tt htt tt' htt' =>
      (hagree tt htt tt' htt').mpr (h tt htt tt' htt')

/-- The values of the task types in the trace: each depends only on the label, and they can
be given their labels when there is no collision. -/
theorem task_types_in_pcf {defs : List (ι × UInt32 × List UInt8)} {info : ι → List TaskType}
    (hdefs : defineTypes hash defs = .ok info) (procs : List ι) (old : PcfType UInt8) :
    (∀ proc, ∀ tt ∈ info proc, tt.gid = typeGid hash tt.label ∧ pcfReserved ≤ tt.gid ∧
      tt.gid.toNat < 2 ^ 31) ∧
    ((∃ pcftype, createAllPcfTypes info procs old = .ok pcftype) ↔
      (∀ tt ∈ procs.flatMap info, ∀ tt' ∈ procs.flatMap info,
        tt.gid = tt'.gid → tt.label = tt'.label) ∧
      ∀ tt ∈ procs.flatMap info, ∀ v ∈ old.values, v.value = tt.gid.toNat → v.label = tt.label) ∧
    ∀ pcftype, createAllPcfTypes info procs old = .ok pcftype →
      (∀ tt ∈ procs.flatMap info,
        pcfFindValue pcftype tt.gid.toNat = some { value := tt.gid.toNat, label := tt.label }) ∧
      (∀ v ∈ old.values, v ∈ pcftype.values) ∧
      ∀ v ∈ pcftype.values, v ∈ old.values ∨
        ∃ tt ∈ procs.flatMap info, v = { value := tt.gid.toNat, label := tt.label } := by
  have htypes := defineTypes_ok hdefs
  have hall : ∀ tt ∈ procs.flatMap info, tt.label.length < maxPcfLabel ∧
      tt.pcfValue = { value := tt.gid.toNat, label := tt.label } := by
    intro tt htt
    obtain ⟨proc, -, htt⟩ := List.mem_flatMap.mp htt
    exact ⟨(htypes proc).label tt htt, (htypes proc).pcfValue_eq htt⟩
  have hinit : PcfTypesOk old [] old ∧ ∀ tt ∈ ([] : List TaskType), TypeFits old tt :=
    ⟨PcfTypesOk.start old, by simp⟩
  have hmerges := mergePcfType_merges old
  refine ⟨fun proc tt htt => ?_, ?_, fun pcftype hcreate => ?_⟩
  · have hgid := (htypes proc).gid tt htt
    rw [hgid]
    exact ⟨rfl, typeGid_range hash tt.label⟩
  · have hfits : ∀ tt ∈ procs.flatMap info, (TypeFits old tt ↔
        ∀ v ∈ old.values, v.value = tt.gid.toNat → v.label = tt.label) := by
      intro tt htt
      obtain ⟨hlen, hvalue⟩ := hall tt htt
      unfold TypeFits
      simp only [hlen, true_or, true_and, hvalue]
      refine forall₃_congr fun v hv hnum => ⟨fun heq => congrArg PcfValue.label heq, ?_⟩
      intro hlabel
      rw [← hnum, ← hlabel]
    rw [createAllPcfTypes_eq, hmerges.fold_ok_iff hinit, pairwise_typeAgree hall, and_comm]
    simp only [List.not_mem_nil, false_implies, implies_true, and_true]
    exact and_congr_right fun _ => forall₂_congr hfits
  · rw [createAllPcfTypes_eq] at hcreate
    have hok := (hmerges.fold_kept hinit hcreate).1
    rw [List.nil_append] at hok
    refine ⟨fun tt htt => ?_, hok.kept, fun v hv => ?_⟩
    · have hadded := hok.added tt htt
      rw [(hall tt htt).2] at hadded
      exact pcfFindValue_some.mpr ⟨hadded, rfl⟩
    · apply (hok.only v hv).imp_right
      rintro ⟨tt, htt, heq⟩
      exact ⟨tt, htt, heq.trans (hall tt htt).2⟩

end

/-- The types of two processes that define the same label. -/
def sharedTypes : Bool → List TaskType :=
  Function.update (Function.update (fun _ => []) false
    [{ id := 1, gid := typeGid hashJen [97], label := [97] }]) true
    [{ id := 7, gid := typeGid hashJen [97], label := [97] }]

/-- The two types share one value of the trace. -/
theorem task_types_in_pcf_shared :
    defineTypes hashJen [(false, 1, [97]), (true, 7, [97])] = .ok sharedTypes ∧
      ∃ pcftype,
        createAllPcfTypes sharedTypes [false, true] ⟨10, [], [], by simp⟩ = .ok pcftype := by
  have hdefs : defineTypes hashJen [(false, 1, [97]), (true, 7, [97])] = .ok sharedTypes := rfl
  have hlabel : ∀ tt ∈ [false, true].flatMap sharedTypes, tt.label = [97] := by
    simp [sharedTypes, Function.update]
  refine ⟨hdefs, (task_types_in_pcf hdefs [false, true] ⟨10, [], [], by simp⟩).2.1.mpr ⟨?_, ?_⟩⟩
  · intro tt htt tt' htt' _
    rw [hlabel tt htt, hlabel tt' htt']
  · simp

/-! ## The types that the events define -/

/-- `task_type_create` on the tasks adds the type that it adds on the types. -/
theorem taskTypeCreate_types {σ ι : Type} [DecidableEq ι] (s : Tasks σ ι) (info : ι)
    (typeId : UInt32) (label : List UInt8) :
    Lib.Ensures (taskTypeCreate info typeId label) s fun r s' =>
      (∃ e, r = .error e ∧ typeCreate hashJen (s.info info).types typeId label = .error e ∧
        s' = s) ∨
      ∃ types, r = .ok () ∧ typeCreate hashJen (s.info info).types typeId label = .ok types ∧
        s' = { s with info := Function.update s.info info { s.info info with types } } := by
  simp only [taskTypeCreate, Lib.ensures_bind, Lib.ensures_get, Lib.ensures_modify, Lib.next_ok,
    Lib.ensures_ite, Lib.ensures_throw, Lib.next_error]
  have hfind : taskTypeFind s info typeId =
      (s.info info).types.find? fun type => type.id = typeId := rfl
  unfold typeCreate
  rw [hfind]
  refine ⟨fun hold => ?_, fun hnew => ⟨fun hzero => ?_, fun hid => ⟨fun hlong => ?_,
    fun hlen => ?_⟩⟩⟩
  · exact Or.inl ⟨_, rfl, by rw [if_pos hold]; rfl, trivial⟩
  · exact Or.inl ⟨_, rfl, by rw [if_neg hnew, if_pos hzero]; rfl, trivial⟩
  · exact Or.inl ⟨_, rfl, by simp only [if_neg hnew, if_neg hid, if_pos hlong]; rfl, trivial⟩
  · exact Or.inr ⟨_, trivial, by simp only [if_neg hnew, if_neg hid, if_neg hlen]; rfl, rfl⟩

end Ovni
