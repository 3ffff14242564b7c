import Ovni.Bay.Spec
import Ovni.Event
import Ovni.Mark.Model
import Ovni.Patch.Model
import Ovni.Pcf.Model

/-!
# The labels of the marks in the trace

The value of a mark is an `int64_t` from the program to the trace.  The label of a value is
given in the PCF, where the number of a value is an `int`: a label is shown for its value
when the value is in the range of an `int`.
-/

namespace Ovni

/-! ## mark.c -/

/-- The flags with which the channels of the marks are registered, `PRV_SKIPDUPNULL`. -/
def markFlags : PrvFlags :=
  { emitDup := false, skipDup := false, next := false, zero := false, skipDupNull := true }

/-- What `mark_event` reads of an event. -/
structure MarkEvent where
  v : Char
  payloadSize : Nat
  value : Int
  type : Int

/-- `mark_event`: what it does with the channel of the mark of the thread. -/
def markEvent (m : MarkEmu) (ev : MarkEvent) : Except EmuFault (ChanOp Nat) := do
  if ev.payloadSize ≠ 8 + 4 then throw (.fail "unexpected payload size")
  match findMarkType m ev.type with
  | none => throw (.fail "cannot find mark with type")
  | some mc => do
      if ev.value = 0 then throw (.fail "mark value cannot be zero")
      if ev.v = '[' then return .push mc.index (.int64 ev.value)
      else if ev.v = ']' then return .pop mc.index (.int64 ev.value)
      else if ev.v = '=' then return .set mc.index (.int64 ev.value)
      else throw (.fail "unknown mark event value")

/-- The value of a label in the PCF. -/
def MarkLabel.pcfValue (l : MarkLabel) : PcfValue (Fin 256) :=
  { value := toInt32 l.value, label := l.label }

/-- `create_type`, which adds the type of a mark to the PCF. -/
def createType (pcf : List (PcfType (Fin 256))) (type : MarkType) :
    Except EmuFault (List (PcfType (Fin 256))) := do
  let pcftype ← pcfAddType pcf (toInt32 type.prvtype) type.title
  let pcftype ← pcfAddValues pcftype (type.labels.map MarkLabel.pcfValue)
  return pcf ++ [pcftype]

/-- `add_label` for each of some labels. -/
def addLabels (t : MarkType) (labels : List MarkLabel) : Except EmuFault MarkType :=
  labels.foldlM (fun t l => addLabel t l.value l.label) t

/-! ## Marks with labels -/

/-- The labels of a mark type: no value has two of them, and they fit. -/
structure Labelled (t : MarkType) : Prop where
  titled : t.title.length < maxPcfLabel
  nodup : (t.labels.map MarkLabel.value).Nodup
  label : ∀ l ∈ t.labels, l.label.length < maxPcfLabel

section

variable {m m' : MarkEmu} {t t' : MarkType} {type : Int} {ctype : ChanType} {title : Name}
variable {labels : List MarkLabel} {pcf pcf' : List (PcfType (Fin 256))}

theorem createMarkType_labelled (h : createMarkType m type ctype title = .ok (m', t)) :
    Labelled t ∧ t.prvtype = type + prvOvniMark ∧ t.labels = [] := by
  unfold createMarkType at h
  obtain ⟨-, h⟩ := Lib.guard_ok h
  obtain ⟨hlen, h⟩ := Lib.guard_ok h
  cases h
  exact ⟨⟨by simp only; omega, List.nodup_nil, by simp⟩, rfl, rfl⟩

/-- What `add_label` does when it does not fail. -/
theorem addLabel_ok {value : Int} {label : Name} (h : addLabel t value label = .ok t') :
    ({ value, label } ∈ t.labels ∧ t' = t) ∨
      (value ∉ t.labels.map MarkLabel.value ∧ label.length < maxPcfLabel ∧
        t' = { t with labels := t.labels ++ [{ value, label }] }) := by
  unfold addLabel at h
  split at h
  · rename_i l hfind
    split at h
    · rename_i hlabel
      cases h
      have hmem : l ∈ t.labels := List.mem_of_find?_eq_some hfind
      have hvalue : l.value = value := by simpa using List.find?_some hfind
      subst hlabel
      subst hvalue
      exact Or.inl ⟨hmem, rfl⟩
    · cases h
  · rename_i hnone
    split at h
    · cases h
    · rename_i hlen
      cases h
      exact Or.inr ⟨by simpa [findLabel] using hnone, by omega, rfl⟩

theorem Labelled.addLabel {value : Int} {label : Name} (h : Labelled t)
    (hadd : addLabel t value label = .ok t') : Labelled t' := by
  obtain ⟨-, rfl⟩ | ⟨hnew, hlen, rfl⟩ := addLabel_ok hadd
  · exact h
  · refine ⟨h.titled, ?_, ?_⟩
    · rw [List.map_append, List.map_singleton, ← List.concat_eq_append]
      exact List.Nodup.concat hnew h.nodup
    · intro l hl
      rcases List.mem_append.mp hl with hl | hl
      · exact h.label l hl
      · rw [List.mem_singleton.mp hl]
        exact hlen

theorem Labelled.addLabels (h : Labelled t) (hadd : addLabels t labels = .ok t') :
    Labelled t' :=
  Lib.foldlM_kept (fun _ _ _ h hstep => h.addLabel hstep) h hadd

/-- The labels of a mark are those that it was given. -/
theorem addLabels_mem (h : addLabels t labels = .ok t') :
    t'.prvtype = t.prvtype ∧ ∀ l, l ∈ t'.labels ↔ l ∈ t.labels ∨ l ∈ labels := by
  unfold addLabels at h
  induction labels generalizing t with
  | nil =>
      cases h
      simp
  | cons l labels ih =>
      rw [List.foldlM_cons] at h
      obtain ⟨t₁, hadd, h⟩ := Lib.bind_ok h
      obtain ⟨hprv, hmem⟩ := ih h
      obtain ⟨hold, rfl⟩ | ⟨-, -, rfl⟩ := addLabel_ok hadd
      · refine ⟨hprv, fun k => (hmem k).trans ?_⟩
        rw [List.mem_cons]
        constructor
        · exact Or.imp_right Or.inr
        · rintro (hk | rfl | hk)
          · exact Or.inl hk
          · exact Or.inl hold
          · exact Or.inr hk
      · refine ⟨hprv, fun k => (hmem k).trans ?_⟩
        rw [List.mem_append, List.mem_singleton, List.mem_cons, or_assoc]

/-! ## The numbers in the traces -/

theorem prvValue_mark {value : Int} (h : value ≠ 0) :
    prvValue markFlags (.int64 value) = .ok value := by
  simp [prvValue, markFlags, h]
  rfl

theorem markEvent_ok {ev : MarkEvent} {op : ChanOp Nat} (h : markEvent m ev = .ok op) :
    ev.value ≠ 0 ∧ ∃ c, op = .push c (.int64 ev.value) ∨ op = .pop c (.int64 ev.value) ∨
      op = .set c (.int64 ev.value) := by
  unfold markEvent at h
  obtain ⟨-, h⟩ := Lib.guard_ok h
  split at h
  · cases h
  · rename_i mc _
    obtain ⟨hne, h⟩ := Lib.guard_ok h
    refine ⟨hne, mc.index, ?_⟩
    split at h
    · exact Or.inl (Except.ok.inj h).symm
    · split at h
      · exact Or.inr (Or.inl (Except.ok.inj h).symm)
      · split at h
        · exact Or.inr (Or.inr (Except.ok.inj h).symm)
        · cases h

/-- The value that an event gives to the channel of its mark is written as it is. -/
theorem markEvent_written {ev : MarkEvent} {c : Nat} {v : Value}
    (h : markEvent m ev = .ok (.set c v) ∨ markEvent m ev = .ok (.push c v)) :
    prvValue markFlags v = .ok ev.value := by
  rcases h with h | h
  · obtain ⟨hne, _, hop | hop | hop⟩ := markEvent_ok h <;> cases hop
    exact prvValue_mark hne
  · obtain ⟨hne, _, hop | hop | hop⟩ := markEvent_ok h <;> cases hop
    exact prvValue_mark hne

/-- The events that give a value to the channel of a mark, `[` and `=`, are taken, and this
number is written in the trace for it. -/
structure WrittenAs (m : MarkEmu) (type value n : Int) : Prop where
  taken : ∀ v, v = '[' ∨ v = '=' →
    ∃ op, markEvent m { v, payloadSize := 8 + 4, value, type } = .ok op
  number : ∀ ev c x, ev.type = type → ev.value = value →
    markEvent m ev = .ok (.set c x) ∨ markEvent m ev = .ok (.push c x) →
    prvValue markFlags x = .ok n

theorem writtenAs_self {value : Int} (hfind : findMarkType m type = some t) (hne : value ≠ 0) :
    WrittenAs m type value value := by
  constructor
  · rintro v (rfl | rfl)
    · exact ⟨.push t.index (.int64 value), by simp [markEvent, hfind, hne]; rfl⟩
    · exact ⟨.set t.index (.int64 value), by simp [markEvent, hfind, hne]; rfl⟩
  · rintro ev c x - rfl hev
    exact markEvent_written hev

/-- The number of a value is the value. -/
theorem WrittenAs.eq {value n : Int} (h : WrittenAs m type value n) : n = value := by
  obtain ⟨op, hop⟩ := h.taken '=' (Or.inr rfl)
  obtain ⟨c, x, rfl⟩ : ∃ c x, op = .set c x := by
    unfold markEvent at hop
    obtain ⟨-, hop⟩ := Lib.guard_ok hop
    split at hop
    · cases hop
    · obtain ⟨-, hop⟩ := Lib.guard_ok hop
      simp only [show ¬ '=' = '[' by decide, show ¬ '=' = ']' by decide, if_false, if_true] at hop
      exact ⟨_, _, (Except.ok.inj hop).symm⟩
  have hn := h.number _ c x rfl rfl (Or.inl hop)
  have hvalue := markEvent_written (Or.inl hop)
  exact Except.ok.inj (hn.symm.trans hvalue)

/-! ## The labels in the PCF -/

/-- The table with a mark type, which was made and got its labels. -/
def MarkEmu.withType (m : MarkEmu) (t : MarkType) : MarkEmu :=
  { m with types := Lib.put MarkType.type t m.types }

/-- `create_type` gives each value of a mark its label, by the number that `mark_event` writes
in the trace for it, and no label to another number. -/
def LabelsShown (m : MarkEmu) (pcf : List (PcfType (Fin 256))) (t : MarkType) : Prop :=
  ∃ pcf' pcftype, createType pcf t = .ok pcf' ∧ pcfFindType pcf' t.prvtype = some pcftype ∧
    (∀ l ∈ t.labels, ∃ n, WrittenAs m t.type l.value n ∧
      pcfFindValue pcftype n = some { value := n, label := l.label }) ∧
    ∀ v ∈ pcftype.values, ∃ l ∈ t.labels, v = { value := l.value, label := l.label }

theorem createType_ok (h : createType pcf t = .ok pcf') :
    ∃ pcftype, pcf' = pcf ++ [pcftype] ∧ pcftype.id = toInt32 t.prvtype ∧
      pcftype.values = t.labels.map MarkLabel.pcfValue := by
  unfold createType pcfAddType at h
  obtain ⟨pcftype₀, htype, h⟩ := Lib.bind_ok h
  obtain ⟨-, htype⟩ := Lib.guard_ok htype
  obtain ⟨-, htype⟩ := Lib.guard_ok htype
  cases htype
  obtain ⟨pcftype, hvalues, h⟩ := Lib.bind_ok h
  cases h
  obtain ⟨hid, hvalues⟩ := pcfAddValues_ok hvalues
  exact ⟨pcftype, rfl, hid, hvalues⟩

/-- The type is found in the PCF with the labels of the mark. -/
theorem createType_find (h : createType pcf t = .ok pcf') (hcast : toInt32 t.prvtype = t.prvtype)
    (hnew : pcfFindType pcf t.prvtype = none) :
    ∃ pcftype, pcfFindType pcf' t.prvtype = some pcftype ∧
      pcftype.values = t.labels.map MarkLabel.pcfValue := by
  obtain ⟨pcftype, rfl, hid, hvalues⟩ := createType_ok h
  refine ⟨pcftype, ?_, hvalues⟩
  unfold pcfFindType at hnew ⊢
  rw [List.find?_append, hnew, Option.none_or, List.find?_singleton, hid, hcast]
  simp

theorem createType_of (hlabelled : Labelled t) (hnew : pcfFindType pcf (toInt32 t.prvtype) = none)
    (hnodup : (t.labels.map fun l => toInt32 l.value).Nodup) :
    ∃ pcf', createType pcf t = .ok pcf' := by
  have hvalues : ∃ type', pcfAddValues (β := Fin 256)
      ⟨toInt32 t.prvtype, t.title, [], List.nodup_nil⟩
      (t.labels.map MarkLabel.pcfValue) = .ok type' := by
    apply pcfAddValues_of
    · rw [List.nil_append, List.map_map]
      exact hnodup
    · intro v hv
      obtain ⟨l, hl, rfl⟩ := List.mem_map.mp hv
      exact hlabelled.label l hl
  obtain ⟨type', hvalues⟩ := hvalues
  have hlen : ¬ maxPcfLabel ≤ t.title.length := Nat.not_le_of_lt hlabelled.titled
  refine ⟨pcf ++ [type'], ?_⟩
  unfold createType pcfAddType
  simp only [hnew, Option.isSome_none, Bool.false_eq_true, if_false, hlen, pure_bind, hvalues]
  rfl

theorem toInt32_range {l : List MarkLabel} (h : ∀ k ∈ l, 0 < k.value ∧ k.value < 2 ^ 31) :
    l.map MarkLabel.pcfValue =
      l.map fun k => { value := k.value, label := k.label } := by
  apply List.map_congr_left
  intro k hk
  obtain ⟨hpos, hlt⟩ := h k hk
  rw [MarkLabel.pcfValue, toInt32_of_range (by omega) hlt]

/-- Every label is shown for its value when all the values are in the range of an `int`, and
only then. -/
theorem mark_labels_iff {t₀ : MarkType} (htype : 0 ≤ type ∧ type < 100)
    (hmark : createMarkType m type ctype title = .ok (m', t₀))
    (hlabels : addLabels t₀ labels = .ok t) (hpos : ∀ l ∈ labels, 0 < l.value)
    (hnew : pcfFindType pcf (type + prvOvniMark) = none) :
    LabelsShown (m'.withType t) pcf t ↔ ∀ l ∈ labels, l.value < 2 ^ 31 := by
  obtain ⟨hlabelled₀, hprv₀, hnil⟩ := createMarkType_labelled hmark
  have hlabelled := hlabelled₀.addLabels hlabels
  obtain ⟨hprv, hmem⟩ := addLabels_mem hlabels
  have hlabel : ∀ l, l ∈ t.labels ↔ l ∈ labels := by
    intro l
    rw [hmem l, hnil]
    simp
  have hid : t.prvtype = type + prvOvniMark := hprv.trans hprv₀
  have hcast : toInt32 t.prvtype = t.prvtype := by
    rw [hid]
    unfold prvOvniMark
    exact toInt32_of_range (by omega) (by omega)
  rw [← hid] at hnew
  constructor
  · rintro ⟨pcf', pcftype, hcreate, hfind, hshown, -⟩ l hl
    obtain ⟨pcftype', hfind', hvalues⟩ := createType_find hcreate hcast hnew
    obtain rfl := Option.some.inj (hfind.symm.trans hfind')
    obtain ⟨n, hn, hvalue⟩ := hshown l ((hlabel l).mpr hl)
    obtain rfl := hn.eq
    have hentry := (pcfFindValue_some.mp hvalue).1
    rw [hvalues] at hentry
    obtain ⟨k, -, hk⟩ := List.mem_map.mp hentry
    have hnum : toInt32 k.value = l.value := congrArg PcfValue.value hk
    have hbound := (toInt32_bounds k.value).2
    omega
  · intro hlt
    have hrange : ∀ l ∈ t.labels, 0 < l.value ∧ l.value < 2 ^ 31 := by
      intro l hl
      have hl' := (hlabel l).mp hl
      exact ⟨hpos l hl', hlt l hl'⟩
    have hvalues := toInt32_range hrange
    have hnodup : (t.labels.map fun l => toInt32 l.value).Nodup := by
      have hmap := congrArg (List.map PcfValue.value) hvalues
      rw [List.map_map, List.map_map] at hmap
      exact (congrArg List.Nodup hmap).mpr hlabelled.nodup
    have hfree : pcfFindType pcf (toInt32 t.prvtype) = none := by
      rw [hcast]
      exact hnew
    obtain ⟨pcf', hcreate⟩ := createType_of hlabelled hfree hnodup
    obtain ⟨pcftype, hfind, hpvalues⟩ := createType_find hcreate hcast hnew
    rw [hvalues] at hpvalues
    refine ⟨_, pcftype, hcreate, hfind, fun l hl => ⟨l.value, ?_, ?_⟩, fun v hv => ?_⟩
    · exact writtenAs_self Lib.find_put (by have := (hrange l hl).1; omega)
    · refine pcfFindValue_some.mpr ⟨?_, rfl⟩
      rw [hpvalues]
      exact List.mem_map_of_mem hl
    · rw [hpvalues] at hv
      obtain ⟨l, hl, rfl⟩ := List.mem_map.mp hv
      exact ⟨l, hl, rfl⟩

/-- A mark type with some labels. -/
def labelledMark (labels : List MarkLabel) : MarkType :=
  { type := 3, prvtype := 103, index := 0, ctype := .single, labels, title := [98] }

/-- The table of a mark type. -/
def labelledEmu (labels : List MarkLabel) : MarkEmu :=
  { types := [labelledMark labels], ntypes := 1 }

theorem mark_labels_iff_int :
    LabelsShown (labelledEmu [{ value := 9, label := [98] }, { value := 7, label := [97] }]) []
      (labelledMark [{ value := 9, label := [98] }, { value := 7, label := [97] }]) := by
  have hmark : createMarkType { types := [], ntypes := 0 } 3 .single [98] =
      .ok (labelledEmu [], labelledMark []) := rfl
  have hlabels : addLabels (labelledMark [])
      [{ value := 9, label := [98] }, { value := 7, label := [97] }] =
        .ok (labelledMark [{ value := 9, label := [98] }, { value := 7, label := [97] }]) := rfl
  exact (mark_labels_iff (by decide) hmark hlabels (by simp) rfl).mpr (by simp)

/-- Two values that are the same `int`: the mark type is accepted with their labels, and its
type cannot be added to the PCF. -/
theorem mark_labels_conflated :
    createMarkType { types := [], ntypes := 0 } 3 .single [98] =
      .ok (labelledEmu [], labelledMark []) ∧
    addLabels (labelledMark [])
        [{ value := 1, label := [97] }, { value := 2 ^ 32 + 1, label := [99] }] =
      .ok (labelledMark [{ value := 1, label := [97] }, { value := 2 ^ 32 + 1, label := [99] }]) ∧
    ∀ m, ¬ LabelsShown m []
      (labelledMark [{ value := 1, label := [97] }, { value := 2 ^ 32 + 1, label := [99] }]) := by
  refine ⟨rfl, rfl, fun m => ?_⟩
  rintro ⟨pcf', pcftype, hcreate, -⟩
  have hfails : (createType [] (labelledMark [{ value := 1, label := [97] },
      { value := 2 ^ 32 + 1, label := [99] }])).isOk = false := by
    decide +kernel
  rw [hcreate] at hfails
  cases hfails

end

end Ovni
