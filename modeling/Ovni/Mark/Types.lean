import Mathlib.Data.List.Pairwise
import Mathlib.Order.Interval.Set.Defs
import Mathlib.Data.Set.Function
import Ovni.Lib.Merge
import Ovni.Mark.Model

/-!
# The table of mark types is the union of the definitions

The labels of a mark type and the mark types of the table are merged one by one: an entry
is taken when it is well formed and agrees with those before, so the order of the threads
does not matter.  Numbers are compared after they are read, so `7` and `07` are the same.
-/

namespace Ovni

open Ovni.Lib

/-! ## Labels -/

/-- The label of an entry of `labels`, when it is well formed. -/
def labelDef (item : Name × JsonValue) : Option MarkLabel :=
  match parseNumber item.1, item.2.getString with
  | .ok value, some label => if label.length < maxPcfLabel then some { value, label } else none
  | _, _ => none

/-- Two labels of the same value are the same. -/
def LabelAgree (item item' : Name × JsonValue) : Prop :=
  ∀ l l', labelDef item = some l → labelDef item' = some l' → l.value = l'.value → l = l'

/-- The labels of the mark type are those of the entries. -/
structure LabelsOk (items : List (Name × JsonValue)) (t : MarkType) : Prop where
  nodup : (t.labels.map MarkLabel.value).Nodup
  mem : ∀ l, l ∈ t.labels ↔ ∃ item ∈ items, labelDef item = some l

section

variable {t t' : MarkType} {items : List (Name × JsonValue)} {item : Name × JsonValue}
variable {l : MarkLabel} {value : Int} {label : Name}

theorem labelDef_eq (hvalue : parseNumber item.1 = .ok value)
    (hlabel : item.2.getString = some label) (hlen : label.length < maxPcfLabel) :
    labelDef item = some { value, label } := by
  rw [labelDef, hvalue, hlabel]
  exact if_pos hlen

theorem labelDef_some (h : labelDef item = some l) :
    parseNumber item.1 = .ok l.value ∧ item.2.getString = some l.label ∧
      l.label.length < maxPcfLabel := by
  unfold labelDef at h
  split at h
  · rename_i value label hvalue hlabel
    split at h
    · rename_i hlen
      cases h
      exact ⟨hvalue, hlabel, hlen⟩
    · cases h
  · cases h

theorem findLabel_some (h : findLabel t value = some l) : l ∈ t.labels ∧ l.value = value :=
  ⟨List.mem_of_find?_eq_some h, by simpa using List.find?_some h⟩

theorem findLabel_none (h : findLabel t value = none) (hl : l ∈ t.labels) : l.value ≠ value := by
  simpa using List.find?_eq_none.mp h l hl

/-- What one turn of the loop of `parse_labels` does when it does not fail: the label was
there, or it is a new one. -/
theorem parseLabel_ok (hok : LabelsOk items t) (h : parseLabel t item = .ok t') :
    ∃ l, labelDef item = some l ∧
      (l ∈ t.labels ∧ t' = t ∨
        findLabel t l.value = none ∧ t' = { t with labels := t.labels ++ [l] }) := by
  unfold parseLabel at h
  obtain ⟨value, hvalue, h⟩ := bind_ok h
  obtain ⟨label, hlabel, h⟩ := bind_ok h
  have hstring : item.2.getString = some label := by
    cases hs : item.2.getString with
    | none =>
        rw [hs] at hlabel
        cases hlabel
    | some s =>
        rw [hs] at hlabel
        cases hlabel
        rfl
  unfold addLabel at h
  split at h
  · rename_i l hfind
    obtain ⟨hl, hval⟩ := findLabel_some hfind
    split at h
    · rename_i hsame
      cases h
      obtain ⟨j, -, hj⟩ := (hok.mem l).mp hl
      refine ⟨{ value, label }, labelDef_eq hvalue hstring ?_, .inl ⟨?_, rfl⟩⟩
      · rw [← hsame]
        exact (labelDef_some hj).2.2
      · rw [← hval, ← hsame]
        exact hl
    · cases h
  · rename_i hfind
    split at h
    · cases h
    · rename_i hlen
      cases h
      exact ⟨{ value, label }, labelDef_eq hvalue hstring (by omega), .inr ⟨hfind, rfl⟩⟩

theorem parseLabel_ok_iff (hok : LabelsOk items t) :
    (∃ t', parseLabel t item = .ok t') ↔
      (labelDef item).isSome ∧ ∀ j ∈ items, LabelAgree j item := by
  constructor
  · rintro ⟨t', h⟩
    obtain ⟨l, hl, hcase⟩ := parseLabel_ok hok h
    refine ⟨by simp [hl], fun j hj l₁ l₂ hl₁ hl₂ hval => ?_⟩
    rw [hl] at hl₂
    cases hl₂
    have hmem := (hok.mem l₁).mpr ⟨j, hj, hl₁⟩
    rcases hcase with ⟨hin, -⟩ | ⟨hnone, -⟩
    · exact eq_of_key hok.nodup hmem hin hval
    · exact absurd hval (findLabel_none hnone hmem)
  · rintro ⟨hsome, hagree⟩
    obtain ⟨l, hl⟩ := Option.isSome_iff_exists.mp hsome
    obtain ⟨hvalue, hlabel, hlen⟩ := labelDef_some hl
    have hlen' : ¬ maxPcfLabel ≤ l.label.length := by omega
    unfold parseLabel
    rw [hvalue, hlabel]
    show ∃ t', addLabel t l.value l.label = .ok t'
    unfold addLabel
    cases hfind : findLabel t l.value with
    | none => exact ⟨_, if_neg hlen'⟩
    | some l' =>
        obtain ⟨hl', hval⟩ := findLabel_some hfind
        obtain ⟨j, hj, hdef⟩ := (hok.mem l').mp hl'
        have hsame : l' = l := hagree j hj l' l hdef hl hval
        exact ⟨t, if_pos (by rw [hsame])⟩

theorem parseLabel_kept (hok : LabelsOk items t) (h : parseLabel t item = .ok t') :
    LabelsOk (items ++ [item]) t' := by
  obtain ⟨l, hl, hcase⟩ := parseLabel_ok hok h
  have hmem : ∀ l', (∃ j ∈ items ++ [item], labelDef j = some l') ↔ l' ∈ t.labels ∨ l' = l := by
    intro l'
    rw [hok.mem l']
    simp [or_and_right, exists_or, hl, eq_comm]
  rcases hcase with ⟨hin, rfl⟩ | ⟨hnone, rfl⟩
  · refine ⟨hok.nodup, fun l' => ?_⟩
    rw [hmem l']
    exact ⟨.inl, fun h => h.elim id fun h => h ▸ hin⟩
  · refine ⟨?_, fun l' => ?_⟩
    · rw [List.map_append, List.nodup_append]
      refine ⟨hok.nodup, by simp, fun v hv v' hv' => ?_⟩
      obtain ⟨l', hl', rfl⟩ := List.mem_map.mp hv
      rw [List.mem_singleton.mp hv']
      exact findLabel_none hnone hl'
    · rw [hmem l', List.mem_append, List.mem_singleton]

theorem parseLabel_merges :
    Merges parseLabel LabelsOk (fun item => (labelDef item).isSome) LabelAgree where
  ok_iff := parseLabel_ok_iff
  kept := parseLabel_kept

/-- Nothing else changes in the mark type. -/
theorem parseLabel_rest (h : parseLabel t item = .ok t') (labels : List MarkLabel) :
    { t' with labels } = { t with labels } := by
  unfold parseLabel at h
  obtain ⟨value, -, h⟩ := bind_ok h
  obtain ⟨label, -, h⟩ := bind_ok h
  unfold addLabel at h
  split at h
  · split at h
    · cases h
      rfl
    · cases h
  · split at h
    · cases h
    · cases h
      rfl

end

/-! ## Mark types -/

/-- A definition of a mark type. -/
structure MarkDef where
  type : Int
  title : Name
  ctype : ChanType
  labels : List MarkLabel

/-- The entries of the labels of a mark, when they are well formed. -/
def labelItems : Option JsonValue → Option JsonObject
  | none => some []
  | some labels => labels.getObject

/-- The definition of an entry of `ovni.mark`, when it is well formed. -/
def markDef (item : Name × JsonValue) : Option MarkDef :=
  match readMark item with
  | .error _ => none
  | .ok mark =>
      match labelItems mark.labels with
      | none => none
      | some items =>
          if mark.title.length < maxPcfLabel ∧ ∀ i ∈ items, (labelDef i).isSome then
            some { type := mark.type, title := mark.title, ctype := mark.ctype,
                   labels := items.filterMap labelDef }
          else none

/-- Two definitions of one mark type that do not conflict. -/
structure MarkAgree (d d' : MarkDef) : Prop where
  title : d.title = d'.title
  ctype : d.ctype = d'.ctype
  labels : ∀ l ∈ d.labels, ∀ l' ∈ d'.labels, l.value = l'.value → l = l'

theorem MarkAgree.symm {d d' : MarkDef} (h : MarkAgree d d') : MarkAgree d' d where
  title := h.title.symm
  ctype := h.ctype.symm
  labels := fun l hl l' hl' hval => (h.labels l' hl' l hl hval.symm).symm

/-- The entries of the labels of an entry of `ovni.mark`. -/
def markLabels (item : Name × JsonValue) : JsonObject :=
  match readMark item with
  | .error _ => []
  | .ok mark => (labelItems mark.labels).getD []

/-- The mark type is made of these definitions. -/
structure MarkOk (items : List (Name × JsonValue)) (t : MarkType) : Prop where
  titled : t.title.length < maxPcfLabel
  head : ∀ i ∈ items, ∀ d, markDef i = some d → d.title = t.title ∧ d.ctype = t.ctype
  labels : LabelsOk (items.flatMap markLabels) t

/-- The table is made of these definitions. -/
structure MarksOk (items : List (Name × JsonValue)) (m : MarkEmu) : Prop where
  parts : Parts (fun i => (markDef i).map MarkDef.type) MarkType.type MarkOk items m.types
  index : m.types.map MarkType.index = List.range m.ntypes

section

variable {m m₁ m' : MarkEmu} {t t' : MarkType} {items : List (Name × JsonValue)}
variable {item : Name × JsonValue} {mark : MarkHead} {d d' : MarkDef} {labels : JsonObject}

theorem markDef_eq (hread : readMark item = .ok mark)
    (hlabels : labelItems mark.labels = some labels) (hlen : mark.title.length < maxPcfLabel)
    (hall : ∀ i ∈ labels, (labelDef i).isSome) :
    markDef item = some { type := mark.type, title := mark.title, ctype := mark.ctype,
                          labels := labels.filterMap labelDef } := by
  rw [markDef, hread]
  show (match labelItems mark.labels with | none => none | some items => _) = _
  rw [hlabels]
  exact if_pos ⟨hlen, hall⟩

theorem markDef_some (h : markDef item = some d) :
    ∃ mark, readMark item = .ok mark ∧ labelItems mark.labels = some (markLabels item) ∧
      mark.title.length < maxPcfLabel ∧ (∀ i ∈ markLabels item, (labelDef i).isSome) ∧
      d = { type := mark.type, title := mark.title, ctype := mark.ctype,
            labels := (markLabels item).filterMap labelDef } := by
  unfold markDef at h
  split at h
  · cases h
  · rename_i mark hread
    split at h
    · cases h
    · rename_i labels hlabels
      split at h
      · rename_i hfits
        cases h
        have hitems : markLabels item = labels := by
          rw [markLabels, hread]
          exact congrArg (Option.getD · []) hlabels
        rw [hitems]
        exact ⟨mark, hread, hlabels, hfits.1, hfits.2, rfl⟩
      · cases h

theorem mem_labels_iff (h : markDef item = some d) {l : MarkLabel} :
    l ∈ d.labels ↔ ∃ i ∈ markLabels item, labelDef i = some l := by
  obtain ⟨mark, -, -, -, -, rfl⟩ := markDef_some h
  rw [List.mem_filterMap]

/-- The labels of a mark type that is made of some definitions. -/
theorem MarkOk.mem_labels (h : MarkOk items t) (hitem : item ∈ items)
    (hdef : markDef item = some d) {l : MarkLabel} (hl : l ∈ d.labels) : l ∈ t.labels := by
  obtain ⟨i, hi, hdef⟩ := (mem_labels_iff hdef).mp hl
  exact (h.labels.mem l).mpr ⟨i, List.mem_flatMap.mpr ⟨item, hitem, hi⟩, hdef⟩

/-- The definitions of a mark type do not conflict. -/
theorem MarkOk.agree (h : MarkOk items t) {item' : Name × JsonValue} (hitem : item ∈ items)
    (hitem' : item' ∈ items) (hdef : markDef item = some d) (hdef' : markDef item' = some d') :
    MarkAgree d d' where
  title := (h.head item hitem d hdef).1.trans (h.head item' hitem' d' hdef').1.symm
  ctype := (h.head item hitem d hdef).2.trans (h.head item' hitem' d' hdef').2.symm
  labels := fun _ hl _ hl' hval =>
    eq_of_key h.labels.nodup (h.mem_labels hitem hdef hl) (h.mem_labels hitem' hdef' hl') hval

/-! ### One mark -/

/-- The mark type was in the table, or it is a new one at the end. -/
theorem registerMark_ok (h : registerMark m mark = .ok (m₁, t)) :
    (findMarkType m mark.type = some t ∧ t.title = mark.title ∧ t.ctype = mark.ctype ∧ m₁ = m) ∨
      (findMarkType m mark.type = none ∧ mark.title.length < maxPcfLabel ∧
        t = { type := mark.type, prvtype := mark.type + prvOvniMark, index := m.ntypes,
              ctype := mark.ctype, labels := [], title := mark.title } ∧
        m₁ = { types := m.types ++ [t], ntypes := m.ntypes + 1 }) := by
  unfold registerMark at h
  split at h
  · rename_i hfind
    unfold createMarkType at h
    obtain ⟨-, h⟩ := guard_ok h
    obtain ⟨hlen, h⟩ := guard_ok h
    cases h
    exact .inr ⟨hfind, by omega, rfl, rfl⟩
  · rename_i t₁ hfind
    obtain ⟨htitle, h⟩ := guard_ok h
    obtain ⟨hctype, h⟩ := guard_ok h
    cases h
    exact .inl ⟨hfind, by simpa using htitle, by simpa using hctype, rfl⟩

theorem populateMark_eq (hlabels : labelItems mark.labels = some labels) :
    populateMark t mark.labels = parseLabels t labels := by
  unfold populateMark
  cases hcase : mark.labels with
  | none =>
      rw [hcase] at hlabels
      cases hlabels
      rfl
  | some v =>
      rw [hcase] at hlabels
      simp only [labelItems] at hlabels
      simp only [hlabels, orFail]
      rfl

theorem populateMark_items (h : populateMark t mark.labels = .ok t') :
    ∃ labels, labelItems mark.labels = some labels := by
  unfold populateMark at h
  cases hcase : mark.labels with
  | none => exact ⟨[], rfl⟩
  | some v =>
      rw [hcase] at h
      obtain ⟨labels, hlabels, -⟩ := bind_ok h
      cases hobj : v.getObject with
      | none =>
          rw [hobj] at hlabels
          cases hlabels
      | some o => exact ⟨o, hobj⟩

/-- The labels of a mark type after one more definition. -/
theorem populateMark_ok (hlabels : labelItems mark.labels = some labels)
    (hok : LabelsOk items t) (h : populateMark t mark.labels = .ok t') :
    LabelsOk (items ++ labels) t' ∧ (∀ i ∈ labels, (labelDef i).isSome) ∧
      { t' with labels := [] } = { t with labels := [] } := by
  rw [populateMark_eq hlabels] at h
  refine ⟨parseLabel_merges.fold_kept hok h, fun i hi => ?_, ?_⟩
  · exact ((parseLabel_merges.fold_ok_iff hok).mp ⟨t', h⟩).1 i hi |>.1
  · refine foldlM_kept (P := fun u => { u with labels := [] } = { t with labels := [] }) ?_ rfl h
    exact fun u i u' hu hlabel => (parseLabel_rest hlabel []).trans hu

/-- What is known of the mark type that a definition is merged into. -/
theorem MarksOk.registered (h : MarksOk items m) (hreg : registerMark m mark = .ok (m₁, t)) :
    t.type = mark.type ∧ t.title = mark.title ∧ t.ctype = mark.ctype ∧
      MarkOk (items.filter fun i => (markDef i).map MarkDef.type = some mark.type) t := by
  have hpart := h.parts.find mark.type
  rcases registerMark_ok hreg with ⟨hfind, htitle, hctype, -⟩ | ⟨hfind, hlen, rfl, -⟩
  · have hfind' : (m.types.find? fun t => t.type = mark.type) = some t := hfind
    rw [hfind'] at hpart
    exact ⟨hpart.1, htitle, hctype, hpart.2⟩
  · have hfind' : (m.types.find? fun t => t.type = mark.type) = none := hfind
    rw [hfind'] at hpart
    rw [show items.filter _ = [] from hpart]
    exact ⟨rfl, rfl, rfl, hlen, by simp, ⟨.nil, by simp⟩⟩

/-- The table with the mark type put back in its place. -/
theorem MarksOk.put_registered (h : MarksOk items m) (hreg : registerMark m mark = .ok (m₁, t))
    (hrest : { t' with labels := [] } = { t with labels := [] }) :
    put MarkType.type t' m₁.types = put MarkType.type t' m.types ∧
      (put MarkType.type t' m₁.types).map MarkType.index = List.range m₁.ntypes := by
  obtain ⟨htype, -, hindex, -⟩ := MarkType.mk.inj hrest
  rcases registerMark_ok hreg with ⟨hfind, -, -, rfl⟩ | ⟨hfind, -, ht, rfl⟩
  · refine ⟨rfl, ?_⟩
    have hmem := List.mem_of_find?_eq_some hfind
    have hany : (m₁.types.any fun u => u.type = t'.type) = true :=
      List.any_eq_true.mpr ⟨t, hmem, by simp [htype]⟩
    rw [put, if_pos hany, List.map_map, ← h.index]
    apply List.map_congr_left
    intro u hu
    simp only [Function.comp_apply]
    split
    · rename_i hkey
      rw [hindex, eq_of_key h.parts.nodup hu hmem (hkey.trans htype)]
    · rfl
  · have hnone : ∀ u ∈ m.types, u.type ≠ t'.type := by
      intro u hu
      have hne := List.find?_eq_none.mp hfind u hu
      rw [htype, ht]
      simpa using hne
    have hnew : (m.types.any fun u => u.type = t'.type) = false := by simpa using hnone
    have hlast : put MarkType.type t' (m.types ++ [t]) = m.types ++ [t'] := by
      have hany : ((m.types ++ [t]).any fun u => u.type = t'.type) = true := by simp [htype]
      rw [put, if_pos hany, List.map_append]
      refine congrArg₂ (· ++ ·) ?_ (by simp [htype])
      refine (List.map_congr_left fun u hu => ?_).trans (List.map_id _)
      exact if_neg (hnone u hu)
    have hput : put MarkType.type t' m.types = m.types ++ [t'] := by
      rw [put, if_neg (by simp [hnew])]
    refine ⟨hlast.trans hput.symm, ?_⟩
    rw [hlast, List.map_append, h.index, List.map_singleton, hindex, ht, List.range_succ]

theorem parseMark_ok (h : MarksOk items m) (hparse : parseMark m item = .ok m') :
    ∃ d t, markDef item = some d ∧ t.type = d.type ∧
      MarkOk ((items.filter fun i => (markDef i).map MarkDef.type = some d.type) ++ [item]) t ∧
      m'.types = put MarkType.type t m.types ∧
      m'.types.map MarkType.index = List.range m'.ntypes := by
  unfold parseMark at hparse
  obtain ⟨mark, hread, hparse⟩ := bind_ok hparse
  obtain ⟨⟨m₁, t⟩, hreg, hparse⟩ := bind_ok hparse
  obtain ⟨t', hpop, hparse⟩ := bind_ok hparse
  cases hparse
  obtain ⟨labels, hlabels⟩ := populateMark_items hpop
  obtain ⟨htype, htitle, hctype, hold⟩ := h.registered hreg
  obtain ⟨hnew, hall, hrest⟩ := populateMark_ok hlabels hold.labels hpop
  have hlen : mark.title.length < maxPcfLabel := htitle ▸ hold.titled
  have hdef := markDef_eq hread hlabels hlen hall
  have hitems : markLabels item = labels := by
    rw [markLabels, hread]
    exact congrArg (Option.getD · []) hlabels
  obtain ⟨htype', -, -, hctype', -, htitle'⟩ := MarkType.mk.inj hrest
  obtain ⟨hput, hindex⟩ := h.put_registered hreg hrest
  refine ⟨_, t', hdef, htype'.trans htype, ⟨?_, ?_, ?_⟩, hput, hindex⟩
  · rw [htitle']
    exact hold.titled
  · intro i hi d hd
    rw [htitle', hctype']
    rcases List.mem_append.mp hi with hi | hi
    · exact hold.head i hi d hd
    · rw [List.mem_singleton.mp hi, hdef] at hd
      cases hd
      exact ⟨htitle.symm, hctype.symm⟩
  · rw [List.flatMap_append, List.flatMap_singleton, hitems]
    exact hnew

/-- Two entries do not conflict. -/
def MarkItemsAgree (item item' : Name × JsonValue) : Prop :=
  ∀ d d', markDef item = some d → markDef item' = some d' → d.type = d'.type → MarkAgree d d'

instance : Std.Symm MarkItemsAgree :=
  ⟨fun _ _ h d d' hd hd' htype => (h d' d hd' hd htype.symm).symm⟩

/-- The definition is well formed and its labels do not conflict. -/
def MarkFits (item : Name × JsonValue) : Prop := ∃ d, markDef item = some d ∧ MarkAgree d d

theorem parseMark_kept (h : MarksOk items m) (hparse : parseMark m item = .ok m') :
    MarksOk (items ++ [item]) m' := by
  obtain ⟨d, t, hdef, htype, hok, htypes, hindex⟩ := parseMark_ok h hparse
  refine ⟨?_, hindex⟩
  rw [htypes]
  exact h.parts.put (by simp [hdef, htype]) (by rwa [htype])

/-- A definition that fits is registered. -/
theorem MarksOk.register (h : MarksOk items m) (hread : readMark item = .ok mark)
    (hdef : markDef item = some d) (hagree : ∀ j ∈ items, MarkItemsAgree j item) :
    ∃ m₁ t, registerMark m mark = .ok (m₁, t) := by
  obtain ⟨mark', hread', -, hlen, -, rfl⟩ := markDef_some hdef
  rw [hread] at hread'
  cases hread'
  unfold registerMark
  cases hfind : findMarkType m mark.type with
  | none =>
      have hlen' : ¬ maxPcfLabel ≤ mark.title.length := by omega
      simp only [createMarkType, hfind, Option.isSome_none, Bool.false_eq_true, if_false, hlen']
      exact ⟨_, _, rfl⟩
  | some t =>
      have ht : t ∈ m.types := List.mem_of_find?_eq_some hfind
      have htype : t.type = mark.type := by simpa using List.find?_some hfind
      obtain ⟨j, hj, hkey⟩ := h.parts.used t ht
      obtain ⟨d, hd, hdtype⟩ := Option.map_eq_some_iff.mp hkey
      have hsame := hagree j hj d _ hd hdef (hdtype.trans htype)
      have hhead := (h.parts.ok t ht).head j (List.mem_filter.mpr ⟨hj, by simpa using hkey⟩) d hd
      have htitle : t.title = mark.title := hhead.1.symm.trans hsame.title
      have hctype : t.ctype = mark.ctype := hhead.2.symm.trans hsame.ctype
      simp only [htitle, hctype, ne_eq, not_true, if_false]
      exact ⟨_, _, rfl⟩

theorem parseMark_ok_iff (h : MarksOk items m) :
    (∃ m', parseMark m item = .ok m') ↔
      MarkFits item ∧ ∀ j ∈ items, MarkItemsAgree j item := by
  constructor
  · rintro ⟨m', hparse⟩
    obtain ⟨d, t, hdef, htype, hok, -, -⟩ := parseMark_ok h hparse
    refine ⟨⟨d, hdef, hok.agree (by simp) (by simp) hdef hdef⟩, fun j hj d₁ d₂ hd₁ hd₂ hsame => ?_⟩
    rw [hdef] at hd₂
    cases hd₂
    refine hok.agree (List.mem_append_left _ ?_) (by simp) hd₁ hdef
    exact List.mem_filter.mpr ⟨hj, by simp [hd₁, hsame]⟩
  · rintro ⟨⟨d, hdef, hself⟩, hagree⟩
    obtain ⟨mark, hread, hlabels, -, hall, rfl⟩ := markDef_some hdef
    obtain ⟨m₁, t, hreg⟩ := h.register hread hdef hagree
    obtain ⟨-, -, -, hold⟩ := h.registered hreg
    have hpop : ∃ t', populateMark t mark.labels = .ok t' := by
      rw [populateMark_eq hlabels]
      refine (parseLabel_merges.fold_ok_iff hold.labels).mpr ⟨fun i hi => ⟨hall i hi, ?_⟩, ?_⟩
      · intro j hj l l' hl hl' hval
        obtain ⟨item', hitem', hj⟩ := List.mem_flatMap.mp hj
        obtain ⟨hitem', hkey⟩ := List.mem_filter.mp hitem'
        obtain ⟨d, hd, htype⟩ := Option.map_eq_some_iff.mp (of_decide_eq_true hkey)
        have hsame := hagree item' hitem' d _ hd hdef htype
        exact hsame.labels l ((mem_labels_iff hd).mpr ⟨j, hj, hl⟩) l'
          ((mem_labels_iff hdef).mpr ⟨i, hi, hl'⟩) hval
      · apply List.pairwise_of_forall_mem_list
        intro j hj i hi l l' hl hl' hval
        exact hself.labels l ((mem_labels_iff hdef).mpr ⟨j, hj, hl⟩) l'
          ((mem_labels_iff hdef).mpr ⟨i, hi, hl'⟩) hval
    obtain ⟨t', hpop⟩ := hpop
    refine ⟨{ m₁ with types := put MarkType.type t' m₁.types }, ?_⟩
    unfold parseMark
    rw [hread]
    show (registerMark m mark >>= _) = _
    rw [hreg]
    show (populateMark t mark.labels >>= _) = _
    rw [hpop]
    rfl

theorem parseMark_merges : Merges parseMark MarksOk MarkFits MarkItemsAgree where
  ok_iff := parseMark_ok_iff
  kept := parseMark_kept

end

/-! ## All the threads -/

/-- The entries of `ovni.mark` of all the threads. -/
def allMarks (threads : List JsonObject) : JsonObject := threads.flatMap threadMarks

/-- The definitions of all the threads. -/
def allDefs (threads : List JsonObject) : List MarkDef := (allMarks threads).filterMap markDef

/-- No two definitions conflict. -/
def Consistent (defs : List MarkDef) : Prop :=
  ∀ d ∈ defs, ∀ d' ∈ defs, d.type = d'.type → MarkAgree d d'

/-- What the table says of a mark type. -/
structure MarkInfo where
  title : Name
  ctype : ChanType
  labels : Int → Option Name

/-- The table as a map from mark types. -/
def markMap (m : MarkEmu) (type : Int) : Option MarkInfo :=
  (findMarkType m type).map fun t =>
    { title := t.title, ctype := t.ctype, labels := fun v => (findLabel t v).map MarkLabel.label }

/-- The map holds what the definitions say and nothing else. -/
structure IsUnion (defs : List MarkDef) (map : Int → Option MarkInfo) : Prop where
  defined : ∀ type, (map type).isSome ↔ ∃ d ∈ defs, d.type = type
  head : ∀ d ∈ defs, ∀ info, map d.type = some info → info.title = d.title ∧ info.ctype = d.ctype
  labels : ∀ type info, map type = some info → ∀ value label,
    info.labels value = some label ↔
      ∃ d ∈ defs, d.type = type ∧ { value, label : MarkLabel } ∈ d.labels

/-- The index of a mark type. -/
def markIndex (m : MarkEmu) (type : Int) : Nat := ((findMarkType m type).map MarkType.index).getD 0

section

variable {threads threads' : List JsonObject} {m m' : MarkEmu}

theorem scanThreads_eq (threads : List JsonObject) :
    scanThreads threads = (allMarks threads).foldlM parseMark { types := [], ntypes := 0 } := by
  unfold scanThreads allMarks
  generalize ({ types := [], ntypes := 0 } : MarkEmu) = m
  induction threads generalizing m with
  | nil => rfl
  | cons thread threads ih =>
      rw [List.foldlM_cons, List.flatMap_cons, List.foldlM_append]
      exact bind_congr ih

theorem MarksOk.start : MarksOk [] { types := [], ntypes := 0 } where
  parts := Parts.nil _ _ _
  index := rfl

theorem mem_allDefs {d : MarkDef} :
    d ∈ allDefs threads ↔ ∃ item ∈ allMarks threads, markDef item = some d :=
  List.mem_filterMap

/-- The scan fails if and only if some definition is malformed or two of them conflict. -/
theorem scanThreads_ok_iff :
    (∃ m, scanThreads threads = .ok m) ↔
      (∀ item ∈ allMarks threads, (markDef item).isSome) ∧ Consistent (allDefs threads) := by
  rw [scanThreads_eq, parseMark_merges.fold_ok_iff MarksOk.start]
  constructor
  · rintro ⟨hfits, hpair⟩
    refine ⟨fun item hitem => ?_, fun d hd d' hd' hsame => ?_⟩
    · obtain ⟨⟨d, hdef, -⟩, -⟩ := hfits item hitem
      exact Option.isSome_of_eq_some hdef
    · obtain ⟨item, hitem, hdef⟩ := mem_allDefs.mp hd
      obtain ⟨item', hitem', hdef'⟩ := mem_allDefs.mp hd'
      have hself : ∀ i ∈ allMarks threads, MarkItemsAgree i i := by
        intro i hi d₁ d₂ hd₁ hd₂ _
        obtain ⟨⟨d₃, hd₃, hself⟩, -⟩ := hfits i hi
        rw [hd₃] at hd₁ hd₂
        cases hd₁
        cases hd₂
        exact hself
      exact List.Pairwise.forall_of_forall hself hpair hitem hitem' d d' hdef hdef' hsame
  · rintro ⟨hsome, hcons⟩
    refine ⟨fun item hitem => ⟨?_, by simp⟩, ?_⟩
    · obtain ⟨d, hdef⟩ := Option.isSome_iff_exists.mp (hsome item hitem)
      have hmem := mem_allDefs.mpr ⟨item, hitem, hdef⟩
      exact ⟨d, hdef, hcons d hmem d hmem rfl⟩
    · apply List.pairwise_of_forall_mem_list
      intro i hi j hj d d' hd hd' hsame
      exact hcons d (mem_allDefs.mpr ⟨i, hi, hd⟩) d' (mem_allDefs.mpr ⟨j, hj, hd'⟩) hsame

theorem scanThreads_kept (h : scanThreads threads = .ok m) : MarksOk (allMarks threads) m := by
  rw [scanThreads_eq] at h
  exact parseMark_merges.fold_kept MarksOk.start h

theorem findMarkType_some {type : Int} {t : MarkType} (h : findMarkType m type = some t) :
    t ∈ m.types ∧ t.type = type :=
  ⟨List.mem_of_find?_eq_some h, by simpa using List.find?_some h⟩

/-- The mark type of the table for a definition. -/
theorem MarksOk.find_def {items : List (Name × JsonValue)} {item : Name × JsonValue} {d : MarkDef}
    (h : MarksOk items m) (hitem : item ∈ items) (hdef : markDef item = some d) :
    ∃ t, findMarkType m d.type = some t := by
  obtain ⟨t, ht, htype⟩ := h.parts.all item hitem d.type (by rw [hdef]; rfl)
  apply Option.ne_none_iff_exists'.mp
  intro hnone
  have hne := List.find?_eq_none.mp hnone t ht
  exact hne (by simpa using htype)

/-- The definition of some entry for a mark type of the table. -/
theorem MarksOk.def_of_find {items : List (Name × JsonValue)} {type : Int} {t : MarkType}
    (h : MarksOk items m) (hfind : findMarkType m type = some t) :
    ∃ item ∈ items, ∃ d, markDef item = some d ∧ d.type = type := by
  obtain ⟨ht, rfl⟩ := findMarkType_some hfind
  obtain ⟨item, hitem, hkey⟩ := h.parts.used t ht
  obtain ⟨d, hdef, hdtype⟩ := Option.map_eq_some_iff.mp hkey
  exact ⟨item, hitem, d, hdef, hdtype⟩

theorem MarksOk.defined_iff (h : MarksOk (allMarks threads) m) (type : Int) :
    (findMarkType m type).isSome ↔ ∃ d ∈ allDefs threads, d.type = type := by
  constructor
  · intro hsome
    obtain ⟨t, ht⟩ := Option.isSome_iff_exists.mp hsome
    obtain ⟨item, hitem, d, hdef, hdtype⟩ := h.def_of_find ht
    exact ⟨d, mem_allDefs.mpr ⟨item, hitem, hdef⟩, hdtype⟩
  · rintro ⟨d, hd, rfl⟩
    obtain ⟨item, hitem, hdef⟩ := mem_allDefs.mp hd
    obtain ⟨t, ht⟩ := h.find_def hitem hdef
    exact Option.isSome_of_eq_some ht

theorem findLabel_iff {t : MarkType} (hnodup : (t.labels.map MarkLabel.value).Nodup) {value : Int}
    {label : Name} :
    (findLabel t value).map MarkLabel.label = some label ↔
      { value, label : MarkLabel } ∈ t.labels := by
  constructor
  · intro h
    obtain ⟨l, hfind, rfl⟩ := Option.map_eq_some_iff.mp h
    obtain ⟨hl, rfl⟩ := findLabel_some hfind
    exact hl
  · intro hl
    cases hfind : findLabel t value with
    | none => exact absurd rfl (findLabel_none hfind hl)
    | some l =>
        obtain ⟨hmem, hval⟩ := findLabel_some hfind
        rw [eq_of_key hnodup hmem hl hval]
        rfl

theorem MarksOk.union (h : MarksOk (allMarks threads) m) :
    IsUnion (allDefs threads) (markMap m) where
  defined := by
    intro type
    rw [← h.defined_iff, markMap, Option.isSome_map]
  head := by
    intro d hd info hinfo
    obtain ⟨t, hfind, rfl⟩ := Option.map_eq_some_iff.mp hinfo
    obtain ⟨ht, htype⟩ := findMarkType_some hfind
    obtain ⟨item, hitem, hdef⟩ := mem_allDefs.mp hd
    have hin : item ∈ (allMarks threads).filter fun i =>
        (markDef i).map MarkDef.type = some t.type :=
      List.mem_filter.mpr ⟨hitem, by simp [hdef, htype]⟩
    have hhead := (h.parts.ok t ht).head item hin d hdef
    exact ⟨hhead.1.symm, hhead.2.symm⟩
  labels := by
    intro type info hinfo value label
    obtain ⟨t, hfind, rfl⟩ := Option.map_eq_some_iff.mp hinfo
    obtain ⟨ht, rfl⟩ := findMarkType_some hfind
    have hok := (h.parts.ok t ht).labels
    rw [findLabel_iff hok.nodup, hok.mem]
    constructor
    · rintro ⟨i, hi, hlabel⟩
      obtain ⟨item, hitem, hi⟩ := List.mem_flatMap.mp hi
      obtain ⟨hitem, hkey⟩ := List.mem_filter.mp hitem
      obtain ⟨d, hdef, hdtype⟩ := Option.map_eq_some_iff.mp (of_decide_eq_true hkey)
      exact ⟨d, mem_allDefs.mpr ⟨item, hitem, hdef⟩, hdtype,
        (mem_labels_iff hdef).mpr ⟨i, hi, hlabel⟩⟩
    · rintro ⟨d, hd, hdtype, hl⟩
      obtain ⟨item, hitem, hdef⟩ := mem_allDefs.mp hd
      obtain ⟨i, hi, hlabel⟩ := (mem_labels_iff hdef).mp hl
      refine ⟨i, List.mem_flatMap.mpr ⟨item, List.mem_filter.mpr ⟨hitem, ?_⟩, hi⟩, hlabel⟩
      simp [hdef, hdtype]

/-- There is only one union. -/
theorem IsUnion.unique {defs defs' : List MarkDef} {map map' : Int → Option MarkInfo}
    (h : IsUnion defs map) (h' : IsUnion defs' map') (hmem : ∀ d, d ∈ defs ↔ d ∈ defs') :
    map = map' := by
  funext type
  have hsome : (map type).isSome ↔ (map' type).isSome := by
    rw [h.defined, h'.defined]
    simp only [hmem]
  cases hinfo : map type with
  | none =>
      rw [hinfo] at hsome
      exact (Option.not_isSome_iff_eq_none.mp (mt hsome.mpr (by simp))).symm
  | some info =>
      obtain ⟨info', hinfo'⟩ := Option.isSome_iff_exists.mp (hsome.mp (by simp [hinfo]))
      obtain ⟨d, hd, rfl⟩ := (h.defined type).mp (by simp [hinfo])
      have hhead := h.head d hd info hinfo
      have hhead' := h'.head d ((hmem d).mp hd) info' hinfo'
      have hlabels : info.labels = info'.labels := by
        funext value
        apply Option.ext
        intro label
        rw [h.labels _ _ hinfo, h'.labels _ _ hinfo']
        simp only [hmem]
      have heq : info = info' := by
        cases info
        cases info'
        simp_all
      rw [hinfo', heq]

/-- The indices of the mark types. -/
theorem MarksOk.bijOn (h : MarksOk (allMarks threads) m) :
    Set.BijOn (markIndex m) {type | ∃ d ∈ allDefs threads, d.type = type} (Set.Iio m.ntypes) := by
  have hnodup : (m.types.map MarkType.index).Nodup := by
    rw [h.index]
    exact List.nodup_range
  have hfind : ∀ type, (∃ d ∈ allDefs threads, d.type = type) →
      ∃ t ∈ m.types, t.type = type ∧ markIndex m type = t.index := by
    intro type hdef
    obtain ⟨t, ht⟩ := Option.isSome_iff_exists.mp ((h.defined_iff type).mpr hdef)
    obtain ⟨hmem, htype⟩ := findMarkType_some ht
    exact ⟨t, hmem, htype, by rw [markIndex, ht]; rfl⟩
  have hrange : ∀ i, i < m.ntypes ↔ ∃ t ∈ m.types, t.index = i := by
    intro i
    rw [← List.mem_range, ← h.index, List.mem_map]
  refine ⟨fun type hdef => ?_, fun type hdef type' hdef' heq => ?_, fun i hi => ?_⟩
  · obtain ⟨t, ht, -, hindex⟩ := hfind type hdef
    exact (hrange _).mpr ⟨t, ht, hindex.symm⟩
  · obtain ⟨t, ht, rfl, hindex⟩ := hfind type hdef
    obtain ⟨t', ht', rfl, hindex'⟩ := hfind type' hdef'
    rw [eq_of_key hnodup ht ht' (by rw [← hindex, ← hindex', heq])]
  · obtain ⟨t, ht, rfl⟩ := (hrange i).mp hi
    have hdef : ∃ d ∈ allDefs threads, d.type = t.type := by
      obtain ⟨item, hitem, hkey⟩ := h.parts.used t ht
      obtain ⟨d, hdef, hdtype⟩ := Option.map_eq_some_iff.mp hkey
      exact ⟨d, mem_allDefs.mpr ⟨item, hitem, hdef⟩, hdtype⟩
    obtain ⟨t', ht', htype, hindex⟩ := hfind t.type hdef
    rw [eq_of_key h.parts.nodup ht' ht htype] at hindex
    exact ⟨t.type, hdef, hindex⟩

/-- The order of the threads does not matter: the scan fails if and only if a definition is
malformed or two of them conflict, the table is the union of the definitions, and the mark
types have the indices from zero on. -/
theorem mark_types_union (threads threads' : List JsonObject) (hperm : threads.Perm threads') :
    ((∃ m, scanThreads threads = .ok m) ↔ ∃ m', scanThreads threads' = .ok m') ∧
    ((∃ m, scanThreads threads = .ok m) ↔
      (∀ item ∈ allMarks threads, (markDef item).isSome) ∧ Consistent (allDefs threads)) ∧
    ∀ m, scanThreads threads = .ok m →
      (∀ m', scanThreads threads' = .ok m' → markMap m' = markMap m) ∧
      IsUnion (allDefs threads) (markMap m) ∧
      Set.BijOn (markIndex m) {type | ∃ d ∈ allDefs threads, d.type = type}
        (Set.Iio m.ntypes) := by
  have hmarks : (allMarks threads).Perm (allMarks threads') := hperm.flatMap_right _
  have hdefs : ∀ d, d ∈ allDefs threads' ↔ d ∈ allDefs threads := fun d =>
    (hmarks.filterMap markDef).mem_iff.symm
  refine ⟨?_, scanThreads_ok_iff, fun m hscan => ⟨fun m' hscan' => ?_, ?_, ?_⟩⟩
  · rw [scanThreads_ok_iff, scanThreads_ok_iff]
    unfold Consistent
    simp only [hdefs, hmarks.mem_iff]
  · exact (scanThreads_kept hscan').union.unique (scanThreads_kept hscan).union hdefs
  · exact (scanThreads_kept hscan).union
  · exact (scanThreads_kept hscan).bijOn

end

/-- The metadata of a thread with these marks. -/
def withMarks (marks : JsonObject) : JsonObject :=
  [(ascii "ovni", .object [(ascii "mark", .object marks)])]

/-- A mark of a single channel with these labels. -/
def singleMark (labels : JsonObject) : JsonValue :=
  .object [(ascii "title", .string (ascii "phase")), (ascii "chan_type", .string (ascii "single")),
    (ascii "labels", .object labels)]

/-- A thread that defines the type 7 with the label of the value 1. -/
def firstThread : JsonObject :=
  withMarks [(ascii "7", singleMark [(ascii "1", .string (ascii "a"))])]

/-- A thread that defines the same type, the same label and others. -/
def secondThread : JsonObject :=
  withMarks [(ascii "3", singleMark []),
    (ascii "07", singleMark [(ascii "01", .string (ascii "a")), (ascii "2", .string (ascii "b"))])]

theorem mark_types_swapped :
    ∃ m m', scanThreads [firstThread, secondThread] = .ok m ∧
      scanThreads [secondThread, firstThread] = .ok m' ∧ m.ntypes = 2 ∧
      markIndex m 7 = 0 ∧ markIndex m' 7 = 1 ∧ markMap m' = markMap m := by
  have hunion := mark_types_union [firstThread, secondThread] [secondThread, firstThread]
    (List.Perm.swap _ _ _)
  have hfirst : scanThreads [firstThread, secondThread] =
      .ok { types := [
              { type := 7, prvtype := 107, index := 0, ctype := .single, title := ascii "phase",
                labels := [⟨1, ascii "a"⟩, ⟨2, ascii "b"⟩] },
              { type := 3, prvtype := 103, index := 1, ctype := .single, title := ascii "phase",
                labels := [] }],
            ntypes := 2 } := rfl
  have hsecond : scanThreads [secondThread, firstThread] =
      .ok { types := [
              { type := 3, prvtype := 103, index := 0, ctype := .single, title := ascii "phase",
                labels := [] },
              { type := 7, prvtype := 107, index := 1, ctype := .single, title := ascii "phase",
                labels := [⟨1, ascii "a"⟩, ⟨2, ascii "b"⟩] }],
            ntypes := 2 } := rfl
  exact ⟨_, _, hfirst, hsecond, rfl, rfl, rfl, (hunion.2.2 _ hfirst).1 _ hsecond⟩

end Ovni
