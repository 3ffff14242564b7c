import Ovni.Runtime.Attributes

/-!
# Defining marks at run time

`ovni_mark_type` and `ovni_mark_label` of `rt/ovni.c` write the definitions of the marks
into the metadata of the thread, at names built from the type and the value of the mark.
A label that was given cannot be given again, with the same text either, and a text that is
not UTF-8 cannot be given at all.
-/

namespace Ovni

open Ovni.Lib

variable {ν : Type}

/-! ## rt/ovni.c -/

/-- `snprintf` of a key into its buffer. -/
def formatKey (msg : String) (key : Name) : Except Fault Name := do
  if 128 ≤ key.length then throw (.die msg)
  return key

def typeKey (type : Int) : Name := ascii "ovni.mark." ++ itoa type.toNat

def titleKey (type : Int) : Name := typeKey type ++ ascii ".title"

def chanTypeKey (type : Int) : Name := typeKey type ++ ascii ".chan_type"

def labelKey (type value : Int) : Name := typeKey type ++ ascii ".labels." ++ itoa value.toNat

/-- The name of the channel type; `OVNI_MARK_STACK` is the lowest bit of the flags. -/
def chanTypeName (flags : Int) : Name :=
  if flags % 2 ≠ 0 then ascii "stack" else ascii "single"

/-- `ovni_mark_type`.  A null title is as an empty one. -/
def ovniMarkType (th : ThreadAttrs ν) (type flags : Int) (title : Name) :
    Except Fault (ThreadAttrs ν) := do
  if type < 0 ∨ type ≥ 100 then throw (.die "type must be in [0,100) range")
  if title = [] then throw (.die "bad title")
  let obj ← th.getThreadMetadata
  let key ← formatKey "type key too long" (typeKey type)
  if (dotgetValue obj key).isSome then throw (.die "type already defined")
  let key ← formatKey "title key too long" (titleKey type)
  let obj ← orDie "json_object_dotset_string() failed for title" (dotsetString obj key title)
  let key ← formatKey "chan_type key too long" (chanTypeKey type)
  let obj ← orDie "json_object_dotset_string() failed for chan_type"
    (dotsetString obj key (chanTypeName flags))
  return { th with obj }

/-- `ovni_mark_label`.  A null label is as an empty one. -/
def ovniMarkLabel (th : ThreadAttrs ν) (type value : Int) (label : Name) :
    Except Fault (ThreadAttrs ν) := do
  if type < 0 ∨ type ≥ 100 then throw (.die "type must be in [0,100) range")
  if value ≤ 0 then throw (.die "value must be >0")
  if label = [] then throw (.die "bad label")
  let obj ← th.getThreadMetadata
  let key ← formatKey "type key too long" (typeKey type)
  if (dotgetValue obj key).isNone then throw (.die "type not defined")
  let key ← formatKey "value key too long" (labelKey type value)
  if (dotgetValue obj key).isSome then throw (.die "label already defined")
  let obj ← orDie "json_object_dotset_string() failed" (dotsetString obj key label)
  return { th with obj }

/-! ## Sequences of calls -/

/-- A call that defines a mark. -/
inductive MarkCall where
  | markType (type flags : Int) (title : Name)
  | markLabel (type value : Int) (label : Name)
  deriving DecidableEq

def MarkCall.run (th : ThreadAttrs ν) : MarkCall → Except Fault (ThreadAttrs ν)
  | .markType type flags title => ovniMarkType th type flags title
  | .markLabel type value label => ovniMarkLabel th type value label

def runMarkCalls (calls : List MarkCall) (th : ThreadAttrs ν) : Except Fault (ThreadAttrs ν) :=
  calls.foldlM MarkCall.run th

/-- The arguments of a call are valid; the value is an `int64_t`. -/
def MarkCall.Valid : MarkCall → Prop
  | .markType type _ title => 0 ≤ type ∧ type < 100 ∧ title ≠ []
  | .markLabel type value label => 0 ≤ type ∧ type < 100 ∧ 0 < value ∧ value < 2 ^ 63 ∧ label ≠ []

/-- The text that a call stores. -/
def MarkCall.text : MarkCall → Name
  | .markType _ _ title => title
  | .markLabel _ _ label => label

def MarkCall.definedType : MarkCall → Option Int
  | .markType type _ _ => some type
  | .markLabel _ _ _ => none

def MarkCall.labelledValue : MarkCall → Option (Int × Int)
  | .markType _ _ _ => none
  | .markLabel type value _ => some (type, value)

/-- Each type is defined once and before its labels, and each value has a single label,
which can be given more than once. -/
structure ValidCalls (calls : List MarkCall) : Prop where
  args : ∀ c ∈ calls, c.Valid
  once : (calls.filterMap MarkCall.definedType).Nodup
  before : ∀ done type value label rest, calls = done ++ .markLabel type value label :: rest →
    type ∈ done.filterMap MarkCall.definedType
  single : ∀ type value label label', .markLabel type value label ∈ calls →
    .markLabel type value label' ∈ calls → label = label'

/-- The thread is live and no marks were defined in it. -/
structure NoMarks (th : ThreadAttrs ν) : Prop where
  ready : th.ready = true
  live : th.finished = false
  ovni : ∀ v, jsonShape.getAt th.obj [ascii "ovni"] = some v → ∃ object, v = .object object
  mark : jsonShape.getAt th.obj [ascii "ovni", ascii "mark"] = none

/-! ## The names -/

def typePath (type : Nat) : List Name := [ascii "ovni", ascii "mark", itoa type]

def titlePath (type : Nat) : List Name := [ascii "ovni", ascii "mark", itoa type, ascii "title"]

def chanTypePath (type : Nat) : List Name :=
  [ascii "ovni", ascii "mark", itoa type, ascii "chan_type"]

def labelsPath (type : Nat) : List Name := [ascii "ovni", ascii "mark", itoa type, ascii "labels"]

def labelPath (type value : Nat) : List Name :=
  [ascii "ovni", ascii "mark", itoa type, ascii "labels", itoa value]

theorem dot_not_mem_itoa (n : Nat) : 46 ∉ itoa n := by
  intro h
  exact absurd (itoa_digit h) (by decide)

theorem dotPath_typeKey (type : Nat) : dotPath (typeKey type) = typePath type := by
  have hkey : typeKey type = ascii "ovni" ++ 46 :: (ascii "mark" ++ 46 :: itoa type) := by
    simp only [typeKey, Int.toNat_natCast]
    rfl
  rw [hkey, dotPath_cons (by decide), dotPath_cons (by decide),
    dotPath_single (dot_not_mem_itoa type)]
  rfl

theorem dotPath_typeKey_dot (type : Nat) (rest : Name) :
    dotPath (typeKey type ++ 46 :: rest) = typePath type ++ dotPath rest := by
  have hkey : typeKey type ++ 46 :: rest =
      ascii "ovni" ++ 46 :: (ascii "mark" ++ 46 :: (itoa type ++ 46 :: rest)) := by
    simp only [typeKey, Int.toNat_natCast, List.append_assoc]
    rfl
  rw [hkey, dotPath_cons (by decide), dotPath_cons (by decide),
    dotPath_cons (dot_not_mem_itoa type)]
  rfl

theorem dotPath_titleKey (type : Nat) : dotPath (titleKey type) = titlePath type := by
  have hkey : titleKey type = typeKey type ++ 46 :: ascii "title" := rfl
  rw [hkey, dotPath_typeKey_dot, dotPath_single (by decide)]
  rfl

theorem dotPath_chanTypeKey (type : Nat) : dotPath (chanTypeKey type) = chanTypePath type := by
  have hkey : chanTypeKey type = typeKey type ++ 46 :: ascii "chan_type" := rfl
  rw [hkey, dotPath_typeKey_dot, dotPath_single (by decide)]
  rfl

theorem dotPath_labelKey (type value : Nat) :
    dotPath (labelKey type value) = labelPath type value := by
  have hkey : labelKey type value =
      typeKey type ++ 46 :: (ascii "labels" ++ 46 :: itoa value) := by
    simp only [labelKey, Int.toNat_natCast, List.append_assoc]
    rfl
  rw [hkey, dotPath_typeKey_dot, dotPath_cons (by decide),
    dotPath_single (dot_not_mem_itoa value)]
  rfl

/-- The keys fit in their buffer. -/
theorem key_fits {type value : Nat} (htype : type < 100) (hvalue : value < 2 ^ 63) :
    (typeKey type).length < 128 ∧ (titleKey type).length < 128 ∧
      (chanTypeKey type).length < 128 ∧ (labelKey type value).length < 128 := by
  have hdigits : (itoa type).length ≤ 2 := itoa_length (by decide) (by omega)
  have hdigits' : (itoa value).length ≤ 19 := itoa_length (by decide) (by omega)
  have hone : (ascii "ovni.mark.").length = 10 := rfl
  have htwo : (ascii ".title").length = 6 := rfl
  have hthree : (ascii ".chan_type").length = 10 := rfl
  have hfour : (ascii ".labels.").length = 8 := rfl
  simp only [titleKey, chanTypeKey, labelKey, typeKey, List.length_append, Int.toNat_natCast]
  omega

/-! ## What the calls write -/

/-- The metadata after some calls. -/
structure Marked (calls : List MarkCall) (obj : JsonFields ν) : Prop where
  ovni : ∀ v, jsonShape.getAt obj [ascii "ovni"] = some v → ∃ object, v = .object object
  mark : ∀ v, jsonShape.getAt obj [ascii "ovni", ascii "mark"] = some v →
    ∃ object, v = .object object
  undefined : ∀ type : Nat, (∀ flags title, .markType type flags title ∉ calls) →
    jsonShape.getAt obj (typePath type) = none
  defined : ∀ (type : Nat) flags title, .markType type flags title ∈ calls →
    ∃ object, jsonShape.getAt obj (typePath type) = some (.object object)
  title : ∀ (type : Nat) flags title, .markType type flags title ∈ calls →
    jsonShape.getAt obj (titlePath type) = some (.string title)
  chanType : ∀ (type : Nat) flags title, .markType type flags title ∈ calls →
    jsonShape.getAt obj (chanTypePath type) = some (.string (chanTypeName flags))
  labels : ∀ (type : Nat) v, jsonShape.getAt obj (labelsPath type) = some v →
    ∃ object, v = .object object
  unlabelled : ∀ type value : Nat, (∀ label, .markLabel type value label ∉ calls) →
    jsonShape.getAt obj (labelPath type value) = none
  label : ∀ (type value : Nat) label, .markLabel type value label ∈ calls →
    jsonShape.getAt obj (labelPath type value) = some (.string label)

section

variable {calls : List MarkCall} {th th' : ThreadAttrs ν} {obj obj' : JsonFields ν}
variable {type value : Nat} {flags : Int} {title label : Name}

theorem diverge_types {type' : Nat} (h : type ≠ type') (p q : List Name) :
    Diverge (typePath type ++ p) (typePath type' ++ q) := by
  have hne : itoa type ≠ itoa type' := fun heq => h (itoa_inj heq)
  simp only [typePath, List.cons_append, diverge_cons]
  exact Or.inr (Or.inr (Or.inl hne))

theorem diverge_fields {a b : Name} (h : a ≠ b) (type type' : Nat) (p q : List Name) :
    Diverge (typePath type ++ a :: p) (typePath type' ++ b :: q) := by
  by_cases htype : type = type'
  · rw [htype, diverge_append, diverge_cons]
    exact Or.inl h
  · exact diverge_types htype _ _

theorem diverge_labels {type' value' : Nat} (h : ¬ (type = type' ∧ value = value')) :
    Diverge (labelPath type value) (labelPath type' value') := by
  by_cases htype : type = type'
  · subst htype
    have hne : itoa value ≠ itoa value' := fun heq => h ⟨rfl, itoa_inj heq⟩
    apply (diverge_append (labelsPath type)).mpr
    exact diverge_cons.mpr (Or.inl hne)
  · exact diverge_types htype [ascii "labels", itoa value] [ascii "labels", itoa value']

theorem NoMarks.marked (h : NoMarks th) : Marked [] th.obj := by
  have hnone : ∀ q, [ascii "ovni", ascii "mark"] <+: q → jsonShape.getAt th.obj q = none :=
    fun q hq => Shape.getAt_none_of_prefix (by simp) hq h.mark
  have hunder : ∀ type q, jsonShape.getAt th.obj (typePath type ++ q) = none :=
    fun type q => hnone _ ⟨itoa type :: q, rfl⟩
  refine ⟨h.ovni, ?_, fun type _ => hunder type [], by simp, by simp, by simp, ?_,
    fun type value _ => hunder type [ascii "labels", itoa value], by simp⟩
  · intro v hv
    rw [h.mark] at hv
    cases hv
  · intro type v hv
    cases (hunder type [ascii "labels"]).symm.trans hv

/-- What is found on the way to a label is an object. -/
theorem Marked.way (h : Marked calls obj) {q : List Name} {v : Json ν}
    (hq : q ≠ []) (hqp : q <+: labelPath type value) (hne : q ≠ labelPath type value)
    (hget : jsonShape.getAt obj q = some v) : ∃ object, v = .object object := by
  simp only [labelPath, List.prefix_cons_iff, List.prefix_nil] at hqp
  obtain rfl | ⟨_, rfl, rfl | ⟨_, rfl, rfl | ⟨_, rfl, rfl | ⟨_, rfl, rfl | ⟨_, rfl, rfl⟩⟩⟩⟩⟩ := hqp
  · exact absurd rfl hq
  · exact h.ovni v hget
  · exact h.mark v hget
  · by_cases hdefined : ∃ flags title, MarkCall.markType type flags title ∈ calls
    · obtain ⟨flags, title, hmem⟩ := hdefined
      obtain ⟨object, hobject⟩ := h.defined type flags title hmem
      exact ⟨object, Option.some.inj (hget.symm.trans hobject)⟩
    · have hnone := h.undefined type fun flags title hmem => hdefined ⟨flags, title, hmem⟩
      cases hnone.symm.trans hget
  · exact h.labels type v hget
  · exact absurd rfl hne

theorem Marked.set_label (h : Marked calls obj) :
    ∃ obj', jsonShape.setAt obj (labelPath type value) (.string label) = some obj' :=
  Shape.setAt_isSome (by simp [labelPath]) fun _ _ hq hqp hne hget => h.way hq hqp hne hget

/-- The names on the way to a field of a type. -/
theorem prefix_field {a : Name} {q : List Name} (hqp : q <+: typePath type ++ [a])
    (hne : q ≠ typePath type ++ [a]) : q <+: typePath type := by
  obtain ⟨rest, hrest⟩ := hqp
  obtain rfl | ⟨rest, b, rfl⟩ := rest.eq_nil_or_concat
  · rw [List.append_nil] at hrest
    exact absurd hrest hne
  · rw [List.concat_eq_append, ← List.append_assoc] at hrest
    exact ⟨rest, (List.append_inj_left' hrest rfl)⟩

/-- The title of a type can be set. -/
theorem Marked.set_title (h : Marked calls obj) :
    ∃ obj', jsonShape.setAt obj (titlePath type) (.string title) = some obj' := by
  apply Shape.setAt_isSome (by simp [titlePath])
  intro q v hq hqp hne hget
  have hway : q <+: typePath type := prefix_field hqp hne
  have hlabel : typePath type <+: labelPath type 0 := ⟨[ascii "labels", itoa 0], rfl⟩
  refine h.way hq (hway.trans hlabel) ?_ hget
  rintro rfl
  exact absurd hway.length_le (by simp [typePath, labelPath])

/-- The channel type of a type can be set after its title. -/
theorem set_chanType
    (hset : jsonShape.setAt obj (titlePath type) (.string title) = some obj') :
    ∃ metadata₂, jsonShape.setAt obj' (chanTypePath type) (.string (chanTypeName flags)) =
      some metadata₂ := by
  apply Shape.setAt_isSome (by simp [chanTypePath])
  intro q v hq hqp hne hget
  have hway : q <+: typePath type := prefix_field hqp hne
  have hnot : q ≠ titlePath type := by
    rintro rfl
    exact absurd hway.length_le (by simp [typePath, titlePath])
  exact Shape.wrap_of_setAt hset hq (hway.trans ⟨[ascii "title"], rfl⟩) hnot hget

theorem mem_append_type {type' : Nat} {flags' : Int} {title' : Name}
    (h : .markType type' flags' title' ∈ calls ++ [.markType type flags title]) :
    .markType type' flags' title' ∈ calls ∨ type' = type ∧ flags' = flags ∧ title' = title := by
  simpa only [List.mem_append, List.mem_singleton, MarkCall.markType.injEq, Int.natCast_inj] using h

/-- The metadata after a type is defined. -/
theorem Marked.markType {metadata₂ : JsonFields ν} (h : Marked calls obj)
    (hnew : ∀ flags title, .markType type flags title ∉ calls)
    (htitle : jsonShape.setAt obj (titlePath type) (.string title) = some obj')
    (hchan : jsonShape.setAt obj' (chanTypePath type) (.string (chanTypeName flags)) =
      some metadata₂) : Marked (calls ++ [.markType type flags title]) metadata₂ := by
  have hkept : ∀ q, Diverge (titlePath type) q → Diverge (chanTypePath type) q →
      jsonShape.getAt metadata₂ q = jsonShape.getAt obj q := by
    intro q hq hq'
    rw [Shape.getAt_setAt_of_diverge hchan hq', Shape.getAt_setAt_of_diverge htitle hq]
  have hother : ∀ type' q, type ≠ type' →
      jsonShape.getAt metadata₂ (typePath type' ++ q) = jsonShape.getAt obj (typePath type' ++ q) :=
    fun type' q hne => hkept _ (diverge_types hne [ascii "title"] q)
      (diverge_types hne [ascii "chan_type"] q)
  have hlabels : ∀ type' q, jsonShape.getAt metadata₂ (typePath type' ++ ascii "labels" :: q) =
      jsonShape.getAt obj (typePath type' ++ ascii "labels" :: q) :=
    fun type' q => hkept _ (diverge_fields (by decide) type type' [] q)
      (diverge_fields (by decide) type type' [] q)
  have hold : ∀ (type' : Nat) flags' title', .markType type' flags' title' ∈ calls →
      type ≠ type' := by
    rintro type' flags' title' hmem rfl
    exact hnew flags' title' hmem
  constructor
  case ovni =>
    intro v hv
    exact Shape.wrap_of_setAt hchan (by simp) (by simp [chanTypePath]) (by simp [chanTypePath]) hv
  case mark =>
    intro v hv
    exact Shape.wrap_of_setAt hchan (by simp) (by simp [chanTypePath]) (by simp [chanTypePath]) hv
  case undefined =>
    intro type' hundef
    have hne : type ≠ type' := by
      rintro rfl
      exact hundef flags title (by simp)
    refine (hother type' [] hne).trans (h.undefined type' fun flags' title' hmem => ?_)
    exact hundef flags' title' (List.mem_append_left _ hmem)
  case defined =>
    intro type' flags' title' hmem
    rcases mem_append_type hmem with hmem | ⟨rfl, rfl, rfl⟩
    · obtain ⟨object, hobj⟩ := h.defined type' flags' title' hmem
      exact ⟨object, (hother type' [] (hold type' flags' title' hmem)).trans hobj⟩
    · exact Shape.getAt_setAt_prefix hchan (by simp [typePath]) ⟨[ascii "chan_type"], rfl⟩
        (by simp [typePath, chanTypePath])
  case title =>
    intro type' flags' title' hmem
    rcases mem_append_type hmem with hmem | ⟨rfl, rfl, rfl⟩
    · exact (hother type' [ascii "title"] (hold type' flags' title' hmem)).trans
        (h.title type' flags' title' hmem)
    · have hapart : Diverge (chanTypePath type') (titlePath type') :=
        diverge_fields (by decide) type' type' [] []
      exact (Shape.getAt_setAt_of_diverge hchan hapart).trans (Shape.getAt_setAt htitle)
  case chanType =>
    intro type' flags' title' hmem
    rcases mem_append_type hmem with hmem | ⟨rfl, rfl, rfl⟩
    · exact (hother type' [ascii "chan_type"] (hold type' flags' title' hmem)).trans
        (h.chanType type' flags' title' hmem)
    · exact Shape.getAt_setAt hchan
  case labels =>
    intro type' v hv
    exact h.labels type' v ((hlabels type' []).symm.trans hv)
  case unlabelled =>
    intro type' value hno
    refine (hlabels type' [itoa value]).trans (h.unlabelled type' value fun label hmem => ?_)
    exact hno label (List.mem_append_left _ hmem)
  case label =>
    intro type' value label hmem
    refine (hlabels type' [itoa value]).trans (h.label type' value label ?_)
    simpa using hmem

theorem mem_append_label {type' value' : Nat} {label' : Name}
    (h : .markLabel type' value' label' ∈ calls ++ [.markLabel type value label]) :
    .markLabel type' value' label' ∈ calls ∨ type' = type ∧ value' = value ∧ label' = label := by
  simpa only [List.mem_append, List.mem_singleton, MarkCall.markLabel.injEq, Int.natCast_inj]
    using h

/-- The metadata after a value is given a label. -/
theorem Marked.markLabel (h : Marked calls obj)
    (hdefined : ∃ flags title, .markType type flags title ∈ calls)
    (hset : jsonShape.setAt obj (labelPath type value) (.string label) = some obj')
    (hnew : ∀ label', .markLabel type value label' ∉ calls) :
    Marked (calls ++ [.markLabel type value label]) obj' := by
  have hother : ∀ type' q, type ≠ type' →
      jsonShape.getAt obj' (typePath type' ++ q) = jsonShape.getAt obj (typePath type' ++ q) :=
    fun type' q hne => Shape.getAt_setAt_of_diverge hset
      (diverge_types hne [ascii "labels", itoa value] q)
  have hfields : ∀ type' a, ascii "labels" ≠ a →
      jsonShape.getAt obj' (typePath type' ++ [a]) = jsonShape.getAt obj (typePath type' ++ [a]) :=
    fun type' a hne => Shape.getAt_setAt_of_diverge hset
      (diverge_fields hne type type' [itoa value] [])
  have hlabels : ∀ type' value', ¬ (type = type' ∧ value = value') →
      jsonShape.getAt obj' (labelPath type' value') =
        jsonShape.getAt obj (labelPath type' value') :=
    fun type' value' hne => Shape.getAt_setAt_of_diverge hset (diverge_labels hne)
  constructor
  case ovni =>
    intro v hv
    exact Shape.wrap_of_setAt hset (by simp) (by simp [labelPath]) (by simp [labelPath]) hv
  case mark =>
    intro v hv
    exact Shape.wrap_of_setAt hset (by simp) (by simp [labelPath]) (by simp [labelPath]) hv
  case undefined =>
    intro type' hundef
    have hne : type ≠ type' := by
      rintro rfl
      obtain ⟨flags, title, hmem⟩ := hdefined
      exact hundef flags title (List.mem_append_left _ hmem)
    refine (hother type' [] hne).trans (h.undefined type' fun flags' title' hmem => ?_)
    exact hundef flags' title' (List.mem_append_left _ hmem)
  case defined =>
    intro type' flags' title' hmem
    by_cases hne : type = type'
    · subst hne
      exact Shape.getAt_setAt_prefix hset (by simp [typePath]) ⟨[ascii "labels", itoa value], rfl⟩
        (by simp [typePath, labelPath])
    · obtain ⟨object, hobj⟩ := h.defined type' flags' title' (by simpa using hmem)
      exact ⟨object, (hother type' [] hne).trans hobj⟩
  case title =>
    intro type' flags' title' hmem
    exact (hfields type' (ascii "title") (by decide)).trans
      (h.title type' flags' title' (by simpa using hmem))
  case chanType =>
    intro type' flags' title' hmem
    exact (hfields type' (ascii "chan_type") (by decide)).trans
      (h.chanType type' flags' title' (by simpa using hmem))
  case labels =>
    intro type' v hv
    by_cases hne : type = type'
    · subst hne
      exact Shape.wrap_of_setAt hset (by simp [labelsPath]) ⟨[itoa value], rfl⟩
        (by simp [labelsPath, labelPath]) hv
    · exact h.labels type' v ((hother type' [ascii "labels"] hne).symm.trans hv)
  case unlabelled =>
    intro type' value' hno
    rw [hlabels type' value']
    · exact h.unlabelled type' value' fun label' hmem => hno label' (List.mem_append_left _ hmem)
    · rintro ⟨rfl, rfl⟩
      exact hno label (by simp)
  case label =>
    intro type' value' label' hmem
    rcases mem_append_label hmem with hmem | ⟨rfl, rfl, rfl⟩
    · rw [hlabels type' value']
      · exact h.label type' value' label' hmem
      · rintro ⟨rfl, rfl⟩
        exact hnew label' hmem
    · exact Shape.getAt_setAt hset

/-! ## The calls -/

/-- A live thread after some calls. -/
structure Live (calls : List MarkCall) (th : ThreadAttrs ν) : Prop where
  ready : th.ready = true
  finished : th.finished = false
  marked : Marked calls th.obj

theorem Live.get (h : Live calls th) : th.getThreadMetadata = .ok th.obj := by
  unfold ThreadAttrs.getThreadMetadata
  rw [h.finished, h.ready]
  rfl

theorem formatKey_ok {msg : String} {key : Name} (h : key.length < 128) :
    formatKey msg key = .ok key :=
  if_neg (Nat.not_le_of_lt h)

theorem orDie_some {α : Type} (msg : String) (a : α) : orDie msg (some a) = .ok a := rfl

theorem dotsetString_path {key s : Name} (h : isValidUtf8 s = true) :
    dotsetString obj key s = jsonShape.setAt obj (dotPath key) (.string s) :=
  if_pos h

theorem chanTypeName_valid (flags : Int) : isValidUtf8 (chanTypeName flags) = true := by
  unfold chanTypeName
  split
  · decide
  · decide

theorem ovniMarkType_ok (h : Live calls th) (htype : type < 100) (htitle : title ≠ [])
    (hutf8 : isValidUtf8 title = true)
    (hnew : ∀ flags title, .markType type flags title ∉ calls) :
    ∃ th', ovniMarkType th type flags title = .ok th' ∧
      Live (calls ++ [.markType type flags title]) th' := by
  have htitled : ∃ o, jsonShape.setAt th.obj (titlePath type) (.string title) = some o :=
    h.marked.set_title
  obtain ⟨obj₁, hset₁⟩ := htitled
  have hchan : ∃ o, jsonShape.setAt obj₁ (chanTypePath type)
      (.string (chanTypeName flags)) = some o := set_chanType hset₁
  obtain ⟨obj₂, hset₂⟩ := hchan
  refine ⟨{ th with obj := obj₂ }, ?_, h.ready, h.finished, h.marked.markType hnew hset₁ hset₂⟩
  obtain ⟨hfit, hfit₁, hfit₂, -⟩ := key_fits htype (by decide : 0 < 2 ^ 63)
  have hrange : ¬ ((type : Int) < 0 ∨ (type : Int) ≥ 100) := by omega
  have hget : dotgetValue th.obj (typeKey type) = none := by
    rw [dotgetValue, dotPath_typeKey]
    exact h.marked.undefined type hnew
  have hstring₁ : dotsetString th.obj (titleKey type) title = some obj₁ := by
    rw [dotsetString_path hutf8, dotPath_titleKey]
    exact hset₁
  have hstring₂ : dotsetString obj₁ (chanTypeKey type) (chanTypeName flags) = some obj₂ := by
    rw [dotsetString_path (chanTypeName_valid flags), dotPath_chanTypeKey]
    exact hset₂
  unfold ovniMarkType
  simp only [if_neg hrange, if_neg htitle, h.get, formatKey_ok hfit, formatKey_ok hfit₁,
    formatKey_ok hfit₂, hget, hstring₁, hstring₂, orDie_some, ok_bind, Option.isSome_none,
    Bool.false_eq_true, if_false]
  rfl

theorem ovniMarkLabel_ok (h : Live calls th) (htype : type < 100) (hpos : 0 < value)
    (hvalue : value < 2 ^ 63) (hlabel : label ≠ []) (hutf8 : isValidUtf8 label = true)
    (hdefined : ∃ flags title, .markType type flags title ∈ calls)
    (hnew : ∀ label', .markLabel type value label' ∉ calls) :
    ∃ th', ovniMarkLabel th type value label = .ok th' ∧
      Live (calls ++ [.markLabel type value label]) th' := by
  have hlabelled : ∃ o, jsonShape.setAt th.obj (labelPath type value) (.string label) = some o :=
    h.marked.set_label
  obtain ⟨obj, hset⟩ := hlabelled
  refine ⟨{ th with obj }, ?_, h.ready, h.finished, h.marked.markLabel hdefined hset hnew⟩
  obtain ⟨hfit, -, -, hfit₁⟩ := key_fits htype hvalue
  have hrange : ¬ ((type : Int) < 0 ∨ (type : Int) ≥ 100) := by omega
  have hnonpos : ¬ (value : Int) ≤ 0 := by omega
  have hget : (dotgetValue th.obj (typeKey type)).isNone = false := by
    obtain ⟨flags, title, hmem⟩ := hdefined
    obtain ⟨object, hobject⟩ := h.marked.defined type flags title hmem
    rw [dotgetValue, dotPath_typeKey, hobject]
    rfl
  have hget' : dotgetValue th.obj (labelKey type value) = none := by
    rw [dotgetValue, dotPath_labelKey]
    exact h.marked.unlabelled type value hnew
  have hstring : dotsetString th.obj (labelKey type value) label = some obj := by
    rw [dotsetString_path hutf8, dotPath_labelKey]
    exact hset
  unfold ovniMarkLabel
  simp only [if_neg hrange, if_neg hnonpos, if_neg hlabel, h.get, formatKey_ok hfit,
    formatKey_ok hfit₁, hget, hget', hstring, orDie_some, ok_bind, Option.isSome_none,
    Bool.false_eq_true, if_false]
  rfl

/-- A type is not defined with a title that is not UTF-8. -/
theorem ovniMarkType_utf8 {type : Int} (hok : ovniMarkType th type flags title = .ok th') :
    isValidUtf8 title = true := by
  unfold ovniMarkType at hok
  obtain ⟨-, hok⟩ := guard_ok hok
  obtain ⟨-, hok⟩ := guard_ok hok
  obtain ⟨_, -, hok⟩ := bind_ok hok
  obtain ⟨_, -, hok⟩ := bind_ok hok
  obtain ⟨-, hok⟩ := guard_ok hok
  obtain ⟨_, -, hok⟩ := bind_ok hok
  obtain ⟨_, hset, -⟩ := bind_ok hok
  exact (dotsetString_some (orDie_ok hset)).1

/-- A value that has a label cannot be given one, nor one that is not UTF-8. -/
theorem ovniMarkLabel_inv (h : Live calls th)
    (hok : ovniMarkLabel th type value label = .ok th') :
    isValidUtf8 label = true ∧ ∀ label', .markLabel type value label' ∉ calls := by
  unfold ovniMarkLabel at hok
  obtain ⟨-, hok⟩ := guard_ok hok
  obtain ⟨-, hok⟩ := guard_ok hok
  obtain ⟨-, hok⟩ := guard_ok hok
  obtain ⟨obj, hobj, hok⟩ := bind_ok hok
  obtain ⟨_, -, hok⟩ := bind_ok hok
  obtain ⟨-, hok⟩ := guard_ok hok
  obtain ⟨key, hkey, hok⟩ := bind_ok hok
  obtain ⟨hnone, hok⟩ := guard_ok hok
  obtain ⟨_, hset, -⟩ := bind_ok hok
  refine ⟨(dotsetString_some (orDie_ok hset)).1, fun label' hmem => ?_⟩
  rw [h.get] at hobj
  cases hobj
  obtain ⟨-, hkey⟩ := guard_ok hkey
  cases hkey
  rw [dotgetValue, dotPath_labelKey, h.marked.label type value label' hmem] at hnone
  exact hnone rfl

end

/-! ## Runs -/

/-- The metadata has the title and the channel type of each type and the labels. -/
structure MarksMapped (calls : List MarkCall) (obj : JsonFields ν) : Prop where
  title : ∀ type flags title, .markType type flags title ∈ calls →
    dotgetValue obj (titleKey type) = some (.string title)
  chanType : ∀ type flags title, .markType type flags title ∈ calls →
    dotgetValue obj (chanTypeKey type) = some (.string (chanTypeName flags))
  label : ∀ type value label, .markLabel type value label ∈ calls →
    dotgetValue obj (labelKey type value) = some (.string label)

/-- What is expected of a sequence of calls: none of them aborts, a label given again changes
nothing, and the metadata has all that was defined. -/
structure CallsDefine (calls : List MarkCall) (th : ThreadAttrs ν) : Prop where
  ok : ∃ th', runMarkCalls calls th = .ok th' ∧ MarksMapped calls th'.obj
  again : ∀ done type value label rest, calls = done ++ .markLabel type value label :: rest →
    .markLabel type value label ∈ done →
    runMarkCalls (done ++ [.markLabel type value label]) th = runMarkCalls done th

section

variable {calls : List MarkCall} {th th' : ThreadAttrs ν}

theorem mem_definedType {type : Int} : type ∈ calls.filterMap MarkCall.definedType ↔
    ∃ flags title, .markType type flags title ∈ calls := by
  rw [List.mem_filterMap]
  constructor
  · rintro ⟨c, hc, heq⟩
    cases c with
    | markType type' flags title =>
        cases heq
        exact ⟨flags, title, hc⟩
    | markLabel type' value label => cases heq
  · rintro ⟨flags, title, hmem⟩
    exact ⟨_, hmem, rfl⟩

theorem mem_labelledValue {type value : Int} :
    (type, value) ∈ calls.filterMap MarkCall.labelledValue ↔
      ∃ label, .markLabel type value label ∈ calls := by
  rw [List.mem_filterMap]
  constructor
  · rintro ⟨c, hc, heq⟩
    cases c with
    | markType type' flags title => cases heq
    | markLabel type' value' label =>
        cases heq
        exact ⟨label, hc⟩
  · rintro ⟨label, hmem⟩
    exact ⟨_, hmem, rfl⟩

/-- What a call needs after some others: its text is UTF-8 and it does not give a label again. -/
structure MarkCall.Accepted (done : List MarkCall) (c : MarkCall) : Prop where
  utf8 : isValidUtf8 c.text = true
  fresh : ∀ type value, c.labelledValue = some (type, value) →
    (type, value) ∉ done.filterMap MarkCall.labelledValue

theorem ValidCalls.step {done rest : List MarkCall} {c : MarkCall}
    (hvalid : ValidCalls (done ++ c :: rest)) (hlive : Live done th) (hc : c.Accepted done) :
    ∃ th', c.run th = .ok th' ∧ Live (done ++ [c]) th' := by
  have hargs := hvalid.args c (by simp)
  cases c with
  | markType type flags title =>
      obtain ⟨hnonneg, hlt, htitle⟩ := hargs
      obtain ⟨t, rfl⟩ := Int.eq_ofNat_of_zero_le hnonneg
      apply ovniMarkType_ok hlive (by omega) htitle hc.utf8
      intro flags' title' hmem
      have honce := hvalid.once
      rw [List.filterMap_append, List.nodup_append] at honce
      have hdone : (t : Int) ∈ done.filterMap MarkCall.definedType :=
        mem_definedType.mpr ⟨flags', title', hmem⟩
      exact honce.2.2 _ hdone _ (mem_definedType.mpr ⟨flags, title, List.mem_cons_self⟩) rfl
  | markLabel type value label =>
      obtain ⟨hnonneg, hlt, hpos, hvalue, hlabel⟩ := hargs
      obtain ⟨t, rfl⟩ := Int.eq_ofNat_of_zero_le hnonneg
      obtain ⟨n, rfl⟩ := Int.eq_ofNat_of_zero_le hpos.le
      have hdefined := mem_definedType.mp (hvalid.before done t n label rest rfl)
      apply ovniMarkLabel_ok hlive (by omega) (by omega) (by omega) hlabel hc.utf8 hdefined
      intro label' hmem
      exact hc.fresh t n rfl (mem_labelledValue.mpr ⟨label', hmem⟩)

/-- A call that needs something else aborts. -/
theorem ValidCalls.step_inv {done rest : List MarkCall} {c : MarkCall}
    (hvalid : ValidCalls (done ++ c :: rest)) (hlive : Live done th)
    (hok : c.run th = .ok th') : c.Accepted done := by
  have hargs := hvalid.args c (by simp)
  cases c with
  | markType type flags title =>
      refine ⟨ovniMarkType_utf8 hok, fun type value hc => ?_⟩
      cases hc
  | markLabel type value label =>
      obtain ⟨hnonneg, -, hpos, -, -⟩ := hargs
      obtain ⟨t, rfl⟩ := Int.eq_ofNat_of_zero_le hnonneg
      obtain ⟨n, rfl⟩ := Int.eq_ofNat_of_zero_le hpos.le
      obtain ⟨hutf8, hnew⟩ := ovniMarkLabel_inv hlive hok
      refine ⟨hutf8, fun type value hc hold => ?_⟩
      cases hc
      obtain ⟨label', hmem⟩ := mem_labelledValue.mp hold
      exact hnew label' hmem

theorem nodup_labelledValue_append {done : List MarkCall} {c : MarkCall}
    (hdone : (done.filterMap MarkCall.labelledValue).Nodup) (hc : c.Accepted done) :
    ((done ++ [c]).filterMap MarkCall.labelledValue).Nodup := by
  rw [List.filterMap_append]
  cases hvalue : c.labelledValue with
  | none => simpa [hvalue] using hdone
  | some tv =>
      rw [List.filterMap_cons_some hvalue, List.filterMap_nil, ← List.concat_eq_append]
      exact List.Nodup.concat (hc.fresh tv.1 tv.2 hvalue) hdone

/-- What the sequence of calls needs: no label is given again, and every text is UTF-8. -/
def TakenCalls (calls : List MarkCall) : Prop :=
  (calls.filterMap MarkCall.labelledValue).Nodup ∧ ∀ c ∈ calls, isValidUtf8 c.text = true

theorem TakenCalls.accepted {done rest : List MarkCall} {c : MarkCall}
    (h : TakenCalls (done ++ c :: rest)) : c.Accepted done := by
  refine ⟨h.2 c (by simp), fun type value hvalue hold => ?_⟩
  have hnodup := h.1
  rw [List.filterMap_append, List.filterMap_cons_some hvalue, List.nodup_append] at hnodup
  exact hnodup.2.2 _ hold _ List.mem_cons_self rfl

/-- The calls run to the end when the sequence has what it needs. -/
theorem ValidCalls.run {done rest : List MarkCall} (hvalid : ValidCalls (done ++ rest))
    (hlive : Live done th) (h : TakenCalls (done ++ rest)) :
    ∃ th', runMarkCalls rest th = .ok th' ∧ Live (done ++ rest) th' := by
  unfold runMarkCalls
  induction rest generalizing done th with
  | nil =>
      rw [List.append_nil]
      exact ⟨th, rfl, hlive⟩
  | cons c rest ih =>
      have happend : done ++ c :: rest = (done ++ [c]) ++ rest := by simp
      obtain ⟨th₁, hstep, hlive₁⟩ := hvalid.step hlive h.accepted
      rw [List.foldlM_cons, hstep, happend]
      exact ih (happend ▸ hvalid) hlive₁ (happend ▸ h)

/-- And only then. -/
theorem ValidCalls.run_inv {done rest : List MarkCall} (hvalid : ValidCalls (done ++ rest))
    (hlive : Live done th) (hdone : TakenCalls done) (hok : runMarkCalls rest th = .ok th') :
    TakenCalls (done ++ rest) := by
  unfold runMarkCalls at hok
  induction rest generalizing done th with
  | nil =>
      rw [List.append_nil]
      exact hdone
  | cons c rest ih =>
      have happend : done ++ c :: rest = (done ++ [c]) ++ rest := by simp
      rw [List.foldlM_cons] at hok
      obtain ⟨th₁, hstep, hok⟩ := bind_ok hok
      have hc : c.Accepted done := hvalid.step_inv hlive hstep
      obtain ⟨th₂, hstep₂, hlive₂⟩ := hvalid.step hlive hc
      rw [hstep] at hstep₂
      cases hstep₂
      rw [happend]
      refine ih (happend ▸ hvalid) hlive₂ ⟨nodup_labelledValue_append hdone.1 hc, ?_⟩ hok
      intro c' hc'
      rcases List.mem_append.mp hc' with hc' | hc'
      · exact hdone.2 c' hc'
      · rw [List.mem_singleton.mp hc']
        exact hc.utf8

theorem Live.mapped (h : Live calls th) (hargs : ∀ c ∈ calls, c.Valid) :
    MarksMapped calls th.obj where
  title := by
    intro type flags title hmem
    obtain ⟨hnonneg, -, -⟩ := hargs _ hmem
    obtain ⟨t, rfl⟩ := Int.eq_ofNat_of_zero_le hnonneg
    rw [dotgetValue, dotPath_titleKey]
    exact h.marked.title t flags title hmem
  chanType := by
    intro type flags title hmem
    obtain ⟨hnonneg, -, -⟩ := hargs _ hmem
    obtain ⟨t, rfl⟩ := Int.eq_ofNat_of_zero_le hnonneg
    rw [dotgetValue, dotPath_chanTypeKey]
    exact h.marked.chanType t flags title hmem
  label := by
    intro type value label hmem
    obtain ⟨hnonneg, -, hpos, -, -⟩ := hargs _ hmem
    obtain ⟨t, rfl⟩ := Int.eq_ofNat_of_zero_le hnonneg
    obtain ⟨n, rfl⟩ := Int.eq_ofNat_of_zero_le hpos.le
    rw [dotgetValue, dotPath_labelKey]
    exact h.marked.label t n label hmem

/-- Sequences of calls do what is expected of them if and only if no label is given again and
every text is UTF-8. -/
theorem mark_calls_iff (hvalid : ValidCalls calls) (hth : NoMarks th) :
    CallsDefine calls th ↔ (calls.filterMap MarkCall.labelledValue).Nodup ∧
      ∀ c ∈ calls, isValidUtf8 c.text = true := by
  have hlive : Live [] th := ⟨hth.ready, hth.live, hth.marked⟩
  have hnone : TakenCalls [] := ⟨List.nodup_nil, by simp⟩
  constructor
  · rintro ⟨⟨th', hok, -⟩, -⟩
    exact ValidCalls.run_inv (List.nil_append calls ▸ hvalid) hlive hnone hok
  · intro htaken
    obtain ⟨th', hok, hlive'⟩ :=
      ValidCalls.run (List.nil_append calls ▸ hvalid) hlive (List.nil_append calls ▸ htaken)
    refine ⟨⟨th', hok, hlive'.mapped hvalid.args⟩, ?_⟩
    · rintro done type value label rest rfl hmem
      have hdone : (type, value) ∈ done.filterMap MarkCall.labelledValue :=
        mem_labelledValue.mpr ⟨label, hmem⟩
      exact absurd hdone ((TakenCalls.accepted htaken).fresh type value rfl)

end

/-- A thread that defines a type and some labels of it. -/
def typeCalls (labels : List (Int × Name)) : List MarkCall :=
  .markType 3 0 [97] :: labels.map fun l => .markLabel 3 l.1 l.2

theorem typeCalls_valid {labels : List (Int × Name)}
    (hargs : ∀ l ∈ labels, 0 < l.1 ∧ l.1 < 2 ^ 63 ∧ l.2 ≠ [])
    (hsingle : ∀ l ∈ labels, ∀ l' ∈ labels, l.1 = l'.1 → l.2 = l'.2) :
    ValidCalls (typeCalls labels) where
  args := by
    intro c hc
    rcases List.mem_cons.mp hc with rfl | hc
    · exact ⟨by decide, by decide, by decide⟩
    · obtain ⟨l, hl, rfl⟩ := List.mem_map.mp hc
      exact ⟨by decide, by decide, hargs l hl⟩
  once := by
    have hnone : (labels.map fun l => MarkCall.markLabel 3 l.1 l.2).filterMap
        MarkCall.definedType = [] := by
      rw [List.filterMap_eq_nil_iff]
      intro c hc
      obtain ⟨l, -, rfl⟩ := List.mem_map.mp hc
      rfl
    have hfirst : (MarkCall.markType 3 0 [97]).definedType = some 3 := rfl
    rw [typeCalls, List.filterMap_cons_some hfirst, hnone]
    exact List.nodup_singleton _
  before := by
    intro done type value label rest heq
    cases done with
    | nil => cases heq
    | cons c done =>
        injection heq with hc hrest
        have hmem : MarkCall.markLabel type value label ∈
            labels.map fun l => MarkCall.markLabel 3 l.1 l.2 := by
          rw [hrest]
          simp
        obtain ⟨l, -, hl⟩ := List.mem_map.mp hmem
        injection hl with htype
        rw [← htype, ← hc]
        exact mem_definedType.mpr ⟨0, [97], List.mem_cons_self⟩
  single := by
    intro type value label label' hmem hmem'
    simp only [typeCalls, List.mem_cons, List.mem_map, reduceCtorEq, false_or,
      MarkCall.markLabel.injEq] at hmem hmem'
    obtain ⟨l, hl, -, hvalue, rfl⟩ := hmem
    obtain ⟨l', hl', -, hvalue', rfl⟩ := hmem'
    exact hsingle l hl l' hl' (hvalue.trans hvalue'.symm)

/-- A thread with no metadata. -/
def newThread : ThreadAttrs Int := { ready := true, finished := false, obj := [], file := none }

theorem newThread_noMarks : NoMarks newThread :=
  ⟨rfl, rfl, by rintro v ⟨⟩, rfl⟩

theorem mark_calls_iff_two : CallsDefine (typeCalls [(7, [98]), (8, [99])]) newThread :=
  (mark_calls_iff (typeCalls_valid (by decide) (by decide)) newThread_noMarks).mpr
    ⟨by decide, by decide⟩

/-- The same label given twice aborts the program. -/
theorem mark_label_again : ValidCalls (typeCalls [(7, [98]), (7, [98])]) ∧ NoMarks newThread ∧
    ¬ CallsDefine (typeCalls [(7, [98]), (7, [98])]) newThread := by
  have hvalid : ValidCalls (typeCalls [(7, [98]), (7, [98])]) :=
    typeCalls_valid (by decide) (by decide)
  have hlive : Live [] newThread := ⟨rfl, rfl, newThread_noMarks.marked⟩
  refine ⟨hvalid, newThread_noMarks, ?_⟩
  rintro ⟨⟨th', hok, -⟩, -⟩
  have htaken := ValidCalls.run_inv hvalid hlive ⟨List.nodup_nil, by simp⟩ hok
  exact absurd htaken.1 (by decide)

end Ovni
