import Ovni.Lib.Reads
import Ovni.Player.EmuEv
import Ovni.Task.Events
import Ovni.Task.Types

/-!
# What the type events read

The handlers of the type events, `pre_type` of nOS-V, Nanos6 and OpenMP, copy the type
from the start of the jumbo data and take what follows as a string.  They do not look at
the size of the data: a type of less than four bytes, or a label without its nul, is
read from the bytes that come after the event.
-/

namespace Ovni

open Ovni.Lib

/-! ## The handlers -/

/-- `task_type_create` up to the new type, with what it reads of the label. -/
def taskTypeCreateReads (types : List TaskType) (typeId : UInt32) (m : Span) (label : Nat) :
    Reads EmuFault TaskType := do
  if (types.find? fun type => type.id = typeId).isSome then
    throw (.fail "a task type with that id already exists")
  if typeId = 0 then throw (.fail "invalid task type id")
  let label ← readString .crash m label
  let label := taskTypeLabel typeId label
  if maxPcfLabel ≤ label.length then throw (.fail "task type label too long")
  return { id := typeId, gid := taskGetTypeGid label, label }

/-- `pre_type` on the types of a process, where the memory has `mapped` bytes from the
payload on. -/
def preTypeReads (types : List TaskType) (mapped : Nat) (ev : EmuEv) :
    Reads EmuFault TaskType := do
  if ev.v ≠ 0x63 then throw (.fail "unexpected event value")
  if ev.isJumbo = false then throw (.fail "expecting a jumbo event")
  match ev.payload with
  | none => throw .crash
  | some payload => do
      let data ← readBytes .crash ⟨payload, mapped⟩ 4 4
      taskTypeCreateReads types (UInt32.ofNat (leNat data)) ⟨payload, mapped⟩ 8

namespace Nosv

/-- `pre_type` of `emu/nosv/event.c`. -/
def preTypeReads : List TaskType → Nat → EmuEv → Reads EmuFault TaskType := Ovni.preTypeReads

end Nosv

namespace Nanos6

/-- `pre_type` of `emu/nanos6/event.c`. -/
def preTypeReads : List TaskType → Nat → EmuEv → Reads EmuFault TaskType := Ovni.preTypeReads

end Nanos6

namespace Openmp

/-- `pre_type` of `emu/openmp/event.c`. -/
def preTypeReads : List TaskType → Nat → EmuEv → Reads EmuFault TaskType := Ovni.preTypeReads

end Openmp

/-- The handlers of `VYc`, `6Yc` and `POc`. -/
def typeHandlers : List (List TaskType → Nat → EmuEv → Reads EmuFault TaskType) :=
  [Nosv.preTypeReads, Nanos6.preTypeReads, Openmp.preTypeReads]

/-! ## What is asked of them -/

/-- The bytes of the jumbo data of an event, by their offsets in the payload. -/
def JumboData (oev : OvniEv) (mapped i : Nat) : Prop :=
  oev.isJumbo = true ∧ 4 ≤ i ∧ i < 4 + oev.jumboSize ∧ i < mapped

/-- The call fails and says why. -/
def Rejects (call : Reads EmuFault TaskType) : Prop :=
  Ensures call [] fun r _ => ∃ msg, r = .error (.fail msg)

/-- The call comes to its end with nothing read but the jumbo data. -/
def ReadsJumbo (oev : OvniEv) (mapped : Nat) (call : Reads EmuFault TaskType) : Prop :=
  Ensures call [] fun r reads => r ≠ .error .crash ∧ ∀ i ∈ reads, JumboData oev mapped i

/-- The type of a type event. -/
def typeIdAt (payload : Nat → UInt8) : UInt32 :=
  UInt32.ofNat (leNat ((List.range' 4 4).map payload))

/-- The types for which `task_type_create` does not look at the label. -/
def TypeRefused (types : List TaskType) (typeId : UInt32) : Prop :=
  typeId = 0 ∨ ∃ type ∈ types, type.id = typeId

/-! ## The calls -/

section

variable {types : List TaskType} {typeId : UInt32} {m : Span} {label : Nat} {log : List Nat}
  {post : Except EmuFault TaskType → List Nat → Prop}

theorem typeRefused_iff : TypeRefused types typeId ↔
    (types.find? fun type => type.id = typeId).isSome = true ∨ typeId = 0 := by
  unfold TypeRefused
  rw [List.find?_isSome, or_comm]
  simp only [decide_eq_true_eq]

theorem ensures_create_refused (m : Span) (label : Nat) (log : List Nat)
    (h : TypeRefused types typeId) :
    ∃ msg, ∀ {post : Except EmuFault TaskType → List Nat → Prop},
      Ensures (taskTypeCreateReads types typeId m label) log post ↔
        post (.error (.fail msg)) log := by
  by_cases hfind : (types.find? fun type => type.id = typeId).isSome = true
  · refine ⟨"a task type with that id already exists", fun {post} => ?_⟩
    simp only [taskTypeCreateReads, hfind, if_true, ensures_bind, ensures_throw, next_error]
  · have hzero : typeId = 0 := (typeRefused_iff.mp h).resolve_left hfind
    refine ⟨"invalid task type id", fun {post} => ?_⟩
    rw [hzero] at hfind ⊢
    simp only [taskTypeCreateReads, hfind, if_false, if_true, Bool.false_eq_true, ensures_bind,
      ensures_throw, next_error]

/-- The type that a label makes. -/
def newTaskType (typeId : UInt32) (label : List UInt8) : Except EmuFault TaskType :=
  let label := taskTypeLabel typeId label
  if maxPcfLabel ≤ label.length then .error (.fail "task type label too long")
  else .ok { id := typeId, gid := taskGetTypeGid label, label }

theorem ensures_create_string (h : ¬ TypeRefused types typeId) {s : List UInt8}
    (hs : m.StringAt label s) :
    Ensures (taskTypeCreateReads types typeId m label) log post ↔
      post (newTaskType typeId s) (log ++ List.range' label (s.length + 1)) := by
  rw [typeRefused_iff, not_or, Bool.not_eq_true] at h
  simp only [taskTypeCreateReads, h.1, h.2, if_false, Bool.false_eq_true, ensures_bind]
  rw [ensures_readString hs, newTaskType]
  by_cases hlen : maxPcfLabel ≤ (taskTypeLabel typeId s).length
  · simp only [hlen, if_true, next_ok, ensures_bind, ensures_throw, next_error]
  · simp only [hlen, if_false, next_ok, ensures_pure]

theorem ensures_create_none (h : ¬ TypeRefused types typeId)
    (hnone : ∀ j, label ≤ j → j < m.size → m.byte j ≠ 0) :
    Ensures (taskTypeCreateReads types typeId m label) log post ↔
      post (.error .crash) (log ++ List.range' label (m.size - label)) := by
  rw [typeRefused_iff, not_or, Bool.not_eq_true] at h
  simp only [taskTypeCreateReads, h.1, h.2, if_false, Bool.false_eq_true, ensures_bind]
  rw [ensures_readString_none hnone, next_error]

/-- A call that looks at the type: the four bytes, and then what `task_type_create` does. -/
theorem ensures_preTypeReads {mapped : Nat} {ev : EmuEv} {payload : Nat → UInt8}
    (hv : ev.v = 0x63) (hjumbo : ev.isJumbo = true) (hpayload : ev.payload = some payload) :
    Ensures (preTypeReads types mapped ev) [] post ↔
      if 8 ≤ mapped then
        Ensures (taskTypeCreateReads types (typeIdAt payload) ⟨payload, mapped⟩ 8)
          (List.range' 4 4) post
      else post (.error .crash) (List.range' 4 (mapped - 4)) := by
  simp only [preTypeReads, hv, hjumbo, hpayload, ne_eq, not_true, if_false, Bool.true_eq_false,
    ensures_bind]
  rw [ensures_readBytes]
  by_cases hmapped : 8 ≤ mapped
  · rw [if_pos (.inr hmapped), if_pos hmapped, next_ok]
    rfl
  · rw [if_neg (by simp only; omega), if_neg hmapped, next_error]
    rfl

end

/-! ## The handlers and the tasks -/

/-- A type event as it is decoded from an event with a payload. -/
structure DecodesType (tev : TaskEvent) (ev : EmuEv) (payload : Nat → UInt8) (mapped : Nat) :
    Prop where
  v : tev.v = 'c' ↔ ev.v = 0x63
  isJumbo : tev.isJumbo = ev.isJumbo
  pointer : ev.payload = some payload
  whole : 8 ≤ mapped
  typeId : tev.typeId = typeIdAt payload
  label : (Span.mk payload mapped).StringAt 8 tev.label

/-- The tasks with one more type of a process. -/
def Tasks.addType {σ ι : Type} [DecidableEq ι] (s : Tasks σ ι) (proc : ι) (type : TaskType) :
    Tasks σ ι :=
  { s with
    info := Function.update s.info proc
      { s.info proc with types := (s.info proc).types ++ [type] } }

theorem runTask_eq {θ π : Type} {call : TaskM θ π Unit} {s : Tasks θ π}
    {r : Except EmuFault (Tasks θ π)}
    (h : Ensures call s fun a s' => a.map (fun _ => s') = r) : runTask call s = r := by
  unfold Ensures at h
  rw [← h, runTask]
  cases call.run.run s with
  | mk a s' => cases a <;> rfl

/-- The handler does to the tasks what it finds by its reads. -/
theorem preTypeReads_preType {θ π : Type} [DecidableEq π] {th : TaskThread θ π}
    {s : Tasks θ π} {tev : TaskEvent} {ev : EmuEv} {payload : Nat → UInt8} {mapped : Nat}
    (h : DecodesType tev ev payload mapped) :
    Ensures (preTypeReads (s.info th.proc).types mapped ev) [] fun r _ =>
      runTask (preType th tev) s = r.map fun type => s.addType th.proc type := by
  by_cases hv : ev.v = 0x63
  · by_cases hjumbo : ev.isJumbo = true
    · rw [ensures_preTypeReads hv hjumbo h.pointer, if_pos h.whole, ← h.typeId]
      have hevent : ∀ {r}, Ensures (taskTypeCreate th.proc tev.typeId tev.label) s
          (fun a s' => a.map (fun _ => s') = r) → runTask (preType th tev) s = r := by
        intro r hr
        apply runTask_eq
        simp only [preType, h.v.mpr hv, h.isJumbo, hjumbo, ne_eq, not_true, if_false,
          Bool.true_eq_false]
        exact hr
      by_cases hfind : ((s.info th.proc).types.find? fun type => type.id = tev.typeId).isSome
      · simp only [taskTypeCreateReads, hfind, if_true, ensures_bind, ensures_throw, next_error]
        apply hevent
        simp only [taskTypeCreate, taskTypeFind, hfind, if_true, ensures_bind, ensures_get,
          ensures_throw, next_ok, next_error]
        rfl
      · by_cases hzero : tev.typeId = 0
        · rw [hzero] at hfind hevent ⊢
          simp only [taskTypeCreateReads, hfind, if_true, if_false, Bool.false_eq_true,
            ensures_bind, ensures_throw, next_error]
          apply hevent
          simp only [taskTypeCreate, taskTypeFind, hfind, if_true, if_false, Bool.false_eq_true,
            ensures_bind, ensures_get, ensures_throw, next_ok, next_error]
          rfl
        · have hrefused : ¬ TypeRefused (s.info th.proc).types tev.typeId := by
            rw [typeRefused_iff, not_or]
            exact ⟨hfind, hzero⟩
          rw [ensures_create_string hrefused h.label]
          apply hevent
          by_cases hlen : maxPcfLabel ≤ (taskTypeLabel tev.typeId tev.label).length
          · simp only [taskTypeCreate, taskTypeFind, hfind, hzero, hlen, if_true, if_false,
              Bool.false_eq_true, ensures_bind, ensures_get, ensures_throw, next_ok, next_error,
              newTaskType]
            rfl
          · simp only [taskTypeCreate, taskTypeFind, hfind, hzero, hlen, if_false,
              Bool.false_eq_true, ensures_bind, ensures_get, ensures_modify, next_ok,
              newTaskType]
            rfl
    · simp only [preTypeReads, hv, hjumbo, ne_eq, not_true, if_false, if_true, ensures_bind,
        ensures_throw, next_error]
      apply runTask_eq
      simp only [preType, h.v.mpr hv, h.isJumbo, hjumbo, ne_eq, not_true, if_false, if_true,
        ensures_bind, ensures_throw, next_error]
      rfl
  · simp only [preTypeReads, hv, ne_eq, not_false_eq_true, if_true, ensures_bind,
      ensures_throw, next_error]
    apply runTask_eq
    simp only [preType, h.v, hv, ne_eq, not_false_eq_true, if_true, ensures_bind, ensures_throw,
      next_error]
    rfl

/-! ## What they read -/

/-- The events that the handlers turn down before they look at the type. -/
def NotTyped (ev : EmuEv) : Prop := ev.v ≠ 0x63 ∨ ev.isJumbo = false

/-- The type and, when it is looked at, the label with its nul are in the jumbo data. -/
structure TypeInData (oev : OvniEv) (mapped : Nat) (types : List TaskType) : Prop where
  typeId : ∀ i, 4 ≤ i → i < 8 → JumboData oev mapped i
  label : ¬ TypeRefused types (typeIdAt oev.payload) →
    ∃ j, 8 ≤ j ∧ JumboData oev mapped j ∧ oev.payload j = 0

/-- The type is one that is refused, or the label is too long. -/
def TypeTurnedDown (oev : OvniEv) (mapped : Nat) (types : List TaskType) : Prop :=
  8 ≤ mapped ∧ (TypeRefused types (typeIdAt oev.payload) ∨
    ∃ s, (Span.mk oev.payload mapped).StringAt 8 s ∧
      maxPcfLabel ≤ (taskTypeLabel (typeIdAt oev.payload) s).length)

section

variable {types : List TaskType} {mapped : Nat} {ev : EmuEv} {oev : OvniEv}

theorem preType_notTyped (types : List TaskType) (mapped : Nat) (oev : OvniEv) (h : NotTyped ev) :
    Rejects (preTypeReads types mapped ev) ∧
      ReadsJumbo oev mapped (preTypeReads types mapped ev) := by
  unfold Rejects ReadsJumbo
  by_cases hv : ev.v = 0x63
  · have hjumbo : ev.isJumbo = false := h.resolve_left (by simp [hv])
    simp only [preTypeReads, hv, hjumbo, ne_eq, not_true, if_false, if_true, ensures_bind,
      ensures_throw, next_error]
    simp
  · simp only [preTypeReads, hv, ne_eq, not_false_eq_true, if_true, ensures_bind, ensures_throw,
      next_error]
    simp

theorem JumboData.below {i j : Nat} (h : JumboData oev mapped j) (hi : 4 ≤ i) (hij : i ≤ j) :
    JumboData oev mapped i :=
  ⟨h.1, hi, by have := h.2.2.1; omega, by have := h.2.2.2; omega⟩

theorem newTaskType_fault {typeId : UInt32} {s : List UInt8} :
    newTaskType typeId s ≠ .error .crash := by
  by_cases hlen : maxPcfLabel ≤ (taskTypeLabel typeId s).length
  · simp [newTaskType, hlen]
  · simp [newTaskType, hlen]

theorem newTaskType_fail {typeId : UInt32} {s : List UInt8} :
    (∃ msg, newTaskType typeId s = .error (.fail msg)) ↔
      maxPcfLabel ≤ (taskTypeLabel typeId s).length := by
  by_cases hlen : maxPcfLabel ≤ (taskTypeLabel typeId s).length
  · simp [newTaskType, hlen]
  · simp [newTaskType, hlen]

/-- The four ways in which a call ends that looks at the type. -/
theorem typed_cases {post : Except EmuFault TaskType → List Nat → Prop} {P : Prop}
    (hv : ev.v = 0x63) (hjumbo : ev.isJumbo = true) (hpayload : ev.payload = some oev.payload)
    (short : mapped < 8 → (post (.error .crash) (List.range' 4 (mapped - 4)) ↔ P))
    (refused : 8 ≤ mapped → TypeRefused types (typeIdAt oev.payload) →
      ∀ msg, (post (.error (.fail msg)) (List.range' 4 4) ↔ P))
    (string : 8 ≤ mapped → ¬ TypeRefused types (typeIdAt oev.payload) →
      ∀ s, (Span.mk oev.payload mapped).StringAt 8 s →
        (post (newTaskType (typeIdAt oev.payload) s)
          (List.range' 4 4 ++ List.range' 8 (s.length + 1)) ↔ P))
    (endless : 8 ≤ mapped → ¬ TypeRefused types (typeIdAt oev.payload) →
      (∀ j, 8 ≤ j → j < mapped → oev.payload j ≠ 0) →
        (post (.error .crash) (List.range' 4 4 ++ List.range' 8 (mapped - 8)) ↔ P)) :
    Ensures (preTypeReads types mapped ev) [] post ↔ P := by
  rw [ensures_preTypeReads hv hjumbo hpayload]
  by_cases hmapped : 8 ≤ mapped
  · rw [if_pos hmapped]
    by_cases hrefused : TypeRefused types (typeIdAt oev.payload)
    · obtain ⟨msg, hcreate⟩ := ensures_create_refused ⟨oev.payload, mapped⟩ 8 (List.range' 4 4)
        hrefused
      rw [hcreate]
      exact refused hmapped hrefused msg
    · obtain ⟨s, hs⟩ | hnone := (Span.mk oev.payload mapped).stringAt_or 8
      · rw [ensures_create_string hrefused hs]
        exact string hmapped hrefused s hs
      · rw [ensures_create_none hrefused hnone]
        exact endless hmapped hrefused hnone
  · rw [if_neg hmapped]
    exact short (by omega)

theorem readsJumbo_typed (hv : ev.v = 0x63) (hjumbo : ev.isJumbo = true)
    (hpayload : ev.payload = some oev.payload) :
    ReadsJumbo oev mapped (preTypeReads types mapped ev) ↔ TypeInData oev mapped types := by
  apply typed_cases hv hjumbo hpayload
  case short =>
    intro hmapped
    constructor
    · rintro ⟨hcrash, -⟩
      exact absurd rfl hcrash
    · intro h
      have hlast := (h.typeId 7 (by omega) (by omega)).2.2.2
      omega
  case refused =>
    intro _ hrefused msg
    constructor
    · rintro ⟨-, hreads⟩
      refine ⟨fun i hlo hhi => hreads i ?_, fun h => absurd hrefused h⟩
      exact List.mem_range'_1.mpr ⟨hlo, hhi⟩
    · intro h
      refine ⟨by simp, fun i hi => ?_⟩
      obtain ⟨hlo, hhi⟩ := List.mem_range'_1.mp hi
      exact h.typeId i hlo hhi
  case string =>
    intro _ hrefused s hs
    constructor
    · rintro ⟨-, hreads⟩
      refine ⟨fun i hlo hhi => hreads i ?_, fun _ => ⟨8 + s.length, by omega, ?_, hs.nul.2⟩⟩
      · exact List.mem_append_left _ (List.mem_range'_1.mpr ⟨hlo, hhi⟩)
      · exact hreads _ (List.mem_append_right _ (List.mem_range'_1.mpr ⟨by omega, by omega⟩))
    · intro h
      obtain ⟨j, hj, hdata, hnul⟩ := h.label hrefused
      obtain ⟨t, ht, hlen⟩ := Span.exists_stringAt (m := ⟨oev.payload, mapped⟩) hj
        hdata.2.2.2 hnul
      rw [← hs.unique ht] at hlen
      refine ⟨newTaskType_fault, fun i hi => ?_⟩
      rcases List.mem_append.mp hi with hi | hi
      · obtain ⟨hlo, hhi⟩ := List.mem_range'_1.mp hi
        exact h.typeId i hlo hhi
      · obtain ⟨hlo, hhi⟩ := List.mem_range'_1.mp hi
        exact hdata.below (by omega) (by omega)
  case endless =>
    intro _ hrefused hnone
    constructor
    · rintro ⟨hcrash, -⟩
      exact absurd rfl hcrash
    · intro h
      obtain ⟨j, hj, hdata, hnul⟩ := h.label hrefused
      exact absurd hnul (hnone j hj hdata.2.2.2)

theorem rejects_typed (hv : ev.v = 0x63) (hjumbo : ev.isJumbo = true)
    (hpayload : ev.payload = some oev.payload) :
    Rejects (preTypeReads types mapped ev) ↔ TypeTurnedDown oev mapped types := by
  apply typed_cases hv hjumbo hpayload
  case short =>
    intro hmapped
    constructor
    · rintro ⟨msg, h⟩
      cases h
    · intro h
      exact absurd h.1 (by omega)
  case refused =>
    intro hmapped hrefused msg
    exact ⟨fun _ => ⟨hmapped, .inl hrefused⟩, fun _ => ⟨msg, rfl⟩⟩
  case string =>
    intro hmapped hrefused s hs
    rw [newTaskType_fail]
    constructor
    · exact fun hlen => ⟨hmapped, .inr ⟨s, hs, hlen⟩⟩
    · rintro ⟨-, h | ⟨t, ht, hlen⟩⟩
      · exact absurd h hrefused
      · rw [hs.unique ht]
        exact hlen
  case endless =>
    intro _ hrefused hnone
    constructor
    · rintro ⟨msg, h⟩
      cases h
    · rintro ⟨-, h | ⟨t, ht, -⟩⟩
      · exact absurd h hrefused
      · exact absurd ht.nul.2 (hnone _ (by omega) ht.nul.1)

end

/-- An event with the jumbo mark has its payload. -/
theorem emuEv_payload {ev : EmuEv} {oev : OvniEv} {sclock dclock : Int}
    (h : (emuEv ev oev sclock dclock).isJumbo = true) :
    (emuEv ev oev sclock dclock).payload = some oev.payload := by
  rw [emuEv_isJumbo] at h
  have hsize : 0 < toSize (ovniPayloadSize oev) := by
    have := (Bool.and_eq_true_iff.mp h).1
    simp only [ne_eq, decide_eq_true_eq] at this
    omega
  unfold emuEv
  simp only [hsize, if_true]

theorem mem_typeHandlers {preType : List TaskType → Nat → EmuEv → Reads EmuFault TaskType} :
    preType ∈ typeHandlers ↔ preType = preTypeReads := by
  simp only [typeHandlers, Nosv.preTypeReads, Nanos6.preTypeReads, Openmp.preTypeReads,
    List.mem_cons, List.not_mem_nil, or_false, or_self]

/-- The handlers keep to the jumbo data of an event exactly when they turn it down before
they look at its type, or the type and the nul of the label are in the data. -/
theorem type_handlers_read_iff (ev : EmuEv) (oev : OvniEv) (sclock dclock : Int) (mapped : Nat)
    (types : List TaskType) :
    ∀ preType ∈ typeHandlers,
      let call := preType types mapped (emuEv ev oev sclock dclock)
      (ReadsJumbo oev mapped call ↔
        NotTyped (emuEv ev oev sclock dclock) ∨ TypeInData oev mapped types) ∧
      (Rejects call ∨ ReadsJumbo oev mapped call ↔
        NotTyped (emuEv ev oev sclock dclock) ∨ TypeInData oev mapped types ∨
          TypeTurnedDown oev mapped types) := by
  intro preType hpre
  rw [mem_typeHandlers.mp hpre]
  intro call
  by_cases hnot : NotTyped (emuEv ev oev sclock dclock)
  · obtain ⟨hrejects, hreads⟩ := preType_notTyped types mapped oev hnot
    exact ⟨iff_of_true hreads (.inl hnot), iff_of_true (.inl hrejects) (.inl hnot)⟩
  · have htyped := hnot
    unfold NotTyped at htyped
    rw [not_or, not_not, Bool.not_eq_false] at htyped
    have hpayload := emuEv_payload htyped.2
    have hreads : ReadsJumbo oev mapped call ↔ TypeInData oev mapped types :=
      readsJumbo_typed htyped.1 htyped.2 hpayload
    have hrejects : Rejects call ↔ TypeTurnedDown oev mapped types :=
      rejects_typed htyped.1 htyped.2 hpayload
    rw [hreads, hrejects, or_iff_right hnot, or_iff_right hnot]
    exact ⟨Iff.rfl, or_comm⟩

/-- A stream of a thread that runs on a CPU and then has a type event of five bytes, the type
and a letter, before an event whose first byte is zero. -/
def typeOverrunFile : List UInt8 :=
  ovniStreamMagic ++ [1, 0, 0, 0] ++
    ([0x0f, 0x4f, 0x48, 0x78] ++ leBytes 8 99 ++ leBytes 4 0 ++ leBytes 4 21 ++ leBytes 8 0) ++
    ([0x10, 0x56, 0x59, 0x63] ++ leBytes 8 100 ++ leBytes 4 5 ++ [7, 0, 0, 0, 0x61]) ++
    ([0x00, 0x4f, 0x48, 0x65] ++ leBytes 8 101)

/-- That stream before its first step. -/
def typeOverrunStream : Stream := Stream.fresh (Mem.patch (fun _ => 0) 0 typeOverrunFile) 69

/-- The type event of that stream. -/
def typeOverrunOvniEv : OvniEv := evAt typeOverrunStream.buf 36

/-- The event of `emu_ev` for the type event, after the one for the execute event. -/
def typeOverrunEv : EmuEv :=
  emuEv (emuEv EmuEv.zero (evAt typeOverrunStream.buf 8) 0 0) typeOverrunOvniEv 0 0

theorem typeOverrun_typed : typeOverrunEv.v = 0x63 ∧ typeOverrunEv.isJumbo = true := by
  decide +kernel

theorem typeOverrun_fails : ¬ TypeInData typeOverrunOvniEv 21 [] ∧
    ¬ TypeTurnedDown typeOverrunOvniEv 21 [] := by
  have hid : typeIdAt typeOverrunOvniEv.payload = 7 := by decide +kernel
  have hrefused : ¬ TypeRefused [] (7 : UInt32) := by simp [TypeRefused]
  have hstring : (Span.mk typeOverrunOvniEv.payload 21).StringAt 8 [0x61] :=
    ⟨by decide, by decide +kernel, by decide, by decide, by decide +kernel⟩
  constructor
  · intro hdata
    obtain ⟨j, hj, ⟨-, -, hlt, -⟩, hnul⟩ := hdata.label (by rw [hid]; exact hrefused)
    have hsize : typeOverrunOvniEv.jumboSize = 5 := by decide +kernel
    obtain rfl : j = 8 := by omega
    exact absurd (hstring.2.1.symm.trans hnul) (by decide)
  · rintro ⟨-, hdown⟩
    rw [hid] at hdown
    obtain hid | ⟨s, hs, hlen⟩ := hdown
    · exact hrefused hid
    · rw [hs.unique hstring] at hlen
      exact absurd hlen (by decide)

/-- The nul of the label is then the first byte of the next event. -/
theorem type_handlers_overrun :
    loadObs typeOverrunFile (fun _ => 0) = .ok typeOverrunStream ∧
      ∃ (s s' : Stream) (execute oev : OvniEv),
        streamStep typeOverrunStream = .ok s ∧ streamEv s = some execute ∧
        streamStep s = .ok s' ∧ streamEv s' = some oev ∧
        typeOverrunEv = emuEv (emuEv EmuEv.zero execute 0 0) oev 0 0 ∧
        ∀ preType ∈ typeHandlers,
          ¬ (Rejects (preType [] 21 typeOverrunEv) ∨
            ReadsJumbo oev 21 (preType [] 21 typeOverrunEv)) := by
  have hfirst : streamStep typeOverrunStream = .ok typeOverrunStream.stepped :=
    streamStep_stepped rfl nofun (by decide +kernel) (by decide +kernel)
  have hsecond : streamStep typeOverrunStream.stepped = .ok typeOverrunStream.stepped.stepped :=
    streamStep_stepped rfl (fun _ => by decide +kernel) (by decide +kernel) (by decide +kernel)
  have hoffset : typeOverrunStream.stepped.nextOffset = 36 := by decide +kernel
  have hev : streamEv typeOverrunStream.stepped.stepped = some typeOverrunOvniEv :=
    congrArg (fun p => some (evAt typeOverrunStream.buf p)) hoffset
  refine ⟨rfl, _, _, _, _, hfirst, rfl, hsecond, hev, rfl, ?_⟩
  intro preType hpre
  obtain ⟨hv, hjumbo⟩ := typeOverrun_typed
  have hpayload := emuEv_payload hjumbo
  rw [mem_typeHandlers.mp hpre, rejects_typed hv hjumbo hpayload,
    readsJumbo_typed hv hjumbo hpayload, not_or]
  exact typeOverrun_fails.symm

/-- The handler of nOS-V leaves the jumbo data of that event. -/
theorem type_handlers_read_iff_overrun :
    ¬ ReadsJumbo typeOverrunOvniEv 21 (Nosv.preTypeReads [] 21 typeOverrunEv) := by
  have hiff := (type_handlers_read_iff (emuEv EmuEv.zero (evAt typeOverrunStream.buf 8) 0 0)
    typeOverrunOvniEv 0 0 21 [] Nosv.preTypeReads List.mem_cons_self).1
  rw [typeOverrunEv, hiff, not_or]
  refine ⟨?_, typeOverrun_fails.1⟩
  rintro (hv | hjumbo)
  · exact hv typeOverrun_typed.1
  · exact Bool.false_ne_true (hjumbo.symm.trans typeOverrun_typed.2)

end Ovni
