import Ovni.Json.Objects
import Ovni.Json.RoundTrip
import Ovni.Lib.Except
import Ovni.Runtime.Process
import Ovni.Version.Model

/-!
# The metadata of a thread

The attributes of a thread are values in a JSON object under names with dots.  The runtime sets
its own when the thread is initialised and when it is freed, the user sets others in between,
and the object is written to `stream.json`.
-/

namespace Ovni

open Ovni.Lib

/-- `OVNI_METADATA_VERSION`. -/
def ovniMetadataVersion : Int := 3

/-- `OVNI_MODEL_VERSION`. -/
def ovniModelVersion : Name := ascii "1.1.0"

/-- What the build puts in the library: `OVNI_LIB_VERSION` and `OVNI_GIT_COMMIT`. -/
structure OvniLib where
  version : Name
  commit : Name

/-- The doubles with their casts from and to `int`, and the comparison with an `int`. -/
structure Numbers (ν : Type) extends Doubles ν where
  ofInt : Int → ν
  toInt : ν → Int
  eqInt : ν → Int → Bool

/-- The values of an `int`. -/
def IsInt (n : Int) : Prop := -2 ^ 31 ≤ n ∧ n < 2 ^ 31

/-- An `int` is a double. -/
structure Numbers.Documented {ν : Type} (d : Numbers ν) : Prop where
  doubles : d.toDoubles.Documented
  toInt_ofInt : ∀ n, IsInt n → d.toInt (d.ofInt n) = n
  eqInt_ofInt : ∀ n m, IsInt n → IsInt m → (d.eqInt (d.ofInt n) m = true ↔ n = m)

/-- The numbers without a fraction. -/
def intNumbers : Numbers Int :=
  { toDoubles := intDoubles, ofInt := id, toInt := id, eqInt := fun n m => n = m }

theorem intNumbers_documented : intNumbers.Documented where
  doubles := intDoubles_documented
  toInt_ofInt _ _ := rfl
  eqInt_ofInt _ _ _ _ := decide_eq_true_iff

/-- The value, or the end of the process with this message. -/
def orDie {α : Type} (msg : String) : Option α → Except Fault α
  | some a => .ok a
  | none => .error (.die msg)

/-- `struct ovni_rthread`, as far as the metadata goes, with the file `stream.json`. -/
structure ThreadAttrs (ν : Type) where
  ready : Bool
  finished : Bool
  obj : JsonFields ν
  file : Option Name

section

variable {ν : Type} (d : Numbers ν)

/-! ## The attributes of the runtime -/

/-- `thread_metadata_store`. -/
def threadMetadataStore (th : ThreadAttrs ν) : ThreadAttrs ν :=
  { th with file := some (jsonSerialize d.toDoubles true 0 (.object th.obj)) }

/-- `ovni_thread_require`. -/
def ovniThreadRequire (th : ThreadAttrs ν) (model version : Option Name) :
    Except Fault (ThreadAttrs ν) := do
  if th.ready = false then throw (.die "thread not initialized")
  let model ← orDie "model string is NULL" model
  if 32 ∈ model ∨ 46 ∈ model then throw (.die "malformed model name")
  if model.length ≤ 1 then throw (.die "model name must have more than 1 character")
  let version ← orDie "version string is NULL" version
  match versionParse (some version) fun _ => 0 with
  | .error _ => throw (.die "failed to parse provided version")
  | .ok _ => do
      let dotpath := ascii "ovni.require." ++ model
      if 128 ≤ dotpath.length then throw (.die "model name too long")
      let obj ← orDie "json_object_dotset_string failed" (dotsetString th.obj dotpath version)
      return { th with obj }

/-- `thread_metadata_populate`. -/
def threadMetadataPopulate (lib : OvniLib) (proc : Rproc) (tid : Int) (obj : JsonFields ν) :
    Except Fault (JsonFields ν) := do
  let obj ← orDie "json_object_dotset_string failed"
    (dotsetNumber obj (ascii "version") (d.ofInt ovniMetadataVersion))
  let obj ← orDie "json_object_dotset_string failed"
    (dotsetString obj (ascii "ovni.lib.version") lib.version)
  let obj ← orDie "json_object_dotset_string failed"
    (dotsetString obj (ascii "ovni.lib.commit") lib.commit)
  let obj ← orDie "json_object_dotset_string failed"
    (dotsetString obj (ascii "ovni.part") (ascii "thread"))
  let obj ← orDie "json_object_dotset_number failed"
    (dotsetNumber obj (ascii "ovni.tid") (d.ofInt tid))
  let obj ← orDie "json_object_dotset_number failed"
    (dotsetNumber obj (ascii "ovni.pid") (d.ofInt proc.pid))
  let obj ← orDie "json_object_dotset_string failed"
    (dotsetString obj (ascii "ovni.loom") proc.loom)
  orDie "json_object_dotset_number for ovni.app_id failed"
    (dotsetNumber obj (ascii "ovni.app_id") (d.ofInt proc.app))

/-- `thread_metadata_init`, and the rest of `ovni_thread_init`. -/
def threadMetadataInit (lib : OvniLib) (proc : Rproc) (tid : Int) :
    Except Fault (ThreadAttrs ν) := do
  let obj ← threadMetadataPopulate d lib proc tid []
  -- Store initial metadata on disk, to detect broken streams
  let th := threadMetadataStore d { ready := false, finished := false, obj, file := none }
  ovniThreadRequire { th with ready := true } (some (ascii "ovni")) (some ovniModelVersion)

/-- `set_thread_rank`. -/
def setThreadRank (obj : JsonFields ν) (rank nranks : Int) : Except Fault (JsonFields ν) := do
  let obj ← orDie "json_object_set_number for rank failed"
    (dotsetNumber obj (ascii "ovni.rank") (d.ofInt rank))
  orDie "json_object_set_number for nranks failed"
    (dotsetNumber obj (ascii "ovni.nranks") (d.ofInt nranks))

/-- One element of the array of `set_thread_cpus`. -/
def cpuJson (cpu : Int × Int) : Json ν :=
  .object [(ascii "index", .number (d.ofInt cpu.1)), (ascii "phyid", .number (d.ofInt cpu.2))]

/-- `set_thread_cpus`. -/
def setThreadCpus (obj : JsonFields ν) (cpus : List (Int × Int)) : Except Fault (JsonFields ν) :=
  orDie "json_object_dotset_value failed"
    (dotsetValue obj (ascii "ovni.loom_cpus") (.array (cpus.map (cpuJson d))))

/-- What `ovni_thread_free` does to the metadata of a thread with this rank and these CPUs. -/
def threadMetadataFree (rank : Option (Int × Int)) (cpus : List (Int × Int))
    (th : ThreadAttrs ν) : Except Fault (ThreadAttrs ν) := do
  if th.finished then throw (.die "thread already finished")
  if th.ready = false then throw (.die "thread not initialized")
  let obj ← rank.elim (.ok th.obj) fun rank => setThreadRank d th.obj rank.1 rank.2
  let obj ← (if cpus = [] then .ok obj else setThreadCpus d obj cpus)
  let obj ← orDie "json_object_dotset_string failed"
    (dotsetNumber obj (ascii "ovni.finished") (d.ofInt 1))
  return { threadMetadataStore d { th with obj } with finished := true, ready := false }

/-! ## The attributes of the user -/

/-- The calls of the user that set an attribute or store all of them.  A double that is not
finite is `none`. -/
inductive AttrCall (ν : Type) where
  | setDouble (key : Name) (num : Option ν)
  | setBoolean (key : Name) (value : Int)
  | setStr (key value : Name)
  | setJson (key json : Name)
  | require (model version : Option Name)
  | flush

/-- `get_thread_metadata`. -/
def ThreadAttrs.getThreadMetadata (th : ThreadAttrs ν) : Except Fault (JsonFields ν) := do
  if th.finished then throw (.die "thread already finished")
  if th.ready = false then throw (.die "thread not initialized")
  return th.obj

/-- `ovni_attr_set_double`. -/
def ovniAttrSetDouble (th : ThreadAttrs ν) (key : Name) (num : Option ν) :
    Except Fault (ThreadAttrs ν) := do
  let obj ← th.getThreadMetadata
  let obj ← orDie "json_object_dotset_number() failed" (num.bind (dotsetNumber obj key))
  return { th with obj }

/-- `ovni_attr_set_boolean`. -/
def ovniAttrSetBoolean (th : ThreadAttrs ν) (key : Name) (value : Int) :
    Except Fault (ThreadAttrs ν) := do
  let obj ← th.getThreadMetadata
  let obj ← orDie "json_object_dotset_boolean() failed" (dotsetValue obj key (.boolean (value ≠ 0)))
  return { th with obj }

/-- `ovni_attr_set_str`. -/
def ovniAttrSetStr (th : ThreadAttrs ν) (key value : Name) : Except Fault (ThreadAttrs ν) := do
  let obj ← th.getThreadMetadata
  let obj ← orDie "json_object_dotset_string() failed" (dotsetString obj key value)
  return { th with obj }

/-- `ovni_attr_set_json`. -/
def ovniAttrSetJson (th : ThreadAttrs ν) (key json : Name) : Except Fault (ThreadAttrs ν) := do
  let obj ← th.getThreadMetadata
  let val ← orDie "cannot parse json" (jsonParseString d.toDoubles json)
  let obj ← orDie "json_object_dotset_value() failed" (dotsetValue obj key val)
  return { th with obj }

/-- `ovni_attr_flush`. -/
def ovniAttrFlush (th : ThreadAttrs ν) : Except Fault (ThreadAttrs ν) := do
  if th.finished then throw (.die "thread already finished")
  if th.ready = false then throw (.die "thread not initialized")
  return threadMetadataStore d th

def attrCall (th : ThreadAttrs ν) : AttrCall ν → Except Fault (ThreadAttrs ν)
  | .setDouble key num => ovniAttrSetDouble th key num
  | .setBoolean key value => ovniAttrSetBoolean th key value
  | .setStr key value => ovniAttrSetStr th key value
  | .setJson key json => ovniAttrSetJson d th key json
  | .require model version => ovniThreadRequire th model version
  | .flush => ovniAttrFlush d th

/-- `ovni_attr_has`. -/
def ovniAttrHas (th : ThreadAttrs ν) (key : Name) : Except Fault Bool := do
  let obj ← th.getThreadMetadata
  return (dotgetValue obj key).isSome

/-- The getters, on what they take of the value and what they say when it is of another type. -/
def ovniAttrGet {α : Type} (get : Json ν → Option α) (other : String) (th : ThreadAttrs ν)
    (key : Name) : Except Fault α := do
  let obj ← th.getThreadMetadata
  let val ← orDie "key not found" (dotgetValue obj key)
  orDie other (get val)

/-- `json_value_get_boolean`, of a boolean. -/
def Json.getBoolean : Json ν → Option Bool
  | .boolean b => some b
  | _ => none

/-- `ovni_attr_get_double`. -/
def ovniAttrGetDouble (th : ThreadAttrs ν) : Name → Except Fault ν :=
  ovniAttrGet Json.getNumber "value is not a number" th

/-- `ovni_attr_get_boolean`. -/
def ovniAttrGetBoolean (th : ThreadAttrs ν) : Name → Except Fault Bool :=
  ovniAttrGet Json.getBoolean "value is not a boolean" th

/-- `ovni_attr_get_str`. -/
def ovniAttrGetStr (th : ThreadAttrs ν) : Name → Except Fault Name :=
  ovniAttrGet Json.getText "value is not a string" th

/-- `ovni_attr_get_json`, which serialises any value. -/
def ovniAttrGetJson (th : ThreadAttrs ν) : Name → Except Fault Name :=
  ovniAttrGet (fun v => some (jsonSerialize d.toDoubles false 0 v))
    "json_serialize_to_string() failed" th

/-- The metadata of a thread over its whole life. -/
def threadMetadata (lib : OvniLib) (proc : Rproc) (tid : Int) (calls : List (AttrCall ν))
    (rank : Option (Int × Int)) (cpus : List (Int × Int)) : Except Fault (ThreadAttrs ν) := do
  let th ← threadMetadataInit d lib proc tid
  let th ← calls.foldlM (attrCall d) th
  threadMetadataFree d rank cpus th

end

/-! ## What is set -/

/-- The values that are set at their paths. -/
abbrev AttrSets (ν : Type) := List (List Name × Json ν)

section

variable {ν : Type} (d : Numbers ν)

/-- What a call of the user sets. -/
def AttrCall.sets : AttrCall ν → AttrSets ν
  | .setDouble key num => num.toList.map fun x => (dotPath key, .number x)
  | .setBoolean key value => [(dotPath key, .boolean (value ≠ 0))]
  | .setStr key value => [(dotPath key, .string value)]
  | .setJson key json => (jsonParseString d.toDoubles json).toList.map fun v => (dotPath key, v)
  | .require model version =>
      [(dotPath (ascii "ovni.require." ++ model.getD []), .string (version.getD []))]
  | .flush => []

/-- What is set before the calls of the user. -/
def initSets (lib : OvniLib) (proc : Rproc) (tid : Int) : AttrSets ν :=
  [(dotPath (ascii "version"), .number (d.ofInt ovniMetadataVersion)),
    (dotPath (ascii "ovni.lib.version"), .string lib.version),
    (dotPath (ascii "ovni.lib.commit"), .string lib.commit),
    (dotPath (ascii "ovni.part"), .string (ascii "thread")),
    (dotPath (ascii "ovni.tid"), .number (d.ofInt tid)),
    (dotPath (ascii "ovni.pid"), .number (d.ofInt proc.pid)),
    (dotPath (ascii "ovni.loom"), .string proc.loom),
    (dotPath (ascii "ovni.app_id"), .number (d.ofInt proc.app)),
    (dotPath (ascii "ovni.require.ovni"), .string ovniModelVersion)]

def rankSets : Option (Int × Int) → AttrSets ν
  | none => []
  | some rank =>
      [(dotPath (ascii "ovni.rank"), .number (d.ofInt rank.1)),
        (dotPath (ascii "ovni.nranks"), .number (d.ofInt rank.2))]

def cpuSets (cpus : List (Int × Int)) : AttrSets ν :=
  if cpus = [] then [] else [(dotPath (ascii "ovni.loom_cpus"), .array (cpus.map (cpuJson d)))]

/-- What is set after the calls of the user. -/
def freeSets (rank : Option (Int × Int)) (cpus : List (Int × Int)) : AttrSets ν :=
  rankSets d rank ++ cpuSets d cpus ++ [(dotPath (ascii "ovni.finished"), .number (d.ofInt 1))]

/-- All that is set in the life of a thread. -/
def lifeSets (lib : OvniLib) (proc : Rproc) (tid : Int) (calls : List (AttrCall ν))
    (rank : Option (Int × Int)) (cpus : List (Int × Int)) : AttrSets ν :=
  initSets d lib proc tid ++ (calls.flatMap (AttrCall.sets d) ++ freeSets d rank cpus)

end

section

variable {ν : Type} {d : Numbers ν} {th th' : ThreadAttrs ν} {obj obj' : JsonFields ν}
  {lib : OvniLib} {proc : Rproc} {tid : Int} {calls : List (AttrCall ν)}
  {rank : Option (Int × Int)} {cpus : List (Int × Int)}

theorem orDie_ok {α : Type} {msg : String} {o : Option α} {a : α} (h : orDie msg o = .ok a) :
    o = some a := by
  cases o with
  | none => cases h
  | some b =>
      cases h
      rfl

/-- One value that is set, and what follows. -/
theorem orDie_set {msg : String} {p : List Name} {v : Json ν} {sets : AttrSets ν}
    {rest : JsonFields ν → Except Fault (JsonFields ν)}
    (hrest : ∀ mid, rest mid = .ok obj' → jsonShape.setAll sets mid = some obj')
    (h : (orDie msg (jsonShape.setAt obj p v) >>= rest) = .ok obj') :
    jsonShape.setAll ((p, v) :: sets) obj = some obj' := by
  obtain ⟨mid, hset, h⟩ := bind_ok h
  rw [Shape.setAll_cons, orDie_ok hset, Option.bind_some]
  exact hrest mid h

theorem orDie_setLast {msg : String} {p : List Name} {v : Json ν}
    (h : orDie msg (jsonShape.setAt obj p v) = .ok obj') :
    jsonShape.setAll [(p, v)] obj = some obj' := by
  rw [Shape.setAll_cons, orDie_ok h]
  rfl

/-- A string that is set, and what follows. -/
theorem orDie_setString {msg : String} {name s : Name} {sets : AttrSets ν}
    {rest : JsonFields ν → Except Fault (JsonFields ν)}
    (hrest : ∀ mid, rest mid = .ok obj' → jsonShape.setAll sets mid = some obj')
    (h : (orDie msg (dotsetString obj name s) >>= rest) = .ok obj') :
    jsonShape.setAll ((dotPath name, .string s) :: sets) obj = some obj' := by
  obtain ⟨mid, hset, h⟩ := bind_ok h
  rw [Shape.setAll_cons, (dotsetString_some (orDie_ok hset)).2, Option.bind_some]
  exact hrest mid h

theorem ovniThreadRequire_ok {model version : Option Name}
    (h : ovniThreadRequire th model version = .ok th') : th.ready = true ∧
      ∃ obj name text tuple, model = some name ∧ version = some text ∧ 46 ∉ name ∧
        versionParse (some text) (fun _ => 0) = .ok tuple ∧ th' = { th with obj } ∧
        jsonShape.setAll [(dotPath (ascii "ovni.require." ++ name), .string text)] th.obj =
          some obj := by
  unfold ovniThreadRequire at h
  obtain ⟨hready, h⟩ := guard_ok h
  obtain ⟨name, hname, h⟩ := bind_ok h
  obtain ⟨hdot, h⟩ := guard_ok h
  obtain ⟨-, h⟩ := guard_ok h
  obtain ⟨text, htext, h⟩ := bind_ok h
  cases hparse : versionParse (some text) fun _ => 0 with
  | error e =>
      rw [hparse] at h
      cases h
  | ok tuple =>
      rw [hparse] at h
      obtain ⟨-, h⟩ := guard_ok h
      obtain ⟨obj, hobj, h⟩ := bind_ok h
      cases h
      refine ⟨by simpa using hready, obj, name, text, tuple, orDie_ok hname, orDie_ok htext,
        fun hmem => hdot (Or.inr hmem), hparse, rfl, ?_⟩
      rw [Shape.setAll_cons, (dotsetString_some (orDie_ok hobj)).2]
      rfl

theorem threadMetadataPopulate_ok (h : threadMetadataPopulate d lib proc tid obj = .ok obj') :
    jsonShape.setAll (initSets d lib proc tid).dropLast obj = some obj' := by
  refine orDie_set (fun obj => ?_) h
  refine orDie_setString fun obj => ?_
  refine orDie_setString fun obj => ?_
  refine orDie_setString fun obj => ?_
  refine orDie_set fun obj => ?_
  refine orDie_set fun obj => ?_
  refine orDie_setString fun obj => ?_
  exact orDie_setLast

theorem threadMetadataInit_ok (h : threadMetadataInit d lib proc tid = .ok th) :
    th.ready = true ∧ th.finished = false ∧
      jsonShape.setAll (initSets d lib proc tid) [] = some th.obj := by
  obtain ⟨obj, hpop, h⟩ := bind_ok h
  obtain ⟨-, obj', name, text, tuple, hname, htext, -, -, rfl, hset⟩ := ovniThreadRequire_ok h
  obtain rfl := Option.some.inj hname
  obtain rfl := Option.some.inj htext
  refine ⟨rfl, rfl, ?_⟩
  rw [show initSets d lib proc tid = (initSets d lib proc tid).dropLast ++
    [(dotPath (ascii "ovni.require.ovni"), .string ovniModelVersion)] from rfl,
    Shape.setAll_append, threadMetadataPopulate_ok hpop]
  exact hset

theorem getThreadMetadata_ok (h : th.getThreadMetadata = .ok obj) :
    th.finished = false ∧ th.ready = true ∧ obj = th.obj := by
  obtain ⟨hfinished, h⟩ := guard_ok h
  obtain ⟨hready, h⟩ := guard_ok h
  cases h
  exact ⟨by simpa using hfinished, by simpa using hready, rfl⟩

theorem setAll_one {p : List Name} {v : Json ν} :
    jsonShape.setAll [(p, v)] obj = jsonShape.setAt obj p v := by
  rw [Shape.setAll_cons]
  cases jsonShape.setAt obj p v <;> rfl

theorem getThreadMetadata_eq (hready : th.ready = true) (hfinished : th.finished = false) :
    th.getThreadMetadata = .ok th.obj :=
  guard_iff.mpr ⟨by simp [hfinished], guard_iff.mpr ⟨by simp [hready], rfl⟩⟩

/-- The calls that set one value in the metadata. -/
theorem attrSet_ok {msg : String} {set : JsonFields ν → Option (JsonFields ν)} {sets : AttrSets ν}
    (hsets : ∀ obj, set th.obj = some obj → jsonShape.setAll sets th.obj = some obj)
    (h : (do
      let obj ← th.getThreadMetadata
      let obj ← orDie msg (set obj)
      return { th with obj }) = .ok th') :
    th.ready = true ∧ th'.ready = th.ready ∧ th'.finished = th.finished ∧
      jsonShape.setAll sets th.obj = some th'.obj := by
  obtain ⟨obj, hobj, h⟩ := bind_ok h
  obtain ⟨-, hready, rfl⟩ := getThreadMetadata_ok hobj
  obtain ⟨obj, ho, h⟩ := bind_ok h
  cases h
  exact ⟨hready, rfl, rfl, hsets obj (orDie_ok ho)⟩

/-- A call of the user is made on a thread that is ready and sets what it says. -/
theorem attrCall_ok {c : AttrCall ν} (h : attrCall d th c = .ok th') :
    th.ready = true ∧ th'.ready = th.ready ∧ th'.finished = th.finished ∧
      jsonShape.setAll (c.sets d) th.obj = some th'.obj := by
  cases c with
  | setDouble key num =>
      refine attrSet_ok (fun obj ho => ?_) h
      obtain ⟨x, rfl, hx⟩ := Option.bind_eq_some_iff.mp ho
      exact setAll_one.trans hx
  | setBoolean key value => exact attrSet_ok (fun obj ho => setAll_one.trans ho) h
  | setStr key value =>
      exact attrSet_ok (fun obj ho => setAll_one.trans (dotsetString_some ho).2) h
  | setJson key json =>
      cases hval : jsonParseString d.toDoubles json with
      | none =>
          obtain ⟨obj, -, h⟩ := bind_ok h
          rw [hval] at h
          cases h
      | some val =>
          have hset : (do
              let obj ← th.getThreadMetadata
              let obj ← orDie "json_object_dotset_value() failed" (dotsetValue obj key val)
              return { th with obj }) = .ok th' := by
            rw [← h, attrCall, ovniAttrSetJson, hval]
            rfl
          rw [AttrCall.sets, hval]
          exact attrSet_ok (fun obj ho => setAll_one.trans ho) hset
  | require model version =>
      obtain ⟨hready, obj, name, text, tuple, rfl, rfl, -, -, rfl, hset⟩ := ovniThreadRequire_ok h
      exact ⟨hready, rfl, rfl, hset⟩
  | flush =>
      obtain ⟨-, h⟩ := guard_ok h
      obtain ⟨hready, h⟩ := guard_ok h
      cases h
      exact ⟨by simpa using hready, rfl, rfl, rfl⟩

/-- What one call after the other sets. -/
theorem attrCalls_ok (h : calls.foldlM (attrCall d) th = .ok th') :
    th'.ready = th.ready ∧ th'.finished = th.finished ∧
      jsonShape.setAll (calls.flatMap (AttrCall.sets d)) th.obj = some th'.obj := by
  induction calls generalizing th with
  | nil =>
      cases h
      exact ⟨rfl, rfl, rfl⟩
  | cons c calls ih =>
      obtain ⟨mid, hcall, h⟩ := bind_ok (List.foldlM_cons.symm.trans h)
      obtain ⟨-, hready, hfinished, hset⟩ := attrCall_ok hcall
      obtain ⟨hready', hfinished', hsets⟩ := ih h
      refine ⟨hready'.trans hready, hfinished'.trans hfinished, ?_⟩
      rw [List.flatMap_cons, Shape.setAll_append, hset]
      exact hsets

theorem threadMetadataFree_ok (h : threadMetadataFree d rank cpus th = .ok th') :
    jsonShape.setAll (freeSets d rank cpus) th.obj = some th'.obj ∧
      th'.file = some (jsonSerialize d.toDoubles true 0 (.object th'.obj)) := by
  obtain ⟨-, h⟩ := guard_ok h
  obtain ⟨-, h⟩ := guard_ok h
  obtain ⟨obj, hrank, h⟩ := bind_ok h
  obtain ⟨obj', hcpus, h⟩ := bind_ok h
  obtain ⟨obj'', hfinished, h⟩ := bind_ok h
  cases h
  refine ⟨?_, rfl⟩
  have hrank' : jsonShape.setAll (rankSets d rank) th.obj = some obj := by
    cases rank with
    | none =>
        cases hrank
        rfl
    | some rank => exact orDie_set (fun obj => orDie_setLast) hrank
  have hcpus' : jsonShape.setAll (cpuSets d cpus) obj = some obj' := by
    unfold cpuSets
    split at hcpus
    · cases hcpus
      rw [if_pos ‹_›]
      rfl
    · rw [if_neg ‹_›]
      exact orDie_setLast hcpus
  rw [freeSets, Shape.setAll_append, Shape.setAll_append, hrank', Option.bind_some, hcpus',
    Option.bind_some]
  exact orDie_setLast hfinished

/-- What the life of a thread leaves in its metadata and in its file. -/
theorem threadMetadata_ok (h : threadMetadata d lib proc tid calls rank cpus = .ok th) :
    jsonShape.setAll (lifeSets d lib proc tid calls rank cpus) [] = some th.obj ∧
      th.file = some (jsonSerialize d.toDoubles true 0 (.object th.obj)) := by
  obtain ⟨th₀, hinit, h⟩ := bind_ok h
  obtain ⟨th₁, hcalls, h⟩ := bind_ok h
  obtain ⟨hfree, hfile⟩ := threadMetadataFree_ok h
  refine ⟨?_, hfile⟩
  rw [lifeSets, Shape.setAll_append, (threadMetadataInit_ok hinit).2.2, Option.bind_some,
    Shape.setAll_append, (attrCalls_ok hcalls).2.2]
  exact hfree

end

/-! ## What can be read back -/

/-- A value that is not too deep, under a path of C strings. -/
structure Settable {ν : Type} (e : List Name × Json ν) : Prop where
  nul : ∀ k ∈ e.1, 0 ∉ k
  short : e.1.length ≤ maxNesting
  fits : e.2.Fits (maxNesting + 1 - e.1.length)

section

variable {ν : Type} {d : Numbers ν} {th th' : ThreadAttrs ν} {obj : JsonFields ν}
  {lib : OvniLib} {proc : Rproc} {tid : Int} {calls : List (AttrCall ν)}
  {rank : Option (Int × Int)} {cpus : List (Int × Int)} {sets : AttrSets ν}

theorem Settable.scalar {p : List Name} {v : Json ν} (hnul : ∀ k ∈ p, 0 ∉ k)
    (hshort : p.length ≤ maxNesting) (hv : v.Fits 1) : Settable (p, v) := by
  refine ⟨hnul, hshort, hv.mono ?_⟩
  change 1 ≤ maxNesting + 1 - p.length
  omega

/-- An object made of such values is not too deep. -/
theorem setAll_fits (hsets : ∀ e ∈ sets, Settable e) (h : jsonShape.setAll sets [] = some obj) :
    Json.Fits (maxNesting + 1) (.object obj) := by
  have hnew : Json.Fits (maxNesting + 1) (.object ([] : JsonFields ν)) :=
    .object (by simp) (by simp) (by simp)
  exact hnew.setAll (fun e he => ⟨(hsets e he).nul, (hsets e he).short, (hsets e he).fits⟩) h

theorem initSets_settable : ∀ e ∈ initSets d lib proc tid, Settable e := by
  unfold initSets
  simp only [List.forall_mem_cons]
  refine ⟨?_, ?_, ?_, ?_, ?_, ?_, ?_, ?_, ?_, by simp⟩
  all_goals refine .scalar (by decide +kernel) (by decide +kernel) ?_
  all_goals first | exact .number _ | exact .string _

theorem cpuJson_fits (cpu : Int × Int) : (cpuJson d cpu).Fits 2 := by
  have hkeys : ([ascii "index", ascii "phyid"] : List Name).Nodup := by decide +kernel
  have hnul : 0 ∉ ascii "index" ∧ 0 ∉ ascii "phyid" := by decide +kernel
  refine .object hkeys ?_ ?_
  · simpa using hnul
  · simp only [List.forall_mem_cons]
    exact ⟨.number _, .number _, by simp⟩

/-- The numbers that are set at the end. -/
def freePaths : List (List Name) :=
  [ascii "ovni.rank", ascii "ovni.nranks", ascii "ovni.finished"].map dotPath

theorem mem_freeSets {e : List Name × Json ν} (he : e ∈ freeSets d rank cpus) :
    (∃ p ∈ freePaths, ∃ x, e = (p, .number x)) ∨
      e = (dotPath (ascii "ovni.loom_cpus"), .array (cpus.map (cpuJson d))) := by
  rcases List.mem_append.mp he with he | he
  · rcases List.mem_append.mp he with he | he
    · cases rank with
      | none => cases he
      | some rank =>
          rcases List.mem_cons.mp he with rfl | he
          · exact Or.inl ⟨_, by simp [freePaths], _, rfl⟩
          · obtain rfl := List.mem_singleton.mp he
            exact Or.inl ⟨_, by simp [freePaths], _, rfl⟩
    · unfold cpuSets at he
      split at he
      · cases he
      · exact Or.inr (List.mem_singleton.mp he)
  · obtain rfl := List.mem_singleton.mp he
    exact Or.inl ⟨_, by simp [freePaths], _, rfl⟩

theorem freeSets_settable : ∀ e ∈ freeSets d rank cpus, Settable e := by
  have hpaths : ∀ p ∈ dotPath (ascii "ovni.loom_cpus") :: freePaths,
      (∀ k ∈ p, 0 ∉ k) ∧ p.length ≤ 2 := by
    decide +kernel
  have hroom : 2 + 3 ≤ maxNesting := by decide
  rw [List.forall_mem_cons] at hpaths
  intro e he
  rcases mem_freeSets he with ⟨p, hp, x, rfl⟩ | rfl
  · obtain ⟨hnul, hshort⟩ := hpaths.2 p hp
    exact .scalar hnul (by omega) (.number x)
  · obtain ⟨hnul, hshort⟩ := hpaths.1
    refine ⟨hnul, hshort.trans (by omega), .mono (n := 3) (.array fun v hv => ?_) ?_⟩
    · obtain ⟨cpu, -, rfl⟩ := List.mem_map.mp hv
      exact cpuJson_fits cpu
    · change 3 ≤ maxNesting + 1 - (dotPath (ascii "ovni.loom_cpus")).length
      omega

/-- The attributes of a thread that is in its life. -/
theorem liveSets_ok (hinit : threadMetadataInit d lib proc tid = .ok th)
    (hcalls : calls.foldlM (attrCall d) th = .ok th') :
    th'.ready = true ∧ th'.finished = false ∧
      jsonShape.setAll (initSets d lib proc tid ++ calls.flatMap (AttrCall.sets d)) [] =
        some th'.obj := by
  obtain ⟨hready, hfinished, hset⟩ := threadMetadataInit_ok hinit
  obtain ⟨hready', hfinished', hsets⟩ := attrCalls_ok hcalls
  refine ⟨hready'.trans hready, hfinished'.trans hfinished, ?_⟩
  rw [Shape.setAll_append, hset]
  exact hsets

theorem ovniAttrGet_eq {α : Type} {get : Json ν → Option α} {other : String} {key : Name}
    {last : Option (Json ν)} (hready : th.ready = true) (hfinished : th.finished = false)
    (hlast : dotgetValue th.obj key = last) :
    ovniAttrGet get other th key =
      (orDie "key not found" last >>= fun v => orDie other (get v)) := by
  rw [ovniAttrGet, getThreadMetadata_eq hready hfinished, ok_bind, hlast]

/-- An attribute has the value that was set last, by the runtime or by the user, as long as the
other paths that are set do not lead over it: every getter returns what it takes of that value,
and the text that `ovni_attr_get_json` gives is read back as the value.  What is flushed is read
back as all the attributes. -/
theorem attributes_kept (hd : d.Documented) (hinit : threadMetadataInit d lib proc tid = .ok th)
    (hcalls : calls.foldlM (attrCall d) th = .ok th')
    (hsets : ∀ e ∈ calls.flatMap (AttrCall.sets d), Settable e) :
    (∃ flushed, ovniAttrFlush d th' = .ok flushed ∧
      jsonParseFileWithComments d.toDoubles flushed.file = some (.object th'.obj)) ∧
    ∀ key last, (∀ e ∈ initSets d lib proc tid ++ calls.flatMap (AttrCall.sets d),
        e.1 = dotPath key ∨ Diverge e.1 (dotPath key)) →
      lastSet (dotPath key)
        (initSets d lib proc tid ++ calls.flatMap (AttrCall.sets d)) = last →
      ovniAttrHas th' key = .ok last.isSome ∧
        (∀ {α : Type} (get : Json ν → Option α) (other : String),
          ovniAttrGet get other th' key =
            (orDie "key not found" last >>= fun v => orDie other (get v))) ∧
        ∀ text, ovniAttrGetJson d th' key = .ok text →
          jsonParseString d.toDoubles text = last := by
  obtain ⟨hready, hfinished, hset⟩ := liveSets_ok hinit hcalls
  have hfits := setAll_fits (fun e he => (List.mem_append.mp he).elim (initSets_settable e)
    (hsets e)) hset
  refine ⟨⟨threadMetadataStore d th', ?_, (hfits.read_back hd.doubles true).2.2⟩,
    fun key last hapart hlast => ?_⟩
  · exact guard_iff.mpr ⟨by simp [hfinished], guard_iff.mpr ⟨by simp [hready], rfl⟩⟩
  · have hget : dotgetValue th'.obj key = last := by
      rw [dotgetValue, Shape.getAt_setAll hset hapart, Shape.getAt_nil, Option.or_none, hlast]
    refine ⟨?_, fun get other => ovniAttrGet_eq hready hfinished hget, fun text htext => ?_⟩
    · rw [ovniAttrHas, getThreadMetadata_eq hready hfinished, ok_bind, hget]
      rfl
    · rw [ovniAttrGetJson, ovniAttrGet_eq hready hfinished hget] at htext
      obtain ⟨v, hv, htext⟩ := bind_ok htext
      obtain rfl := Option.some.inj (orDie_ok htext)
      rw [orDie_ok hv]
      exact ((hfits.getAt (hget.trans (orDie_ok hv))).read_back hd.doubles false).2.1

end

/-- A library, and a process of which a thread sets attributes. -/
def demoLib : OvniLib := ⟨ascii "1.11.0", ascii "unknown"⟩

def demoRproc : Rproc := ⟨.ready, 1, ascii "node1", 20, false⟩

def demoAttrs : List (AttrCall Int) :=
  [.setStr (ascii "user.name") (ascii "a"), .setJson (ascii "user.list") (ascii "[1, true]"),
    .require (some (ascii "nosv")) (some (ascii "2.4.0")), .flush,
    .setStr (ascii "user.name") (ascii "b")]

theorem demoAttrs_sets : demoAttrs.flatMap (AttrCall.sets intNumbers) =
    [([ascii "user", ascii "name"], .string (ascii "a")),
      ([ascii "user", ascii "list"], .array [.number 1, .boolean true]),
      ([ascii "ovni", ascii "require", ascii "nosv"], .string (ascii "2.4.0")),
      ([ascii "user", ascii "name"], .string (ascii "b"))] := by
  rfl

theorem demoAttrs_settable : ∀ e ∈ demoAttrs.flatMap (AttrCall.sets intNumbers), Settable e := by
  have hlist : Json.Fits 2 (.array [.number 1, .boolean true] : Json Int) := by
    refine .array ?_
    rw [List.forall_mem_cons, List.forall_mem_singleton]
    exact ⟨.number _, .boolean _⟩
  rw [demoAttrs_sets]
  simp only [List.forall_mem_cons]
  refine ⟨.scalar ?_ ?_ (.string _), ⟨?_, ?_, hlist.mono ?_⟩, .scalar ?_ ?_ (.string _),
    .scalar ?_ ?_ (.string _), by simp⟩
  all_goals decide +kernel

theorem demoAttrs_run : ∃ th th', threadMetadataInit intNumbers demoLib demoRproc 21 = .ok th ∧
    demoAttrs.foldlM (attrCall intNumbers) th = .ok th' := by
  have hrun : (threadMetadataInit intNumbers demoLib demoRproc 21 >>= fun th =>
      demoAttrs.foldlM (attrCall intNumbers) th).toOption.isSome = true := by
    decide +kernel
  cases h : (threadMetadataInit intNumbers demoLib demoRproc 21 >>= fun th =>
      demoAttrs.foldlM (attrCall intNumbers) th) with
  | error e =>
      rw [h] at hrun
      cases hrun
  | ok th' =>
      obtain ⟨th, hinit, hcalls⟩ := bind_ok h
      exact ⟨th, th', hinit, hcalls⟩

theorem attributes_kept_demo : ∃ th, ovniAttrGetStr th (ascii "user.name") = .ok (ascii "b") ∧
    ∀ text, ovniAttrGetJson intNumbers th (ascii "user.list") = .ok text →
      jsonParseString intDoubles text = some (.array [.number 1, .boolean true]) := by
  obtain ⟨th, th', hinit, hcalls⟩ := demoAttrs_run
  have h := (attributes_kept intNumbers_documented hinit hcalls demoAttrs_settable).2
  rw [demoAttrs_sets] at h
  refine ⟨th', ((h (ascii "user.name") _ (by decide +kernel) rfl).2.1 _ _).trans rfl,
    fun text htext => ?_⟩
  exact (h (ascii "user.list") _ (by decide +kernel) rfl).2.2 text htext
end Ovni
