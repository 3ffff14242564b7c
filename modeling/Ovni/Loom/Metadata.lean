import Ovni.Loom.Model
import Ovni.Runtime.Attributes
import Ovni.Version.Parse

/-!
# Reading the metadata of a thread

`load_json` reads `stream.json` back, and `system_init` and the models look up in the object the
attributes that the runtime set.  Whatever the user set beside them, these are the ones of the
thread, its process and its loom.
-/

namespace Ovni

open Ovni.Lib

section

variable {ν : Type} (d : Numbers ν)

/-! ## The reader -/

/-- The C string at the start of a text. -/
def cString (s : Name) : Name := s.takeWhile fun c => c ≠ 0

/-- `json_value_get_number`. -/
def jsonNumber (v : Option (Json ν)) : ν := (v.bind Json.getNumber).getD (d.ofInt 0)

/-- `json_object_dotget_string`. -/
def dotgetString (obj : JsonFields ν) (name : Name) : Option Name :=
  ((dotgetValue obj name).bind Json.getText).map cString

/-- `check_version`. -/
def checkVersion (obj : JsonFields ν) : Except EmuFault Unit :=
  match getKey obj (ascii "version") with
  | none => .error (.fail "missing attribute \"version\"")
  | some v =>
      if d.toInt (jsonNumber d (some v)) ≠ ovniMetadataVersion then
        .error (.fail "metadata version mismatch")
      else .ok ()

/-- `load_json`, on the contents of the file. -/
def loadJson (file : Option Name) : Except EmuFault (JsonFields ν) :=
  match jsonParseFileWithComments d.toDoubles file with
  | none => .error (.fail "json_parse_file_with_comments() failed")
  | some vmeta =>
      match vmeta.getFields with
      | none => .error (.fail "json_value_get_object() failed")
      | some obj => do
          checkVersion d obj
          return obj

/-- A `pid` or `tid`, which is an error when it is zero. -/
def streamId (obj : JsonFields ν) (name : Name) : Option Int :=
  let id := jsonNumber d (dotgetValue obj name)
  if d.eqInt id 0 then none else some (d.toInt id)

/-- An attribute that is cast to `int` when it is there. -/
def intAttr (obj : JsonFields ν) (name : Name) : Option Int :=
  (dotgetValue obj name).map fun v => d.toInt (jsonNumber d (some v))

/-- The index and the `phyid` of an element of `ovni.loom_cpus`. -/
def readCpu (v : Json ν) : Option (Int × Int) :=
  v.getFields.map fun jcpu =>
    (d.toInt (jsonNumber d (getKey jcpu (ascii "index"))),
      d.toInt (jsonNumber d (getKey jcpu (ascii "phyid"))))

/-- What `system_init` reads of the metadata of a stream. -/
def streamMeta (obj : JsonFields ν) : StreamMeta where
  part := (dotgetString obj (ascii "ovni.part")).map fun part =>
    String.ofList (part.map fun c => Char.ofNat c.val)
  loom := dotgetString obj (ascii "ovni.loom")
  loomCpus := ((dotgetValue obj (ascii "ovni.loom_cpus")).bind Json.getItems).map fun cpuarray =>
    cpuarray.map (readCpu d)
  pid := streamId d obj (ascii "ovni.pid")
  tid := streamId d obj (ascii "ovni.tid")
  appId := intAttr d obj (ascii "ovni.app_id")
  rank := intAttr d obj (ascii "ovni.rank")
  nranks := intAttr d obj (ascii "ovni.nranks")
  finished := d.eqInt (jsonNumber d (dotgetValue obj (ascii "ovni.finished"))) 1

/-- What `should_enable` reads of it. -/
def threadRequire (obj : JsonFields ν) : ThreadMeta where
  require := ((dotgetValue obj (ascii "ovni.require")).bind Json.getFields).map
    fun require name => ((getKey require name).bind Json.getText).map cString

end

/-! ## The attributes of the runtime -/

/-- The attributes that `load_json` and `system_init` read. -/
def readPaths : List (List Name) :=
  [ascii "version", ascii "ovni.part", ascii "ovni.loom", ascii "ovni.loom_cpus",
    ascii "ovni.pid", ascii "ovni.tid", ascii "ovni.app_id", ascii "ovni.rank",
    ascii "ovni.nranks", ascii "ovni.finished"].map dotPath

section

variable {ν : Type} {d : Numbers ν} {th : ThreadAttrs ν} {obj : JsonFields ν}
  {lib : OvniLib} {proc : Rproc} {tid : Int} {calls : List (AttrCall ν)}
  {rank : Option (Int × Int)} {cpus : List (Int × Int)} {sets : AttrSets ν}

theorem initSets_apart : ∀ q ∈ readPaths, ∀ e ∈ initSets d lib proc tid,
    e.1 = q ∨ Diverge e.1 q := by
  have hpaths : ∀ q ∈ readPaths, ∀ p ∈ (initSets intNumbers ⟨[], []⟩ ⟨.uninit, 0, [], 0, false⟩
      0).map Prod.fst, p = q ∨ Diverge p q := by
    decide +kernel
  intro q hq e he
  exact hpaths q hq e.1 (List.mem_map_of_mem (f := Prod.fst) he)

theorem freeSets_apart : ∀ q ∈ readPaths, ∀ e ∈ freeSets d rank cpus,
    e.1 = q ∨ Diverge e.1 q := by
  have hpaths : ∀ q ∈ readPaths, ∀ p ∈ dotPath (ascii "ovni.loom_cpus") :: freePaths,
      p = q ∨ Diverge p q := by
    decide +kernel
  intro q hq e he
  rcases mem_freeSets he with ⟨p, hp, x, rfl⟩ | rfl
  · exact hpaths q hq p (List.mem_cons_of_mem _ hp)
  · exact hpaths q hq _ List.mem_cons_self

/-- What is read where the user sets nothing. -/
theorem life_getAt (h : jsonShape.setAll (lifeSets d lib proc tid calls rank cpus) [] = some obj)
    {q : List Name} (hq : q ∈ readPaths)
    (huser : ∀ e ∈ calls.flatMap (AttrCall.sets d), Diverge e.1 q) :
    jsonShape.getAt obj q =
      (lastSet q (freeSets d rank cpus)).or (lastSet q (initSets d lib proc tid)) := by
  have hnone : lastSet q (calls.flatMap (AttrCall.sets d)) = none := by
    refine lastSet_none fun e he => ?_
    rintro rfl
    exact (huser e he).1 List.prefix_rfl
  have hapart : ∀ e ∈ lifeSets d lib proc tid calls rank cpus, e.1 = q ∨ Diverge e.1 q := by
    intro e he
    rcases List.mem_append.mp he with he | he
    · exact initSets_apart q hq e he
    · rcases List.mem_append.mp he with he | he
      · exact Or.inr (huser e he)
      · exact freeSets_apart q hq e he
  rw [Shape.getAt_setAll h hapart, Shape.getAt_nil, Option.or_none, lifeSets,
    lastSet_append, lastSet_append, hnone, Option.or_none]

theorem life_getInit (h : jsonShape.setAll (lifeSets d lib proc tid calls rank cpus) [] = some obj)
    {name : Name} {v : Json ν} (hq : dotPath name ∈ readPaths)
    (huser : ∀ e ∈ calls.flatMap (AttrCall.sets d), Diverge e.1 (dotPath name))
    (hfree : dotPath name ∉ dotPath (ascii "ovni.loom_cpus") :: freePaths)
    (hv : lastSet (dotPath name) (initSets d lib proc tid) = some v) :
    dotgetValue obj name = some v := by
  have hnone : lastSet (dotPath name) (freeSets d rank cpus) = none := by
    refine lastSet_none fun e he heq => hfree ?_
    rw [← heq]
    rcases mem_freeSets he with ⟨p, hp, x, rfl⟩ | rfl
    · exact List.mem_cons_of_mem _ hp
    · exact List.mem_cons_self
  rw [dotgetValue, life_getAt h hq huser, hnone, Option.none_or, hv]

theorem life_getFree (h : jsonShape.setAll (lifeSets d lib proc tid calls rank cpus) [] = some obj)
    {name : Name} {o : Option (Json ν)} (hq : dotPath name ∈ readPaths)
    (huser : ∀ e ∈ calls.flatMap (AttrCall.sets d), Diverge e.1 (dotPath name))
    (hinit : lastSet (dotPath name) (initSets d lib proc tid) = none)
    (ho : lastSet (dotPath name) (freeSets d rank cpus) = o) :
    dotgetValue obj name = o := by
  rw [dotgetValue, life_getAt h hq huser, hinit, Option.or_none, ho]

/-- The attributes of a thread, which the runtime set. -/
structure LifeReads (d : Numbers ν) (obj : JsonFields ν) (proc : Rproc) (tid : Int)
    (rank : Option (Int × Int)) (cpus : List (Int × Int)) : Prop where
  version : dotgetValue obj (ascii "version") = some (.number (d.ofInt ovniMetadataVersion))
  part : dotgetValue obj (ascii "ovni.part") = some (.string (ascii "thread"))
  loom : dotgetValue obj (ascii "ovni.loom") = some (.string proc.loom)
  pid : dotgetValue obj (ascii "ovni.pid") = some (.number (d.ofInt proc.pid))
  tid : dotgetValue obj (ascii "ovni.tid") = some (.number (d.ofInt tid))
  app : dotgetValue obj (ascii "ovni.app_id") = some (.number (d.ofInt proc.app))
  loomCpus : dotgetValue obj (ascii "ovni.loom_cpus") =
    if cpus = [] then none else some (.array (cpus.map (cpuJson d)))
  rankOf : dotgetValue obj (ascii "ovni.rank") =
    (rank.map Prod.fst).map fun n => .number (d.ofInt n)
  nranks : dotgetValue obj (ascii "ovni.nranks") =
    (rank.map Prod.snd).map fun n => .number (d.ofInt n)
  finished : dotgetValue obj (ascii "ovni.finished") = some (.number (d.ofInt 1))

theorem life_reads (h : jsonShape.setAll (lifeSets d lib proc tid calls rank cpus) [] = some obj)
    (huser : ∀ q ∈ readPaths, ∀ e ∈ calls.flatMap (AttrCall.sets d), Diverge e.1 q) :
    LifeReads d obj proc tid rank cpus := by
  have hinit : ∀ {name : Name} {v : Json ν}, dotPath name ∈ readPaths →
      dotPath name ∉ dotPath (ascii "ovni.loom_cpus") :: freePaths →
      lastSet (dotPath name) (initSets d lib proc tid) = some v →
      dotgetValue obj name = some v :=
    fun hq hfree hv => life_getInit h hq (huser _ hq) hfree hv
  have hfree : ∀ {name : Name} {o : Option (Json ν)}, dotPath name ∈ readPaths →
      lastSet (dotPath name) (initSets d lib proc tid) = none →
      lastSet (dotPath name) (freeSets d rank cpus) = o → dotgetValue obj name = o :=
    fun hq hnone ho => life_getFree h hq (huser _ hq) hnone ho
  refine ⟨hinit (by decide +kernel) (by decide +kernel) rfl,
    hinit (by decide +kernel) (by decide +kernel) rfl,
    hinit (by decide +kernel) (by decide +kernel) rfl,
    hinit (by decide +kernel) (by decide +kernel) rfl,
    hinit (by decide +kernel) (by decide +kernel) rfl,
    hinit (by decide +kernel) (by decide +kernel) rfl,
    hfree (by decide +kernel) rfl ?_, hfree (by decide +kernel) rfl ?_,
    hfree (by decide +kernel) rfl ?_, hfree (by decide +kernel) rfl ?_⟩
  all_goals
    unfold freeSets cpuSets
    cases rank <;> split <;> rfl

/-- The arguments of the calls are C strings and `int`s. -/
structure LifeArgs (proc : Rproc) (tid : Int) (rank : Option (Int × Int))
    (cpus : List (Int × Int)) : Prop where
  loom : 0 ∉ proc.loom
  app : IsInt proc.app
  pid : IsInt proc.pid
  tid : IsInt tid
  rank : ∀ r ∈ rank, IsInt r.1 ∧ IsInt r.2
  cpus : ∀ c ∈ cpus, IsInt c.1 ∧ IsInt c.2

/-- What is said of a thread that was freed. -/
def lifeInfo (proc : Rproc) (tid : Int) (rank : Option (Int × Int)) (cpus : List (Int × Int)) :
    StreamInfo :=
  { tid, pid := proc.pid, loom := proc.loom, app := proc.app, rank, cpus, finished := true }

/-- What is to be read of it. -/
def StreamInfo.toMeta (info : StreamInfo) : StreamMeta where
  part := some "thread"
  loom := some info.loom
  loomCpus := if info.cpus = [] then none else some (info.cpus.map some)
  pid := if info.pid = 0 then none else some info.pid
  tid := if info.tid = 0 then none else some info.tid
  appId := some info.app
  rank := info.rank.map Prod.fst
  nranks := info.rank.map Prod.snd
  finished := info.finished

theorem cString_of_nul {s : Name} (h : 0 ∉ s) : cString s = s := by
  refine List.takeWhile_eq_self_iff.mpr fun c hc => ?_
  rw [decide_eq_true_iff]
  rintro rfl
  exact h hc

theorem isInt_zero : IsInt 0 := ⟨by norm_num, by norm_num⟩

theorem streamId_number (hd : d.Documented) {name : Name} {n : Int} (hn : IsInt n)
    (h : dotgetValue obj name = some (.number (d.ofInt n))) :
    streamId d obj name = if n = 0 then none else some n := by
  have hzero := hd.eqInt_ofInt n 0 hn isInt_zero
  simp only [streamId, h, jsonNumber, Option.bind_some, Json.getNumber, Option.getD_some, hzero,
    hd.toInt_ofInt n hn]

theorem intAttr_number (hd : d.Documented) {name : Name} {o : Option Int} (hn : ∀ n ∈ o, IsInt n)
    (h : dotgetValue obj name = o.map fun n => .number (d.ofInt n)) : intAttr d obj name = o := by
  rw [intAttr, h]
  cases o with
  | none => rfl
  | some n => exact congrArg some (hd.toInt_ofInt n (hn n rfl))

theorem readCpu_cpuJson (hd : d.Documented) {cpu : Int × Int} (h : IsInt cpu.1 ∧ IsInt cpu.2) :
    readCpu d (cpuJson d cpu) = some cpu :=
  congrArg some (Prod.ext (hd.toInt_ofInt _ h.1) (hd.toInt_ofInt _ h.2))

/-- The metadata of a thread is read as what the thread said. -/
theorem LifeReads.streamMeta (hd : d.Documented) (hargs : LifeArgs proc tid rank cpus)
    (h : LifeReads d obj proc tid rank cpus) :
    streamMeta d obj = (lifeInfo proc tid rank cpus).toMeta := by
  have hone : IsInt 1 := ⟨by norm_num, by norm_num⟩
  have hcpus : ((dotgetValue obj (ascii "ovni.loom_cpus")).bind Json.getItems).map
      (fun cpuarray => cpuarray.map (readCpu d)) =
        if cpus = [] then none else some (cpus.map some) := by
    rw [h.loomCpus]
    split
    · rfl
    · refine congrArg some ((List.map_map).trans ?_)
      exact List.map_congr_left fun cpu hcpu => readCpu_cpuJson hd (hargs.cpus cpu hcpu)
  have hloom : dotgetString obj (ascii "ovni.loom") = some proc.loom := by
    rw [dotgetString, h.loom]
    exact congrArg some (cString_of_nul hargs.loom)
  have hpart : dotgetString obj (ascii "ovni.part") = some (ascii "thread") := by
    rw [dotgetString, h.part]
    rfl
  have hrank : intAttr d obj (ascii "ovni.rank") = rank.map Prod.fst := by
    refine intAttr_number hd (fun n hn => ?_) h.rankOf
    obtain ⟨r, hr, rfl⟩ := Option.map_eq_some_iff.mp hn
    exact (hargs.rank r hr).1
  have hnranks : intAttr d obj (ascii "ovni.nranks") = rank.map Prod.snd := by
    refine intAttr_number hd (fun n hn => ?_) h.nranks
    obtain ⟨r, hr, rfl⟩ := Option.map_eq_some_iff.mp hn
    exact (hargs.rank r hr).2
  have happ : intAttr d obj (ascii "ovni.app_id") = some proc.app :=
    intAttr_number hd (by simpa using hargs.app) h.app
  have hfinished : d.eqInt (jsonNumber d (dotgetValue obj (ascii "ovni.finished"))) 1 = true := by
    rw [h.finished]
    exact (hd.eqInt_ofInt 1 1 hone hone).mpr rfl
  rw [Ovni.streamMeta, hcpus, hloom, hpart, hrank, hnranks, happ, hfinished,
    streamId_number hd hargs.pid h.pid, streamId_number hd hargs.tid h.tid]
  rfl

theorem checkVersion_ok (hd : d.Documented)
    (h : dotgetValue obj (ascii "version") = some (.number (d.ofInt ovniMetadataVersion))) :
    checkVersion d obj = .ok () := by
  have hversion : getKey obj (ascii "version") = some (.number (d.ofInt ovniMetadataVersion)) := h
  have hthree : d.toInt (d.ofInt ovniMetadataVersion) = ovniMetadataVersion :=
    hd.toInt_ofInt _ ⟨by decide, by decide⟩
  unfold checkVersion
  rw [hversion]
  exact if_neg (not_not_intro hthree)

theorem lifeSets_settable (hcalls : ∀ e ∈ calls.flatMap (AttrCall.sets d), Settable e) :
    ∀ e ∈ lifeSets d lib proc tid calls rank cpus, Settable e := by
  intro e he
  rcases List.mem_append.mp he with he | he
  · exact initSets_settable e he
  · rcases List.mem_append.mp he with he | he
    · exact hcalls e he
    · exact freeSets_settable e he

/-- The file of a thread that was freed is loaded. -/
theorem loadJson_life (hd : d.Documented)
    (h : threadMetadata d lib proc tid calls rank cpus = .ok th)
    (hsets : ∀ e ∈ calls.flatMap (AttrCall.sets d), Settable e)
    (huser : ∀ q ∈ readPaths, ∀ e ∈ calls.flatMap (AttrCall.sets d), Diverge e.1 q) :
    loadJson d th.file = .ok th.obj := by
  obtain ⟨hset, hfile⟩ := threadMetadata_ok h
  have hfits := setAll_fits (lifeSets_settable hsets) hset
  rw [loadJson, hfile, (hfits.read_back hd.doubles true).2.2]
  change (checkVersion d th.obj >>= fun _ => Except.ok th.obj) = .ok th.obj
  rw [checkVersion_ok hd (life_reads hset huser).version]
  rfl

/-- Whatever attributes the user set beside those of the runtime, the file of a thread that was
freed is loaded as the attributes in memory, and `system_init` reads what the thread, its process
and its loom are, with the rank and the CPUs that the thread was given. -/
theorem metadata_read_back (hd : d.Documented) (hargs : LifeArgs proc tid rank cpus)
    (h : threadMetadata d lib proc tid calls rank cpus = .ok th)
    (hsets : ∀ e ∈ calls.flatMap (AttrCall.sets d), Settable e)
    (huser : ∀ q ∈ readPaths, ∀ e ∈ calls.flatMap (AttrCall.sets d), Diverge e.1 q) :
    loadJson d th.file = .ok th.obj ∧
      streamMeta d th.obj = (lifeInfo proc tid rank cpus).toMeta :=
  ⟨loadJson_life hd h hsets huser, (life_reads (threadMetadata_ok h).1 huser).streamMeta hd hargs⟩

theorem demoLife_run : ∃ th, threadMetadata intNumbers demoLib demoRproc 21 demoAttrs (some (0, 2))
    [(0, 4)] = .ok th := by
  have hrun : (threadMetadata intNumbers demoLib demoRproc 21 demoAttrs (some (0, 2))
      [(0, 4)]).toOption.isSome = true := by
    decide +kernel
  cases h : threadMetadata intNumbers demoLib demoRproc 21 demoAttrs (some (0, 2)) [(0, 4)] with
  | error e =>
      rw [h] at hrun
      cases hrun
  | ok th => exact ⟨th, rfl⟩

theorem demoAttrs_apart : ∀ q ∈ readPaths, ∀ e ∈ demoAttrs.flatMap (AttrCall.sets intNumbers),
    Diverge e.1 q := by
  rw [demoAttrs_sets]
  decide +kernel

theorem metadata_read_back_demo : ∃ (file : Option Name) (obj : JsonFields Int),
    loadJson intNumbers file = .ok obj ∧ streamMeta intNumbers obj =
      { part := some "thread", loom := some (ascii "node1"), loomCpus := some [some (0, 4)]
        pid := some 20, tid := some 21, appId := some 1, rank := some 0, nranks := some 2
        finished := true } := by
  obtain ⟨th, hth⟩ := demoLife_run
  have hargs : LifeArgs demoRproc 21 (some (0, 2)) [(0, 4)] :=
    ⟨by decide +kernel, ⟨by decide, by decide⟩, ⟨by decide, by decide⟩, ⟨by decide, by decide⟩,
      by simp [IsInt], by simp [IsInt]⟩
  obtain ⟨hload, hmeta⟩ := metadata_read_back intNumbers_documented hargs hth
    demoAttrs_settable demoAttrs_apart
  exact ⟨th.file, th.obj, hload, hmeta.trans (by decide +kernel)⟩

end

/-! ## The models that a thread requires -/

section

variable {ν : Type} {d : Numbers ν} {th th' : ThreadAttrs ν} {obj : JsonFields ν}
  {lib : OvniLib} {proc : Rproc} {tid : Int} {calls : List (AttrCall ν)}
  {rank : Option (Int × Int)} {cpus : List (Int × Int)} {name : Name}

/-- The model and the version that a call requires. -/
def AttrCall.required : AttrCall ν → List (Name × Name)
  | .require (some model) (some version) => [(model, version)]
  | _ => []

/-- The version of a model that a thread requires last. -/
def lastRequired (calls : List (AttrCall ν)) (name : Name) : Option Name :=
  lastSet name ((ascii "ovni", ovniModelVersion) :: calls.flatMap AttrCall.required)

/-- The attributes of the user are none of those that are read. -/
structure UserCalls (d : Numbers ν) (calls : List (AttrCall ν)) : Prop where
  settable : ∀ e ∈ calls.flatMap (AttrCall.sets d), Settable e
  apart : ∀ q ∈ readPaths, ∀ e ∈ calls.flatMap (AttrCall.sets d), Diverge e.1 q
  require : ∀ c ∈ calls, c.required = [] →
    ∀ e ∈ c.sets d, Diverge e.1 (dotPath (ascii "ovni.require"))
  nul : ∀ r ∈ calls.flatMap AttrCall.required, 0 ∉ r.2

/-- The path of a model. -/
def requirePath (name : Name) : List Name := dotPath (ascii "ovni.require") ++ [name]

theorem dotPath_require (hname : 46 ∉ name) :
    dotPath (ascii "ovni.require." ++ name) = requirePath name := by
  have hkey : ascii "ovni.require." ++ name =
      ascii "ovni" ++ 46 :: (ascii "require" ++ 46 :: name) := rfl
  rw [hkey, dotPath_cons (by decide), dotPath_cons (by decide), dotPath_single hname]
  rfl

/-- A call that is made in a run requires a version that can be parsed, of a model without dots. -/
theorem attrCalls_required (h : calls.foldlM (attrCall d) th = .ok th') :
    ∀ c ∈ calls, ∀ model version, c = .require model version → ∃ name text tuple,
      model = some name ∧ version = some text ∧ 46 ∉ name ∧
        versionParse (some text) (fun _ => 0) = .ok tuple := by
  induction calls generalizing th with
  | nil => simp
  | cons c calls ih =>
      obtain ⟨mid, hcall, h⟩ := bind_ok (List.foldlM_cons.symm.trans h)
      rw [List.forall_mem_cons]
      refine ⟨?_, ih h⟩
      rintro model version rfl
      obtain ⟨-, obj, name, text, tuple, hmodel, hversion, hdot, hparse, -⟩ :=
        ovniThreadRequire_ok hcall
      exact ⟨name, text, tuple, hmodel, hversion, hdot, hparse⟩

/-- What a call sets at the path of a model is what it requires. -/
theorem lastSet_call {c : AttrCall ν} (hname : 46 ∉ name)
    (hrequire : c.required = [] → ∀ e ∈ c.sets d, Diverge e.1 (dotPath (ascii "ovni.require")))
    (hsound : ∀ model version, c = .require model version → ∃ name text tuple,
      model = some name ∧ version = some text ∧ 46 ∉ name ∧
        versionParse (some text) (fun _ => 0) = .ok tuple) :
    lastSet (requirePath name) (c.sets d) = (lastSet name c.required).map .string := by
  have hother : c.required = [] →
      lastSet (requirePath name) (c.sets d) = (lastSet name c.required).map .string := by
    intro hnil
    rw [hnil]
    refine lastSet_none fun e he heq => (hrequire hnil e he).2 ?_
    rw [heq]
    exact List.prefix_append _ _
  cases c with
  | require model version =>
      obtain ⟨model, text, tuple, rfl, rfl, hdot, -⟩ := hsound _ _ rfl
      rw [AttrCall.sets, AttrCall.required, Option.getD_some, dotPath_require hdot]
      by_cases heq : model = name
      · subst heq
        simp [lastSet]
      · simp [lastSet, requirePath, heq]
  | _ => exact hother rfl

theorem lastSet_calls (hname : 46 ∉ name) (huser : UserCalls d calls)
    (h : calls.foldlM (attrCall d) th = .ok th') :
    lastSet (requirePath name) (calls.flatMap (AttrCall.sets d)) =
      (lastSet name (calls.flatMap AttrCall.required)).map .string := by
  have hcall : ∀ c ∈ calls,
      lastSet (requirePath name) (c.sets d) = (lastSet name c.required).map .string :=
    fun c hc => lastSet_call hname (huser.require c hc) (attrCalls_required h c hc)
  clear h huser
  induction calls with
  | nil => rfl
  | cons c calls ih =>
      rw [List.forall_mem_cons] at hcall
      rw [List.flatMap_cons, List.flatMap_cons, lastSet_append, lastSet_append, ih hcall.2,
        hcall.1, Option.map_or]

/-- The attributes of the runtime that are no versions are not under that path. -/
theorem ownSets_apart : ∀ e ∈ (initSets d lib proc tid).dropLast ++ freeSets d rank cpus,
    Diverge e.1 (requirePath name) := by
  have hinit : ∀ p ∈ (initSets intNumbers ⟨[], []⟩ ⟨.uninit, 0, [], 0, false⟩ 0).dropLast.map
      Prod.fst, Diverge p (dotPath (ascii "ovni.require")) := by
    decide +kernel
  have hfree : ∀ p ∈ dotPath (ascii "ovni.loom_cpus") :: freePaths,
      Diverge p (dotPath (ascii "ovni.require")) := by
    decide +kernel
  intro e he
  rcases List.mem_append.mp he with he | he
  · exact (hinit e.1 (List.mem_map_of_mem (f := Prod.fst) he)).append _
  · rcases mem_freeSets he with ⟨p, hp, x, rfl⟩ | rfl
    · exact (hfree p (List.mem_cons_of_mem _ hp)).append _
    · exact (hfree _ List.mem_cons_self).append _

theorem initSets_eq : initSets d lib proc tid = (initSets d lib proc tid).dropLast ++
    [(requirePath (ascii "ovni"), .string ovniModelVersion)] := rfl

theorem lastSet_apart {sets : AttrSets ν} {q : List Name} (h : ∀ e ∈ sets, Diverge e.1 q) :
    lastSet q sets = none := by
  refine lastSet_none fun e he heq => (h e he).1 ?_
  rw [heq]

theorem requirePath_apart (model : Name) :
    requirePath model = requirePath name ∨ Diverge (requirePath model) (requirePath name) := by
  by_cases heq : model = name
  · exact Or.inl (by rw [heq])
  · exact Or.inr (diverge_last _ heq)

theorem callSets_apart (huser : UserCalls d calls)
    (h : calls.foldlM (attrCall d) th = .ok th') : ∀ e ∈ calls.flatMap (AttrCall.sets d),
      e.1 = requirePath name ∨ Diverge e.1 (requirePath name) := by
  intro e he
  obtain ⟨c, hc, he⟩ := List.mem_flatMap.mp he
  by_cases hrequired : c.required = []
  · exact Or.inr ((huser.require c hc hrequired e he).append _)
  · cases c with
    | require model version =>
        obtain ⟨model, text, tuple, rfl, rfl, hdot, -⟩ := attrCalls_required h _ hc _ _ rfl
        obtain rfl := List.mem_singleton.mp he
        change dotPath (ascii "ovni.require." ++ model) = _ ∨
          Diverge (dotPath (ascii "ovni.require." ++ model)) _
        rw [dotPath_require hdot]
        exact requirePath_apart model
    | _ => exact absurd rfl hrequired

/-- The version of a model is at its path. -/
theorem life_required (hname : 46 ∉ name) (huser : UserCalls d calls)
    (h : threadMetadata d lib proc tid calls rank cpus = .ok th) :
    jsonShape.getAt th.obj (requirePath name) = (lastRequired calls name).map .string := by
  obtain ⟨th₀, hinit, h'⟩ := bind_ok h
  obtain ⟨th₁, hcalls, -⟩ := bind_ok h'
  have hown : (∀ e ∈ (initSets d lib proc tid).dropLast, Diverge e.1 (requirePath name)) ∧
      ∀ e ∈ freeSets d rank cpus, Diverge e.1 (requirePath name) :=
    List.forall_mem_append.mp ownSets_apart
  have hapart : ∀ e ∈ lifeSets d lib proc tid calls rank cpus,
      e.1 = requirePath name ∨ Diverge e.1 (requirePath name) := by
    rw [lifeSets, initSets_eq]
    simp only [List.forall_mem_append, List.forall_mem_singleton]
    exact ⟨⟨fun e he => Or.inr (hown.1 e he), requirePath_apart _⟩,
      callSets_apart huser hcalls, fun e he => Or.inr (hown.2 e he)⟩
  have hovni : lastSet (requirePath name)
      [(requirePath (ascii "ovni"), (.string ovniModelVersion : Json ν))] =
        (lastSet name [(ascii "ovni", ovniModelVersion)]).map .string := by
    by_cases heq : ascii "ovni" = name
    · subst heq
      simp [lastSet]
    · simp [lastSet, requirePath, heq]
  rw [Shape.getAt_setAll (threadMetadata_ok h).1 hapart, Shape.getAt_nil, Option.or_none, lifeSets,
    initSets_eq, lastSet_append, lastSet_append, lastSet_append, lastSet_apart hown.1,
    lastSet_apart hown.2, lastSet_calls hname huser hcalls, Option.or_none, Option.none_or, hovni,
    ← Option.map_or, ← lastSet_append]
  rfl

theorem lastRequired_nul (huser : UserCalls d calls) {text : Name}
    (h : lastRequired calls name = some text) : 0 ∉ text := by
  rcases List.mem_cons.mp (lastSet_mem h) with heq | hmem
  · obtain rfl := (Prod.mk.inj heq).2
    decide +kernel
  · exact huser.nul _ hmem

/-- The versions in the metadata of a thread are those that it required last. -/
theorem threadRequire_life (huser : UserCalls d calls)
    (h : threadMetadata d lib proc tid calls rank cpus = .ok th) :
    ∃ require, threadRequire th.obj = ⟨some require⟩ ∧
      ∀ name, 46 ∉ name → require name = lastRequired calls name := by
  have hne : dotPath (ascii "ovni.require") ≠ [] := by decide +kernel
  have hget : ∀ name, 46 ∉ name → (((dotgetValue th.obj (ascii "ovni.require")).bind
      Json.getFields).bind fun require => getKey require name) =
        (lastRequired calls name).map .string := by
    intro name hname
    rw [← life_required hname huser h]
    exact (Shape.getAt_append_one hne).symm
  obtain ⟨text, htext⟩ : ∃ text, lastRequired calls (ascii "ovni") = some text := by
    have hsome : (lastRequired calls (ascii "ovni")).isSome = true := by
      rw [lastRequired, show ∀ x : Name × Name, ∀ l, x :: l = [x] ++ l from fun _ _ => rfl,
        lastSet_append, Option.isSome_or]
      simp [lastSet]
    exact Option.isSome_iff_exists.mp hsome
  cases hobj : (dotgetValue th.obj (ascii "ovni.require")).bind Json.getFields with
  | none =>
      have hovni := hget (ascii "ovni") (by decide +kernel)
      rw [hobj, htext] at hovni
      cases hovni
  | some require =>
      refine ⟨_, by rw [threadRequire, hobj]; rfl, fun name hname => ?_⟩
      have hname' := hget name hname
      rw [hobj, Option.bind_some] at hname'
      change ((getKey require name).bind Json.getText).map cString = _
      rw [hname']
      cases hlast : lastRequired calls name with
      | none => rfl
      | some text => exact congrArg some (cString_of_nul (lastRequired_nul huser hlast))

/-- A version that was required last can be parsed. -/
theorem lastRequired_parse (hcalls : calls.foldlM (attrCall d) th = .ok th') {text : Name}
    (h : lastRequired calls name = some text) :
    ∃ want, versionParse (some text) (fun _ => 0) = .ok want := by
  rcases List.mem_cons.mp (lastSet_mem h) with heq | hmem
  · obtain rfl := (Prod.mk.inj heq).2
    exact ⟨_, rfl⟩
  · obtain ⟨c, hc, hmem⟩ := List.mem_flatMap.mp hmem
    cases c with
    | require model version =>
        obtain ⟨model, text', tuple, rfl, rfl, -, hparse⟩ :=
          attrCalls_required hcalls _ hc _ _ rfl
        obtain rfl := (Prod.mk.inj (List.mem_singleton.mp hmem)).2
        exact ⟨tuple, hparse⟩
    | _ => cases hmem

/-- A model of a thread is enabled when the thread requires it, in a version that is compatible
with the one that is offered. -/
theorem shouldEnable_life (hname : 46 ∉ name) (huser : UserCalls d calls)
    (h : threadMetadata d lib proc tid calls rank cpus = .ok th) {offered : Fin 3 → Int} :
    (lastRequired calls name = none ∧
      shouldEnable offered name (some (threadRequire th.obj)) = .ok false) ∨
    ∃ text want, lastRequired calls name = some text ∧
      versionParse (some text) (fun _ => 0) = .ok want ∧
      shouldEnable offered name (some (threadRequire th.obj)) =
        if versionIsCompatible want offered then .ok true
        else .error (.fail "unsupported model version") := by
  obtain ⟨require, hrequire, hlast⟩ := threadRequire_life huser h
  obtain ⟨th₀, hinit, h'⟩ := bind_ok h
  obtain ⟨th₁, hcalls, -⟩ := bind_ok h'
  rw [hrequire]
  cases htext : lastRequired calls name with
  | none =>
      refine Or.inl ⟨rfl, ?_⟩
      simp only [shouldEnable, hlast name hname, htext]
  | some text =>
      obtain ⟨want, hwant⟩ := lastRequired_parse hcalls htext
      refine Or.inr ⟨text, want, rfl, hwant, ?_⟩
      simp only [shouldEnable, hlast name hname, htext, hwant, ok_bind]
      cases versionIsCompatible want offered <;> rfl

theorem enable_fold_eq {offered : Fin 3 → Int} {α : Type} {threads : List α}
    {of : α → Option ThreadMeta} {f : α → Bool}
    (h : ∀ t ∈ threads, shouldEnable offered name (of t) = .ok (f t)) (start : Bool) :
    (threads.map of).foldlM (fun enable t => do
      let ret ← shouldEnable offered name t
      return enable || ret) start = .ok (start || threads.any f) := by
  induction threads generalizing start with
  | nil => simp; rfl
  | cons t threads ih =>
      rw [List.forall_mem_cons] at h
      rw [List.map_cons, List.foldlM_cons, h.1]
      change (threads.map of).foldlM _ (start || f t) = _
      rw [ih h.2, List.any_cons, Bool.or_assoc]

/-- The file of a thread that was freed, with the calls of its user. -/
structure FreedThread (d : Numbers ν) (calls : List (AttrCall ν)) (file : Option Name) : Prop where
  user : UserCalls d calls
  freed : ∃ lib proc tid rank cpus th,
    threadMetadata d lib proc tid calls rank cpus = .ok th ∧ th.file = file

/-- The metadata of a thread that is loaded. -/
def loadedMeta (d : Numbers ν) (file : Option Name) : Option ThreadMeta :=
  (loadJson d file).toOption.map threadRequire

theorem FreedThread.enables (hd : d.Documented) {file : Option Name}
    (h : FreedThread d calls file) (hname : 46 ∉ name) (offered : Fin 3 → Int) :
    (lastRequired calls name = none ∧
      shouldEnable offered name (loadedMeta d file) = .ok false) ∨
    ∃ text want, lastRequired calls name = some text ∧
      versionParse (some text) (fun _ => 0) = .ok want ∧
      shouldEnable offered name (loadedMeta d file) =
        if versionIsCompatible want offered then .ok true
        else .error (.fail "unsupported model version") := by
  obtain ⟨lib, proc, tid, rank, cpus, th, hth, rfl⟩ := h.freed
  have hload := loadJson_life hd hth h.user.settable h.user.apart
  have hread : loadedMeta d th.file = some (threadRequire th.obj) := by
    rw [loadedMeta, hload]
    rfl
  rw [hread]
  exact shouldEnable_life hname h.user hth

/-- The version of a model that the thread requires last can be parsed. -/
theorem FreedThread.parsed {file : Option Name} (h : FreedThread d calls file) {text : Name}
    (htext : lastRequired calls name = some text) :
    ∃ want, versionParse (some text) (fun _ => 0) = .ok want := by
  obtain ⟨lib, proc, tid, rank, cpus, th, hth, -⟩ := h.freed
  obtain ⟨th₀, -, h'⟩ := bind_ok hth
  obtain ⟨th₁, hcalls, -⟩ := bind_ok h'
  exact lastRequired_parse hcalls htext

/-- A model of the thread is enabled if it is required, unless its version is not compatible. -/
theorem FreedThread.enabled_iff (hd : d.Documented) {file : Option Name}
    (h : FreedThread d calls file) (hname : 46 ∉ name) {offered : Fin 3 → Int} {ret : Bool} :
    shouldEnable offered name (loadedMeta d file) = .ok ret ↔
      (∀ text want, lastRequired calls name = some text →
        versionParse (some text) (fun _ => 0) = .ok want →
          versionIsCompatible want offered = true) ∧
      ret = (lastRequired calls name).isSome := by
  rcases h.enables hd hname offered with ⟨hnone, heq⟩ | ⟨text, want, htext, hwant, heq⟩
  · rw [heq, hnone]
    constructor
    · intro hret
      exact ⟨by simp, (Except.ok.inj hret).symm⟩
    · rintro ⟨-, rfl⟩
      rfl
  · rw [heq, htext]
    constructor
    · intro hret
      split at hret
      · refine ⟨?_, (Except.ok.inj hret).symm⟩
        rintro _ want' ⟨⟩ hwant'
        obtain rfl := Except.ok.inj (hwant.symm.trans hwant')
        assumption
      · cases hret
    · rintro ⟨hall, rfl⟩
      exact if_pos (hall text want rfl hwant)

/-- The models of a trace of threads that were freed.  The version of a model that a thread
requires last can always be parsed, and so the probe of the model only fails when such a version
is not compatible with the one that is offered.  Else the model is enabled exactly when a thread
requires it. -/
theorem required_models (hd : d.Documented) {threads : List (List (AttrCall ν) × Option Name)}
    (hthreads : ∀ t ∈ threads, FreedThread d t.1 t.2) {version : Name} {offered : Fin 3 → Int}
    (hversion : versionParse (some version) (fun _ => 0) = .ok offered) (hname : 46 ∉ name)
    (hlen : (name ++ ascii ".version").length < 128) :
    (∀ t ∈ threads, ∀ text, lastRequired t.1 name = some text →
      ∃ want, versionParse (some text) (fun _ => 0) = .ok want) ∧
    ∀ enable, modelVersionProbe name version (threads.map fun t => loadedMeta d t.2) = .ok enable ↔
      (∀ t ∈ threads, ∀ text want, lastRequired t.1 name = some text →
        versionParse (some text) (fun _ => 0) = .ok want →
          versionIsCompatible want offered = true) ∧
      enable = threads.any fun t => (lastRequired t.1 name).isSome := by
  have hprobe : (∀ t ∈ threads, ∀ text want, lastRequired t.1 name = some text →
      versionParse (some text) (fun _ => 0) = .ok want →
        versionIsCompatible want offered = true) →
      modelVersionProbe name version (threads.map fun t => loadedMeta d t.2) =
        .ok (threads.any fun t => (lastRequired t.1 name).isSome) := by
    intro hall
    have hfold := enable_fold_eq
      (fun t ht => ((hthreads t ht).enabled_iff hd hname).mpr ⟨hall t ht, rfl⟩) false
    rw [Bool.false_or] at hfold
    rw [modelVersionProbe, hversion]
    exact guard_iff.mpr ⟨by omega, hfold⟩
  refine ⟨fun t ht text htext => (hthreads t ht).parsed htext, fun enable => ⟨fun h => ?_, ?_⟩⟩
  · obtain ⟨offered', hoffered, hok, -⟩ := modelVersionProbe_ok h
    obtain rfl := Except.ok.inj (hversion.symm.trans hoffered)
    rw [List.forall_mem_map] at hok
    have hall : ∀ t ∈ threads, ∀ text want, lastRequired t.1 name = some text →
        versionParse (some text) (fun _ => 0) = .ok want →
          versionIsCompatible want offered = true := by
      intro t ht
      obtain ⟨ret, hret⟩ := hok t ht
      exact (((hthreads t ht).enabled_iff hd hname).mp hret).1
    exact ⟨hall, Except.ok.inj (h.symm.trans (hprobe hall))⟩
  · rintro ⟨hall, rfl⟩
    exact hprobe hall

theorem demoAttrs_user : UserCalls intNumbers demoAttrs where
  settable := demoAttrs_settable
  apart := demoAttrs_apart
  require := by
    simp only [demoAttrs, List.forall_mem_cons, AttrCall.required]
    refine ⟨fun _ => ?_, fun _ => ?_, fun h => ?_, fun _ => ?_, fun _ => ?_, by simp⟩
    · decide +kernel
    · decide +kernel
    · cases h
    · decide +kernel
    · decide +kernel
  nul := by decide +kernel

/-- A thread that requires a model twice. -/
def demoTwice : List (AttrCall Int) :=
  [.require (some (ascii "nosv")) (some (ascii "2.3.0")),
    .require (some (ascii "nosv")) (some (ascii "2.5.0"))]

theorem demoTwice_sets : demoTwice.flatMap (AttrCall.sets intNumbers) =
    [([ascii "ovni", ascii "require", ascii "nosv"], .string (ascii "2.3.0")),
      ([ascii "ovni", ascii "require", ascii "nosv"], .string (ascii "2.5.0"))] := by
  rfl

theorem demoTwice_user : UserCalls intNumbers demoTwice where
  settable := by
    rw [demoTwice_sets]
    simp only [List.forall_mem_cons]
    refine ⟨.scalar ?_ ?_ (.string _), .scalar ?_ ?_ (.string _), by simp⟩
    all_goals decide +kernel
  apart := by
    rw [demoTwice_sets]
    decide +kernel
  require := by simp [demoTwice, AttrCall.required]
  nul := by decide +kernel

theorem demoNone_user : UserCalls intNumbers [] := by
  refine ⟨?_, ?_, ?_, ?_⟩ <;> simp

theorem freed_of_run {calls : List (AttrCall Int)} (tid : Int) (huser : UserCalls intNumbers calls)
    (hrun : (threadMetadata intNumbers demoLib demoRproc tid calls none []).toOption.isSome =
      true) :
    ∃ file, FreedThread intNumbers calls file := by
  cases h : threadMetadata intNumbers demoLib demoRproc tid calls none [] with
  | error e =>
      rw [h] at hrun
      cases hrun
  | ok th => exact ⟨th.file, huser, _, _, _, _, _, th, h, rfl⟩

/-- The version that is offered is compatible with the one that is wanted. -/
def offers (want offered : Name) : Bool :=
  (versionParse (some want) fun _ => 0).toOption.any fun want =>
    (versionParse (some offered) fun _ => 0).toOption.any fun offered =>
      versionIsCompatible want offered

theorem offers_eq {text version : Name} {want offered : Fin 3 → Int}
    (hwant : versionParse (some text) (fun _ => 0) = .ok want)
    (hoffered : versionParse (some version) (fun _ => 0) = .ok offered) :
    offers text version = versionIsCompatible want offered := by
  rw [offers, hwant, hoffered]
  rfl

/-- Of three threads, one requires `nosv` 2.4.0, one 2.3.0 and then 2.5.0, and one nothing: it is
enabled in the version 2.5.1, and refused in 2.4.9. -/
theorem required_models_demo : ∃ one two three, FreedThread intNumbers demoAttrs one ∧
    FreedThread intNumbers demoTwice two ∧ FreedThread intNumbers [] three ∧
    (∃ want, versionParse (lastRequired demoTwice (ascii "nosv")) (fun _ => 0) = .ok want) ∧
    modelVersionProbe (ascii "nosv") (ascii "2.5.1")
      ([one, two, three].map (loadedMeta intNumbers)) = .ok true ∧
    ∀ enable, modelVersionProbe (ascii "nosv") (ascii "2.4.9")
      ([one, two, three].map (loadedMeta intNumbers)) ≠ .ok enable := by
  obtain ⟨one, hone⟩ := freed_of_run 21 demoAttrs_user (by decide +kernel)
  obtain ⟨two, htwo⟩ := freed_of_run 22 demoTwice_user (by decide +kernel)
  obtain ⟨three, hthree⟩ := freed_of_run 23 demoNone_user (by decide +kernel)
  have hthreads : ∀ t ∈ [(demoAttrs, one), (demoTwice, two), ([], three)],
      FreedThread intNumbers t.1 t.2 := by
    simp only [List.forall_mem_cons]
    exact ⟨hone, htwo, hthree, by simp⟩
  have hlast1 : lastRequired demoAttrs (ascii "nosv") = some (ascii "2.4.0") := rfl
  have hlast2 : lastRequired demoTwice (ascii "nosv") = some (ascii "2.5.0") := rfl
  have hlast3 : lastRequired ([] : List (AttrCall Int)) (ascii "nosv") = none := rfl
  have hdot : 46 ∉ ascii "nosv" := by decide +kernel
  obtain ⟨new, hnew⟩ : ∃ new, versionParse (some (ascii "2.5.1")) (fun _ => 0) = .ok new :=
    ⟨_, rfl⟩
  obtain ⟨old, hold⟩ : ∃ old, versionParse (some (ascii "2.4.9")) (fun _ => 0) = .ok old :=
    ⟨_, rfl⟩
  obtain ⟨hwants, hprobe⟩ := required_models intNumbers_documented hthreads hnew hdot
    (by decide +kernel)
  have hprobe' := (required_models intNumbers_documented hthreads hold hdot (by decide +kernel)).2
  refine ⟨one, two, three, hone, htwo, hthree, ?_, (hprobe true).mpr ⟨?_, rfl⟩, fun enable h => ?_⟩
  · rw [hlast2]
    exact hwants (demoTwice, two) (by simp) _ hlast2
  · simp only [List.forall_mem_cons, hlast1, hlast2, hlast3]
    refine ⟨fun text want htext hwant => ?_, fun text want htext hwant => ?_, by simp⟩
    · obtain rfl := Option.some.inj htext
      rw [← offers_eq hwant hnew]
      decide +kernel
    · obtain rfl := Option.some.inj htext
      rw [← offers_eq hwant hnew]
      decide +kernel
  · obtain ⟨want, hwant⟩ := hwants (demoTwice, two) (by simp) _ hlast2
    have hcompat := ((hprobe' enable).mp h).1 (demoTwice, two) (by simp) _ want hlast2 hwant
    rw [← offers_eq hwant hold] at hcompat
    exact absurd hcompat (by decide +kernel)

end

end Ovni
