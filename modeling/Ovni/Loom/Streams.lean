import Ovni.Loom.Parts

/-!
# Merging the metadata of the streams

A stream can be added when its metadata is well formed and agrees with the streams added
before: with those of its loom on the CPUs, with those of its process on the rest.  The
looms that result are known from the streams, whatever their order was.
-/

namespace Ovni

/-! ## The looms -/

def NameFits (name : Name) : Prop := 47 ∉ name ∧ name.length < pathMax

/-- What a stream must say, its loom apart. -/
structure StreamFits (s : StreamMeta) : Prop where
  name : ∀ name, s.loom = some name → NameFits name
  cpus : s.loomCpus ≠ some []
  cpu : ∀ item ∈ metaCpus s, CpuFits item
  cpuPair : (metaCpus s).Pairwise CpuAgree
  proc : ProcFits s

/-- Two streams of the same loom. -/
structure LoomAgree (s s' : StreamMeta) : Prop where
  cpu : ∀ item ∈ metaCpus s, ∀ item' ∈ metaCpus s', CpuAgree item item'
  proc : s.pid = s'.pid → ProcAgree s s'

/-- The loom is what the streams say of it. -/
structure LoomOk (items : List StreamMeta) (loom : Loom) : Prop where
  name : NameFits loom.name
  rankEnabled : loom.rankEnabled = false
  rankMin : loom.rankMin = intMax
  cpusArray : loom.cpusArray = []
  cpus : CpusOk (items.flatMap metaCpus) loom
  procs : Lib.Parts StreamMeta.pid Proc.pid ProcOk items loom.procs

/-- The loom of a stream, a new one if there is none. -/
def loomGet (name : Name) : Option Loom → Except EmuFault Loom
  | some loom => .ok loom
  | none => loomInitBegin name

/-- The process of a stream put in its loom. -/
def procsStep : List Proc → StreamMeta → Except EmuFault (List Proc) :=
  Lib.putPart StreamMeta.pid Proc.pid procStep (.fail "cannot get attribute ovni.pid for stream")

/-- What a stream does with its loom. -/
def loomStep (name : Name) (o : Option Loom) (s : StreamMeta) : Except EmuFault Loom := do
  let loom ← loomGet name o
  let loom ← loadCpus loom s
  let procs ← procsStep loom.procs s
  return { loom with procs }

section

variable {loom loom' : Loom} {s : StreamMeta} {items : List StreamMeta} {name : Name}
variable {o : Option Loom}

theorem procsStep_eq (loom : Loom) (s : StreamMeta) : procsStep loom.procs s = (do
    let proc ← createProc loom s
    let proc ← createThread proc s
    return Lib.put Proc.pid proc loom.procs) := by
  unfold procsStep createProc Lib.putPart procStep
  cases s.pid with
  | none => rfl
  | some pid =>
      by_cases hpid : pid < 0
      · simp only [hpid, if_true]
        rfl
      · simp only [hpid, if_false, bind_assoc]

theorem addStream_eq (looms : List Loom) (s : StreamMeta) : addStream looms s =
    Lib.putPart StreamMeta.loom Loom.name loomStep
      (.fail "cannot get attribute ovni.loom for stream") looms s := by
  unfold addStream createLoom Lib.putPart
  cases s.loom with
  | none => rfl
  | some name =>
      have hproc : ∀ loom : Loom, (do
          let proc ← createProc loom s
          let proc ← createThread proc s
          return Lib.put Loom.name { loom with procs := Lib.put Proc.pid proc loom.procs } looms) =
          (do
          let procs ← procsStep loom.procs s
          return Lib.put Loom.name { loom with procs } looms : Except EmuFault (List Loom)) := by
        intro loom
        rw [procsStep_eq]
        simp only [bind_assoc, pure_bind]
      simp only [hproc, loomStep, bind_assoc, pure_bind]
      cases looms.find? fun loom => loom.name = name with
      | none => exact bind_assoc _ _ _
      | some loom => exact bind_assoc _ _ _

theorem loomInitBegin_ok_iff : loomInitBegin name = .ok loom ↔ NameFits name ∧
    loom = { name, rankEnabled := false, rankMin := intMax, cpus := [],
             vcpu := { index := -1, phyid := -1, isVirtual := true }, procs := [],
             cpusArray := [] } := by
  unfold loomInitBegin NameFits
  constructor
  · intro h
    obtain ⟨hslash, h⟩ := Lib.guard_ok h
    obtain ⟨hlong, h⟩ := Lib.guard_ok h
    cases h
    exact ⟨⟨by simpa using hslash, by omega⟩, rfl⟩
  · rintro ⟨⟨hslash, hlong⟩, rfl⟩
    have hlong' : ¬ name.length ≥ pathMax := by omega
    simp only [List.contains_iff_mem, hslash, hlong', if_false]
    rfl

theorem loomGet_ok_iff (hpart : Lib.PartOk Loom.name LoomOk name items o) :
    (∃ loom, loomGet name o = .ok loom) ↔ NameFits name := by
  cases o with
  | none =>
      simp only [loomGet, loomInitBegin_ok_iff]
      exact ⟨fun ⟨_, h, _⟩ => h, fun h => ⟨_, h, rfl⟩⟩
  | some loom =>
      obtain ⟨rfl, hok⟩ := hpart
      exact ⟨fun _ => hok.name, fun _ => ⟨loom, rfl⟩⟩

theorem loomGet_kept (hpart : Lib.PartOk Loom.name LoomOk name items o)
    (h : loomGet name o = .ok loom) : loom.name = name ∧ LoomOk items loom := by
  cases o with
  | none =>
      obtain ⟨hname, rfl⟩ := loomInitBegin_ok_iff.mp h
      rw [show items = [] from hpart]
      refine ⟨rfl, hname, rfl, rfl, rfl, ⟨rfl, ?_, .nil, ?_, ?_⟩, Lib.Parts.nil _ _ _⟩
      · simp
      · simp
      · simp
  | some loom =>
      cases h
      exact hpart

theorem procsStep_merges : Lib.Merges procsStep (Lib.Parts StreamMeta.pid Proc.pid ProcOk)
    (fun s => s.pid.isSome ∧ ProcFits s) (fun j s => j.pid = s.pid → ProcAgree j s) :=
  procStep_merges.merges _

theorem loomStep_ok_iff : loomStep name o s = .ok loom' ↔
    ∃ loom₀ loom₁ procs, loomGet name o = .ok loom₀ ∧ loadCpus loom₀ s = .ok loom₁ ∧
      procsStep loom₁.procs s = .ok procs ∧ loom' = { loom₁ with procs } := by
  unfold loomStep
  constructor
  · intro h
    obtain ⟨loom₀, hget, h⟩ := Lib.bind_ok h
    obtain ⟨loom₁, hload, h⟩ := Lib.bind_ok h
    obtain ⟨procs, hprocs, h⟩ := Lib.bind_ok h
    cases h
    exact ⟨loom₀, loom₁, procs, hget, hload, hprocs, rfl⟩
  · rintro ⟨loom₀, loom₁, procs, hget, hload, hprocs, rfl⟩
    rw [hget]
    change (loadCpus loom₀ s >>= _) = _
    rw [hload]
    change (procsStep loom₁.procs s >>= _) = _
    rw [hprocs]
    rfl

/-- Loading the CPUs keeps everything else that is known of the loom. -/
theorem LoomOk.load (h : LoomOk items loom) (hload : loadCpus loom s = .ok loom') :
    loom'.name = loom.name ∧ loom'.procs = loom.procs ∧
      NameFits loom'.name ∧ loom'.rankEnabled = false ∧ loom'.rankMin = intMax ∧
      loom'.cpusArray = [] := by
  have hrest := loadCpus_rest hload []
  injection hrest with hname henabled hmin _ _ hprocs harray
  rw [hname, hprocs, henabled, hmin, harray]
  exact ⟨rfl, rfl, h.name, h.rankEnabled, h.rankMin, h.cpusArray⟩

/-- Adding a stream to its loom is a merge. -/
theorem loomStep_merges :
    Lib.PartMerges StreamMeta.loom Loom.name loomStep LoomOk StreamFits LoomAgree where
  ok_iff := by
    intro items o s name hname hpart
    constructor
    · rintro ⟨loom', hstep⟩
      obtain ⟨loom₀, loom₁, procs, hget, hload, hprocs, -⟩ := loomStep_ok_iff.mp hstep
      obtain ⟨hkey, hok⟩ := loomGet_kept hpart hget
      obtain ⟨hcpus, hcpu, hpair, hold⟩ := (loadCpus_ok_iff hok.cpus).mp ⟨loom₁, hload⟩
      rw [(hok.load hload).2.1] at hprocs
      obtain ⟨hfits, hagree⟩ := (procsStep_merges.ok_iff hok.procs).mp ⟨procs, hprocs⟩
      refine ⟨⟨fun n hn => ?_, hcpus, hcpu, hpair, hfits.2⟩, fun j hj => ⟨?_, hagree j hj⟩⟩
      · rw [hname] at hn
        cases hn
        exact (loomGet_ok_iff hpart).mp ⟨loom₀, hget⟩
      · exact fun item hitem item' hitem' =>
          hold item' hitem' item (List.mem_flatMap.mpr ⟨j, hj, hitem⟩)
    · rintro ⟨hfits, hagree⟩
      obtain ⟨loom₀, hget⟩ := (loomGet_ok_iff hpart).mpr (hfits.name name hname)
      obtain ⟨-, hok⟩ := loomGet_kept hpart hget
      have hcpu : ∃ loom₁, loadCpus loom₀ s = .ok loom₁ := by
        refine (loadCpus_ok_iff hok.cpus).mpr ⟨hfits.cpus, hfits.cpu, hfits.cpuPair, ?_⟩
        intro item hitem item' hitem'
        obtain ⟨j, hj, hitem'⟩ := List.mem_flatMap.mp hitem'
        exact (hagree j hj).cpu item' hitem' item hitem
      obtain ⟨loom₁, hload⟩ := hcpu
      have hpid : s.pid.isSome := by
        obtain ⟨pid, hpid, -⟩ := hfits.proc.pid
        rw [hpid]
        rfl
      obtain ⟨procs, hprocs⟩ := (procsStep_merges.ok_iff hok.procs).mpr
        ⟨⟨hpid, hfits.proc⟩, fun j hj => (hagree j hj).proc⟩
      rw [← (hok.load hload).2.1] at hprocs
      exact ⟨_, loomStep_ok_iff.mpr ⟨loom₀, loom₁, procs, hget, hload, hprocs, rfl⟩⟩
  kept := by
    intro items o s name loom' hname hpart hstep
    obtain ⟨loom₀, loom₁, procs, hget, hload, hprocs, rfl⟩ := loomStep_ok_iff.mp hstep
    obtain ⟨hkey, hok⟩ := loomGet_kept hpart hget
    obtain ⟨hname₁, hprocs₁, hfits, henabled, hmin, harray⟩ := hok.load hload
    have hcpus := loadCpus_kept hok.cpus hload
    rw [hprocs₁] at hprocs
    refine ⟨hname₁.trans hkey, hfits, henabled, hmin, harray, ?_,
      procsStep_merges.kept hok.procs hprocs⟩
    rw [List.flatMap_append, List.flatMap_singleton]
    exact ⟨hcpus.vcpu, hcpus.fits, hcpus.nodup, hcpus.given, hcpus.all⟩

end

/-! ## The trace -/

/-- The looms are what the thread streams say of them. -/
def SystemOk : List StreamMeta → List Loom → Prop :=
  Lib.Parts StreamMeta.loom Loom.name LoomOk

/-- The metadata of a thread stream. -/
def threadStream (o : Option StreamMeta) : Option StreamMeta :=
  o.filter fun s => s.part = some "thread"

/-- The streams that are not of a thread only need a part. -/
def TraceFits (o : Option StreamMeta) : Prop :=
  (∃ s, o = some s ∧ s.part.isSome) ∧
    ∀ s, threadStream o = some s → s.loom.isSome ∧ StreamFits s

def TraceAgree (o o' : Option StreamMeta) : Prop :=
  ∀ s s', threadStream o = some s → threadStream o' = some s' → s.loom = s'.loom →
    LoomAgree s s'

/-- What `create_system` does with one stream of the trace. -/
def traceStep (looms : List Loom) (o : Option StreamMeta) : Except EmuFault (List Loom) := do
  match ← isThreadStream o with
  | none => return looms
  | some s => addStream looms s

section

variable {o : Option StreamMeta} {s s' : StreamMeta} {trace trace' : List (Option StreamMeta)}
variable {looms looms' : List Loom} {items : List StreamMeta}

theorem isThreadStream_ok_iff {r : Option StreamMeta} : isThreadStream o = .ok r ↔
    (∃ s, o = some s ∧ s.part.isSome) ∧ r = threadStream o := by
  unfold isThreadStream threadStream
  cases o with
  | none =>
      constructor
      · rintro ⟨⟩
      · rintro ⟨⟨s, h, -⟩, -⟩
        cases h
  | some s =>
      cases hpart : s.part with
      | none =>
          constructor
          · simp only [hpart]
            rintro ⟨⟩
          · rintro ⟨⟨s', h, hsome⟩, -⟩
            cases h
            rw [hpart] at hsome
            cases hsome
      | some part =>
          have hfilter : (some s).filter (fun s => s.part = some "thread") =
              if part = "thread" then some s else none := by
            simp [Option.filter, hpart]
          simp only [hpart, hfilter]
          constructor
          · rintro ⟨⟩
            exact ⟨⟨s, rfl, by rw [hpart]; rfl⟩, rfl⟩
          · rintro ⟨-, rfl⟩
            rfl

theorem addStream_merges : Lib.Merges addStream SystemOk
    (fun s => s.loom.isSome ∧ StreamFits s) (fun j s => j.loom = s.loom → LoomAgree j s) := by
  have heq : addStream = Lib.putPart StreamMeta.loom Loom.name loomStep
      (.fail "cannot get attribute ovni.loom for stream") := by
    funext looms s
    exact addStream_eq looms s
  rw [heq]
  exact loomStep_merges.merges _

theorem traceStep_ok_iff : traceStep looms o = .ok looms' ↔
    (∃ s, o = some s ∧ s.part.isSome) ∧
      (threadStream o = none ∧ looms' = looms ∨
       ∃ s, threadStream o = some s ∧ addStream looms s = .ok looms') := by
  unfold traceStep
  constructor
  · intro h
    obtain ⟨r, hr, h⟩ := Lib.bind_ok h
    obtain ⟨hpart, rfl⟩ := isThreadStream_ok_iff.mp hr
    refine ⟨hpart, ?_⟩
    cases hs : threadStream o with
    | none =>
        rw [hs] at h
        cases h
        exact Or.inl ⟨rfl, rfl⟩
    | some s =>
        rw [hs] at h
        exact Or.inr ⟨s, rfl, h⟩
  · rintro ⟨hpart, ⟨hs, rfl⟩ | ⟨s, hs, hadd⟩⟩
    · rw [isThreadStream_ok_iff.mpr ⟨hpart, rfl⟩, hs]
      rfl
    · rw [isThreadStream_ok_iff.mpr ⟨hpart, rfl⟩, hs]
      exact hadd

theorem filterMap_append_one {l : List (Option StreamMeta)} (hs : threadStream o = some s) :
    (l ++ [o]).filterMap threadStream = l.filterMap threadStream ++ [s] := by
  rw [List.filterMap_append]
  simp [hs]

/-- `create_system` merges the streams of the trace. -/
theorem traceStep_merges : Lib.Merges traceStep
    (fun items => SystemOk (items.filterMap threadStream)) TraceFits TraceAgree where
  ok_iff := by
    intro items looms o h
    constructor
    · rintro ⟨looms', hstep⟩
      obtain ⟨hpart, ⟨hs, -⟩ | ⟨s, hs, hadd⟩⟩ := traceStep_ok_iff.mp hstep
      · refine ⟨⟨hpart, fun s hs' => ?_⟩, fun j _ s s' _ hs' => ?_⟩
        · rw [hs] at hs'
          cases hs'
        · rw [hs] at hs'
          cases hs'
      · obtain ⟨hfits, hagree⟩ := (addStream_merges.ok_iff h).mp ⟨looms', hadd⟩
        refine ⟨⟨hpart, fun s' hs' => ?_⟩, fun j hj t s' ht hs' => ?_⟩
        · rw [hs] at hs'
          cases hs'
          exact hfits
        · rw [hs] at hs'
          cases hs'
          exact hagree t (List.mem_filterMap.mpr ⟨j, hj, ht⟩)
    · rintro ⟨⟨hpart, hfits⟩, hagree⟩
      cases hs : threadStream o with
      | none => exact ⟨looms, traceStep_ok_iff.mpr ⟨hpart, .inl ⟨hs, rfl⟩⟩⟩
      | some s =>
          have hadd : ∃ looms', addStream looms s = .ok looms' := by
            refine (addStream_merges.ok_iff h).mpr ⟨hfits s hs, fun t ht => ?_⟩
            obtain ⟨j, hj, ht⟩ := List.mem_filterMap.mp ht
            exact hagree j hj t s ht hs
          obtain ⟨looms', hadd⟩ := hadd
          exact ⟨looms', traceStep_ok_iff.mpr ⟨hpart, .inr ⟨s, hs, hadd⟩⟩⟩
  kept := by
    intro items looms o looms' h hstep
    obtain ⟨-, ⟨hs, rfl⟩ | ⟨s, hs, hadd⟩⟩ := traceStep_ok_iff.mp hstep
    · rw [List.filterMap_append]
      simpa [hs] using h
    · rw [filterMap_append_one hs]
      exact addStream_merges.kept h hadd

theorem ProcAgree.symm (h : ProcAgree s s') : ProcAgree s' s where
  tid := h.tid.symm
  appid := fun a a' ha ha' => (h.appid a' a ha' ha).symm
  rank := fun r r' hr hr' => (h.rank r' r hr' hr).symm

theorem LoomAgree.symm (h : LoomAgree s s') : LoomAgree s' s where
  cpu := fun item hitem item' hitem' index index' phyid heq heq' =>
    (h.cpu item' hitem' item hitem index' index phyid heq' heq).symm
  proc := fun hpid => (h.proc hpid.symm).symm

theorem TraceAgree.symm {o o' : Option StreamMeta} (h : TraceAgree o o') : TraceAgree o' o :=
  fun s s' hs hs' hloom => (h s' s hs' hs hloom.symm).symm

theorem createSystem_kept (h : createSystem trace = .ok looms) :
    SystemOk (trace.filterMap threadStream) looms := by
  have hnil : SystemOk (([] : List (Option StreamMeta)).filterMap threadStream) [] :=
    Lib.Parts.nil _ _ _
  have hkept := traceStep_merges.fold_kept hnil h
  rwa [List.nil_append] at hkept

/-- The order of the streams does not decide whether they can be merged. -/
theorem createSystem_ok_perm (hperm : trace.Perm trace') (h : createSystem trace = .ok looms) :
    ∃ looms', createSystem trace' = .ok looms' :=
  traceStep_merges.fold_ok_perm (fun _ _ => TraceAgree.symm) (Lib.Parts.nil _ _ _) hperm
    ⟨looms, h⟩

end

end Ovni
