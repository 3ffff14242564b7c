import Mathlib.Data.Set.Function
import Mathlib.Order.Interval.Set.Basic
import Ovni.Loom.Order

/-!
# The system of a trace

The looms, processes, threads and CPUs that `system_init` makes from the streams of a
trace and the global indices it gives them, for two orders of the same streams.
-/

namespace Ovni

/-! ## Global indices -/

/-- Each element of the list is there once, and the indices are a bijection to those
below its length. -/
def Indexed {α κ : Type} (key : α → κ) (l : List (α × Nat)) : Prop :=
  (l.map fun p => key p.1).Nodup ∧ Set.BijOn Prod.snd {p | p ∈ l} (Set.Iio l.length)

theorem indexed_zipIdx {α κ : Type} {key : α → κ} {l : List α} (hnodup : (l.map key).Nodup) :
    Indexed key l.zipIdx := by
  have hmem : ∀ {p : α × Nat}, p ∈ l.zipIdx ↔ l[p.2]? = some p.1 := List.mem_zipIdx_iff_getElem?
  refine ⟨?_, fun p hp => ?_, fun p hp q hq heq => ?_, fun i hi => ?_⟩
  · have hfst : (l.zipIdx.map fun p => key p.1) = l.map key := by
      rw [← Function.comp_def, ← List.map_map, List.zipIdx_map_fst]
    rw [hfst]
    exact hnodup
  · rw [Set.mem_Iio, List.length_zipIdx]
    exact (List.getElem?_eq_some_iff.mp (hmem.mp hp)).1
  · have hp' := hmem.mp hp
    rw [heq, hmem.mp hq] at hp'
    exact Prod.ext (Option.some.inj hp').symm heq
  · rw [Set.mem_Iio, List.length_zipIdx] at hi
    exact ⟨(l[i], i), hmem.mpr (List.getElem?_eq_getElem hi), rfl⟩

section

variable {looms : List Loom} {items : List StreamMeta} {loom : Loom}

/-- The keys of the global lists. -/
def procKey (p : Name × Proc) : Name × Int := (p.1, p.2.pid)

def cpuKey (c : Name × LoomCpu) : Name × Int := (c.1, c.2.phyid)

theorem nodup_flatMap_name {α : Type} {f : Loom → List (Name × α)}
    (hnames : (looms.map Loom.name).Nodup) (hf : ∀ l ∈ looms, (f l).Nodup)
    (hname : ∀ l ∈ looms, ∀ x ∈ f l, x.1 = l.name) : (looms.flatMap f).Nodup := by
  refine List.nodup_flatMap.mpr ⟨hf, ?_⟩
  refine (List.pairwise_map.mp hnames).imp_of_mem fun {l l'} hl hl' hne => ?_
  intro x hx hx'
  exact hne ((hname l hl x hx).symm.trans (hname l' hl' x hx'))

theorem SystemOk.nodup_threads (h : SystemOk items looms) : (globalThreads looms).Nodup := by
  refine nodup_flatMap_name h.nodup (fun l hl => ?_) fun l _ x hx => ?_
  · have hok := h.ok l hl
    refine List.nodup_flatMap.mpr ⟨fun p hp => ?_, ?_⟩
    · apply (hok.procs.ok p hp).nodup.map
      intro t t' heq
      simpa using heq
    · refine (List.pairwise_map.mp hok.procs.nodup).imp fun {p p'} hne => ?_
      intro x hx hx'
      obtain ⟨t, -, rfl⟩ := List.mem_map.mp hx
      obtain ⟨t', -, heq⟩ := List.mem_map.mp hx'
      injection heq with _ heq
      injection heq with heq
      exact hne heq.symm
  · obtain ⟨p, -, hx⟩ := List.mem_flatMap.mp hx
    obtain ⟨t, -, rfl⟩ := List.mem_map.mp hx
    rfl

theorem SystemOk.nodup_procs (h : SystemOk items looms) :
    ((globalProcs looms).map procKey).Nodup := by
  rw [globalProcs, List.map_flatMap]
  refine nodup_flatMap_name h.nodup (fun l hl => ?_) fun l _ x hx => ?_
  · rw [List.map_map]
    have hmap : l.procs.map (procKey ∘ fun p => (l.name, p)) =
        (l.procs.map Proc.pid).map fun pid => (l.name, pid) := by
      rw [List.map_map]
      rfl
    rw [hmap]
    exact (h.ok l hl).procs.nodup.map fun a b heq => by simpa using heq
  · rw [List.map_map] at hx
    obtain ⟨p, -, rfl⟩ := List.mem_map.mp hx
    rfl

theorem SystemOk.nodup_cpus (h : SystemOk items looms) :
    ((globalCpus looms).map cpuKey).Nodup := by
  rw [globalCpus, List.map_flatMap]
  refine nodup_flatMap_name h.nodup (fun l hl => ?_) fun l _ x hx => ?_
  · have hok := (h.ok l hl).cpus
    have hmap : ((l.cpus ++ [l.vcpu]).map fun c => (l.name, c)).map cpuKey =
        (l.cpus.map LoomCpu.phyid ++ [l.vcpu.phyid]).map fun phyid => (l.name, phyid) := by
      simp [cpuKey, Function.comp_def]
    rw [hmap]
    refine List.Nodup.map (fun a b heq => by simpa using heq) ?_
    refine List.nodup_append.mpr ⟨hok.nodup, by simp, fun p hp q hq heq => ?_⟩
    obtain ⟨c, hc, rfl⟩ := List.mem_map.mp hp
    have hneg : q = -1 := by
      rw [List.mem_singleton.mp hq, hok.vcpu]
    have hnonneg := hok.phyid_nonneg hc
    omega
  · rw [List.map_map] at hx
    obtain ⟨c, -, rfl⟩ := List.mem_map.mp hx
    rfl

end

/-! ## The steps of `system_init` -/

/-- The looms with their ranks. -/
def rankLooms (looms : List Loom) : List Loom := looms.map rankLoom

/-- Whether `set_sort_criteria` sorts the looms by rank. -/
def allRanked (looms : List Loom) : Bool := (rankLooms looms).all Loom.rankEnabled

/-- The looms after `sort_lpt`. -/
def sortedLooms (looms : List Loom) : List Loom := sortLpt (rankLooms looms) (allRanked looms)

/-- A loom without the array that `loom_init_end` fills. -/
def loomRest (loom : Loom) : Loom := { loom with cpusArray := [] }

section

variable {looms looms' : List Loom} {sys sys' : SystemInit}
variable {trace trace' : List (Option StreamMeta)} {items items' : List StreamMeta} {loom : Loom}

theorem initEndSystem_ok_iff : (∃ sys', initEndSystem sys = .ok sys') ↔
    ∀ p ∈ sys.looms, EndOk p.1 := by
  have hstep : ∀ p : Loom × Nat, (∃ q, (do
      let loom ← initEndLoom p.1
      return (loom, p.2) : Except EmuFault (Loom × Nat)) = .ok q) ↔ EndOk p.1 := by
    intro p
    constructor
    · rintro ⟨q, h⟩
      obtain ⟨loom, hloom, -⟩ := Lib.bind_ok h
      exact (initEndLoom_ok hloom).1
    · intro h
      obtain ⟨loom, hloom⟩ := initEndLoom_of_ok h
      exact ⟨(loom, p.2), by rw [hloom]; rfl⟩
  simp only [← hstep]
  rw [← Lib.mapM_ok_iff]
  unfold initEndSystem
  constructor
  · rintro ⟨sys', h⟩
    obtain ⟨looms, hlooms, -⟩ := Lib.bind_ok h
    exact ⟨looms, hlooms⟩
  · rintro ⟨looms, hlooms⟩
    exact ⟨{ sys with looms }, by rw [hlooms]; rfl⟩

/-- `init_end_system` only sets the arrays of CPUs. -/
theorem initEndSystem_ok (h : initEndSystem sys = .ok sys') :
    (∃ looms, sys' = { sys with looms }) ∧
      (sys'.looms.map fun p => (loomRest p.1, p.2)) =
        sys.looms.map fun p => (loomRest p.1, p.2) := by
  unfold initEndSystem at h
  obtain ⟨looms, hlooms, h⟩ := Lib.bind_ok h
  cases h
  refine ⟨⟨looms, rfl⟩, Lib.mapM_ok_map (fun p q hq => ?_) hlooms⟩
  obtain ⟨loom, hloom, hq⟩ := Lib.bind_ok hq
  cases hq
  obtain ⟨-, array, rfl⟩ := initEndLoom_ok hloom
  rfl

theorem systemInit_ok_iff : systemInit trace = .ok sys ↔
    ∃ looms, createSystem trace = .ok looms ∧ (∀ loom ∈ looms, RanksGiven loom) ∧
      initEndSystem (initGlobalIndices (sortedLooms looms) (allRanked looms)) = .ok sys := by
  unfold systemInit
  constructor
  · intro h
    obtain ⟨looms, hcreate, h⟩ := Lib.bind_ok h
    obtain ⟨r, hsort, h⟩ := Lib.bind_ok h
    obtain ⟨hranks, rfl⟩ := setSortCriteria_ok_iff.mp hsort
    exact ⟨looms, hcreate, hranks, h⟩
  · rintro ⟨looms, hcreate, hranks, h⟩
    rw [hcreate]
    change (setSortCriteria looms >>= _) = _
    rw [setSortCriteria_ok_iff.mpr ⟨hranks, rfl⟩]
    exact h

theorem rankLoom_name (loom : Loom) : (rankLoom loom).name = loom.name := by
  unfold rankLoom
  split <;> rfl

theorem rankLoom_procs (loom : Loom) : (rankLoom loom).procs = loom.procs := by
  unfold rankLoom
  split <;> rfl

theorem rankLoom_cpus (loom : Loom) : (rankLoom loom).cpus = loom.cpus := by
  unfold rankLoom
  split <;> rfl

theorem rankLoom_vcpu (loom : Loom) : (rankLoom loom).vcpu = loom.vcpu := by
  unfold rankLoom
  split <;> rfl

/-! ## Looms that are the same up to the order -/

theorem rankLooms_canon (looms : List Loom) :
    (rankLooms looms).map loomCanon = (looms.map loomCanon).map rankLoom := by
  rw [rankLooms, List.map_map, List.map_map]
  exact List.map_congr_left fun loom _ => (rankLoom_canon loom).symm

theorem allRanked_eq (looms : List Loom) :
    allRanked looms = ((rankLooms looms).map loomCanon).all Loom.rankEnabled := by
  rw [allRanked, List.all_map]
  rfl

variable (hsame : (looms.map loomCanon).Perm (looms'.map loomCanon))

include hsame

theorem rankLooms_same :
    ((rankLooms looms).map loomCanon).Perm ((rankLooms looms').map loomCanon) := by
  rw [rankLooms_canon, rankLooms_canon]
  exact hsame.map rankLoom

theorem allRanked_same : allRanked looms = allRanked looms' := by
  rw [allRanked_eq, allRanked_eq]
  exact (rankLooms_same hsame).all_eq

theorem ranksGiven_same (h : ∀ loom ∈ looms, RanksGiven loom) :
    ∀ loom ∈ looms', RanksGiven loom := by
  intro loom hloom
  have hmem := hsame.mem_iff.mpr (List.mem_map_of_mem hloom)
  obtain ⟨loom₀, hloom₀, heq⟩ := List.mem_map.mp hmem
  rw [← ranksGiven_canon, ← heq, ranksGiven_canon]
  exact h loom₀ hloom₀

omit hsame in
theorem EndOk.canon_iff : EndOk (loomSort loom) ↔ EndOk (loomCanon loom) := by
  have hprocs := loomSort_procs loom
  have hnil : (loomSort loom).procs = [] ↔ (loomCanon loom).procs = [] := by
    constructor
    · intro h
      rw [h] at hprocs
      exact hprocs.nil_eq.symm
    · intro h
      rw [h] at hprocs
      exact hprocs.eq_nil
  constructor
  · intro h
    exact ⟨fun p hp => h.appid p (hprocs.mem_iff.mpr hp), h.rankMin, h.cpus,
      fun hp => h.procs (hnil.mpr hp), h.bounds, h.index⟩
  · intro h
    exact ⟨fun p hp => h.appid p (hprocs.mem_iff.mp hp), h.rankMin, h.cpus,
      fun hp => h.procs (hnil.mp hp), h.bounds, h.index⟩

omit hsame in
theorem endOk_sortedLooms : (∀ loom ∈ sortedLooms looms, EndOk loom) ↔
    ∀ loom ∈ (rankLooms looms).map loomCanon, EndOk loom := by
  simp only [sortedLooms, (sortLpt_perm _ _).mem_iff, List.forall_mem_map, EndOk.canon_iff]

theorem initEnd_same
    (h : ∃ sys, initEndSystem (initGlobalIndices (sortedLooms looms) (allRanked looms)) = .ok sys) :
    ∃ sys, initEndSystem (initGlobalIndices (sortedLooms looms') (allRanked looms')) = .ok sys := by
  have hfst : ∀ looms b, (∀ p ∈ (initGlobalIndices looms b).looms, EndOk p.1) ↔
      ∀ loom ∈ looms, EndOk loom := by
    intro looms b
    rw [← List.forall_mem_map (f := Prod.fst) (P := EndOk), initGlobalIndices,
      List.zipIdx_map_fst]
  rw [initEndSystem_ok_iff, hfst, endOk_sortedLooms] at h ⊢
  exact fun loom hloom => h loom ((rankLooms_same hsame).mem_iff.mpr hloom)

end

/-! ## Two orders of the streams -/

/-- No two processes of a loom with ranks share their rank, and no two looms with ranks
share their minimum. -/
structure DistinctRanks (looms : List Loom) : Prop where
  procs : ∀ loom ∈ looms, loom.rankEnabled → (loom.procs.map Proc.rank).Nodup
  looms : ((looms.filter Loom.rankEnabled).map Loom.rankMin).Nodup

/-- The systems have the same looms, processes, threads and CPUs. -/
structure SameContent (sys sys' : SystemInit) : Prop where
  looms : (sys.looms.map fun p => p.1.name).Perm (sys'.looms.map fun p => p.1.name)
  procs : (sys.procs.map Prod.fst).Perm (sys'.procs.map Prod.fst)
  threads : (sys.threads.map Prod.fst).Perm (sys'.threads.map Prod.fst)
  cpus : (sys.cpus.map Prod.fst).Perm (sys'.cpus.map Prod.fst)

/-- The global indices of the threads, of the processes and of the CPUs. -/
structure IndicesOk (sys : SystemInit) : Prop where
  threads : Indexed id sys.threads
  procs : Indexed procKey sys.procs
  cpus : Indexed cpuKey sys.cpus

section

variable {looms looms' : List Loom} {sys sys' : SystemInit}
variable {trace trace' : List (Option StreamMeta)} {items items' : List StreamMeta} {loom : Loom}

theorem distinctRanks_rest : DistinctRanks (looms.map loomRest) ↔ DistinctRanks looms := by
  have hfilter : ((looms.map loomRest).filter Loom.rankEnabled).map Loom.rankMin =
      (looms.filter Loom.rankEnabled).map Loom.rankMin := by
    rw [List.filter_map, List.map_map]
    rfl
  constructor
  · intro h
    refine ⟨fun loom hloom => h.procs (loomRest loom) (List.mem_map_of_mem hloom), ?_⟩
    rw [← hfilter]
    exact h.looms
  · intro h
    refine ⟨?_, ?_⟩
    · rw [List.forall_mem_map]
      exact h.procs
    · rw [hfilter]
      exact h.looms

theorem looms_rest
    (h : initEndSystem (initGlobalIndices (sortedLooms looms) (allRanked looms)) = .ok sys) :
    (sys.looms.map Prod.fst).map loomRest = (sortedLooms looms).map loomRest := by
  have hrest := congrArg (List.map Prod.fst) (initEndSystem_ok h).2
  rw [List.map_map, List.map_map] at hrest
  rw [List.map_map]
  apply hrest.trans
  rw [initGlobalIndices, ← List.zipIdx_map_fst 0 (sortedLooms looms), List.map_map,
    List.zipIdx_map_fst]
  rfl

/-- The order of the sorted looms is decided when the ranks differ. -/
theorem sortedLooms_same (hsame : (looms.map loomCanon).Perm (looms'.map loomCanon))
    (hnames : (looms.map Loom.name).Nodup) (hdistinct : DistinctRanks (sortedLooms looms)) :
    sortedLooms looms = sortedLooms looms' := by
  have hranks : ∀ loom ∈ rankLooms looms, loom.rankEnabled →
      (loom.procs.map Proc.rank).Nodup := by
    intro loom hloom henabled
    have hmem := (sortLpt_perm _ (allRanked looms)).mem_iff.mpr (List.mem_map_of_mem hloom)
    have hnodup := hdistinct.procs _ hmem henabled
    exact (((loomSort_procs loom).map Proc.rank).trans (canon_ranks loom)).nodup_iff.mp hnodup
  have hranks' : ∀ loom ∈ rankLooms looms', loom.rankEnabled →
      (loom.procs.map Proc.rank).Nodup := by
    intro loom hloom henabled
    have hmem := (rankLooms_same hsame).mem_iff.mpr (List.mem_map_of_mem hloom)
    obtain ⟨loom₀, hloom₀, heq⟩ := List.mem_map.mp hmem
    have henabled₀ : loom₀.rankEnabled = true :=
      (congrArg Loom.rankEnabled heq).trans henabled
    have hnodup := hranks loom₀ hloom₀ henabled₀
    rw [← (canon_ranks loom).nodup_iff, ← heq]
    exact (canon_ranks loom₀).nodup_iff.mpr hnodup
  have hmap : ∀ l : List Loom, (∀ loom ∈ l, loom.rankEnabled →
      (loom.procs.map Proc.rank).Nodup) → l.map loomSort = (l.map loomCanon).map loomSort := by
    intro l hl
    rw [List.map_map]
    exact List.map_congr_left fun loom hloom => (loomSort_canon (hl loom hloom)).symm
  have hperm : ((rankLooms looms).map loomSort).Perm ((rankLooms looms').map loomSort) := by
    rw [hmap _ hranks, hmap _ hranks']
    exact (rankLooms_same hsame).map loomSort
  have hsorted := sortLpt_perm (rankLooms looms) (allRanked looms)
  unfold sortedLooms
  rw [← allRanked_same hsame, sortLpt_eq, sortLpt_eq]
  cases hall : allRanked looms with
  | true =>
      refine Lib.sortCmp_eq hperm ((hsorted.map Loom.rankMin).nodup_iff.mp ?_)
      have hfilter : (sortedLooms looms).filter Loom.rankEnabled = sortedLooms looms := by
        apply List.filter_eq_self.mpr
        intro loom hloom
        obtain ⟨loom₀, hloom₀, rfl⟩ := List.mem_map.mp (hsorted.mem_iff.mp hloom)
        exact List.all_eq_true.mp hall loom₀ hloom₀
      have hnodup := hdistinct.looms
      rw [hfilter] at hnodup
      exact hnodup
  | false =>
      have hname : ((rankLooms looms).map loomSort).map Loom.name = looms.map Loom.name := by
        rw [rankLooms, List.map_map, List.map_map]
        exact List.map_congr_left fun loom _ => rankLoom_name loom
      rw [← hname] at hnames
      exact Lib.sortCmp_eq hperm hnames

/-- What the names of the looms are, for any order of them. -/
theorem sortedLooms_names (looms : List Loom) :
    ((sortedLooms looms).map Loom.name).Perm (looms.map Loom.name) := by
  refine ((sortLpt_perm _ _).map Loom.name).trans (List.Perm.of_eq ?_)
  rw [rankLooms, List.map_map, List.map_map]
  exact List.map_congr_left fun loom _ => rankLoom_name loom

theorem sortedLooms_threads (looms : List Loom) :
    (globalThreads (sortedLooms looms)).Perm (globalThreads looms) := by
  apply (globalThreads_sortLpt _ _).trans
  unfold globalThreads rankLooms
  rw [List.map_map, List.flatMap_map]
  apply List.Perm.flatMap_left looms
  intro loom _
  simp only [Function.comp_apply, loomCanon, rankLoom_name, rankLoom_procs, List.flatMap_map]
  apply ((Lib.sortCmp_perm byPid loom.procs).flatMap_right _).trans
  exact List.Perm.flatMap_left loom.procs fun p _ => (Lib.sortCmp_perm _ _).map _

theorem sortedLooms_procs (looms : List Loom) :
    ((globalProcs (sortedLooms looms)).map procKey).Perm ((globalProcs looms).map procKey) := by
  apply ((globalProcs_sortLpt _ _).map procKey).trans
  unfold globalProcs rankLooms
  rw [List.map_map, List.flatMap_map, List.map_flatMap, List.map_flatMap]
  apply List.Perm.flatMap_left looms
  intro loom _
  simp only [Function.comp_apply, loomCanon, rankLoom_name, rankLoom_procs, List.map_map]
  exact (Lib.sortCmp_perm byPid loom.procs).map _

theorem sortedLooms_cpus (looms : List Loom) :
    (globalCpus (sortedLooms looms)).Perm (globalCpus looms) := by
  apply (globalCpus_sortLpt _ _).trans
  unfold globalCpus rankLooms
  rw [List.map_map, List.flatMap_map]
  apply List.Perm.flatMap_left looms
  intro loom _
  simp only [Function.comp_apply, loomCanon, rankLoom_name, rankLoom_cpus, rankLoom_vcpu]
  exact ((Lib.sortCmp_perm byPhyid loom.cpus).append_right _).map _

theorem SystemOk.indicesOk (h : SystemOk items looms)
    (hend : initEndSystem (initGlobalIndices (sortedLooms looms) (allRanked looms)) = .ok sys) :
    IndicesOk sys := by
  obtain ⟨⟨looms₁, rfl⟩, -⟩ := initEndSystem_ok hend
  refine ⟨indexed_zipIdx ?_, indexed_zipIdx ?_, indexed_zipIdx ?_⟩
  · rw [List.map_id, (sortedLooms_threads looms).nodup_iff]
    exact h.nodup_threads
  · exact (sortedLooms_procs looms).nodup_iff.mpr h.nodup_procs
  · exact ((sortedLooms_cpus looms).map cpuKey).nodup_iff.mpr h.nodup_cpus

theorem sameContent_of_same (hsame : (looms.map loomCanon).Perm (looms'.map loomCanon))
    (hend : initEndSystem (initGlobalIndices (sortedLooms looms) (allRanked looms)) = .ok sys)
    (hend' : initEndSystem (initGlobalIndices (sortedLooms looms') (allRanked looms')) = .ok sys') :
    SameContent sys sys' := by
  have hnames : ∀ {looms sys},
      initEndSystem (initGlobalIndices (sortedLooms looms) (allRanked looms)) = .ok sys →
      (sys.looms.map fun p => p.1.name) = (sortedLooms looms).map Loom.name := by
    intro looms sys hend
    have hrest := congrArg (List.map Loom.name) (looms_rest hend)
    rw [List.map_map, List.map_map, List.map_map] at hrest
    exact hrest
  have hmap : ∀ l : List Loom, (l.map loomCanon).map Loom.name = l.map Loom.name := by
    intro l
    rw [List.map_map]
    rfl
  have hlooms : (sys.looms.map fun p => p.1.name).Perm (sys'.looms.map fun p => p.1.name) := by
    rw [hnames hend, hnames hend']
    refine (sortedLooms_names looms).trans (List.Perm.trans ?_ (sortedLooms_names looms').symm)
    rw [← hmap looms, ← hmap looms']
    exact hsame.map Loom.name
  have hranked := rankLooms_same hsame
  obtain ⟨⟨looms₁, rfl⟩, -⟩ := initEndSystem_ok hend
  obtain ⟨⟨looms₂, rfl⟩, -⟩ := initEndSystem_ok hend'
  refine ⟨hlooms, ?_, ?_, ?_⟩
  · simp only [initGlobalIndices, List.zipIdx_map_fst]
    exact (globalProcs_sortLpt _ _).trans
      ((hranked.flatMap_right _).trans (globalProcs_sortLpt _ _).symm)
  · simp only [initGlobalIndices, List.zipIdx_map_fst]
    exact (globalThreads_sortLpt _ _).trans
      ((hranked.flatMap_right _).trans (globalThreads_sortLpt _ _).symm)
  · simp only [initGlobalIndices, List.zipIdx_map_fst]
    exact (globalCpus_sortLpt _ _).trans
      ((hranked.flatMap_right _).trans (globalCpus_sortLpt _ _).symm)

/-- A system made from some order of the streams is made from any other. -/
theorem systemInit_perm (hperm : trace.Perm trace') (h : systemInit trace = .ok sys) :
    ∃ sys', systemInit trace' = .ok sys' ∧ SameContent sys sys' ∧
      (DistinctRanks (sys.looms.map Prod.fst) → sys = sys') ∧ IndicesOk sys ∧ IndicesOk sys' := by
  obtain ⟨looms, hcreate, hranks, hend⟩ := systemInit_ok_iff.mp h
  obtain ⟨looms', hcreate'⟩ := createSystem_ok_perm hperm hcreate
  have hok := createSystem_kept hcreate
  have hok' := createSystem_kept hcreate'
  have hsame := SystemOk.same (hperm.filterMap threadStream) hok hok'
  obtain ⟨sys', hend'⟩ := initEnd_same hsame ⟨sys, hend⟩
  have h' := systemInit_ok_iff.mpr ⟨looms', hcreate', ranksGiven_same hsame hranks, hend'⟩
  refine ⟨sys', h', sameContent_of_same hsame hend hend', fun hdistinct => ?_,
    hok.indicesOk hend, hok'.indicesOk hend'⟩
  have hsorted : sortedLooms looms = sortedLooms looms' := by
    apply sortedLooms_same hsame hok.nodup
    rw [← distinctRanks_rest, ← looms_rest hend, distinctRanks_rest]
    exact hdistinct
  rw [hsorted, allRanked_same hsame, hend'] at hend
  exact (Except.ok.inj hend).symm

/-- Two orders of the streams of a trace either both fail or give the same system, with
the same global indices when the ranks decide the order. -/
theorem systemInit_order (hperm : trace.Perm trace') :
    (∃ e e', systemInit trace = .error e ∧ systemInit trace' = .error e') ∨
    ∃ sys sys', systemInit trace = .ok sys ∧ systemInit trace' = .ok sys' ∧
      SameContent sys sys' ∧ (DistinctRanks (sys.looms.map Prod.fst) → sys = sys') ∧
      IndicesOk sys ∧ IndicesOk sys' := by
  cases h : systemInit trace with
  | error e =>
      cases h' : systemInit trace' with
      | error e' => exact Or.inl ⟨e, e', rfl, rfl⟩
      | ok sys' =>
          obtain ⟨sys, hok, -⟩ := systemInit_perm hperm.symm h'
          rw [h] at hok
          cases hok
  | ok sys =>
      obtain ⟨sys', h', hrest⟩ := systemInit_perm hperm h
      exact Or.inr ⟨sys, sys', rfl, h', hrest⟩

/-- A thread stream of a process with a CPU.  The process with the first rank has a loom of
its own, whose name comes after that of the others. -/
def rankStream (rank : Nat) : Option StreamMeta :=
  some { part := some "thread", loom := some [110, if rank = 0 then 50 else 49],
         loomCpus := some [some (if rank = 2 then 1 else 0, 7 - rank)], pid := some (20 - rank),
         tid := some (20 - rank), appId := some 1, rank := some rank, nranks := some 3,
         finished := true }

/-- The system of three such streams, with different ranks. -/
theorem rankSystem : ∃ sys, systemInit [rankStream 0, rankStream 1, rankStream 2] = .ok sys ∧
    DistinctRanks (sys.looms.map Prod.fst) ∧
    sys.threads = [(([110, 50], 20, 20), 0), (([110, 49], 19, 19), 1), (([110, 49], 18, 18), 2)] ∧
    sys.cpus.map (fun c => (c.1.2.phyid, c.2)) = [(7, 0), (-1, 1), (5, 2), (6, 3), (-1, 4)] := by
  have hany : (systemInit [rankStream 0, rankStream 1, rankStream 2]).toOption.any (fun sys =>
      decide (((∀ loom ∈ sys.looms.map Prod.fst, (loom.procs.map Proc.rank).Nodup) ∧
          (((sys.looms.map Prod.fst).filter Loom.rankEnabled).map Loom.rankMin).Nodup) ∧
        sys.threads =
          [(([110, 50], 20, 20), 0), (([110, 49], 19, 19), 1), (([110, 49], 18, 18), 2)] ∧
        sys.cpus.map (fun c => (c.1.2.phyid, c.2)) =
          [(7, 0), (-1, 1), (5, 2), (6, 3), (-1, 4)])) = true := by
    decide +kernel
  cases h : systemInit [rankStream 0, rankStream 1, rankStream 2] with
  | error e =>
      rw [h] at hany
      cases hany
  | ok sys =>
      rw [h] at hany
      obtain ⟨⟨hprocs, hlooms⟩, hthreads, hcpus⟩ := of_decide_eq_true hany
      exact ⟨sys, rfl, ⟨fun loom hloom _ => hprocs loom hloom, hlooms⟩, hthreads, hcpus⟩

/-- In another order of the streams the system is the same: the loom with the first rank is
its first one. -/
theorem systemInit_order_ranks : ∃ sys,
    systemInit [rankStream 0, rankStream 1, rankStream 2] = .ok sys ∧
    systemInit [rankStream 2, rankStream 0, rankStream 1] = .ok sys ∧ IndicesOk sys ∧
    sys.threads = [(([110, 50], 20, 20), 0), (([110, 49], 19, 19), 1), (([110, 49], 18, 18), 2)] ∧
    sys.cpus.map (fun c => (c.1.2.phyid, c.2)) = [(7, 0), (-1, 1), (5, 2), (6, 3), (-1, 4)] := by
  have hperm : [rankStream 0, rankStream 1, rankStream 2].Perm
      [rankStream 2, rankStream 0, rankStream 1] :=
    (List.perm_append_comm : ([rankStream 0, rankStream 1] ++ [rankStream 2]).Perm _)
  obtain ⟨sys₀, hok, hdistinct, hthreads, hcpus⟩ := rankSystem
  obtain ⟨e, e', he, -⟩ | ⟨sys, sys', h, h', -, heq, hindices, -⟩ := systemInit_order hperm
  · cases hok.symm.trans he
  · obtain rfl : sys₀ = sys := Except.ok.inj (hok.symm.trans h)
    obtain rfl := heq hdistinct
    exact ⟨sys₀, h, h', hindices, hthreads, hcpus⟩

end

end Ovni
