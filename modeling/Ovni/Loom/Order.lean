import Mathlib.Data.Set.Function
import Ovni.Loom.Streams

/-!
# The order of the streams

Two orders of the same streams give the same looms, processes, threads and CPUs, as the
merge does not depend on the order and the rest of `system_init` only sorts them.  When
the ranks decide the order, they get the same global indices as well.
-/

namespace Ovni

/-! ## Looms in a canonical order -/

/-- The loom with its CPUs, processes and threads by their ids. -/
def loomCanon (loom : Loom) : Loom :=
  { loom with
    procs := (Lib.sortCmp byPid loom.procs).map procSort
    cpus := Lib.sortCmp byPhyid loom.cpus }

section

variable {items items' : List StreamMeta} {proc proc' : Proc} {loom loom' : Loom}
variable {looms looms' : List Loom}

theorem ProcOk.same (hperm : items.Perm items') (h : ProcOk items proc)
    (h' : ProcOk items' proc') (hpid : proc.pid = proc'.pid) : procSort proc = procSort proc' := by
  have happid := h.appid.unique (h'.appid.congr fun _ => hperm.mem_iff)
  have hrank := h.rank.unique (h'.rank.congr fun _ => hperm.mem_iff)
  have hthreads : proc.threads.Perm proc'.threads := by
    apply (List.perm_ext_iff_of_nodup h.nodup h'.nodup).mpr
    intro tid
    rw [h.tid, h'.tid]
    simp only [hperm.mem_iff]
  have hsorted : Lib.sortCmp byTid proc.threads = Lib.sortCmp byTid proc'.threads :=
    Lib.sortCmp_eq hthreads (by simpa using h.nodup)
  injection hrank with hrank hnranks
  simp only [procSort, hpid, happid, hrank, hnranks, hsorted]

theorem CpusOk.perm {items items' : List (Option (Int × Int))} (hperm : items.Perm items')
    (h : CpusOk items loom) (h' : CpusOk items' loom') : loom.cpus.Perm loom'.cpus := by
  have hsub : ∀ {items items' loom loom'}, items.Perm items' → CpusOk items loom →
      CpusOk items' loom' → ∀ c ∈ loom.cpus, c ∈ loom'.cpus := by
    intro items items' loom loom' hperm h h' c hc
    obtain ⟨hphy, hitem⟩ := h.given c hc
    obtain ⟨c', hc', heq⟩ := h'.all _ (hperm.mem_iff.mp hitem)
    have hsame : c' = c := by
      have hphy' := (h'.given c' hc').1
      cases c
      cases c'
      simp_all [LoomCpu.item]
    rwa [← hsame]
  exact Lib.perm_of_keys h.nodup h'.nodup (hsub hperm h h') (hsub hperm.symm h' h)

theorem map_procSort_byPid (procs : List Proc) :
    (Lib.sortCmp byPid procs).map procSort = Lib.sortCmp byPid (procs.map procSort) :=
  Lib.map_sortCmp byPid byPid procSort (fun _ _ => rfl) procs

theorem map_procSort_byRank (procs : List Proc) :
    (Lib.sortCmp byRank procs).map procSort = Lib.sortCmp byRank (procs.map procSort) :=
  Lib.map_sortCmp byRank byRank procSort (fun _ _ => rfl) procs

theorem LoomOk.same (hperm : items.Perm items') (h : LoomOk items loom)
    (h' : LoomOk items' loom') (hname : loom.name = loom'.name) :
    loomCanon loom = loomCanon loom' := by
  have hcpus := CpusOk.perm (hperm.flatMap_right metaCpus) h.cpus h'.cpus
  have hsorted : Lib.sortCmp byPhyid loom.cpus = Lib.sortCmp byPhyid loom'.cpus :=
    Lib.sortCmp_eq hcpus h.cpus.nodup
  have hprocs : (loom.procs.map procSort).Perm (loom'.procs.map procSort) :=
    h.procs.perm_map h'.procs hperm ProcOk.same
  have hsorted' : (Lib.sortCmp byPid loom.procs).map procSort =
      (Lib.sortCmp byPid loom'.procs).map procSort := by
    rw [map_procSort_byPid, map_procSort_byPid]
    apply Lib.sortCmp_eq hprocs
    rw [List.map_map]
    exact h.procs.nodup
  simp only [loomCanon, hname, h.rankEnabled, h'.rankEnabled, h.rankMin, h'.rankMin,
    h.cpusArray, h'.cpusArray, h.cpus.vcpu, h'.cpus.vcpu, hsorted, hsorted']

/-- The looms of the same streams are the same up to the order. -/
theorem SystemOk.same (hperm : items.Perm items') (h : SystemOk items looms)
    (h' : SystemOk items' looms') : (looms.map loomCanon).Perm (looms'.map loomCanon) :=
  h.perm_map h' hperm LoomOk.same

end

/-! ## Ranks -/

/-- Either no process of the loom has a rank or all of them do. -/
def RanksGiven (loom : Loom) : Prop :=
  (∃ p ∈ loom.procs, 0 ≤ p.rank) → ∀ p ∈ loom.procs, 0 ≤ p.rank

/-- The loom after `loom_set_rank_min`. -/
def rankLoom (loom : Loom) : Loom :=
  if loom.procs.any fun p => p.rank ≥ 0 then
    { loom with rankEnabled := true,
                rankMin := loom.procs.foldl (fun m p => min m p.rank) loom.rankMin }
  else loom

section

variable {loom loom' : Loom} {looms looms' : List Loom}

theorem loomSetRankMin_ok_iff : loomSetRankMin loom = .ok loom' ↔
    RanksGiven loom ∧ loom' = rankLoom loom := by
  unfold loomSetRankMin rankLoom RanksGiven
  by_cases hsome : loom.procs.any fun p => p.rank ≥ 0
  · rw [if_pos hsome, if_pos hsome]
    have hex : ∃ p ∈ loom.procs, 0 ≤ p.rank := by simpa using hsome
    by_cases hneg : loom.procs.any fun p => p.rank < 0
    · rw [if_pos hneg]
      obtain ⟨p, hp, hlt⟩ : ∃ p ∈ loom.procs, p.rank < 0 := by simpa using hneg
      constructor
      · rintro ⟨⟩
      · intro h
        have hnonneg := h.1 hex p hp
        omega
    · rw [if_neg hneg]
      have hall : ∀ p ∈ loom.procs, 0 ≤ p.rank := by simpa using hneg
      refine ⟨fun h => ⟨fun _ => hall, ?_⟩, fun h => ?_⟩
      · cases h
        rfl
      · rw [h.2]
        rfl
  · rw [if_neg hsome, if_neg hsome]
    have hnone : ¬ ∃ p ∈ loom.procs, 0 ≤ p.rank := by simpa using hsome
    refine ⟨fun h => ⟨fun hex => absurd hex hnone, ?_⟩, fun h => ?_⟩
    · cases h
      rfl
    · rw [h.2]
      rfl

theorem setSortCriteria_ok_iff {r : List Loom × Bool} : setSortCriteria looms = .ok r ↔
    (∀ loom ∈ looms, RanksGiven loom) ∧
      r = (looms.map rankLoom, (looms.map rankLoom).all Loom.rankEnabled) := by
  unfold setSortCriteria
  have hmap := Lib.mapM_ok_iff (l := looms) (f := loomSetRankMin)
  simp only [loomSetRankMin_ok_iff, exists_and_left, exists_eq, and_true] at hmap
  constructor
  · intro h
    obtain ⟨looms', hmapM, h⟩ := Lib.bind_ok h
    cases h
    have heq : looms' = looms.map rankLoom :=
      Lib.mapM_ok_eq (fun _ _ h => (loomSetRankMin_ok_iff.mp h).2) hmapM
    rw [heq]
    exact ⟨hmap.mp ⟨looms', hmapM⟩, rfl⟩
  · rintro ⟨hall, rfl⟩
    obtain ⟨looms', hmapM⟩ := hmap.mpr hall
    have heq : looms' = looms.map rankLoom :=
      Lib.mapM_ok_eq (fun _ _ h => (loomSetRankMin_ok_iff.mp h).2) hmapM
    rw [hmapM, heq]
    rfl

/-- The ranks of a loom do not depend on the order of its processes. -/
theorem canon_ranks (loom : Loom) :
    ((loomCanon loom).procs.map Proc.rank).Perm (loom.procs.map Proc.rank) := by
  have hmap : (loomCanon loom).procs.map Proc.rank =
      (Lib.sortCmp byPid loom.procs).map Proc.rank := by
    rw [loomCanon, List.map_map]
    rfl
  rw [hmap]
  exact (Lib.sortCmp_perm _ _).map _

theorem ranksGiven_iff : RanksGiven loom ↔
    ((∃ r ∈ loom.procs.map Proc.rank, 0 ≤ r) → ∀ r ∈ loom.procs.map Proc.rank, 0 ≤ r) := by
  simp [RanksGiven]

theorem ranksGiven_canon : RanksGiven (loomCanon loom) ↔ RanksGiven loom := by
  simp only [ranksGiven_iff, (canon_ranks loom).mem_iff]

theorem rankLoom_eq (loom : Loom) : rankLoom loom =
    if (loom.procs.map Proc.rank).any fun r => r ≥ 0 then
      { loom with rankEnabled := true,
                  rankMin := (loom.procs.map Proc.rank).foldl min loom.rankMin }
    else loom := by
  unfold rankLoom
  rw [List.any_map, List.foldl_map]
  rfl

theorem rankLoom_canon (loom : Loom) : rankLoom (loomCanon loom) = loomCanon (rankLoom loom) := by
  have hperm := canon_ranks loom
  have hany := hperm.any_eq (f := fun r : Int => decide (r ≥ 0))
  have hmin := hperm.foldl_eq (f := min) loom.rankMin
  rw [rankLoom_eq, rankLoom_eq, hany]
  by_cases hsome : (loom.procs.map Proc.rank).any fun r => r ≥ 0
  · rw [if_pos hsome, if_pos hsome]
    change { loomCanon loom with
      rankEnabled := true
      rankMin := ((loomCanon loom).procs.map Proc.rank).foldl min loom.rankMin } = _
    rw [hmin]
    rfl
  · rw [if_neg hsome, if_neg hsome]

end

/-! ## Sorted looms and their global lists -/

section

variable {loom loom' : Loom} {looms looms' : List Loom}

theorem loomSort_procs (loom : Loom) : (loomSort loom).procs.Perm (loomCanon loom).procs :=
  ((Lib.sortCmp_perm _ _).trans (Lib.sortCmp_perm _ _).symm).map procSort

theorem globalThreads_loomSort (looms : List Loom) :
    (globalThreads (looms.map loomSort)).Perm (globalThreads (looms.map loomCanon)) := by
  unfold globalThreads
  rw [List.flatMap_map, List.flatMap_map]
  exact List.Perm.flatMap_left looms fun loom _ => (loomSort_procs loom).flatMap_right _

theorem globalProcs_loomSort (looms : List Loom) :
    (globalProcs (looms.map loomSort)).Perm (globalProcs (looms.map loomCanon)) := by
  unfold globalProcs
  rw [List.flatMap_map, List.flatMap_map]
  exact List.Perm.flatMap_left looms fun loom _ => (loomSort_procs loom).map _

theorem globalCpus_loomSort (looms : List Loom) :
    globalCpus (looms.map loomSort) = globalCpus (looms.map loomCanon) := by
  unfold globalCpus
  rw [List.flatMap_map, List.flatMap_map]
  rfl

/-- `sort_lpt` sorts the looms, which may as well be sorted inside first. -/
theorem sortLpt_eq (looms : List Loom) (b : Bool) : sortLpt looms b =
    Lib.sortCmp (if b then cmpLoomRank else cmpLoomId) (looms.map loomSort) := by
  refine Lib.map_sortCmp _ _ loomSort (fun x y => ?_) looms
  cases b
  · rfl
  · rfl

theorem sortLpt_perm (looms : List Loom) (b : Bool) :
    (sortLpt looms b).Perm (looms.map loomSort) := by
  rw [sortLpt_eq]
  exact Lib.sortCmp_perm _ _

theorem globalThreads_sortLpt (looms : List Loom) (b : Bool) :
    (globalThreads (sortLpt looms b)).Perm (globalThreads (looms.map loomCanon)) :=
  ((sortLpt_perm looms b).flatMap_right _).trans (globalThreads_loomSort looms)

theorem globalProcs_sortLpt (looms : List Loom) (b : Bool) :
    (globalProcs (sortLpt looms b)).Perm (globalProcs (looms.map loomCanon)) :=
  ((sortLpt_perm looms b).flatMap_right _).trans (globalProcs_loomSort looms)

theorem globalCpus_sortLpt (looms : List Loom) (b : Bool) :
    (globalCpus (sortLpt looms b)).Perm (globalCpus (looms.map loomCanon)) := by
  rw [← globalCpus_loomSort]
  exact (sortLpt_perm looms b).flatMap_right _

theorem procSort_idem (proc : Proc) : procSort (procSort proc) = procSort proc := by
  have hidem : Lib.sortCmp byTid (Lib.sortCmp byTid proc.threads) =
      Lib.sortCmp byTid proc.threads := Lib.sortCmp_idem id proc.threads
  simp only [procSort, hidem]

/-- When the ranks differ, the order of the processes is decided by what they are. -/
theorem loomSort_canon (hranks : loom.rankEnabled → (loom.procs.map Proc.rank).Nodup) :
    loomSort (loomCanon loom) = loomSort loom := by
  have hcpus : Lib.sortCmp byPhyid (Lib.sortCmp byPhyid loom.cpus) =
      Lib.sortCmp byPhyid loom.cpus := Lib.sortCmp_idem LoomCpu.phyid loom.cpus
  have hsort : ∀ procs : List Proc, (procs.map procSort).map procSort = procs.map procSort := by
    intro procs
    rw [List.map_map]
    exact List.map_congr_left fun p _ => procSort_idem p
  have hprocs : (Lib.sortCmp (if loom.rankEnabled then byRank else byPid)
        ((Lib.sortCmp byPid loom.procs).map procSort)).map procSort =
      (Lib.sortCmp (if loom.rankEnabled then byRank else byPid) loom.procs).map procSort := by
    by_cases hrank : loom.rankEnabled
    · rw [if_pos hrank, map_procSort_byRank, hsort, ← map_procSort_byRank]
      have heq : Lib.sortCmp byRank (Lib.sortCmp byPid loom.procs) =
          Lib.sortCmp byRank loom.procs :=
        (Lib.sortCmp_eq (Lib.sortCmp_perm byPid loom.procs).symm (hranks hrank)).symm
      rw [heq]
    · have hidem : Lib.sortCmp byPid (Lib.sortCmp byPid loom.procs) =
          Lib.sortCmp byPid loom.procs := Lib.sortCmp_idem Proc.pid loom.procs
      rw [if_neg hrank, map_procSort_byPid, hsort, ← map_procSort_byPid, hidem]
  unfold loomSort
  simp only [loomCanon, hcpus, Loom.mk.injEq, true_and, and_true]
  exact hprocs

end

/-! ## The end of the initialisation -/

/-- What `init_end_system` checks in a loom. -/
structure EndOk (loom : Loom) : Prop where
  appid : ∀ p ∈ loom.procs, 0 < p.appid
  rankMin : ¬ (loom.rankEnabled ∧ loom.rankMin = intMax)
  cpus : loom.cpus ≠ []
  procs : loom.procs ≠ []
  bounds : ∀ c ∈ loom.cpus, 0 ≤ c.index ∧ c.index < loom.cpus.length
  index : loom.cpus.Pairwise fun c c' => c.index ≠ c'.index

/-- The places of the array are taken by the CPUs with that index. -/
structure ArrayOk (n : Nat) (items : List LoomCpu) (array : List (Option LoomCpu)) : Prop where
  length : array.length = n
  nonneg : ∀ c ∈ items, 0 ≤ c.index
  taken : ∀ i : Nat, (array[i]?.join).isSome ↔ i < n ∧ ∃ c ∈ items, c.index = i

section

variable {loom loom' : Loom} {looms looms' : List Loom} {n : Nat} {items : List LoomCpu}
variable {array array' : List (Option LoomCpu)} {c : LoomCpu}

theorem takeIndex_ok_iff : takeIndex array c = .ok array' ↔
    0 ≤ c.index ∧ c.index < array.length ∧ ¬ (array[c.index.toNat]?.join).isSome ∧
      array' = array.set c.index.toNat (some c) := by
  unfold takeIndex
  constructor
  · intro h
    obtain ⟨hbound, h⟩ := Lib.guard_ok h
    obtain ⟨hfree, h⟩ := Lib.guard_ok h
    cases h
    exact ⟨by omega, by omega, hfree, rfl⟩
  · rintro ⟨hnonneg, hlt, hfree, rfl⟩
    have hbound : ¬ (c.index < 0 ∨ c.index ≥ array.length) := by omega
    simp only [hbound, hfree, if_false, Bool.false_eq_true]
    rfl

theorem takeIndex_merges (n : Nat) : Lib.Merges takeIndex (ArrayOk n)
    (fun c => 0 ≤ c.index ∧ c.index < n) (fun c c' => c.index ≠ c'.index) where
  ok_iff := by
    intro items array c h
    simp only [takeIndex_ok_iff, exists_and_left, exists_eq, and_true, h.length, h.taken]
    constructor
    · rintro ⟨hnonneg, hlt, hfree⟩
      refine ⟨⟨hnonneg, hlt⟩, fun c' hc' heq => hfree ⟨by omega, c', hc', ?_⟩⟩
      omega
    · rintro ⟨⟨hnonneg, hlt⟩, hall⟩
      refine ⟨hnonneg, hlt, ?_⟩
      rintro ⟨-, c', hc', heq⟩
      exact hall c' hc' (by omega)
  kept := by
    intro items array c array' h hstep
    obtain ⟨hnonneg, hlt, -, rfl⟩ := takeIndex_ok_iff.mp hstep
    rw [h.length] at hlt
    refine ⟨by rw [List.length_set, h.length], ?_, fun i => ?_⟩
    · simpa [or_imp, forall_and] using ⟨h.nonneg, hnonneg⟩
    · rw [List.getElem?_set]
      by_cases hi : c.index.toNat = i
      · have hi' : i < array.length := by
          rw [h.length]
          omega
        rw [if_pos hi, if_pos (by omega)]
        exact ⟨fun _ => ⟨by omega, c, by simp, by omega⟩, fun _ => rfl⟩
      · rw [if_neg hi, h.taken]
        have hne : c.index ≠ i := by omega
        simp [or_and_right, exists_or, hne]

theorem arrayOk_init (n : Nat) : ArrayOk n [] (List.replicate n none) := by
  refine ⟨by simp, by simp, fun i => ?_⟩
  rw [List.getElem?_replicate]
  split <;> simp

theorem takeIndex_fold (cpus : List LoomCpu) :
    (∃ array, cpus.foldlM takeIndex (List.replicate cpus.length none) = .ok array) ↔
      (∀ c ∈ cpus, 0 ≤ c.index ∧ c.index < cpus.length) ∧
        cpus.Pairwise fun c c' => c.index ≠ c'.index := by
  have hfold := (takeIndex_merges cpus.length).fold_ok_iff (l := cpus) (arrayOk_init cpus.length)
  simpa using hfold

theorem procInitEnd_ok_iff {p p' : Proc} : procInitEnd p = .ok p' ↔ 0 < p.appid ∧ p' = p := by
  unfold procInitEnd
  constructor
  · intro h
    obtain ⟨happid, h⟩ := Lib.guard_ok h
    cases h
    exact ⟨by omega, rfl⟩
  · rintro ⟨happid, rfl⟩
    have happid' : ¬ p'.appid ≤ 0 := by omega
    simp only [happid', if_false]
    rfl

theorem mapM_procInitEnd {procs procs' : List Proc} :
    procs.mapM procInitEnd = .ok procs' ↔ (∀ p ∈ procs, 0 < p.appid) ∧ procs' = procs := by
  have hmap := Lib.mapM_ok_iff (l := procs) (f := procInitEnd)
  simp only [procInitEnd_ok_iff, exists_and_left, exists_eq, and_true] at hmap
  have heq : ∀ {procs'}, procs.mapM procInitEnd = .ok procs' → procs' = procs := by
    intro procs' h
    have hid := Lib.mapM_ok_eq (g := id) (fun _ _ h => (procInitEnd_ok_iff.mp h).2) h
    rwa [List.map_id] at hid
  constructor
  · intro h
    exact ⟨hmap.mp ⟨procs', h⟩, heq h⟩
  · rintro ⟨hall, rfl⟩
    obtain ⟨procs₁, h⟩ := hmap.mpr hall
    rw [h, heq h]

/-- `init_end_system` only sets the array of CPUs of a loom. -/
theorem initEndLoom_ok (h : initEndLoom loom = .ok loom') :
    EndOk loom ∧ ∃ cpusArray, loom' = { loom with cpusArray } := by
  unfold initEndLoom loomInitEnd at h
  obtain ⟨procs, hprocs, h⟩ := Lib.bind_ok h
  obtain ⟨happid, rfl⟩ := mapM_procInitEnd.mp hprocs
  obtain ⟨hmin, h⟩ := Lib.guard_ok h
  obtain ⟨hcpus, h⟩ := Lib.guard_ok h
  obtain ⟨hne, h⟩ := Lib.guard_ok h
  obtain ⟨array, hfold, h⟩ := Lib.bind_ok h
  cases h
  obtain ⟨hbounds, hindex⟩ := (takeIndex_fold loom.cpus).mp ⟨array, hfold⟩
  refine ⟨⟨happid, hmin, ?_, ?_, hbounds, hindex⟩, array, rfl⟩
  · rintro hnil
    exact hcpus (by rw [hnil]; rfl)
  · rintro hnil
    exact hne (by rw [hnil]; rfl)

theorem initEndLoom_of_ok (h : EndOk loom) : ∃ loom', initEndLoom loom = .ok loom' := by
  obtain ⟨array, hfold⟩ := (takeIndex_fold loom.cpus).mpr ⟨h.bounds, h.index⟩
  have hprocs := mapM_procInitEnd.mpr ⟨h.appid, rfl⟩
  have hcpus : ¬ loom.cpus.length = 0 := by
    rw [List.length_eq_zero_iff]
    exact h.cpus
  have hne : ¬ loom.procs.length = 0 := by
    rw [List.length_eq_zero_iff]
    exact h.procs
  refine ⟨{ loom with cpusArray := array }, ?_⟩
  unfold initEndLoom loomInitEnd
  rw [hprocs]
  change (if loom.rankEnabled ∧ loom.rankMin = intMax then _ else _) = _
  rw [if_neg h.rankMin]
  change (if loom.cpus.length = 0 then _ else _) = _
  rw [if_neg hcpus]
  change (if loom.procs.length = 0 then _ else _) = _
  rw [if_neg hne]
  change (List.foldlM takeIndex _ _ >>= _) = _
  rw [hfold]
  rfl

end

end Ovni
