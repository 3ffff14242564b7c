import Ovni.Loom.Model
import Ovni.Lib.Merge

/-!
# Merging the CPUs and the processes

The CPUs of a loom and its processes are merged from what each stream says of them.  A
CPU can be added when the one with the same `phyid` has the same index; a thread when it
is a new one and its stream has the same `appid`, `rank` and `nranks` as the streams of
the process that give them.
-/

namespace Ovni

/-! ## The CPUs -/

def metaCpus (s : StreamMeta) : List (Option (Int × Int)) := s.loomCpus.getD []

def LoomCpu.item (cpu : LoomCpu) : Option (Int × Int) := some (cpu.index, cpu.phyid)

def CpuFits (item : Option (Int × Int)) : Prop :=
  ∃ index phyid, item = some (index, phyid) ∧ 0 ≤ index ∧ 0 ≤ phyid

def CpuAgree (item item' : Option (Int × Int)) : Prop :=
  ∀ index index' phyid, item = some (index, phyid) → item' = some (index', phyid) →
    index = index'

/-- The CPUs of the loom are those of the metadata that was merged. -/
structure CpusOk (items : List (Option (Int × Int))) (loom : Loom) : Prop where
  vcpu : loom.vcpu = { index := -1, phyid := -1, isVirtual := true }
  fits : ∀ item ∈ items, CpuFits item
  nodup : (loom.cpus.map LoomCpu.phyid).Nodup
  given : ∀ c ∈ loom.cpus, c.isVirtual = false ∧ c.item ∈ items
  all : ∀ item ∈ items, ∃ c ∈ loom.cpus, c.item = item

section

variable {loom loom' : Loom} {items : List (Option (Int × Int))} {item : Option (Int × Int)}
variable {index phyid : Int} {c : LoomCpu} {s : StreamMeta}

theorem loomFindCpu_some (hphyid : 0 ≤ phyid) (h : loomFindCpu loom phyid = some c) :
    c ∈ loom.cpus ∧ c.phyid = phyid := by
  have hne : phyid ≠ -1 := by omega
  rw [loomFindCpu, if_neg hne] at h
  exact ⟨List.mem_of_find?_eq_some h, by simpa using List.find?_some h⟩

theorem loomFindCpu_none (hphyid : 0 ≤ phyid) (h : loomFindCpu loom phyid = none)
    (hc : c ∈ loom.cpus) : c.phyid ≠ phyid := by
  have hne : phyid ≠ -1 := by omega
  rw [loomFindCpu, if_neg hne] at h
  simpa using List.find?_eq_none.mp h c hc

/-- What one turn of the loop of `load_cpus` does when it does not fail. -/
theorem loadCpu_ok (h : loadCpu loom item = .ok loom') :
    ∃ index phyid, item = some (index, phyid) ∧ 0 ≤ index ∧
      ((∃ c, loomFindCpu loom phyid = some c ∧ c.index = index ∧ loom' = loom) ∨
       (0 ≤ phyid ∧ loomFindCpu loom phyid = none ∧
        loom' = { loom with cpus := loom.cpus ++ [⟨index, phyid, false⟩] })) := by
  unfold loadCpu at h
  split at h
  · cases h
  · rename_i index phyid
    obtain ⟨hindex, h⟩ := Lib.guard_ok h
    refine ⟨index, phyid, rfl, by omega, ?_⟩
    split at h
    · rename_i c hc
      obtain ⟨hsame, h⟩ := Lib.guard_ok h
      cases h
      exact Or.inl ⟨c, hc, by omega, rfl⟩
    · rename_i hc
      unfold loomAddCpu at h
      obtain ⟨hphyid, h⟩ := Lib.guard_ok h
      obtain ⟨-, h⟩ := Lib.guard_ok h
      cases h
      exact Or.inr ⟨by simpa using hphyid, hc, rfl⟩

theorem CpusOk.phyid_nonneg (h : CpusOk items loom) (hc : c ∈ loom.cpus) : 0 ≤ c.phyid := by
  obtain ⟨index, phyid, heq, -, hphyid⟩ := h.fits _ (h.given c hc).2
  injection heq with heq
  injection heq with _ heq
  rw [heq]
  exact hphyid

/-- A CPU that `loom_find_cpu` finds with an index is one of the metadata. -/
theorem CpusOk.found (h : CpusOk items loom) (hindex : 0 ≤ c.index)
    (hfind : loomFindCpu loom phyid = some c) : c ∈ loom.cpus ∧ c.phyid = phyid := by
  unfold loomFindCpu at hfind
  split at hfind
  · cases hfind
    rw [h.vcpu] at hindex
    exact absurd hindex (by decide)
  · exact ⟨List.mem_of_find?_eq_some hfind, by simpa using List.find?_some hfind⟩

theorem CpusOk.agree (h : CpusOk items loom) (hc : c ∈ loom.cpus) :
    ∀ item ∈ items, CpuAgree item c.item := by
  rintro item hitem index index' phyid rfl heq
  obtain ⟨c', hc', hitem'⟩ := h.all _ hitem
  injection heq with heq
  injection hitem' with hitem'
  injection heq with hindex hphyid
  injection hitem' with hindex' hphyid'
  have hsame : c' = c := Lib.eq_of_key h.nodup hc' hc (by rw [hphyid, hphyid'])
  rw [← hindex, ← hindex', hsame]

theorem loadCpu_ok_iff (h : CpusOk items loom) :
    (∃ loom', loadCpu loom item = .ok loom') ↔
      CpuFits item ∧ ∀ j ∈ items, CpuAgree j item := by
  constructor
  · rintro ⟨loom', hload⟩
    obtain ⟨index, phyid, rfl, hindex, ⟨c, hfind, rfl, -⟩ | ⟨hphyid, hfind, -⟩⟩ :=
      loadCpu_ok hload
    · obtain ⟨hc, rfl⟩ := h.found hindex hfind
      exact ⟨⟨_, _, rfl, hindex, h.phyid_nonneg hc⟩, h.agree hc⟩
    · refine ⟨⟨index, phyid, rfl, hindex, hphyid⟩, ?_⟩
      rintro j hj i i' p rfl heq
      obtain ⟨c, hc, hitem⟩ := h.all _ hj
      injection hitem with hitem
      injection hitem with _ hitem
      injection heq with heq
      injection heq with _ heq
      exact absurd (hitem.trans heq.symm) (loomFindCpu_none hphyid hfind hc)
  · rintro ⟨⟨index, phyid, rfl, hindex, hphyid⟩, hagree⟩
    have hindex' : ¬ index < 0 := by omega
    have hphyid' : ¬ phyid < 0 := by omega
    cases hfind : loomFindCpu loom phyid with
    | none => exact ⟨_, by simp [loadCpu, loomAddCpu, hindex', hphyid', hfind]; rfl⟩
    | some c =>
        have hc := loomFindCpu_some hphyid hfind
        have hsame : c.index = index :=
          hagree _ (h.given c hc.1).2 c.index index phyid (by rw [LoomCpu.item, hc.2]) rfl
        exact ⟨loom, by simp [loadCpu, hindex', hfind, hsame]; rfl⟩

theorem loadCpu_kept (h : CpusOk items loom) (hload : loadCpu loom item = .ok loom') :
    CpusOk (items ++ [item]) loom' := by
  have hfits := ((loadCpu_ok_iff h).mp ⟨_, hload⟩).1
  obtain ⟨index, phyid, rfl, hindex, ⟨c, hfind, rfl, rfl⟩ | ⟨hphyid, hfind, rfl⟩⟩ :=
    loadCpu_ok hload
  · obtain ⟨hc, rfl⟩ := h.found hindex hfind
    refine ⟨h.vcpu, ?_, h.nodup, fun c hc => ?_, ?_⟩
    · simpa [or_imp, forall_and] using ⟨h.fits, hfits⟩
    · exact ⟨(h.given c hc).1, by simp [(h.given c hc).2]⟩
    · simpa [or_imp, forall_and] using ⟨h.all, c, hc, rfl⟩
  · refine ⟨h.vcpu, ?_, ?_, fun c hc => ?_, ?_⟩
    · simpa [or_imp, forall_and] using ⟨h.fits, hfits⟩
    · rw [List.map_append, List.nodup_append]
      refine ⟨h.nodup, by simp, fun p hp q hq => ?_⟩
      obtain ⟨c, hc, rfl⟩ := List.mem_map.mp hp
      have hq' : q = phyid := by simpa using hq
      rw [hq']
      exact loomFindCpu_none hphyid hfind hc
    · rcases List.mem_append.mp hc with hc | hc
      · exact ⟨(h.given c hc).1, by simp [(h.given c hc).2]⟩
      · rw [List.mem_singleton.mp hc]
        exact ⟨rfl, by simp [LoomCpu.item]⟩
    · intro item hitem
      rcases List.mem_append.mp hitem with hitem | hitem
      · obtain ⟨c, hc, heq⟩ := h.all item hitem
        exact ⟨c, by simp [hc], heq⟩
      · exact ⟨⟨index, phyid, false⟩, by simp, (List.mem_singleton.mp hitem).symm⟩

theorem loadCpu_merges : Lib.Merges loadCpu CpusOk CpuFits CpuAgree where
  ok_iff := loadCpu_ok_iff
  kept := loadCpu_kept

theorem loadCpu_rest (h : loadCpu loom item = .ok loom') (cpus : List LoomCpu) :
    { loom' with cpus } = { loom with cpus } := by
  obtain ⟨index, phyid, -, -, ⟨c, -, -, rfl⟩ | ⟨-, -, rfl⟩⟩ := loadCpu_ok h
  · rfl
  · rfl

/-- `load_cpus` changes nothing else in the loom. -/
theorem loadCpus_rest (h : loadCpus loom s = .ok loom') (cpus : List LoomCpu) :
    { loom' with cpus } = { loom with cpus } := by
  unfold loadCpus at h
  split at h
  · cases h
    rfl
  · obtain ⟨-, h⟩ := Lib.guard_ok h
    refine Lib.foldlM_kept (P := fun l => { l with cpus } = { loom with cpus }) ?_ rfl h
    exact fun l item l' hl hload => (loadCpu_rest hload cpus).trans hl

theorem loadCpus_ok_iff (h : CpusOk items loom) :
    (∃ loom', loadCpus loom s = .ok loom') ↔
      s.loomCpus ≠ some [] ∧ (∀ item ∈ metaCpus s, CpuFits item) ∧
        (metaCpus s).Pairwise CpuAgree ∧
        ∀ item ∈ metaCpus s, ∀ j ∈ items, CpuAgree j item := by
  unfold loadCpus metaCpus
  cases hcpus : s.loomCpus with
  | none => simpa using ⟨loom, rfl⟩
  | some cpuarray =>
      have hfold := loadCpu_merges.fold_ok_iff (l := cpuarray) h
      by_cases hempty : cpuarray = []
      · simp [hempty]
        rintro _ ⟨⟩
      · simp only [List.isEmpty_iff, hempty, if_false, Option.getD_some, ne_eq, Option.some.injEq,
          not_false_eq_true, true_and]
        refine hfold.trans ⟨fun ⟨hone, hpair⟩ => ?_, fun ⟨hfits, hpair, hold⟩ => ?_⟩
        · exact ⟨fun i hi => (hone i hi).1, hpair, fun i hi => (hone i hi).2⟩
        · exact ⟨fun i hi => ⟨hfits i hi, hold i hi⟩, hpair⟩

theorem loadCpus_kept (h : CpusOk items loom) (hload : loadCpus loom s = .ok loom') :
    CpusOk (items ++ metaCpus s) loom' := by
  unfold loadCpus at hload
  unfold metaCpus
  split at hload
  · rename_i hcpus
    cases hload
    simpa [hcpus] using h
  · rename_i cpuarray hcpus
    obtain ⟨-, hload⟩ := Lib.guard_ok hload
    rw [hcpus]
    exact loadCpu_merges.fold_kept h hload

end

/-! ## The processes -/

/-- The rank of a stream with the number of ranks. -/
def rankInfo (s : StreamMeta) : Option (Int × Int) :=
  s.rank.bind fun rank => s.nranks.map fun nranks => (rank, nranks)

/-- What a stream must say of its process and thread. -/
structure ProcFits (s : StreamMeta) : Prop where
  pid : ∃ pid, s.pid = some pid ∧ 0 ≤ pid
  appid : ∀ appid, s.appId = some appid → 0 < appid
  rank : ∀ rank, s.rank = some rank → 0 ≤ rank ∧ ∃ nranks, s.nranks = some nranks ∧ rank < nranks
  tid : ∃ tid, s.tid = some tid ∧ 0 ≤ tid
  finished : s.finished = true

/-- Two streams of the same process. -/
structure ProcAgree (s s' : StreamMeta) : Prop where
  tid : s.tid ≠ s'.tid
  appid : ∀ a a', s.appId = some a → s'.appId = some a' → a = a'
  rank : ∀ r r', rankInfo s = some r → rankInfo s' = some r' → r = r'

/-- The process is what the streams say of it. -/
structure ProcOk (items : List StreamMeta) (proc : Proc) : Prop where
  fits : ∀ s ∈ items, ProcFits s
  nodup : proc.threads.Nodup
  tid : ∀ tid, tid ∈ proc.threads ↔ ∃ s ∈ items, s.tid = some tid
  appid : Lib.Given (· ∈ items) StreamMeta.appId 0 proc.appid
  rank : Lib.Given (· ∈ items) rankInfo (-1, 0) (proc.rank, proc.nranks)

/-- What a stream does with its process: `create_proc` and `create_thread`. -/
def procStep (pid : Int) (proc : Option Proc) (s : StreamMeta) : Except EmuFault Proc := do
  if pid < 0 then throw (.fail "cannot get proc pid from stream")
  let proc ← procLoadMetadata (proc.getD (procInitBegin pid)) s
  createThread proc s

section

variable {proc proc' : Proc} {s : StreamMeta} {items : List StreamMeta} {pid : Int}

theorem loadAppid_ok_iff : loadAppid proc s = .ok proc' ↔
    (s.appId = none ∧ proc' = proc) ∨
    ∃ appid, s.appId = some appid ∧ (proc.appid = 0 ∨ proc.appid = appid) ∧ 0 < appid ∧
      proc' = { proc with appid } := by
  unfold loadAppid
  cases s.appId with
  | none =>
      constructor
      · rintro ⟨⟩
        exact Or.inl ⟨rfl, rfl⟩
      · rintro (⟨-, rfl⟩ | ⟨appid, h, -⟩)
        · rfl
        · cases h
  | some appid =>
      constructor
      · intro h
        obtain ⟨hsame, h⟩ := Lib.guard_ok h
        obtain ⟨hpos, h⟩ := Lib.guard_ok h
        cases h
        exact Or.inr ⟨appid, rfl, by omega, by omega, rfl⟩
      · rintro (⟨h, -⟩ | ⟨appid', h, hsame, hpos, rfl⟩)
        · cases h
        · cases h
          have hsame' : ¬ (proc.appid ≠ 0 ∧ proc.appid ≠ appid) := by omega
          have hpos' : ¬ appid ≤ 0 := by omega
          simp only [hsame', hpos', if_false]
          rfl

theorem loadRank_ok_iff : loadRank proc s = .ok proc' ↔
    (s.rank = none ∧ proc' = proc) ∨
    ∃ rank nranks, s.rank = some rank ∧ s.nranks = some nranks ∧ 0 ≤ rank ∧ rank < nranks ∧
      (0 ≤ proc.rank → proc.rank = rank) ∧ (0 < proc.nranks → proc.nranks = nranks) ∧
      proc' = { proc with rank, nranks } := by
  unfold loadRank
  cases s.rank with
  | none =>
      constructor
      · rintro ⟨⟩
        exact Or.inl ⟨rfl, rfl⟩
      · rintro (⟨-, rfl⟩ | ⟨rank, nranks, h, -⟩)
        · rfl
        · cases h
  | some rank =>
      constructor
      · intro h
        obtain ⟨hrank, h⟩ := Lib.guard_ok h
        obtain ⟨hsame, h⟩ := Lib.guard_ok h
        split at h
        · cases h
        · rename_i nranks hnranks
          obtain ⟨hpos, h⟩ := Lib.guard_ok h
          obtain ⟨hsame', h⟩ := Lib.guard_ok h
          obtain ⟨hlt, h⟩ := Lib.guard_ok h
          cases h
          exact Or.inr ⟨rank, nranks, rfl, hnranks, by omega, by omega, by omega, by omega, rfl⟩
      · rintro (⟨h, -⟩ | ⟨rank', nranks, h, hnranks, hrank, hlt, hsame, hsame', rfl⟩)
        · cases h
        · cases h
          have h₁ : ¬ rank < 0 := by omega
          have h₂ : ¬ (proc.rank ≥ 0 ∧ proc.rank ≠ rank) := by omega
          have h₃ : ¬ nranks ≤ 0 := by omega
          have h₄ : ¬ (proc.nranks > 0 ∧ proc.nranks ≠ nranks) := by omega
          have h₅ : ¬ rank ≥ nranks := by omega
          simp only [h₁, h₂, h₃, h₄, h₅, hnranks, if_false]
          rfl

theorem createThread_ok_iff : createThread proc s = .ok proc' ↔
    ∃ tid, s.tid = some tid ∧ 0 ≤ tid ∧ tid ∉ proc.threads ∧ s.finished = true ∧
      proc' = { proc with threads := proc.threads ++ [tid] } := by
  unfold createThread
  cases s.tid with
  | none =>
      constructor
      · rintro ⟨⟩
      · rintro ⟨tid, h, -⟩
        cases h
  | some tid =>
      constructor
      · intro h
        obtain ⟨htid, h⟩ := Lib.guard_ok h
        obtain ⟨hnew, h⟩ := Lib.guard_ok h
        obtain ⟨hfinished, h⟩ := Lib.guard_ok h
        cases h
        exact ⟨tid, rfl, by omega, hnew, by simpa using hfinished, rfl⟩
      · rintro ⟨tid', h, htid, hnew, hfinished, rfl⟩
        cases h
        have htid' : ¬ tid < 0 := by omega
        simp only [htid', hnew, hfinished, if_false, Bool.true_eq_false]
        rfl

theorem rankInfo_some {rank nranks : Int} :
    rankInfo s = some (rank, nranks) ↔ s.rank = some rank ∧ s.nranks = some nranks := by
  unfold rankInfo
  cases s.rank <;> cases s.nranks <;> simp

theorem procInitBegin_ok (pid : Int) : ProcOk [] (procInitBegin pid) where
  fits := by simp
  nodup := .nil
  tid := by simp [procInitBegin]
  appid := ⟨by simp, Or.inl rfl⟩
  rank := ⟨by simp, Or.inl rfl⟩

/-- The check of `load_appid` compares with every stream of the process. -/
theorem ProcOk.appid_iff (h : ProcOk items proc) {appid : Int} :
    (proc.appid = 0 ∨ proc.appid = appid) ↔
      ∀ j ∈ items, ∀ a, j.appId = some a → a = appid := by
  apply h.appid.agree_iff
  intro j hj hzero
  have hpos := (h.fits j hj).appid 0 hzero
  omega

/-- So do the checks of `load_rank`. -/
theorem ProcOk.rank_iff (h : ProcOk items proc) {rank nranks : Int} :
    ((0 ≤ proc.rank → proc.rank = rank) ∧ (0 < proc.nranks → proc.nranks = nranks)) ↔
      ∀ j ∈ items, ∀ r, rankInfo j = some r → r = (rank, nranks) := by
  have hgiven : (proc.rank, proc.nranks) = (-1, 0) ∨ 0 ≤ proc.rank ∧ 0 < proc.nranks := by
    refine h.rank.2.imp_right fun ⟨j, hj, hinfo⟩ => ?_
    obtain ⟨hrank, hnranks⟩ := rankInfo_some.mp hinfo
    obtain ⟨hpos, n, hn, hlt⟩ := (h.fits j hj).rank _ hrank
    rw [hnranks] at hn
    cases hn
    omega
  rw [← h.rank.agree_iff (a := (rank, nranks)) fun j hj hdflt => ?_]
  · simp only [Prod.mk.injEq] at hgiven ⊢
    omega
  · have hpos := ((h.fits j hj).rank _ (rankInfo_some.mp hdflt).1).1
    omega

theorem procStep_ok_iff {o : Option Proc} : procStep pid o s = .ok proc' ↔
    0 ≤ pid ∧ ∃ proc₁ proc₂, loadAppid (o.getD (procInitBegin pid)) s = .ok proc₁ ∧
      loadRank proc₁ s = .ok proc₂ ∧ createThread proc₂ s = .ok proc' := by
  unfold procStep procLoadMetadata
  constructor
  · intro h
    obtain ⟨hpid, h⟩ := Lib.guard_ok h
    obtain ⟨proc₂, hload, hthread⟩ := Lib.bind_ok h
    obtain ⟨proc₁, hload, hrank⟩ := Lib.bind_ok hload
    exact ⟨by omega, proc₁, proc₂, hload, hrank, hthread⟩
  · rintro ⟨hpid, proc₁, proc₂, hload, hrank, hthread⟩
    have hpid' : ¬ pid < 0 := by omega
    simp only [hpid', if_false, hload]
    change (loadRank proc₁ s >>= fun proc => createThread proc s) = .ok proc'
    rw [hrank]
    exact hthread

theorem loadAppid_rest (h : loadAppid proc s = .ok proc') :
    ∃ appid, proc' = { proc with appid } := by
  obtain ⟨-, rfl⟩ | ⟨appid, -, -, -, rfl⟩ := loadAppid_ok_iff.mp h
  · exact ⟨_, rfl⟩
  · exact ⟨appid, rfl⟩

theorem loadRank_rest (h : loadRank proc s = .ok proc') :
    ∃ rank nranks, proc' = { proc with rank, nranks } := by
  obtain ⟨-, rfl⟩ | ⟨rank, nranks, -, -, -, -, -, -, rfl⟩ := loadRank_ok_iff.mp h
  · exact ⟨_, _, rfl⟩
  · exact ⟨rank, nranks, rfl⟩

theorem mem_append_one (j : StreamMeta) : j ∈ items ++ [s] ↔ j ∈ items ∨ j = s := by
  rw [List.mem_append, List.mem_singleton]

theorem loadAppid_given (hgiven : Lib.Given (· ∈ items) StreamMeta.appId 0 proc.appid)
    (hagree : ∀ j ∈ items, ProcAgree j s) (h : loadAppid proc s = .ok proc') :
    Lib.Given (· ∈ items ++ [s]) StreamMeta.appId 0 proc'.appid := by
  obtain ⟨hnone, rfl⟩ | ⟨appid, happid, -, -, rfl⟩ := loadAppid_ok_iff.mp h
  · exact hgiven.skip hnone mem_append_one
  · exact Lib.Given.give happid (fun j hj a ha => (hagree j hj).appid a appid ha happid)
      mem_append_one

theorem loadRank_given
    (hgiven : Lib.Given (· ∈ items) rankInfo (-1, 0) (proc.rank, proc.nranks))
    (hagree : ∀ j ∈ items, ProcAgree j s) (h : loadRank proc s = .ok proc') :
    Lib.Given (· ∈ items ++ [s]) rankInfo (-1, 0) (proc'.rank, proc'.nranks) := by
  obtain ⟨hnone, rfl⟩ | ⟨rank, nranks, hrank, hnranks, -, -, -, -, rfl⟩ := loadRank_ok_iff.mp h
  · exact hgiven.skip (by rw [rankInfo, hnone]; rfl) mem_append_one
  · have hinfo := rankInfo_some.mpr ⟨hrank, hnranks⟩
    exact Lib.Given.give hinfo (fun j hj r hr => (hagree j hj).rank r _ hr hinfo) mem_append_one

theorem procPart_ok {o : Option Proc} (h : Lib.PartOk Proc.pid ProcOk pid items o) :
    (o.getD (procInitBegin pid)).pid = pid ∧ ProcOk items (o.getD (procInitBegin pid)) := by
  cases o with
  | none =>
      rw [show items = [] from h]
      exact ⟨rfl, procInitBegin_ok pid⟩
  | some proc => exact h

/-- A stream that could be added fits and agrees with those of its process. -/
theorem procStep_agree (h : ProcOk items proc) {proc₁ proc₂ : Proc} (hpid : s.pid = some pid)
    (hnonneg : 0 ≤ pid) (happid : loadAppid proc s = .ok proc₁)
    (hrank : loadRank proc₁ s = .ok proc₂) (hthread : createThread proc₂ s = .ok proc') :
    ProcFits s ∧ ∀ j ∈ items, ProcAgree j s := by
  obtain ⟨appid, hproc₁⟩ := loadAppid_rest happid
  obtain ⟨rank, nranks, hproc₂⟩ := loadRank_rest hrank
  obtain ⟨tid, htid, htid', hnew, hfinished, -⟩ := createThread_ok_iff.mp hthread
  rw [loadAppid_ok_iff] at happid
  rw [loadRank_ok_iff] at hrank
  subst hproc₁ hproc₂
  constructor
  · refine ⟨⟨pid, hpid, hnonneg⟩, fun a ha => ?_, fun r hr => ?_, ⟨tid, htid, htid'⟩, hfinished⟩
    · obtain ⟨hnone, -⟩ | ⟨a', ha', -, hpos, -⟩ := happid
      · rw [hnone] at ha
        cases ha
      · rw [ha'] at ha
        cases ha
        exact hpos
    · obtain ⟨hnone, -⟩ | ⟨r', n', hr', hn', hpos, hlt, -⟩ := hrank
      · rw [hnone] at hr
        cases hr
      · rw [hr'] at hr
        cases hr
        exact ⟨hpos, n', hn', hlt⟩
  · intro j hj
    refine ⟨fun hsame => ?_, fun a a' ha ha' => ?_, fun r r' hr hr' => ?_⟩
    · exact hnew ((h.tid tid).mpr ⟨j, hj, by rw [hsame, htid]⟩)
    · obtain ⟨hnone, -⟩ | ⟨b, hb, hsame, -⟩ := happid
      · rw [hnone] at ha'
        cases ha'
      · rw [hb] at ha'
        cases ha'
        exact h.appid_iff.mp hsame j hj a ha
    · obtain ⟨hr', hn'⟩ := rankInfo_some.mp hr'
      obtain ⟨hnone, -⟩ | ⟨r₁, n₁, hr₁, hn₁, -, -, hsame, hsame', -⟩ := hrank
      · rw [hnone] at hr'
        cases hr'
      · rw [hr₁] at hr'
        rw [hn₁] at hn'
        cases hr'
        cases hn'
        exact h.rank_iff.mp ⟨hsame, hsame'⟩ j hj r hr

theorem loadAppid_of_agree (h : ProcOk items proc) (hfits : ProcFits s)
    (hagree : ∀ j ∈ items, ProcAgree j s) : ∃ proc', loadAppid proc s = .ok proc' := by
  cases happid : s.appId with
  | none => exact ⟨proc, loadAppid_ok_iff.mpr (.inl ⟨happid, rfl⟩)⟩
  | some appid =>
      have hsame := h.appid_iff.mpr fun j hj a ha => (hagree j hj).appid a appid ha happid
      exact ⟨_, loadAppid_ok_iff.mpr
        (.inr ⟨appid, happid, hsame, hfits.appid appid happid, rfl⟩)⟩

theorem loadRank_of_agree (h : ProcOk items proc) (hfits : ProcFits s)
    (hagree : ∀ j ∈ items, ProcAgree j s) (appid : Int) :
    ∃ proc', loadRank { proc with appid } s = .ok proc' := by
  cases hrank : s.rank with
  | none => exact ⟨_, loadRank_ok_iff.mpr (.inl ⟨hrank, rfl⟩)⟩
  | some rank =>
      obtain ⟨hpos, nranks, hnranks, hlt⟩ := hfits.rank rank hrank
      have hinfo := rankInfo_some.mpr ⟨hrank, hnranks⟩
      obtain ⟨hsame, hsame'⟩ :=
        h.rank_iff.mpr fun j hj r hr => (hagree j hj).rank r _ hr hinfo
      exact ⟨_, loadRank_ok_iff.mpr
        (.inr ⟨rank, nranks, hrank, hnranks, hpos, hlt, hsame, hsame', rfl⟩)⟩

/-- Adding a stream to its process is a merge. -/
theorem procStep_merges :
    Lib.PartMerges StreamMeta.pid Proc.pid procStep ProcOk ProcFits ProcAgree where
  ok_iff := by
    intro items o s pid hpid hpart
    obtain ⟨-, hok⟩ := procPart_ok hpart
    constructor
    · rintro ⟨proc', hstep⟩
      obtain ⟨hnonneg, proc₁, proc₂, happid, hrank, hthread⟩ := procStep_ok_iff.mp hstep
      exact procStep_agree hok hpid hnonneg happid hrank hthread
    · rintro ⟨hfits, hagree⟩
      obtain ⟨pid', hpid', hnonneg⟩ := hfits.pid
      rw [hpid] at hpid'
      cases hpid'
      obtain ⟨proc₁, happid⟩ := loadAppid_of_agree hok hfits hagree
      obtain ⟨appid, rfl⟩ := loadAppid_rest happid
      obtain ⟨proc₂, hrank⟩ := loadRank_of_agree hok hfits hagree appid
      obtain ⟨rank, nranks, rfl⟩ := loadRank_rest hrank
      obtain ⟨tid, htid, htid'⟩ := hfits.tid
      have hnew : tid ∉ (o.getD (procInitBegin pid)).threads := by
        intro hmem
        obtain ⟨j, hj, hjtid⟩ := (hok.tid tid).mp hmem
        exact (hagree j hj).tid (by rw [hjtid, htid])
      exact ⟨_, procStep_ok_iff.mpr ⟨hnonneg, _, _, happid, hrank,
        createThread_ok_iff.mpr ⟨tid, htid, htid', hnew, hfits.finished, rfl⟩⟩⟩
  kept := by
    intro items o s pid proc' hpid hpart hstep
    obtain ⟨hkey, hok⟩ := procPart_ok hpart
    obtain ⟨hnonneg, proc₁, proc₂, happid, hrank, hthread⟩ := procStep_ok_iff.mp hstep
    obtain ⟨hfits, hagree⟩ := procStep_agree hok hpid hnonneg happid hrank hthread
    have happid' := loadAppid_given hok.appid hagree happid
    obtain ⟨appid, hproc₁⟩ := loadAppid_rest happid
    have hgiven : Lib.Given (· ∈ items) rankInfo (-1, 0) (proc₁.rank, proc₁.nranks) := by
      rw [hproc₁]
      exact hok.rank
    have hrank' := loadRank_given hgiven hagree hrank
    obtain ⟨rank, nranks, rfl⟩ := loadRank_rest hrank
    subst hproc₁
    obtain ⟨tid, htid, -, hnew, -, rfl⟩ := createThread_ok_iff.mp hthread
    refine ⟨hkey, ⟨?_, ?_, fun t => ?_, happid', hrank'⟩⟩
    · simpa [or_imp, forall_and] using ⟨hok.fits, hfits⟩
    · refine List.nodup_append.mpr ⟨hok.nodup, by simp, fun t ht u hu heq => hnew ?_⟩
      rw [← List.mem_singleton.mp hu, ← heq]
      exact ht
    · simp [hok.tid t, htid, or_and_right, exists_or, eq_comm]

end

end Ovni
