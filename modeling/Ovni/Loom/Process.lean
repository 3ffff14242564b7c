import Mathlib.Data.List.Pairwise
import Ovni.Loom.Init
import Ovni.Loom.Metadata
import Ovni.Runtime.Files

/-!
# The trace of one process

The streams that the threads of a process leave are merged by `system_init` into one loom with
one process.  That goes well exactly when the threads agree on the ranks and the CPUs and the
CPUs of all of them fill the places from zero on.
-/

namespace Ovni

open Ovni.Lib

/-! ## One part -/

section

variable {σ ι κ : Type} [DecidableEq κ] {key : σ → κ} {k : ι → Option κ}
  {Ok : List ι → σ → Prop} {items : List ι} {l : List σ} {a : κ}

/-- Items with the same key make one part. -/
theorem Parts.sole (h : Parts k key Ok items l) (hne : items ≠ [])
    (ha : ∀ i ∈ items, k i = some a) :
    ∃ x, l = [x] ∧ key x = a ∧ Ok items x := by
  have hkey : ∀ x ∈ l, key x = a := by
    intro x hx
    obtain ⟨i, hi, hk⟩ := h.used x hx
    exact (Option.some.inj ((ha i hi).symm.trans hk)).symm
  obtain ⟨i, hi⟩ := List.exists_mem_of_ne_nil items hne
  obtain ⟨x, hx, -⟩ := h.all i hi a (ha i hi)
  have hfilter : (items.filter fun i => k i = some (key x)) = items := by
    refine List.filter_eq_self.mpr fun i hi => ?_
    rw [hkey x hx]
    simpa using ha i hi
  have hok := h.ok x hx
  rw [hfilter] at hok
  refine ⟨x, ?_, hkey x hx, hok⟩
  have hlen : l.length ≤ 1 := by
    have hnodup := h.nodup
    rw [show l.map key = List.replicate l.length a from
      List.eq_replicate_iff.mpr ⟨by simp, by simpa using hkey⟩] at hnodup
    exact List.nodup_replicate.mp hnodup
  obtain ⟨y, rfl⟩ := List.length_eq_one_iff.mp
    (Nat.le_antisymm hlen (List.length_pos_iff.mpr (List.ne_nil_of_mem hx)))
  rw [List.mem_singleton.mp hx]

end

/-! ## The streams of a process -/

/-- What the threads of a process stored. -/
structure OneProcess (loom : Name) (app pid : Int) (infos : List StreamInfo) : Prop where
  ne_nil : infos ≠ []
  told : ∀ i ∈ infos, i.loom = loom ∧ i.app = app ∧ i.pid = pid ∧ i.finished = true
  tids : (infos.map StreamInfo.tid).Nodup
  nranks : ∀ i ∈ infos, ∀ r, i.rank = some r → r.2 ≤ intMax
  nonneg : ∀ i ∈ infos, ∀ c ∈ i.cpus, 0 ≤ c.1 ∧ 0 ≤ c.2

/-- The CPUs that the threads added. -/
def addedCpus (infos : List StreamInfo) : List (Int × Int) := infos.flatMap StreamInfo.cpus

/-- What the streams of a process must be for the trace to be accepted. -/
structure ProcessFits (loom : Name) (app pid : Int) (infos : List StreamInfo) : Prop where
  loom : NameFits loom
  app : 0 < app
  pid : 0 < pid
  tid : ∀ i ∈ infos, 0 < i.tid
  rank : ∀ i ∈ infos, ∀ r, i.rank = some r → 0 ≤ r.1 ∧ r.1 < r.2
  sameRank : ∀ i ∈ infos, ∀ j ∈ infos, ∀ r r', i.rank = some r → j.rank = some r' → r = r'
  cpus : addedCpus infos ≠ []
  sameCpu : ∀ c ∈ addedCpus infos, ∀ c' ∈ addedCpus infos, c.1 = c'.1 ↔ c.2 = c'.2
  bound : ∀ c ∈ addedCpus infos, c.1 < ((addedCpus infos).map Prod.snd).dedup.length

/-- The trace of the streams. -/
def processTrace (infos : List StreamInfo) : List (Option StreamMeta) :=
  infos.map fun i => some i.toMeta

section

variable {loom : Name} {app pid : Int} {infos : List StreamInfo} {i j : StreamInfo}
  {looms : List Loom}

theorem metaCpus_toMeta (i : StreamInfo) : metaCpus i.toMeta = i.cpus.map some := by
  unfold metaCpus StreamInfo.toMeta
  by_cases h : i.cpus = []
  · simp [h]
  · simp [h]

theorem rankInfo_toMeta (i : StreamInfo) : rankInfo i.toMeta = i.rank := by
  unfold rankInfo StreamInfo.toMeta
  cases i.rank <;> rfl

/-- Two CPUs with the same `phyid` have the same index. -/
def SamePlace (c c' : Int × Int) : Prop := c.2 = c'.2 → c.1 = c'.1

theorem cpuAgree_some {c c' : Int × Int} : CpuAgree (some c) (some c') ↔ SamePlace c c' := by
  unfold CpuAgree SamePlace
  constructor
  · intro h heq
    exact h c.1 c'.1 c.2 rfl (by rw [heq])
  · intro h index index' phyid hc hc'
    obtain rfl := Option.some.inj hc
    obtain rfl := Option.some.inj hc'
    exact h rfl

theorem procFits_toMeta (hfinished : i.finished = true) : ProcFits i.toMeta ↔
    0 < i.pid ∧ 0 < i.app ∧ 0 < i.tid ∧ ∀ r, i.rank = some r → 0 ≤ r.1 ∧ r.1 < r.2 := by
  have hid : ∀ n : Int, (∃ id, (if n = 0 then none else some n) = some id ∧ 0 ≤ id) ↔ 0 < n := by
    intro n
    constructor
    · rintro ⟨id, hn, hnonneg⟩
      split at hn
      · cases hn
      · cases hn
        omega
    · intro hn
      exact ⟨n, if_neg (by omega), by omega⟩
  constructor
  · intro h
    refine ⟨(hid _).mp h.pid, h.appid _ rfl, (hid _).mp h.tid, fun r hr => ?_⟩
    have hrank := h.rank r.1 (congrArg (Option.map Prod.fst) hr)
    obtain ⟨hnonneg, nranks, hnranks, hlt⟩ := hrank
    obtain rfl : r.2 = nranks :=
      Option.some.inj ((congrArg (Option.map Prod.snd) hr).symm.trans hnranks)
    exact ⟨hnonneg, hlt⟩
  · rintro ⟨hpid, happ, htid, hrank⟩
    refine ⟨(hid _).mpr hpid, fun appid happid => ?_, fun rank hr => ?_, (hid _).mpr htid,
      hfinished⟩
    · obtain rfl := Option.some.inj happid
      exact happ
    · obtain ⟨r, hsome, rfl⟩ := Option.map_eq_some_iff.mp hr
      exact ⟨(hrank r hsome).1, r.2, congrArg (Option.map Prod.snd) hsome, (hrank r hsome).2⟩

theorem traceFits_toMeta (h : OneProcess loom app pid infos) (hi : i ∈ infos) :
    TraceFits (some i.toMeta) ↔ NameFits loom ∧ i.cpus.Pairwise SamePlace ∧
      0 < pid ∧ 0 < app ∧ 0 < i.tid ∧ ∀ r, i.rank = some r → 0 ≤ r.1 ∧ r.1 < r.2 := by
  obtain ⟨rfl, rfl, rfl, hfinished⟩ := h.told i hi
  have hpair : (metaCpus i.toMeta).Pairwise CpuAgree ↔ i.cpus.Pairwise SamePlace := by
    rw [metaCpus_toMeta, List.pairwise_map]
    simp only [cpuAgree_some]
  constructor
  · rintro ⟨-, hfits⟩
    obtain ⟨-, hstream⟩ := hfits i.toMeta rfl
    exact ⟨hstream.name _ rfl, hpair.mp hstream.cpuPair,
      (procFits_toMeta hfinished).mp hstream.proc⟩
  · rintro ⟨hloom, hcpus, hproc⟩
    refine ⟨⟨i.toMeta, rfl, rfl⟩, fun s hs => ?_⟩
    obtain rfl := Option.some.inj
      (hs.symm.trans (rfl : threadStream (some i.toMeta) = some i.toMeta))
    refine ⟨rfl, fun name hname => ?_, ?_, fun item hitem => ?_, hpair.mpr hcpus,
      (procFits_toMeta hfinished).mpr hproc⟩
    · obtain rfl := Option.some.inj hname
      exact hloom
    · unfold StreamInfo.toMeta
      by_cases hnil : i.cpus = []
      · simp [hnil]
      · simp [hnil]
    · rw [metaCpus_toMeta] at hitem
      obtain ⟨c, hc, rfl⟩ := List.mem_map.mp hitem
      exact ⟨c.1, c.2, rfl, h.nonneg i hi c hc⟩

theorem traceAgree_toMeta (h : OneProcess loom app pid infos) (hi : i ∈ infos) (hj : j ∈ infos)
    (htid : i.tid ≠ 0) :
    TraceAgree (some i.toMeta) (some j.toMeta) ↔
      (∀ c ∈ i.cpus, ∀ c' ∈ j.cpus, SamePlace c c') ∧ i.tid ≠ j.tid ∧
        ∀ r r', i.rank = some r → j.rank = some r' → r = r' := by
  obtain ⟨hloom, happ, hpid, -⟩ := h.told i hi
  obtain ⟨hloom', happ', hpid', -⟩ := h.told j hj
  have hids : i.toMeta.pid = j.toMeta.pid := by
    unfold StreamInfo.toMeta
    rw [hpid, hpid']
  have htids : i.toMeta.tid ≠ j.toMeta.tid ↔ i.tid ≠ j.tid := by
    unfold StreamInfo.toMeta
    by_cases hzero : j.tid = 0
    · simp [hzero, htid]
    · simp [hzero, htid]
  have hcpus : (∀ item ∈ metaCpus i.toMeta, ∀ item' ∈ metaCpus j.toMeta, CpuAgree item item') ↔
      ∀ c ∈ i.cpus, ∀ c' ∈ j.cpus, SamePlace c c' := by
    simp only [metaCpus_toMeta, List.forall_mem_map, cpuAgree_some]
  constructor
  · intro hagree
    obtain ⟨hcpu, hproc⟩ :=
      hagree i.toMeta j.toMeta rfl rfl (congrArg some (hloom.trans hloom'.symm))
    obtain ⟨hne, -, hrank⟩ := hproc hids
    rw [rankInfo_toMeta, rankInfo_toMeta] at hrank
    exact ⟨hcpus.mp hcpu, htids.mp hne, hrank⟩
  · rintro ⟨hcpu, hne, hrank⟩ s s' hs hs' -
    obtain rfl := Option.some.inj
      (hs.symm.trans (rfl : threadStream (some i.toMeta) = some i.toMeta))
    obtain rfl := Option.some.inj
      (hs'.symm.trans (rfl : threadStream (some j.toMeta) = some j.toMeta))
    refine ⟨hcpus.mpr hcpu, fun _ => ⟨htids.mpr hne, fun a a' ha ha' => ?_, ?_⟩⟩
    · obtain rfl := Option.some.inj ha
      obtain rfl := Option.some.inj ha'
      exact happ.trans happ'.symm
    · rw [rankInfo_toMeta, rankInfo_toMeta]
      exact hrank

/-- A relation between any two elements is one between any two places. -/
theorem pairwise_iff_forall {α : Type} {R : α → α → Prop} {l : List α}
    (hsymm : ∀ x y, R x y → R y x) (hrefl : ∀ x, R x x) :
    l.Pairwise R ↔ ∀ x ∈ l, ∀ y ∈ l, R x y := by
  have hstd : Std.Symm R := ⟨hsymm⟩
  constructor
  · intro h x hx y hy
    exact h.forall_of_forall (fun x _ => hrefl x) hx hy
  · intro h
    exact List.pairwise_of_forall_mem_list h

/-- The streams are merged when the threads agree with each other. -/
theorem createSystem_process (h : OneProcess loom app pid infos) :
    (∃ looms, createSystem (processTrace infos) = .ok looms) ↔
      NameFits loom ∧ 0 < pid ∧ 0 < app ∧ (∀ i ∈ infos, 0 < i.tid) ∧
      (∀ i ∈ infos, ∀ r, i.rank = some r → 0 ≤ r.1 ∧ r.1 < r.2) ∧
      (∀ i ∈ infos, ∀ j ∈ infos, ∀ r r', i.rank = some r → j.rank = some r' → r = r') ∧
      ∀ c ∈ addedCpus infos, ∀ c' ∈ addedCpus infos, SamePlace c c' := by
  have hnil : SystemOk (([] : List (Option StreamMeta)).filterMap threadStream) [] :=
    Lib.Parts.nil _ _ _
  have hfold := traceStep_merges.fold_ok_iff (l := processTrace infos) hnil
  have hplaces : (addedCpus infos).Pairwise SamePlace ↔
      ∀ c ∈ addedCpus infos, ∀ c' ∈ addedCpus infos, SamePlace c c' :=
    pairwise_iff_forall (fun c c' h heq => (h heq.symm).symm) fun c _ => rfl
  have hranks : (infos.Pairwise fun i j => ∀ r r', i.rank = some r → j.rank = some r' → r = r') ↔
      ∀ i ∈ infos, ∀ j ∈ infos, ∀ r r', i.rank = some r → j.rank = some r' → r = r' := by
    refine pairwise_iff_forall (fun i j h r r' hr hr' => (h r' r hr' hr).symm) ?_
    exact fun i r r' hr hr' => Option.some.inj (hr.symm.trans hr')
  have htids : infos.Pairwise fun i j => i.tid ≠ j.tid := List.pairwise_map.mp h.tids
  rw [← hplaces, ← hranks, addedCpus, List.pairwise_flatMap]
  change (∃ looms, (processTrace infos).foldlM traceStep [] = .ok looms) ↔ _
  rw [hfold]
  simp only [processTrace, List.forall_mem_map, List.pairwise_map, List.not_mem_nil, false_imp_iff,
    implies_true, and_true]
  constructor
  · rintro ⟨hfits, hagree⟩
    have hfits' := fun i hi => (traceFits_toMeta h hi).mp (hfits i hi)
    obtain ⟨i, hi⟩ := List.exists_mem_of_ne_nil infos h.ne_nil
    obtain ⟨hloom, -, hpid, happ, -⟩ := hfits' i hi
    have hagree' := hagree.imp_of_mem fun {i j} hi hj hij =>
      (traceAgree_toMeta h hi hj (hfits' i hi).2.2.2.2.1.ne').mp hij
    exact ⟨hloom, hpid, happ, fun i hi => (hfits' i hi).2.2.2.2.1,
      fun i hi => (hfits' i hi).2.2.2.2.2, hagree'.imp fun h => h.2.2,
      fun i hi => (hfits' i hi).2.1, hagree'.imp fun h => h.1⟩
  · rintro ⟨hloom, hpid, happ, htid, hrank, hsame, hcpus, hcross⟩
    refine ⟨fun i hi => (traceFits_toMeta h hi).mpr
      ⟨hloom, hcpus i hi, hpid, happ, htid i hi, hrank i hi⟩, ?_⟩
    refine ((htids.and hsame).and hcross).imp_of_mem fun {i j} hi hj hij => ?_
    exact (traceAgree_toMeta h hi hj (htid i hi).ne').mpr ⟨hij.2, hij.1.1, hij.1.2⟩

/-! ## The loom of a process -/

theorem filterMap_processTrace (infos : List StreamInfo) :
    (processTrace infos).filterMap threadStream = infos.map StreamInfo.toMeta := by
  unfold processTrace
  rw [List.filterMap_map]
  exact congrFun List.filterMap_eq_map infos

theorem metaCpus_process (infos : List StreamInfo) :
    (infos.map StreamInfo.toMeta).flatMap metaCpus = (addedCpus infos).map some := by
  rw [addedCpus, List.flatMap_map, List.map_flatMap]
  congr 1
  funext i
  exact metaCpus_toMeta i

/-- The CPUs of the loom are those that the threads added. -/
theorem CpusOk.mem_iff {l : Loom} (h : CpusOk ((addedCpus infos).map some) l) {c : Int × Int} :
    c ∈ addedCpus infos ↔ { index := c.1, phyid := c.2, isVirtual := false } ∈ l.cpus := by
  constructor
  · intro hc
    obtain ⟨cpu, hcpu, hitem⟩ := h.all (some c) (List.mem_map_of_mem hc)
    obtain ⟨hphy, -⟩ := h.given cpu hcpu
    obtain rfl := Option.some.inj hitem
    rw [← hphy]
    exact hcpu
  · intro hcpu
    obtain ⟨-, hitem⟩ := h.given _ hcpu
    obtain ⟨c', hc', heq⟩ := List.mem_map.mp hitem
    obtain rfl := Option.some.inj heq
    exact hc'

theorem CpusOk.mem_cpus {l : Loom} (h : CpusOk ((addedCpus infos).map some) l) {cpu : LoomCpu}
    (hcpu : cpu ∈ l.cpus) : (cpu.index, cpu.phyid) ∈ addedCpus infos := by
  obtain ⟨-, hitem⟩ := h.given _ hcpu
  obtain ⟨c, hc, heq⟩ := List.mem_map.mp hitem
  obtain rfl := Option.some.inj heq
  exact hc

theorem CpusOk.length {l : Loom} (h : CpusOk ((addedCpus infos).map some) l) :
    l.cpus.length = ((addedCpus infos).map Prod.snd).dedup.length := by
  have hperm : (l.cpus.map LoomCpu.phyid).Perm ((addedCpus infos).map Prod.snd).dedup := by
    refine (List.perm_ext_iff_of_nodup h.nodup (List.nodup_dedup _)).mpr fun phyid => ?_
    rw [List.mem_dedup, List.mem_map, List.mem_map]
    constructor
    · rintro ⟨cpu, hcpu, rfl⟩
      exact ⟨_, h.mem_cpus hcpu, rfl⟩
    · rintro ⟨c, hc, rfl⟩
      exact ⟨_, h.mem_iff.mp hc, rfl⟩
  rw [← hperm.length_eq, List.length_map]

/-- What `loom_init_end` asks of the CPUs. -/
theorem CpusOk.places_iff {l : Loom} (h : CpusOk ((addedCpus infos).map some) l)
    (hnonneg : ∀ c ∈ addedCpus infos, 0 ≤ c.1) :
    (l.cpus ≠ [] ∧ (∀ c ∈ l.cpus, 0 ≤ c.index ∧ c.index < l.cpus.length) ∧
        l.cpus.Pairwise fun c c' => c.index ≠ c'.index) ↔
      addedCpus infos ≠ [] ∧
        (∀ c ∈ addedCpus infos, c.1 < ((addedCpus infos).map Prod.snd).dedup.length) ∧
        ∀ c ∈ addedCpus infos, ∀ c' ∈ addedCpus infos, c.1 = c'.1 → c.2 = c'.2 := by
  have hinj : ∀ x ∈ l.cpus, ∀ y ∈ l.cpus, x.phyid = y.phyid → x = y :=
    fun x hx y hy => List.inj_on_of_nodup_map h.nodup hx hy
  have hindex : (l.cpus.Pairwise fun c c' => c.index ≠ c'.index) ↔
      ∀ x ∈ l.cpus, ∀ y ∈ l.cpus, x.index = y.index → x = y := by
    rw [← List.nodup_map_iff_inj_on h.nodup.of_map, List.Nodup, List.pairwise_map]
  rw [hindex, ← h.length]
  constructor
  · rintro ⟨hne, hbound, hsame⟩
    refine ⟨?_, fun c hc => (hbound _ (h.mem_iff.mp hc)).2, fun c hc c' hc' heq => ?_⟩
    · obtain ⟨cpu, hcpu⟩ := List.exists_mem_of_ne_nil _ hne
      exact List.ne_nil_of_mem (h.mem_cpus hcpu)
    · exact congrArg LoomCpu.phyid (hsame _ (h.mem_iff.mp hc) _ (h.mem_iff.mp hc') heq)
  · rintro ⟨hne, hbound, hsame⟩
    refine ⟨?_, fun cpu hcpu => ⟨hnonneg _ (h.mem_cpus hcpu), hbound _ (h.mem_cpus hcpu)⟩,
      fun x hx y hy heq => hinj x hx y hy (hsame _ (h.mem_cpus hx) _ (h.mem_cpus hy) heq)⟩
    obtain ⟨c, hc⟩ := List.exists_mem_of_ne_nil _ hne
    exact List.ne_nil_of_mem (h.mem_iff.mp hc)

/-- The loom of a process has that process only. -/
theorem sole_loom (h : OneProcess loom app pid infos) (hpid : 0 < pid)
    (hok : SystemOk (infos.map StreamInfo.toMeta) looms) :
    ∃ l p, looms = [l] ∧ l.name = loom ∧ LoomOk (infos.map StreamInfo.toMeta) l ∧ l.procs = [p] ∧
      p.pid = pid ∧ ProcOk (infos.map StreamInfo.toMeta) p := by
  have hne : infos.map StreamInfo.toMeta ≠ [] := by simpa using h.ne_nil
  obtain ⟨l, hlooms, hname, hloom⟩ := Parts.sole hok hne (a := loom) (by
    simp only [List.forall_mem_map]
    exact fun i hi => congrArg some (h.told i hi).1)
  obtain ⟨p, hprocs, hp, hproc⟩ := Parts.sole hloom.procs hne (a := pid) (by
    simp only [List.forall_mem_map]
    intro i hi
    unfold StreamInfo.toMeta
    rw [(h.told i hi).2.2.1]
    exact if_neg hpid.ne')
  exact ⟨l, p, hlooms, hname, hloom, hprocs, hp, hproc⟩

theorem proc_app (h : OneProcess loom app pid infos) {p : Proc}
    (hp : ProcOk (infos.map StreamInfo.toMeta) p) : p.appid = app := by
  obtain ⟨i, hi⟩ := List.exists_mem_of_ne_nil infos h.ne_nil
  have happ := hp.appid.1 i.toMeta (List.mem_map_of_mem hi) i.app rfl
  rw [← happ, (h.told i hi).2.1]

theorem proc_rank (h : OneProcess loom app pid infos) {p : Proc}
    (hp : ProcOk (infos.map StreamInfo.toMeta) p) : p.rank < intMax := by
  rcases hp.rank.2 with heq | ⟨s, hs, hrank⟩
  · rw [(Prod.mk.inj heq).1]
    decide
  · obtain ⟨i, hi, rfl⟩ := List.mem_map.mp hs
    have hfits := (procFits_toMeta (h.told i hi).2.2.2).mp (hp.fits _ hs)
    rw [rankInfo_toMeta] at hrank
    have hlt := hfits.2.2.2 _ hrank
    have hmax := h.nranks i hi _ hrank
    change 0 ≤ p.rank ∧ p.rank < p.nranks at hlt
    change p.nranks ≤ intMax at hmax
    omega

/-- `init_end_system` takes the loom when its CPUs fill the places from zero on. -/
theorem endOk_process {l : Loom} {p : Proc} (hmin : l.rankMin = intMax)
    (hrank : l.rankEnabled = false) (hprocs : l.procs = [p]) (happ : 0 < p.appid)
    (hmax : p.rank < intMax) : EndOk (loomCanon (rankLoom l)) ↔
      l.cpus ≠ [] ∧ (∀ c ∈ l.cpus, 0 ≤ c.index ∧ c.index < l.cpus.length) ∧
        l.cpus.Pairwise fun c c' => c.index ≠ c'.index := by
  have hperm : (loomCanon (rankLoom l)).cpus.Perm l.cpus := by
    rw [← rankLoom_cpus l]
    exact Lib.sortCmp_perm byPhyid _
  have hindex : ((loomCanon (rankLoom l)).cpus.Pairwise fun c c' => c.index ≠ c'.index) ↔
      l.cpus.Pairwise fun c c' => c.index ≠ c'.index :=
    hperm.pairwise_iff fun h => h.symm
  have hprocs' : (loomCanon (rankLoom l)).procs = [procSort p] := by
    change (Lib.sortCmp byPid (rankLoom l).procs).map procSort = _
    rw [rankLoom_procs, hprocs]
    rfl
  have hmin' : ¬ ((loomCanon (rankLoom l)).rankEnabled ∧
      (loomCanon (rankLoom l)).rankMin = intMax) := by
    change ¬ ((rankLoom l).rankEnabled ∧ (rankLoom l).rankMin = intMax)
    unfold rankLoom
    split
    · rw [hprocs, hmin]
      simp only [List.foldl_cons, List.foldl_nil, true_and]
      omega
    · simp [hrank]
  constructor
  · intro h
    refine ⟨?_, fun c hc => ?_, hindex.mp h.index⟩
    · rintro hnil
      exact h.cpus (List.Perm.eq_nil (hnil ▸ hperm))
    · have hb := h.bounds c (hperm.mem_iff.mpr hc)
      rwa [hperm.length_eq] at hb
  · rintro ⟨hne, hbounds, hpair⟩
    refine ⟨?_, hmin', ?_, by rw [hprocs']; simp, fun c hc => ?_, hindex.mpr hpair⟩
    · rw [hprocs', List.forall_mem_singleton]
      exact happ
    · rintro hnil
      exact hne (List.Perm.nil_eq (hnil ▸ hperm)).symm
    · rw [hperm.length_eq]
      exact hbounds c (hperm.mem_iff.mp hc)

theorem toMeta_tid (h : 0 < i.tid) : i.toMeta.tid = some i.tid := if_neg h.ne'

theorem initEnd_ok_iff {b : Bool} : (∃ sys, initEndSystem (initGlobalIndices looms b) = .ok sys) ↔
    ∀ l ∈ looms, EndOk l := by
  rw [initEndSystem_ok_iff]
  change (∀ p ∈ looms.zipIdx, EndOk p.1) ↔ _
  rw [← List.forall_mem_map (f := Prod.fst) (P := EndOk), List.zipIdx_map_fst]

/-- What is left when the streams were merged. -/
theorem systemInit_merged (h : OneProcess loom app pid infos) (hpid : 0 < pid) (happ : 0 < app)
    (hcreate : createSystem (processTrace infos) = .ok looms) :
    (∃ sys, systemInit (processTrace infos) = .ok sys) ↔
      addedCpus infos ≠ [] ∧
        (∀ c ∈ addedCpus infos, c.1 < ((addedCpus infos).map Prod.snd).dedup.length) ∧
        ∀ c ∈ addedCpus infos, ∀ c' ∈ addedCpus infos, c.1 = c'.1 → c.2 = c'.2 := by
  have hok := createSystem_kept hcreate
  rw [filterMap_processTrace] at hok
  obtain ⟨l, p, rfl, -, hloom, hprocs, -, hproc⟩ := sole_loom h hpid hok
  have hcpus := hloom.cpus
  rw [metaCpus_process] at hcpus
  have hnonneg : ∀ c ∈ addedCpus infos, 0 ≤ c.1 := by
    intro c hc
    obtain ⟨i, hi, hc⟩ := List.mem_flatMap.mp hc
    exact (h.nonneg i hi c hc).1
  have hranks : ∀ l' ∈ [l], RanksGiven l' := by
    rw [List.forall_mem_singleton]
    rintro ⟨q, hq, hrank⟩
    rw [hprocs] at hq ⊢
    obtain rfl := List.mem_singleton.mp hq
    rw [List.forall_mem_singleton]
    exact hrank
  have hend : (∃ sys, systemInit (processTrace infos) = .ok sys) ↔
      EndOk (loomCanon (rankLoom l)) := by
    rw [← List.forall_mem_singleton (p := EndOk) (a := loomCanon (rankLoom l))]
    change _ ↔ ∀ l' ∈ (rankLooms [l]).map loomCanon, EndOk l'
    rw [← endOk_sortedLooms, ← initEnd_ok_iff (b := allRanked [l])]
    constructor
    · rintro ⟨sys, hsys⟩
      obtain ⟨looms, hcreate', -, hend⟩ := systemInit_ok_iff.mp hsys
      obtain rfl := Except.ok.inj (hcreate.symm.trans hcreate')
      exact ⟨sys, hend⟩
    · rintro ⟨sys, hend⟩
      exact ⟨sys, systemInit_ok_iff.mpr ⟨[l], hcreate, hranks, hend⟩⟩
  have happ' : 0 < p.appid := by rwa [proc_app h hproc]
  rw [hend, endOk_process hloom.rankMin hloom.rankEnabled hprocs happ' (proc_rank h hproc),
    hcpus.places_iff hnonneg]

/-- The threads and the process of the system. -/
theorem systemInit_threads (h : OneProcess loom app pid infos) (hpid : 0 < pid) {sys : SystemInit}
    (hsys : systemInit (processTrace infos) = .ok sys) :
    (sys.threads.map Prod.fst).Perm (infos.map fun i => (loom, pid, i.tid)) ∧
      (sys.procs.map fun p => procKey p.1) = [(loom, pid)] := by
  obtain ⟨looms, hcreate, -, hend⟩ := systemInit_ok_iff.mp hsys
  have hok := createSystem_kept hcreate
  rw [filterMap_processTrace] at hok
  obtain ⟨l, p, rfl, hname, -, hprocs, hp, hproc⟩ := sole_loom h hpid hok
  obtain ⟨⟨looms', rfl⟩, -⟩ := initEndSystem_ok hend
  have hfits : ∀ i ∈ infos, 0 < i.tid := fun i hi =>
    ((procFits_toMeta (h.told i hi).2.2.2).mp (hproc.fits _ (List.mem_map_of_mem hi))).2.2.1
  constructor
  · have htids : p.threads.Perm (infos.map StreamInfo.tid) := by
      refine (List.perm_ext_iff_of_nodup hproc.nodup h.tids).mpr fun tid => ?_
      rw [hproc.tid, List.mem_map]
      constructor
      · rintro ⟨s, hs, htid⟩
        obtain ⟨i, hi, rfl⟩ := List.mem_map.mp hs
        refine ⟨i, hi, ?_⟩
        rw [toMeta_tid (hfits i hi)] at htid
        exact Option.some.inj htid
      · rintro ⟨i, hi, rfl⟩
        exact ⟨i.toMeta, List.mem_map_of_mem hi, toMeta_tid (hfits i hi)⟩
    change ((globalThreads (sortedLooms [l])).zipIdx.map Prod.fst).Perm _
    rw [List.zipIdx_map_fst]
    refine (sortedLooms_threads [l]).trans ?_
    have heq : globalThreads [l] = p.threads.map fun t => (loom, pid, t) := by
      simp [globalThreads, hprocs, hname, hp]
    rw [heq]
    have hmap := htids.map fun t => (loom, pid, t)
    rwa [List.map_map] at hmap
  · change ((globalProcs (sortedLooms [l])).zipIdx.map fun p => procKey p.1) = _
    have hone : (globalProcs (sortedLooms [l])).map procKey = [(loom, pid)] := by
      refine List.perm_singleton.mp ((sortedLooms_procs [l]).trans (List.Perm.of_eq ?_))
      simp [globalProcs, hprocs, procKey, hname, hp]
    have hfst : ∀ procs : List ((Name × Proc) × Nat),
        (procs.map fun p => procKey p.1) = (procs.map Prod.fst).map procKey := by
      intro procs
      rw [List.map_map]
      rfl
    rw [hfst, List.zipIdx_map_fst]
    exact hone

/-- The streams of a process make a system with that process and these threads, exactly when they
fit. -/
theorem OneProcess.accepted (h : OneProcess loom app pid infos) :
    ((∃ sys, systemInit (processTrace infos) = .ok sys) ↔ ProcessFits loom app pid infos) ∧
      ∀ sys, systemInit (processTrace infos) = .ok sys →
        (sys.threads.map Prod.fst).Perm (infos.map fun i => (loom, pid, i.tid)) ∧
          (sys.procs.map fun p => procKey p.1) = [(loom, pid)] := by
  have hcreate : ∀ {sys}, systemInit (processTrace infos) = .ok sys →
      ∃ looms, createSystem (processTrace infos) = .ok looms := by
    intro sys hsys
    obtain ⟨looms, hlooms, -⟩ := systemInit_ok_iff.mp hsys
    exact ⟨looms, hlooms⟩
  refine ⟨⟨?_, fun hfits => ?_⟩, fun sys hsys => ?_⟩
  · rintro ⟨sys, hsys⟩
    obtain ⟨looms, hlooms⟩ := hcreate hsys
    obtain ⟨hloom, hpid, happ, htid, hrank, hsame, hplace⟩ :=
      (createSystem_process h).mp ⟨looms, hlooms⟩
    obtain ⟨hne, hbound, hcpu⟩ := (systemInit_merged h hpid happ hlooms).mp ⟨sys, hsys⟩
    exact ⟨hloom, happ, hpid, htid, hrank, hsame, hne,
      fun c hc c' hc' => ⟨hcpu c hc c' hc', hplace c hc c' hc'⟩, hbound⟩
  · obtain ⟨looms, hlooms⟩ := (createSystem_process h).mpr ⟨hfits.loom, hfits.pid, hfits.app,
      hfits.tid, hfits.rank, hfits.sameRank, fun c hc c' hc' => (hfits.sameCpu c hc c' hc').mpr⟩
    exact (systemInit_merged h hfits.pid hfits.app hlooms).mpr
      ⟨hfits.cpus, hfits.bound, fun c hc c' hc' => (hfits.sameCpu c hc c' hc').mp⟩
  · exact systemInit_threads h ((createSystem_process h).mp (hcreate hsys)).2.1 hsys

end

/-! ## The threads of a run -/

section

variable {ι : Type} [DecidableEq ι] {env : RtEnv ι} {s : RtState ι} {log : List (ι × RtAct)}
  {obs : ProcDir → Int → Option (List UInt8)} {json : ProcDir → Int → Option StreamInfo}

/-- What is stored of a thread that has finished. -/
def finishedInfo (log : List (ι × RtAct)) (s : RtState ι) (app : Int) (loom : Name) (pid : Int)
    (i : ι) : StreamInfo :=
  { tid := (s.th i).tid, pid, loom, app, rank := (pick RtAct.rank? i log).getLast?
    cpus := pick RtAct.cpu? i log, finished := true }

/-- Only CPUs with a place and an id are added. -/
theorem RtRun.cpus_nonneg (h : RtRun env obs json log s) (i : ι) :
    ∀ c ∈ pick RtAct.cpu? i log, 0 ≤ c.1 ∧ 0 ≤ c.2 := by
  refine Runs.inv (P := fun log _ => ∀ c ∈ pick RtAct.cpu? i log, 0 ≤ c.1 ∧ 0 ≤ c.2)
    (fun c hc => by cases hc) (fun log s j a s' ih hstep c hc => ?_) h
  by_cases hj : j = i
  · subst hj
    rw [pick_snoc_self] at hc
    rcases List.mem_append.mp hc with hc | hc
    · exact ih c hc
    · have hcpu : a = .call (.addCpu c.1 c.2) := by
        unfold RtAct.cpu? at hc
        split at hc
        · obtain rfl := List.mem_singleton.mp hc
          rfl
        · cases hc
      subst hcpu
      cases hstep with
      | call hidle hrun =>
          obtain ⟨hindex, hrun⟩ := guard_ok hrun
          obtain ⟨hphyid, -⟩ := guard_ok hrun
          exact ⟨not_lt.mp hindex, not_lt.mp hphyid⟩
  · rw [pick_snoc_of_ne hj] at hc
    exact ih c hc

/-- Whatever the order of the steps of the threads of a process, when no two of them took the
same id, the metadata of those that have finished says what the process was set up with and what
each of them added.  A trace of these threads is accepted exactly when they agree on the ranks
and the CPUs, and the CPUs of all of them fill the places from zero on; then the system has this
process with these threads. -/
theorem process_accepted (h : RtRun env obs json log s)
    (hc : ∀ i c, (i, RtAct.call (.stream c)) ∈ log → c.Unflagged) (hids : s.Distinct)
    (hint : ∀ i rank nranks, (i, RtAct.call (.setRank rank nranks)) ∈ log → nranks ≤ intMax)
    {is : List ι} (hne : is ≠ []) (hnodup : is.Nodup) (hdone : ∀ i ∈ is, (s.th i).finished = true) :
    ∃ app loom pid, inits log = [(app, loom, pid)] ∧
      (∀ i ∈ is, s.json (if env.tmpdir then .final else .flushed) (s.th i).tid =
        some (finishedInfo log s app loom pid i)) ∧
      ((∃ sys, systemInit (processTrace (is.map (finishedInfo log s app loom pid))) = .ok sys) ↔
        ProcessFits loom app pid (is.map (finishedInfo log s app loom pid))) ∧
      ∀ sys, systemInit (processTrace (is.map (finishedInfo log s app loom pid))) = .ok sys →
        (sys.threads.map Prod.fst).Perm (is.map fun i => (loom, pid, (s.th i).tid)) ∧
          (sys.procs.map fun p => procKey p.1) = [(loom, pid)] := by
  obtain ⟨i₀, hi₀⟩ := List.exists_mem_of_ne_nil is hne
  obtain ⟨app, loom, pid, hinits, -⟩ := h.metadata hc hids (hdone i₀ hi₀)
  have hfiles : ∀ i ∈ is, s.json (if env.tmpdir then .final else .flushed) (s.th i).tid =
      some (finishedInfo log s app loom pid i) := by
    intro i hi
    obtain ⟨app', loom', pid', hinits', hjson⟩ := h.metadata hc hids (hdone i hi)
    obtain ⟨rfl, rfl, rfl⟩ : app = app' ∧ loom = loom' ∧ pid = pid' := by
      simpa using hinits.symm.trans hinits'
    exact hjson
  have hone : OneProcess loom app pid (is.map (finishedInfo log s app loom pid)) := by
    refine ⟨by simpa using hne, ?_, ?_, ?_, ?_⟩
    · simp only [List.forall_mem_map]
      exact fun i _ => ⟨rfl, rfl, rfl, rfl⟩
    · rw [List.map_map]
      refine (List.nodup_map_iff_inj_on hnodup).mpr fun i hi j hj heq => ?_
      obtain ⟨info, htid, -⟩ := ((h.kept hc).th i).of_finished (hdone i hi)
      exact hids i j heq htid
    · simp only [List.forall_mem_map]
      intro i _ r hr
      obtain ⟨a, ha, hsome⟩ := mem_pick (List.mem_of_getLast? hr)
      unfold RtAct.rank? at hsome
      split at hsome
      · obtain rfl := Option.some.inj hsome
        exact hint i _ _ ha
      · cases hsome
    · simp only [List.forall_mem_map]
      exact fun i _ => h.cpus_nonneg i
  obtain ⟨hok, hsys⟩ := hone.accepted
  refine ⟨app, loom, pid, hinits, hfiles, hok, fun sys hsys' => ?_⟩
  have hmap := hsys sys hsys'
  rw [List.map_map] at hmap
  exact hmap

/-- What is stored of a thread of the example. -/
def demoInfo (i : Bool) : StreamInfo :=
  { tid := if i then 8 else 7, pid := 42, loom := ascii "node", app := 3, rank := some (0, 2)
    cpus := if i then [(0, 4)] else [], finished := true }

theorem demoInfo_fits : ProcessFits (ascii "node") 3 42 ([false, true].map demoInfo) where
  loom := ⟨by decide +kernel, by decide +kernel⟩
  app := by decide
  pid := by decide
  tid := by simp [demoInfo]
  rank := by simp [demoInfo]
  sameRank := by simp [demoInfo]
  cpus := by decide
  sameCpu := by decide
  bound := by decide

theorem demoThreads_ranks (i : Bool) (rank nranks : Int)
    (h : (i, RtAct.call (.setRank rank nranks)) ∈ demoThreads) : nranks ≤ intMax := by
  simp only [demoThreads, List.mem_cons, Prod.mk.injEq, RtAct.call.injEq, RtCall.setRank.injEq,
    reduceCtorEq, and_false, false_or, or_false, List.not_mem_nil] at h
  rcases h with ⟨-, -, rfl⟩ | ⟨-, -, rfl⟩ <;> decide

theorem process_accepted_demo : ∃ (s : RtState Bool) (sys : SystemInit),
    RtRun demoEnv (fun _ _ => none) (fun _ _ => none) demoThreads s ∧
      s.json .final 8 = some { tid := 8, pid := 42, loom := ascii "node", app := 3
                               rank := some (0, 2), cpus := [(0, 4)], finished := true } ∧
      systemInit (processTrace ([false, true].map
        (finishedInfo demoThreads s 3 (ascii "node") 42))) = .ok sys ∧
      (sys.threads.map Prod.fst).Perm [(ascii "node", 42, 7), (ascii "node", 42, 8)] := by
  obtain ⟨s, hrun, h0, h1, hdone⟩ := demoThreads_run
  have hdone' : ∀ i ∈ [false, true], (s.th i).finished = true := fun i _ => hdone i
  obtain ⟨app, loom, pid, hinits, hjson, hiff, hsys⟩ := process_accepted hrun demoThreads_calls
    (demoThreads_distinct h0 h1) demoThreads_ranks (by simp) (by simp) hdone'
  obtain ⟨rfl, rfl, rfl⟩ : 3 = app ∧ ascii "node" = loom ∧ 42 = pid := by
    simpa using (show inits demoThreads = [(3, ascii "node", 42)] from rfl).symm.trans hinits
  have hinfo : finishedInfo demoThreads s 3 (ascii "node") 42 = demoInfo := by
    funext i
    cases i with
    | false =>
        rw [finishedInfo, h0]
        rfl
    | true =>
        rw [finishedInfo, h1]
        rfl
  rw [hinfo] at hiff hsys hjson
  obtain ⟨sys, hok⟩ := hiff.mpr demoInfo_fits
  refine ⟨s, sys, hrun, ?_, by rwa [hinfo], ?_⟩
  · have h8 := hjson true (by simp)
    rw [h1] at h8
    exact h8
  · have hthreads := (hsys sys hok).1
    rwa [List.map_cons, List.map_cons, h0, h1] at hthreads

end

end Ovni
