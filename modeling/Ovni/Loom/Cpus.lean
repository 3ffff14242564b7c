import Mathlib.Data.Set.Function
import Mathlib.Logic.Relation
import Ovni.Loom.Init

/-!
# The CPUs of a loom by index

The CPUs of a loom come from the lists of many streams, each of which may give only some
of them.  At the end of the initialisation they are placed by index in an array.  That no
place of the array is left empty is never checked: it follows by counting, as the CPUs
have distinct indices below their number.
-/

namespace Ovni

/-- `loom_get_cpu`.  The array is not yet populated when it is empty. -/
def Loom.getCpu (loom : Loom) (index : Int) : Except EmuFault (Option LoomCpu) := do
  if loom.cpusArray.isEmpty then throw (.die "cpus_array not yet populated")
  if index = -1 then return some loom.vcpu
  if index < 0 ∨ index ≥ loom.cpus.length then return none
  return loom.cpusArray[index.toNat]?.join

/-- What happens to a loom from its creation until `loom_init_end`: the metadata of a
stream is merged, the processes change, its minimum rank is set, or it is sorted. -/
inductive LoomStep : Loom → Loom → Prop
  | load {loom loom' : Loom} (s : StreamMeta) (h : loadCpus loom s = .ok loom') :
      LoomStep loom loom'
  | procs (loom : Loom) (procs : List Proc) : LoomStep loom { loom with procs }
  | rank {loom loom' : Loom} (h : loomSetRankMin loom = .ok loom') : LoomStep loom loom'
  | sort (loom : Loom) : LoomStep loom (loomSort loom)

/-- The CPUs of an initialised loom and its array of them. -/
structure CpuTable (loom : Loom) : Prop where
  phyids : (loom.cpus.map LoomCpu.phyid).Nodup
  nonneg : ∀ c ∈ loom.cpus, 0 ≤ c.phyid
  bijOn : Set.BijOn (fun i : Nat => loom.cpusArray[i]?.join) (Set.Iio loom.cpus.length)
    (Set.image some {c | c ∈ loom.cpus})
  index : ∀ i < loom.cpus.length, ∀ c, loom.cpusArray[i]?.join = some c → c.index = i
  physical : ∀ index : Int, 0 ≤ index → index < loom.cpus.length →
    ∃ c ∈ loom.cpus, c.index = index ∧ loom.getCpu index = .ok (some c)
  vcpu : ∀ index : Int, loom.getCpu index = .ok (some loom.vcpu) ↔ index = -1
  null : ∀ index : Int, loom.getCpu index = .ok none ↔ index < -1 ∨ loom.cpus.length ≤ index

/-! ## The CPUs before the end -/

section

variable {loom loom' : Loom} {items : List (Option (Int × Int))}

theorem CpusOk.frame (h : CpusOk items loom) {l : Loom} (hcpus : l.cpus.Perm loom.cpus)
    (hvcpu : l.vcpu = loom.vcpu) : CpusOk items l where
  vcpu := hvcpu.trans h.vcpu
  fits := h.fits
  nodup := (hcpus.map LoomCpu.phyid).nodup_iff.mpr h.nodup
  given := fun c hc => h.given c (hcpus.mem_iff.mp hc)
  all := by
    intro item hitem
    obtain ⟨c, hc, heq⟩ := h.all item hitem
    exact ⟨c, hcpus.mem_iff.mpr hc, heq⟩

theorem loomInitBegin_cpus {name : Name} (h : loomInitBegin name = .ok loom) :
    CpusOk [] loom := by
  obtain ⟨-, rfl⟩ := loomInitBegin_ok_iff.mp h
  exact ⟨rfl, by simp, by simp, by simp, by simp⟩

theorem LoomStep.cpus (hstep : LoomStep loom loom') (h : CpusOk items loom) :
    ∃ items', CpusOk items' loom' := by
  cases hstep with
  | load s hload => exact ⟨_, loadCpus_kept h hload⟩
  | procs procs => exact ⟨items, h.frame (List.Perm.refl _) rfl⟩
  | rank hrank =>
      obtain ⟨-, rfl⟩ := loomSetRankMin_ok_iff.mp hrank
      exact ⟨items, h.frame (by rw [rankLoom_cpus]) (rankLoom_vcpu loom)⟩
  | sort => exact ⟨items, h.frame (Lib.sortCmp_perm byPhyid loom.cpus) rfl⟩

/-- Whatever happens to a loom, its CPUs are those of the metadata it was given. -/
theorem LoomStep.run_cpus (hrun : Relation.ReflTransGen LoomStep loom loom')
    (h : CpusOk items loom) : ∃ items', CpusOk items' loom' := by
  induction hrun with
  | refl => exact ⟨items, h⟩
  | tail _ hstep ih =>
      obtain ⟨items', h'⟩ := ih
      exact hstep.cpus h'

end

/-! ## The array -/

section

variable {loom loom' : Loom} {items : List (Option (Int × Int))} {cpus : List LoomCpu}
variable {array : List (Option LoomCpu)} {c : LoomCpu}

/-- Each place holds the CPU with its index. -/
def SlotsOk (items : List LoomCpu) (array : List (Option LoomCpu)) : Prop :=
  ∀ (i : Nat) (c : LoomCpu), array[i]?.join = some c ↔ c ∈ items ∧ c.index = i

theorem SlotsOk.take {array' : List (Option LoomCpu)} (h : SlotsOk cpus array)
    (hstep : takeIndex array c = .ok array') : SlotsOk (cpus ++ [c]) array' := by
  obtain ⟨hnonneg, hlt, hfree, rfl⟩ := takeIndex_ok_iff.mp hstep
  intro i c'
  rw [List.getElem?_set, List.mem_append, List.mem_singleton, or_and_right]
  by_cases hi : c.index.toNat = i
  · rw [if_pos hi, if_pos (by omega)]
    have hnone : ¬ (c' ∈ cpus ∧ c'.index = i) := by
      intro hold
      rw [hi, (h i c').mpr hold] at hfree
      exact hfree rfl
    constructor
    · intro heq
      injection heq with heq
      subst heq
      exact Or.inr ⟨rfl, by omega⟩
    · rintro (hold | ⟨rfl, -⟩)
      · exact absurd hold hnone
      · rfl
  · rw [if_neg hi, h i c']
    have hother : ¬ (c' = c ∧ c'.index = i) := by
      rintro ⟨rfl, heq⟩
      omega
    rw [or_iff_left hother]

theorem takeIndex_slots (h : cpus.foldlM takeIndex (List.replicate cpus.length none) = .ok array) :
    array.length = cpus.length ∧ SlotsOk cpus array := by
  have hmerges : Lib.Merges takeIndex
      (fun items array => ArrayOk cpus.length items array ∧ SlotsOk items array)
      (fun c => 0 ≤ c.index ∧ c.index < cpus.length) (fun c c' => c.index ≠ c'.index) :=
    { ok_iff := fun hinv => (takeIndex_merges cpus.length).ok_iff hinv.1
      kept := fun hinv hstep =>
        ⟨(takeIndex_merges cpus.length).kept hinv.1 hstep, hinv.2.take hstep⟩ }
  have hslots : SlotsOk [] (List.replicate cpus.length none) := by
    intro i c
    rw [List.getElem?_replicate]
    split <;> simp
  have hkept := hmerges.fold_kept ⟨arrayOk_init cpus.length, hslots⟩ h
  rw [List.nil_append] at hkept
  exact ⟨hkept.1.length, hkept.2⟩

/-- No index below the number of CPUs is left out. -/
theorem exists_index (hbounds : ∀ c ∈ cpus, 0 ≤ c.index ∧ c.index < cpus.length)
    (hindex : cpus.Pairwise fun c c' => c.index ≠ c'.index) {i : Nat} (hi : i < cpus.length) :
    ∃ c ∈ cpus, c.index = i := by
  have hnodup : (cpus.map fun c => c.index.toNat).Nodup := by
    rw [List.Nodup, List.pairwise_map]
    refine hindex.imp_of_mem fun {c c'} hc hc' hne heq => hne ?_
    have h₁ := hbounds c hc
    have h₂ := hbounds c' hc'
    omega
  have hlt : ∀ x ∈ cpus.map fun c => c.index.toNat,
      x < (cpus.map fun c => c.index.toNat).length := by
    intro x hx
    obtain ⟨c, hc, rfl⟩ := List.mem_map.mp hx
    have hb := hbounds c hc
    rw [List.length_map]
    omega
  have hmem := Lib.mem_of_lt_length hnodup hlt (i := i) (by rwa [List.length_map])
  obtain ⟨c, hc, heq⟩ := List.mem_map.mp hmem
  have hb := hbounds c hc
  exact ⟨c, hc, by omega⟩

/-! ## Reading the array -/

theorem Loom.getCpu_eq {l : Loom} (hne : l.cpusArray ≠ []) (index : Int) : l.getCpu index =
    .ok (if index = -1 then some l.vcpu
      else if index < 0 ∨ index ≥ l.cpus.length then none
      else l.cpusArray[index.toNat]?.join) := by
  have hempty : ¬ l.cpusArray.isEmpty = true := by simpa using hne
  unfold Loom.getCpu
  rw [if_neg hempty]
  change (if index = -1 then _ else _) = _
  split
  · rfl
  · split <;> rfl

theorem Loom.getCpu_vcpu {l : Loom} (hne : l.cpusArray ≠ []) :
    l.getCpu (-1) = .ok (some l.vcpu) := by
  rw [Loom.getCpu_eq hne, if_pos rfl]

theorem Loom.getCpu_out {l : Loom} (hne : l.cpusArray ≠ []) {index : Int}
    (hout : index < -1 ∨ l.cpus.length ≤ index) : l.getCpu index = .ok none := by
  rw [Loom.getCpu_eq hne, if_neg (by omega), if_pos (by omega)]

theorem Loom.getCpu_in {l : Loom} (hne : l.cpusArray ≠ []) {index : Int} (hnonneg : 0 ≤ index)
    (hlt : index < l.cpus.length) : l.getCpu index = .ok l.cpusArray[index.toNat]?.join := by
  rw [Loom.getCpu_eq hne, if_neg (by omega), if_neg (by omega)]

theorem loomInitEnd_ok (h : loomInitEnd loom = .ok loom') : loom.cpus ≠ [] ∧
    ∃ array, loom.cpus.foldlM takeIndex (List.replicate loom.cpus.length none) = .ok array ∧
      loom' = { loom with cpusArray := array } := by
  unfold loomInitEnd at h
  obtain ⟨-, h⟩ := Lib.guard_ok h
  obtain ⟨hcpus, h⟩ := Lib.guard_ok h
  obtain ⟨-, h⟩ := Lib.guard_ok h
  obtain ⟨array, hfold, h⟩ := Lib.bind_ok h
  cases h
  refine ⟨?_, array, hfold, rfl⟩
  intro hnil
  rw [hnil] at hcpus
  exact hcpus rfl

/-- The array is a bijection from the indices to the CPUs. -/
theorem SlotsOk.bijOn (h : SlotsOk cpus array)
    (hbounds : ∀ c ∈ cpus, 0 ≤ c.index ∧ c.index < cpus.length)
    (hslot : ∀ i < cpus.length, ∃ c ∈ cpus, c.index = i ∧ array[i]?.join = some c) :
    Set.BijOn (fun i : Nat => array[i]?.join) (Set.Iio cpus.length)
      (Set.image some {c | c ∈ cpus}) := by
  refine ⟨?_, ?_, ?_⟩
  · intro i hi
    obtain ⟨c, hc, -, hjoin⟩ := hslot i hi
    exact ⟨c, hc, hjoin.symm⟩
  · intro i hi j hj heq
    obtain ⟨c, hc, hci, hjoin⟩ := hslot i hi
    have hcj := (h j c).mp (heq.symm.trans hjoin)
    omega
  · rintro _ ⟨c, hc, rfl⟩
    have hb := hbounds c hc
    exact ⟨c.index.toNat, by simp only [Set.mem_Iio]; omega, (h _ c).mpr ⟨hc, by omega⟩⟩

theorem CpusOk.cpuTable (hcpus : CpusOk items loom) (h : loomInitEnd loom = .ok loom') :
    CpuTable loom' := by
  obtain ⟨hnil, array, hfold, rfl⟩ := loomInitEnd_ok h
  obtain ⟨hlength, hslots⟩ := takeIndex_slots hfold
  obtain ⟨hbounds, hindex⟩ := (takeIndex_fold loom.cpus).mp ⟨array, hfold⟩
  have hne : array ≠ [] := by
    rw [← List.length_pos_iff, hlength]
    exact List.length_pos_iff.mpr hnil
  have hslot : ∀ i < loom.cpus.length, ∃ c ∈ loom.cpus, c.index = i ∧
      array[i]?.join = some c := by
    intro i hi
    obtain ⟨c, hc, heq⟩ := exists_index hbounds hindex hi
    exact ⟨c, hc, heq, (hslots i c).mpr ⟨hc, heq⟩⟩
  have hphysical : ∀ index : Int, 0 ≤ index → index < loom.cpus.length →
      ∃ c ∈ loom.cpus, c.index = index ∧
        Loom.getCpu { loom with cpusArray := array } index = .ok (some c) := by
    intro index hnonneg hlt
    obtain ⟨c, hc, heq, hjoin⟩ := hslot index.toNat (by omega)
    refine ⟨c, hc, by omega, ?_⟩
    rw [Loom.getCpu_in (l := { loom with cpusArray := array }) hne hnonneg hlt, hjoin]
  have hvcpu := Loom.getCpu_vcpu (l := { loom with cpusArray := array }) hne
  have hnull : ∀ index : Int, index < -1 ∨ loom.cpus.length ≤ index →
      Loom.getCpu { loom with cpusArray := array } index = .ok none := fun index hout =>
    Loom.getCpu_out (l := { loom with cpusArray := array }) hne hout
  have hcases : ∀ index : Int, index = -1 ∨ (0 ≤ index ∧ index < loom.cpus.length) ∨
      (index < -1 ∨ loom.cpus.length ≤ index) := by
    intro index
    omega
  constructor
  case phyids => exact hcpus.nodup
  case nonneg => exact fun c hc => hcpus.phyid_nonneg hc
  case bijOn => exact hslots.bijOn hbounds hslot
  case index => exact fun i _ c hjoin => ((hslots i c).mp hjoin).2
  case physical => exact hphysical
  case vcpu =>
    intro index
    refine ⟨fun heq => ?_, fun heq => heq ▸ hvcpu⟩
    obtain hone | ⟨hnonneg, hlt⟩ | hout := hcases index
    · exact hone
    · obtain ⟨c, hc, -, hsome⟩ := hphysical index hnonneg hlt
      rw [hsome] at heq
      injection heq with heq
      injection heq with heq
      have hreal := (hcpus.given c hc).1
      rw [heq, hcpus.vcpu] at hreal
      cases hreal
    · rw [hnull index hout] at heq
      cases heq
  case null =>
    intro index
    refine ⟨fun heq => ?_, hnull index⟩
    obtain rfl | ⟨hnonneg, hlt⟩ | hout := hcases index
    · rw [hvcpu] at heq
      cases heq
    · obtain ⟨c, -, -, hsome⟩ := hphysical index hnonneg hlt
      rw [hsome] at heq
      cases heq
    · exact hout

end

/-- The CPUs of every loom that is initialised, from whatever metadata, are indexed. -/
theorem loom_cpus_indexed {name : Name} {loom₀ loom₁ loom : Loom}
    (hbegin : loomInitBegin name = .ok loom₀)
    (hrun : Relation.ReflTransGen LoomStep loom₀ loom₁) (hend : loomInitEnd loom₁ = .ok loom) :
    CpuTable loom := by
  obtain ⟨items, hcpus⟩ := LoomStep.run_cpus hrun (loomInitBegin_cpus hbegin)
  exact hcpus.cpuTable hend

/-- The metadata of a stream that gives some CPUs. -/
def cpusStream (cpus : List (Int × Int)) : StreamMeta :=
  { part := some "thread", loom := some [110, 49], loomCpus := some (cpus.map some),
    pid := some 20, tid := some 20, appId := some 1, rank := none, nranks := none,
    finished := true }

def cpusLoom (cpus : List LoomCpu) (procs : List Proc) (cpusArray : List (Option LoomCpu)) :
    Loom :=
  { name := [110, 49], rankEnabled := false, rankMin := intMax, cpus,
    vcpu := ⟨-1, -1, true⟩, procs, cpusArray }

/-- A loom of two CPUs: one stream gives one of them and another one gives both. -/
theorem loom_cpus_indexed_partial :
    CpuTable (cpusLoom [⟨1, 4, false⟩, ⟨0, 7, false⟩] [procInitBegin 20]
      [some ⟨0, 7, false⟩, some ⟨1, 4, false⟩]) := by
  have hone : LoomStep (cpusLoom [] [] []) (cpusLoom [⟨1, 4, false⟩] [] []) :=
    .load (cpusStream [(1, 4)]) rfl
  have htwo : LoomStep (cpusLoom [⟨1, 4, false⟩] [] [])
      (cpusLoom [⟨1, 4, false⟩, ⟨0, 7, false⟩] [] []) :=
    .load (cpusStream [(0, 7), (1, 4)]) rfl
  have hprocs : LoomStep (cpusLoom [⟨1, 4, false⟩, ⟨0, 7, false⟩] [] [])
      (cpusLoom [⟨1, 4, false⟩, ⟨0, 7, false⟩] [procInitBegin 20] []) :=
    .procs _ [procInitBegin 20]
  exact loom_cpus_indexed (loomInitBegin_ok_iff.mpr ⟨⟨by decide, by decide⟩, rfl⟩)
    (((Relation.ReflTransGen.single hone).tail htwo).tail hprocs) rfl

/-- `system_init` gives each loom such a table. -/
theorem SystemInit.cpuTable {trace : List (Option StreamMeta)} {sys : SystemInit}
    (h : systemInit trace = .ok sys) : ∀ p ∈ sys.looms, CpuTable p.1 := by
  obtain ⟨looms, hcreate, -, hend⟩ := systemInit_ok_iff.mp h
  have hsystem := createSystem_kept hcreate
  unfold initEndSystem at hend
  obtain ⟨ended, hlooms, hend⟩ := Lib.bind_ok hend
  cases hend
  intro p hp
  obtain ⟨q, hq, hstep⟩ := Lib.mapM_ok_mem hlooms p hp
  obtain ⟨loom, hloom, hstep⟩ := Lib.bind_ok hstep
  cases hstep
  obtain ⟨procs, -, hloom⟩ := Lib.bind_ok hloom
  have hsorted : q.1 ∈ sortedLooms looms := List.fst_mem_of_mem_zipIdx hq
  have hmem := (sortLpt_perm (rankLooms looms) (allRanked looms)).mem_iff.mp hsorted
  obtain ⟨ranked, hranked, hsort⟩ := List.mem_map.mp hmem
  obtain ⟨loom₀, hloom₀, rfl⟩ := List.mem_map.mp hranked
  have hcpus := (hsystem.ok loom₀ hloom₀).cpus
  have hrank := hcpus.frame (l := rankLoom loom₀) (by rw [rankLoom_cpus])
    (rankLoom_vcpu loom₀)
  have hq := hrank.frame (l := loomSort (rankLoom loom₀)) (Lib.sortCmp_perm byPhyid _) rfl
  rw [hsort] at hq
  exact (hq.frame (l := { q.1 with procs }) (List.Perm.refl _) rfl).cpuTable hloom

end Ovni
