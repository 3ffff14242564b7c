import Ovni.Hwc.Model
import Ovni.Lib.Keyed
import Ovni.Lib.Merge

/-!
# The names of the counters

The number of counters is the number of names in the metadata of a thread.  That each of
them gets a name is never checked: it follows by counting when the names are different
numbers, as all of them are below the number of counters, but two names can be the same
number.
-/

namespace Ovni

/-! ## What is expected -/

/-- The counters have names, on which the threads agree, and every use of them is of all of
them and of no other. -/
structure HwcOk (threads : List JsonObject) (ncpus : Nat) (e : Hwc) : Prop where
  named : ∀ i < e.emu.n, ∃ name, e.emu.name[i]? = some (some name)
  agree : ∀ md ∈ threads, ∀ item ∈ threadHwc md, ∃ i name, hwcIndex item.1 = .ok i ∧
    i < e.emu.n ∧ hwcName item.2 = .ok name ∧ e.emu.name[i]? = some (some name)
  nthreads : e.threads.length = threads.length
  ncpus : e.cpus.length = ncpus
  thread : ∀ t ∈ e.threads, t.n = e.emu.n ∧ t.chan.length = e.emu.n ∧ t.track.length = e.emu.n
  cpu : ∀ c ∈ e.cpus, c.n = e.emu.n ∧ c.track.length = e.emu.n
  pcf : ∀ pcf, hwcInitPcf e.emu pcf ≠ .error .crash ∧
    ∀ pcf', hwcInitPcf e.emu pcf = .ok pcf' → ∃ types, pcf' = pcf ++ types ∧
      types.map PcfType.id = (List.range e.emu.n).map fun i : Nat => prvNosvHwc + i
  connectThread : ∀ t ∈ e.threads, ∃ l, hwcConnectThread t = .ok l ∧
    l.map Prod.fst = (List.range e.emu.n).map fun i : Nat => prvNosvHwc + i
  connectCpu : ∀ c ∈ e.cpus, ∃ l, hwcConnectCpu e c = .ok l ∧
    l.map Prod.fst = (List.range e.emu.n).map fun i : Nat => prvNosvHwc + i
  event : ∀ gindex < threads.length, ∀ ev, eventHwcCount e gindex ev ≠ .error .crash ∧
    ∀ ops, eventHwcCount e gindex ev = .ok ops →
      ops = (List.range e.emu.n).map fun i => .set (.thread gindex i) (.int64 (ev.values i))

/-- The numbers of the names of the counters in the metadata of the threads. -/
def keyIndices (threads : List JsonObject) : List Nat :=
  (threads.flatMap threadHwc).filterMap fun item => (hwcIndex item.1).toOption

/-- The names of all the counters are as many different numbers as a thread has names. -/
def KeysDistinct (threads : List JsonObject) : Prop :=
  ∀ md ∈ threads, threadHwc md ≠ [] →
    (keyIndices threads).toFinset.card = (threadHwc md).length

/-! ## The names -/

/-- The names are those that were given. -/
structure NamesOk (items : JsonObject) (emu : HwcEmu) : Prop where
  length : emu.name.length = emu.n
  given : ∀ item ∈ items, ∃ i name, hwcIndex item.1 = .ok i ∧ i < emu.n ∧
    hwcName item.2 = .ok name ∧ emu.name[i]? = some (some name)
  only : ∀ i name, emu.name[i]? = some (some name) →
    ∃ item ∈ items, hwcIndex item.1 = .ok i

section

variable {emu emu' : HwcEmu} {items : JsonObject} {item : Name × JsonValue}
variable {threads : List JsonObject} {metadata : JsonObject}

theorem NamesOk.parse (h : NamesOk items emu) (hparse : parseHwc emu item = .ok emu') :
    NamesOk (items ++ [item]) emu' ∧ emu'.n = emu.n := by
  unfold parseHwc at hparse
  obtain ⟨index, hindex, hparse⟩ := Lib.bind_ok hparse
  obtain ⟨hlt, hparse⟩ := Lib.guard_ok hparse
  obtain ⟨name, hname, hparse⟩ := Lib.bind_ok hparse
  have hlt' : index < emu.n := by omega
  split at hparse
  · cases hparse
  · rename_i hfree
    cases hparse
    have hbound : index < emu.name.length := by
      rw [h.length]
      exact hlt'
    have hset : (emu.name.set index (some name))[index]? = some (some name) :=
      List.getElem?_set_self hbound
    refine ⟨⟨by rw [List.length_set, h.length], fun j hj => ?_, fun i other hi => ?_⟩, rfl⟩
    · rcases List.mem_append.mp hj with hj | hj
      · obtain ⟨i, other, hji, hin, hother, hi⟩ := h.given j hj
        have hne : index ≠ i := by
          rintro rfl
          rw [hfree] at hi
          cases hi
        exact ⟨i, other, hji, hin, hother, (List.getElem?_set_ne hne).trans hi⟩
      · rw [List.mem_singleton.mp hj]
        exact ⟨index, name, hindex, hlt', hname, hset⟩
    · by_cases hne : index = i
      · exact ⟨item, by simp, hne ▸ hindex⟩
      · obtain ⟨j, hj, hji⟩ := h.only i other ((List.getElem?_set_ne hne).symm.trans hi)
        exact ⟨j, List.mem_append_left _ hj, hji⟩
  · rename_i old hold
    obtain ⟨hsame, hparse⟩ := Lib.guard_ok hparse
    cases hparse
    have heq : old = name := not_not.mp hsame
    subst heq
    refine ⟨⟨h.length, fun j hj => ?_, fun i other hi => ?_⟩, rfl⟩
    · rcases List.mem_append.mp hj with hj | hj
      · exact h.given j hj
      · rw [List.mem_singleton.mp hj]
        exact ⟨index, old, hindex, hlt', hname, hold⟩
    · obtain ⟨j, hj, hji⟩ := h.only i other hi
      exact ⟨j, List.mem_append_left _ hj, hji⟩

theorem NamesOk.parseAll {obj : JsonObject} (h : NamesOk items emu)
    (hparse : obj.foldlM parseHwc emu = .ok emu') :
    NamesOk (items ++ obj) emu' ∧ emu'.n = emu.n := by
  induction obj generalizing items emu with
  | nil =>
      cases hparse
      rw [List.append_nil]
      exact ⟨h, rfl⟩
  | cons item obj ih =>
      rw [List.foldlM_cons] at hparse
      obtain ⟨emu₁, hitem, hparse⟩ := Lib.bind_ok hparse
      obtain ⟨h₁, hn₁⟩ := h.parse hitem
      obtain ⟨h', hn'⟩ := ih h₁ hparse
      refine ⟨?_, hn'.trans hn₁⟩
      rwa [List.append_assoc] at h'

/-- The threads that were scanned agree on the number of counters. -/
structure ScanOk (threads : List JsonObject) (emu : HwcEmu) : Prop where
  names : NamesOk (threads.flatMap threadHwc) emu
  count : ∀ md ∈ threads, threadHwc md ≠ [] → (threadHwc md).length = emu.n
  nonempty : emu.n ≠ 0 → ∃ md ∈ threads, threadHwc md ≠ []

theorem ScanOk.start : ScanOk [] { name := [], n := 0, values := 0 } where
  names := ⟨rfl, by simp, by simp⟩
  count := by simp
  nonempty := fun h => absurd rfl h

/-- What `allocHwc` leaves is as before, for the dictionaries of that length. -/
theorem ScanOk.alloc {n : Nat} (h : ScanOk threads emu) (halloc : allocHwc emu n = .ok emu') :
    NamesOk (threads.flatMap threadHwc) emu' ∧ emu'.n = n ∧
      ∀ md ∈ threads, threadHwc md ≠ [] → (threadHwc md).length = n := by
  unfold allocHwc at halloc
  split at halloc
  · rename_i hzero
    cases halloc
    have hempty : ∀ md ∈ threads, threadHwc md = [] := by
      intro md hmd
      by_contra hne
      have hlen := h.count md hmd hne
      rw [hzero, List.length_eq_zero_iff] at hlen
      exact hne hlen
    have hnil : threads.flatMap threadHwc = [] := List.flatMap_eq_nil_iff.mpr hempty
    refine ⟨⟨List.length_replicate, by simp [hnil], fun i name hi => ?_⟩, rfl, ?_⟩
    · rw [List.getElem?_replicate] at hi
      split at hi
      · cases hi
      · cases hi
    · exact fun md hmd hne => absurd (hempty md hmd) hne
  · split at halloc
    · cases halloc
    · rename_i hsame
      cases halloc
      have heq : emu.n = n := not_not.mp hsame
      exact ⟨h.names, heq, fun md hmd hne => (h.count md hmd hne).trans heq⟩

theorem ScanOk.scan (h : ScanOk threads emu) (hscan : scanThreadHwc emu metadata = .ok emu') :
    ScanOk (threads ++ [metadata]) emu' := by
  unfold scanThreadHwc at hscan
  have hflat : (threads ++ [metadata]).flatMap threadHwc =
      threads.flatMap threadHwc ++ threadHwc metadata := by simp
  simp only at hscan
  split at hscan
  · rename_i hempty
    cases hscan
    refine ⟨?_, fun md hmd hne => ?_, fun hn => ?_⟩
    · rw [hflat, hempty, List.append_nil]
      exact h.names
    · rcases List.mem_append.mp hmd with hmd | hmd
      · exact h.count md hmd hne
      · rw [List.mem_singleton.mp hmd] at hne
        exact absurd hempty hne
    · obtain ⟨md, hmd, hne⟩ := h.nonempty hn
      exact ⟨md, List.mem_append_left _ hmd, hne⟩
  · rename_i hne
    obtain ⟨emu₁, halloc, hparse⟩ := Lib.bind_ok hscan
    obtain ⟨hnames, hn, hcount⟩ := h.alloc halloc
    obtain ⟨hnames', hn'⟩ := hnames.parseAll hparse
    refine ⟨by rwa [hflat], fun md hmd hmdne => ?_, fun _ => ⟨metadata, by simp, hne⟩⟩
    rw [hn', hn]
    rcases List.mem_append.mp hmd with hmd | hmd
    · exact hcount md hmd hmdne
    · rw [List.mem_singleton.mp hmd]

theorem scanThreadsHwc_ok (h : scanThreadsHwc threads = .ok emu) : ScanOk threads emu := by
  have hall : ∀ (rest done : List JsonObject) (emu₀ : HwcEmu), ScanOk done emu₀ →
      rest.foldlM scanThreadHwc emu₀ = .ok emu → ScanOk (done ++ rest) emu := by
    intro rest
    induction rest with
    | nil =>
        intro done emu₀ hdone hrest
        cases hrest
        rwa [List.append_nil]
    | cons md rest ih =>
        intro done emu₀ hdone hrest
        rw [List.foldlM_cons] at hrest
        obtain ⟨emu₁, hscan, hrest⟩ := Lib.bind_ok hrest
        have hnext := ih (done ++ [md]) emu₁ (hdone.scan hscan) hrest
        rwa [List.append_assoc] at hnext
  exact hall threads [] _ ScanOk.start h

/-! ## Counting -/

/-- Every counter has a name if and only if the names of the counters are as many numbers. -/
theorem ScanOk.named_iff (h : ScanOk threads emu) :
    (∀ i < emu.n, ∃ name, emu.name[i]? = some (some name)) ↔
      (keyIndices threads).toFinset.card = emu.n := by
  have hmem : ∀ i, i ∈ keyIndices threads ↔ ∃ name, emu.name[i]? = some (some name) := by
    intro i
    unfold keyIndices
    rw [List.mem_filterMap]
    constructor
    · rintro ⟨item, hitem, hkey⟩
      obtain ⟨j, name, hj, -, -, hname⟩ := h.names.given item hitem
      rw [hj] at hkey
      cases hkey
      exact ⟨name, hname⟩
    · rintro ⟨name, hname⟩
      obtain ⟨item, hitem, hkey⟩ := h.names.only i name hname
      exact ⟨item, hitem, by rw [hkey]; rfl⟩
  have hlt : ∀ i ∈ keyIndices threads, i < emu.n := by
    intro i hi
    obtain ⟨name, hname⟩ := (hmem i).mp hi
    rw [← h.names.length]
    exact (List.getElem?_eq_some_iff.mp hname).1
  have hsub : (keyIndices threads).toFinset ⊆ Finset.range emu.n := by
    intro i hi
    rw [Finset.mem_range]
    exact hlt i (List.mem_toFinset.mp hi)
  constructor
  · intro hall
    have heq : (keyIndices threads).toFinset = Finset.range emu.n := by
      apply Finset.Subset.antisymm hsub
      intro i hi
      rw [List.mem_toFinset, hmem]
      exact hall i (Finset.mem_range.mp hi)
    rw [heq, Finset.card_range]
  · intro hcard i hi
    have heq := Finset.eq_of_subset_of_card_le hsub (by rw [hcard, Finset.card_range])
    have hin : i ∈ (keyIndices threads).toFinset := by
      rw [heq]
      exact Finset.mem_range.mpr hi
    exact (hmem i).mp (List.mem_toFinset.mp hin)

theorem ScanOk.distinct_iff (h : ScanOk threads emu) (hn : emu.n ≠ 0) :
    KeysDistinct threads ↔ (keyIndices threads).toFinset.card = emu.n := by
  constructor
  · intro hkeys
    obtain ⟨md, hmd, hne⟩ := h.nonempty hn
    rw [hkeys md hmd hne, h.count md hmd hne]
  · intro hcard md hmd hne
    rw [hcard, h.count md hmd hne]

end

/-! ## The channels -/

/-- The channels and the tracks of a thread. -/
def hwcThread (emu : HwcEmu) (gindex : Nat) : HwcThread where
  track := (List.range emu.n).map (.threadTrack gindex)
  chan := (List.range emu.n).map (.thread gindex)
  n := emu.n

/-- The tracks of a CPU. -/
def hwcCpu (emu : HwcEmu) (gindex : Nat) : HwcCpu where
  track := (List.range emu.n).map (.cpuTrack gindex)
  n := emu.n

section

variable {emu : HwcEmu} {l : List Nat}

theorem createThreadChan_fold {r r' : List HwcThread × List HwcChan}
    (h : l.foldlM (createThreadChan emu) r = .ok r') : r'.1 = r.1 ++ l.map (hwcThread emu) := by
  induction l generalizing r with
  | nil =>
      cases h
      exact (List.append_nil _).symm
  | cons i l ih =>
      rw [List.foldlM_cons] at h
      obtain ⟨r₁, hstep, h⟩ := Lib.bind_ok h
      unfold createThreadChan at hstep
      obtain ⟨bay, -, hstep⟩ := Lib.bind_ok hstep
      obtain ⟨bay', -, hstep⟩ := Lib.bind_ok hstep
      cases hstep
      rw [ih h, List.append_assoc]
      rfl

theorem initCpu_fold {r r' : List HwcCpu × List HwcChan}
    (h : l.foldlM (initCpu emu) r = .ok r') : r'.1 = r.1 ++ l.map (hwcCpu emu) := by
  induction l generalizing r with
  | nil =>
      cases h
      exact (List.append_nil _).symm
  | cons i l ih =>
      rw [List.foldlM_cons] at h
      obtain ⟨r₁, hstep, h⟩ := Lib.bind_ok h
      unfold initCpu at hstep
      obtain ⟨bay, -, hstep⟩ := Lib.bind_ok hstep
      cases hstep
      rw [ih h, List.append_assoc]
      rfl

end

/-- What `hwc_create` leaves when there are counters. -/
theorem hwcCreate_ok {threads : List JsonObject} {ncpus : Nat} {e : Hwc}
    (h : hwcCreate threads ncpus = .ok e) (hn : e.emu.n ≠ 0) :
    ∃ emu, scanThreadsHwc threads = .ok emu ∧ e.emu = { emu with values := emu.n } ∧
      e.threads = (List.range threads.length).map (hwcThread e.emu) ∧
      e.cpus = (List.range ncpus).map (hwcCpu e.emu) := by
  unfold hwcCreate at h
  obtain ⟨emu, hscan, h⟩ := Lib.bind_ok h
  refine ⟨emu, hscan, ?_⟩
  split at h
  · rename_i hzero
    cases h
    exact absurd hzero hn
  · obtain ⟨ths, hths, h⟩ := Lib.bind_ok h
    obtain ⟨cpus, hcpus, h⟩ := Lib.bind_ok h
    cases h
    exact ⟨rfl, createThreadChan_fold hths, initCpu_fold hcpus⟩

/-! ## The uses of the counters -/

section

variable {e : Hwc} {threads : List JsonObject} {ncpus : Nat}

theorem arrayAt_map {α : Type} {f : Nat → α} {n i : Nat} (hi : i < n) :
    arrayAt ((List.range n).map f) i = .ok (f i) := by
  unfold arrayAt
  rw [List.getElem?_map, List.getElem?_range hi]
  rfl

theorem hwcConnectThread_ok (gindex : Nat) : hwcConnectThread (hwcThread e.emu gindex) =
    .ok ((List.range e.emu.n).map fun i : Nat =>
      (prvNosvHwc + i, .threadTrack gindex i, .thread gindex i)) := by
  apply Lib.mapM_eq_map
  intro i hi
  have hlt : i < e.emu.n := List.mem_range.mp hi
  simp only [hwcThread, arrayAt_map hlt, Lib.ok_bind]
  rfl

theorem hwcConnectCpu_ok {n : Nat} (hths : e.threads = (List.range n).map (hwcThread e.emu))
    (gindex : Nat) : hwcConnectCpu e (hwcCpu e.emu gindex) =
    .ok ((List.range e.emu.n).map fun i : Nat =>
      (prvNosvHwc + i, .cpuTrack gindex i, (List.range n).map fun t => .thread t i)) := by
  apply Lib.mapM_eq_map
  intro i hi
  have hlt : i < e.emu.n := List.mem_range.mp hi
  have hinputs : e.threads.mapM (fun t => arrayAt t.chan i) =
      .ok ((List.range n).map fun t => .thread t i) := by
    rw [hths, List.mapM_map]
    exact Lib.mapM_eq_map fun t _ => arrayAt_map hlt
  simp only [hwcCpu, arrayAt_map hlt, hinputs, Lib.ok_bind]
  rfl

theorem eventHwcCount_ok {n gindex : Nat}
    (hths : e.threads = (List.range n).map (hwcThread e.emu)) (hlt : gindex < n)
    (hvalues : e.emu.values = e.emu.n) (ev : HwcEvent) :
    eventHwcCount e gindex ev ≠ .error .crash ∧ ∀ ops, eventHwcCount e gindex ev = .ok ops →
      ops = (List.range e.emu.n).map fun i => .set (.thread gindex i) (.int64 (ev.values i)) := by
  have hthread : arrayAt e.threads gindex = .ok (hwcThread e.emu gindex) := by
    rw [hths]
    exact arrayAt_map hlt
  have hset : (List.range e.emu.n).mapM (fun i => do
      let ch ← arrayAt (hwcThread e.emu gindex).chan i
      return ChanOp.set ch (.int64 (ev.values i))) = Except.ok (ε := EmuFault)
        ((List.range e.emu.n).map fun i => .set (.thread gindex i) (.int64 (ev.values i))) := by
    apply Lib.mapM_eq_map
    intro i hi
    simp only [hwcThread, arrayAt_map (List.mem_range.mp hi), Lib.ok_bind]
    rfl
  unfold eventHwcCount
  by_cases hjumbo : ev.isJumbo = false
  · rw [if_pos hjumbo]
    exact ⟨by rintro ⟨⟩, by rintro ops ⟨⟩⟩
  · rw [if_neg hjumbo]
    by_cases hsize : ev.size ≠ e.emu.n * 8
    · simp only [if_pos hsize]
      exact ⟨by rintro ⟨⟩, by rintro ops ⟨⟩⟩
    · have hbuffer : ¬ e.emu.values < e.emu.n := by omega
      simp only [if_neg hsize, if_neg hbuffer, hthread, Lib.ok_bind, hset]
      refine ⟨by rintro ⟨⟩, fun ops hops => ?_⟩
      exact (Except.ok.inj hops).symm

/-- `init_pcf` adds a type for each counter when they have names. -/
theorem hwcInitPcf_ok {emu : HwcEmu} {l : List Nat}
    (hnamed : ∀ i ∈ l, i < 100 ∧ ∃ name, emu.name[i]? = some (some name))
    (pcf : List (PcfType (Fin 256))) : hwcInitTypes emu l pcf ≠ .error .crash ∧
      ∀ pcf', hwcInitTypes emu l pcf = .ok pcf' → ∃ types, pcf' = pcf ++ types ∧
        types.map PcfType.id = l.map fun i : Nat => prvNosvHwc + i := by
  unfold hwcInitTypes
  induction l generalizing pcf with
  | nil =>
      refine ⟨by rintro ⟨⟩, fun pcf' h => ⟨[], ?_, rfl⟩⟩
      cases h
      exact (List.append_nil _).symm
  | cons i l ih =>
      obtain ⟨hlt, name, hname⟩ := hnamed i List.mem_cons_self
      have hid : toInt32 (prvNosvHwc + i) = prvNosvHwc + i := by
        unfold prvNosvHwc
        exact toInt32_of_range (by omega) (by omega)
      have hstep : hwcInitType emu pcf i = (do
          let pcftype ← pcfAddType pcf (prvNosvHwc + i) name
          return pcf ++ [pcftype]) := by
        unfold hwcInitType arrayAt
        rw [hname, hid]
        rfl
      rw [List.foldlM_cons, hstep]
      cases hadd : pcfAddType pcf (prvNosvHwc + i) name with
      | error err =>
          refine ⟨?_, by rintro pcf' ⟨⟩⟩
          intro heq
          cases heq
          exact pcfAddType_ne_crash hadd
      | ok t =>
          have hrest := ih (fun j hj => hnamed j (List.mem_cons_of_mem _ hj)) (pcf ++ [t])
          refine ⟨hrest.1, fun pcf' h => ?_⟩
          obtain ⟨types, rfl, htypes⟩ := hrest.2 pcf' h
          refine ⟨t :: types, by simp, ?_⟩
          rw [List.map_cons, List.map_cons, htypes, pcfAddType_ok hadd]

theorem hwcIndex_lt {indexstr : Name} {i : Nat} (h : hwcIndex indexstr = .ok i) : i < 100 := by
  unfold hwcIndex at h
  split at h
  · split at h
    · cases h
    · cases h
      omega
  · cases h

/-- The counters are all named and used as they should be if and only if their names are as
many different numbers as each thread has names. -/
theorem hwc_create_iff (h : hwcCreate threads ncpus = .ok e) (hn : 0 < e.emu.n) :
    HwcOk threads ncpus e ↔ KeysDistinct threads := by
  have hne : e.emu.n ≠ 0 := by omega
  obtain ⟨emu, hscan, hemu, hths, hcpus⟩ := hwcCreate_ok h hne
  have hok := scanThreadsHwc_ok hscan
  have hcount : e.emu.n = emu.n := by rw [hemu]
  have hname : e.emu.name = emu.name := by rw [hemu]
  have hvalues : e.emu.values = e.emu.n := by rw [hemu]
  rw [hok.distinct_iff (by rwa [← hcount]), ← hok.named_iff, ← hcount, ← hname]
  refine ⟨fun hall => hall.named, fun hnamed => ?_⟩
  have hsmall : ∀ i < e.emu.n, i < 100 := by
    intro i hi
    obtain ⟨name, hi⟩ := hnamed i hi
    rw [hname] at hi
    obtain ⟨item, -, hitem⟩ := hok.names.only i name hi
    exact hwcIndex_lt hitem
  have hpcf : ∀ i ∈ List.range e.emu.n, i < 100 ∧ ∃ name, e.emu.name[i]? = some (some name) :=
    fun i hi => ⟨hsmall i (List.mem_range.mp hi), hnamed i (List.mem_range.mp hi)⟩
  constructor
  case named => exact hnamed
  case agree =>
    intro md hmd item hitem
    obtain ⟨i, name, hindex, hlt, hitemname, hi⟩ :=
      hok.names.given item (List.mem_flatMap.mpr ⟨md, hmd, hitem⟩)
    exact ⟨i, name, hindex, hcount ▸ hlt, hitemname, by rw [hname]; exact hi⟩
  case nthreads => rw [hths, List.length_map, List.length_range]
  case ncpus => rw [hcpus, List.length_map, List.length_range]
  case thread =>
    intro t ht
    rw [hths] at ht
    obtain ⟨gindex, -, rfl⟩ := List.mem_map.mp ht
    simp [hwcThread]
  case cpu =>
    intro c hc
    rw [hcpus] at hc
    obtain ⟨gindex, -, rfl⟩ := List.mem_map.mp hc
    simp [hwcCpu]
  case pcf => exact hwcInitPcf_ok hpcf
  case connectThread =>
    intro t ht
    rw [hths] at ht
    obtain ⟨gindex, -, rfl⟩ := List.mem_map.mp ht
    exact ⟨_, hwcConnectThread_ok gindex, by rw [List.map_map]; rfl⟩
  case connectCpu =>
    intro c hc
    rw [hcpus] at hc
    obtain ⟨gindex, -, rfl⟩ := List.mem_map.mp hc
    exact ⟨_, hwcConnectCpu_ok hths gindex, by rw [List.map_map]; rfl⟩
  case event =>
    intro gindex hlt ev
    exact eventHwcCount_ok hths hlt hvalues ev

end

/-- The metadata of a thread with counters. -/
def countersThread (counters : List (String × String)) : JsonObject :=
  [(ascii "nosv", .object [(ascii "hwc", .object (counters.map fun c =>
    (ascii c.1, .object [(ascii "name", .string (ascii c.2))])))])]

/-- The names of the counters when the creation does not fail. -/
def createdNames (threads : List JsonObject) (ncpus : Nat) : Option (Nat × List (Option Name)) :=
  (hwcCreate threads ncpus).toOption.map fun e => (e.emu.n, e.emu.name)

theorem createdNames_some {threads : List JsonObject} {ncpus n : Nat} {names : List (Option Name)}
    (h : createdNames threads ncpus = some (n, names)) :
    ∃ e, hwcCreate threads ncpus = .ok e ∧ e.emu.n = n ∧ e.emu.name = names := by
  unfold createdNames at h
  obtain ⟨e, he, heq⟩ := Option.map_eq_some_iff.mp h
  injection heq with hn hname
  cases hcreate : hwcCreate threads ncpus with
  | error err =>
      rw [hcreate] at he
      cases he
  | ok e' =>
      rw [hcreate] at he
      cases he
      exact ⟨e, rfl, hn, hname⟩

/-- Two threads that name two counters, in two orders. -/
def counterThreads : List JsonObject :=
  [countersThread [("0", "CYC"), ("1", "INS")], countersThread [("1", "INS"), ("0", "CYC")]]

theorem hwc_create_iff_two : ∃ e, hwcCreate counterThreads 1 = .ok e ∧
    HwcOk counterThreads 1 e := by
  have hcreated : createdNames counterThreads 1 =
      some (2, [some (ascii "CYC"), some (ascii "INS")]) := by
    decide +kernel
  obtain ⟨e, he, hn, -⟩ := createdNames_some hcreated
  refine ⟨e, he, (hwc_create_iff he (by omega)).mpr fun md hmd _ => ?_⟩
  have hcard : (keyIndices counterThreads).toFinset.card = 2 := by
    decide +kernel
  rw [hcard]
  rcases List.mem_cons.mp hmd with rfl | hmd
  · decide +kernel
  · rw [List.mem_singleton.mp hmd]
    decide +kernel

/-- A thread with two names of the first counter. -/
def sameCounter : List JsonObject := [countersThread [("0", "CYC"), ("00", "CYC")]]

/-- The second counter has no name. -/
theorem hwc_create_null : ∃ e, hwcCreate sameCounter 1 = .ok e ∧ 0 < e.emu.n ∧
    ¬ HwcOk sameCounter 1 e := by
  have hcreated : createdNames sameCounter 1 = some (2, [some (ascii "CYC"), none]) := by
    decide +kernel
  obtain ⟨e, he, hn, hname⟩ := createdNames_some hcreated
  refine ⟨e, he, by omega, fun hok => ?_⟩
  obtain ⟨name, hone⟩ := hok.named 1 (by omega)
  rw [hname] at hone
  cases hone

end Ovni
