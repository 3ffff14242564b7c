import Ovni.System.Steps

/-!
# Where the threads are

The thread knows its CPU and the CPU lists its threads, with counters and channels
computed from the list.  Each event changes both sides in several operations; what
holds of every thread and every CPU is kept by all of them, except for the CPU
that is about to be updated.
-/

namespace Ovni

open Ovni.Lib

section

variable {θ γ π ℓ ξ μ ν τ : Type} {sys : System θ γ π ℓ} {e e' : Emu θ γ ξ μ ν τ} {t : θ} {c : γ}

/-- What the CPU channel of a thread shows. -/
def cpuShown (sys : System θ γ π ℓ) : Option γ → Value
  | none => .null
  | some c => .int64 (sys.cpuGindex c)

/-- The flags and channels of a thread agree with its state and its CPU. -/
structure ThreadOk (sys : System θ γ π ℓ) (e : Emu θ γ ξ μ ν τ) (t : θ) : Prop where
  running : (e.th t).isRunning = decide ((e.th t).state = .running)
  active : (e.th t).isActive = (e.th t).state.isActive
  stateChan : e.read (.thread t .state) =
    if (e.th t).state = .unknown then .null else .int64 (e.th t).state.toInt
  tidChan : e.read (.thread t .tid) = if (e.th t).isActive then .int64 (sys.tid t) else .null
  cpuChan : e.read (.thread t .cpu) = cpuShown sys (e.th t).cpu

/-- The state of each thread. -/
def Emu.state (e : Emu θ γ ξ μ ν τ) (t : θ) : ThreadState := (e.th t).state

/-- The fields and channels of a CPU agree with its list of threads; the channels are
null until the first update. -/
structure CpuOk (sys : System θ γ π ℓ) (e : Emu θ γ ξ μ ν τ) (c : γ) : Prop where
  fields : e.cpu c =
    { cpuOfThreads e.state (e.cpu c).threads with updated := (e.cpu c).updated }
  physical : sys.isVirtual c = false → (runningIn e.state (e.cpu c).threads).length ≤ 1
  chans : (e.cpu c).updated = true →
    ∀ k, e.read (.cpu c k) = cpuValue sys e.state (e.cpu c).threads k
  fresh : (e.cpu c).updated = false → (e.cpu c).threads = [] ∧ ∀ k, e.read (.cpu c k) = .null

/-- The threads and the CPUs agree with each other. -/
structure SysOk (sys : System θ γ π ℓ) (e : Emu θ γ ξ μ ν τ) : Prop where
  bay : SysBay e.world.bay
  thread : ∀ t, ThreadOk sys e t
  idle : ∀ t, (e.th t).cpu = none ↔ (e.th t).state = .unknown ∨ (e.th t).state = .dead
  mem : ∀ t c, t ∈ (e.cpu c).threads ↔ (e.th t).cpu = some c
  nodup : ∀ c, (e.cpu c).threads.Nodup
  cpu : ∀ c, CpuOk sys e c

/-! ## What does not change -/

theorem ThreadOk.congr (h : ThreadOk sys e t) (hth : e'.th t = e.th t)
    (hread : ∀ k, e'.read (.thread t k) = e.read (.thread t k)) : ThreadOk sys e' t := by
  refine ⟨?_, ?_, ?_, ?_, ?_⟩
  · rw [hth]
    exact h.running
  · rw [hth]
    exact h.active
  · rw [hread, hth]
    exact h.stateChan
  · rw [hread, hth]
    exact h.tidChan
  · rw [hread, hth]
    exact h.cpuChan

theorem runningIn_congr {state state' : θ → ThreadState} {threads : List θ}
    (h : ∀ t ∈ threads, state' t = state t) : runningIn state' threads = runningIn state threads :=
  List.filter_congr fun t ht => by rw [h t ht]

theorem activeIn_congr {state state' : θ → ThreadState} {threads : List θ}
    (h : ∀ t ∈ threads, state' t = state t) : activeIn state' threads = activeIn state threads :=
  List.filter_congr fun t ht => by rw [h t ht]

/-- A CPU does not see what happens to the threads of others. -/
theorem CpuOk.congr (h : CpuOk sys e c) (hcpu : e'.cpu c = e.cpu c)
    (hstate : ∀ t ∈ (e.cpu c).threads, (e'.th t).state = (e.th t).state)
    (hread : ∀ k, e'.read (.cpu c k) = e.read (.cpu c k)) : CpuOk sys e' c := by
  have hrunning : runningIn e'.state (e.cpu c).threads = runningIn e.state (e.cpu c).threads :=
    runningIn_congr hstate
  have hactive : activeIn e'.state (e.cpu c).threads = activeIn e.state (e.cpu c).threads :=
    activeIn_congr hstate
  refine ⟨?_, fun hvirt => ?_, fun hup k => ?_, fun hup => ?_⟩
  · rw [hcpu]
    apply h.fields.trans
    simp only [cpuOfThreads, hrunning, hactive]
  · rw [hcpu, hrunning]
    exact h.physical hvirt
  · rw [hcpu] at hup ⊢
    rw [hread, h.chans hup k]
    cases k <;> simp only [cpuValue, hrunning, hactive]
  · rw [hcpu] at hup ⊢
    exact ⟨(h.fresh hup).1, fun k => (hread k).trans ((h.fresh hup).2 k)⟩

theorem CpuOk.nthreads (h : CpuOk sys e c) : (e.cpu c).nthreads = (e.cpu c).threads.length :=
  congrArg Cpu.nthreads h.fields

theorem cpuOf_ok (h : cpuOf e t = .ok c) : (e.th t).cpu = some c := by
  unfold cpuOf at h
  split at h
  · cases h
  · rename_i c' hc
    rw [hc, Except.ok.inj h]

/-- The CPUs where a thread is not. -/
theorem SysOk.not_mem (h : SysOk sys e) {c' : γ} (ht : (e.th t).cpu = some c) (hc : c' ≠ c) :
    t ∉ (e.cpu c').threads := by
  rw [h.mem, ht]
  exact fun heq => hc (Option.some.inj heq).symm

variable [DecidableEq θ] [DecidableEq γ] [DecidableEq ξ]

/-! ## Operations on a thread -/

/-- A change of the state of a thread. -/
theorem ThreadOk.setState {state : ThreadState} (hb : SysBay e.world.bay)
    (h : ∀ t, ThreadOk sys e t) (hne : state ≠ .unknown)
    (hrun : threadSetState sys e t state = .ok e') : ∀ t, ThreadOk sys e' t := by
  obtain ⟨-, -, hth, -, hread⟩ := threadSetState_ok sys hb hrun
  intro t'
  by_cases htt : t' = t
  · subst htt
    refine ⟨?_, ?_, ?_, ?_, ?_⟩
    all_goals simp only [hth, hread, Function.update_self]
    · rw [Function.update_of_ne (by simp), Function.update_self, if_neg hne]
    · rw [Function.update_of_ne (by simp), Function.update_of_ne (by simp)]
      exact (h t').cpuChan
  · refine (h t').congr ?_ fun k => ?_
    · rw [hth, Function.update_of_ne htt]
    · rw [hread, Function.update_of_ne (by simp [htt]), Function.update_of_ne (by simp [htt])]

/-- The CPUs without the thread do not notice. -/
theorem CpuOk.setState {state : ThreadState} (hb : SysBay e.world.bay) (h : CpuOk sys e c)
    (hmem : t ∉ (e.cpu c).threads) (hrun : threadSetState sys e t state = .ok e') :
    CpuOk sys e' c := by
  obtain ⟨-, -, hth, hcpu, hread⟩ := threadSetState_ok sys hb hrun
  refine h.congr (by rw [hcpu]) (fun t' ht' => ?_) fun k => ?_
  · rw [hth, Function.update_of_ne]
    rintro rfl
    exact hmem ht'
  · rw [hread, Function.update_of_ne (by simp), Function.update_of_ne (by simp)]

/-- A change of the CPU of a thread, on the side of the thread. -/
structure CpuChange (sys : System θ γ π ℓ) (e e' : Emu θ γ ξ μ ν τ) (t : θ) (o : Option γ) :
    Prop where
  effect : Emu.Effect e e'
  th : e'.th = Function.update e.th t { e.th t with cpu := o }
  cpu : e'.cpu = e.cpu
  read : e'.read = Function.update e.read (.thread t .cpu) (cpuShown sys o)

theorem CpuChange.state {o : Option γ} (h : CpuChange sys e e' t o) (t' : θ) :
    (e'.th t').state = (e.th t').state := by
  rw [h.th]
  by_cases htt : t' = t
  · rw [htt, Function.update_self]
  · rw [Function.update_of_ne htt]

theorem ThreadOk.changeCpu {o : Option γ} (hchange : CpuChange sys e e' t o)
    (h : ∀ t, ThreadOk sys e t) : ∀ t, ThreadOk sys e' t := by
  intro t'
  by_cases htt : t' = t
  · subst htt
    have ht := h t'
    refine ⟨?_, ?_, ?_, ?_, ?_⟩
    all_goals simp only [hchange.th, hchange.read, Function.update_self]
    · exact ht.running
    · exact ht.active
    · rw [Function.update_of_ne (by simp)]
      exact ht.stateChan
    · rw [Function.update_of_ne (by simp)]
      exact ht.tidChan
  · refine (h t').congr ?_ fun k => ?_
    · rw [hchange.th, Function.update_of_ne htt]
    · rw [hchange.read, Function.update_of_ne (by simp [htt])]

theorem CpuOk.changeCpu {o : Option γ} (hchange : CpuChange sys e e' t o)
    (h : CpuOk sys e c) : CpuOk sys e' c := by
  refine h.congr (by rw [hchange.cpu]) (fun t' _ => hchange.state t') fun k => ?_
  rw [hchange.read, Function.update_of_ne (by simp)]

/-! ## Operations on a CPU -/

/-- An update of a CPU after which it has some list of threads. -/
structure CpuStep (sys : System θ γ π ℓ) (e e' : Emu θ γ ξ μ ν τ) (c : γ) (threads : List θ) :
    Prop where
  effect : Emu.Effect e e'
  th : e'.th = e.th
  self : (e'.cpu c).threads = threads
  other : ∀ c', c' ≠ c → e'.cpu c' = e.cpu c'
  ok : CpuOk sys e' c
  cpus : ∀ c', c' ≠ c → CpuOk sys e c' → CpuOk sys e' c'
  thread : ∀ t, ThreadOk sys e t → ThreadOk sys e' t

theorem CpuStep.update (hb : SysBay e.world.bay)
    (hlen : (e.cpu c).nthreads = (e.cpu c).threads.length)
    (hrun : cpuUpdate sys e c = .ok e') : CpuStep sys e e' c (e.cpu c).threads := by
  obtain ⟨heff, hphys, hth, hcpu, hself, hread⟩ := cpuUpdate_ok sys hb hrun hlen
  have hthreads : (e'.cpu c).threads = (e.cpu c).threads := by
    rw [hcpu, Function.update_self]
    rfl
  have hstate : e'.state = fun t => (e.th t).state := by
    unfold Emu.state
    rw [hth]
  refine ⟨heff, hth, hthreads, fun c' hc => ?_, ⟨?_, fun hvirt => ?_, fun _ k => ?_, ?_⟩,
    fun c' hc h => ?_, fun t h => ?_⟩
  · rw [hcpu, Function.update_of_ne hc]
  · rw [hthreads, hstate, hcpu, Function.update_self]
  · rw [hthreads, hstate]
    exact hphys hvirt
  · rw [hthreads, hstate]
    exact hself k
  · rw [hcpu, Function.update_self]
    intro hup
    cases hup
  · refine h.congr ?_ (fun t _ => by rw [hth]) fun k => hread _ fun k' => ?_
    · rw [hcpu, Function.update_of_ne hc]
    · simp [hc]
  · exact h.congr (by rw [hth]) fun k => hread _ fun k' => by simp

/-- The update that follows a change of the list. -/
theorem CpuStep.setCpu (hb : SysBay e.world.bay) {cpu : Cpu θ}
    (hlen : cpu.nthreads = cpu.threads.length)
    (hrun : cpuUpdate sys (e.setCpu c cpu) c = .ok e') : CpuStep sys e e' c cpu.threads := by
  have hself : (e.setCpu c cpu).cpu c = cpu := by simp [Emu.setCpu]
  have hother : ∀ c', c' ≠ c → (e.setCpu c cpu).cpu c' = e.cpu c' :=
    fun c' hc => by simp [Emu.setCpu, Function.update_of_ne hc]
  have h : CpuStep sys (e.setCpu c cpu) e' c ((e.setCpu c cpu).cpu c).threads :=
    .update hb (by rw [hself, hlen]) hrun
  refine ⟨⟨h.effect.ops, h.effect.mod⟩, h.th, h.self.trans (by rw [hself]),
    fun c' hc => (h.other c' hc).trans (hother c' hc), h.ok, fun c' hc hok => ?_, fun t hok => ?_⟩
  · exact h.cpus c' hc (hok.congr (hother c' hc) (fun _ _ => rfl) fun _ => rfl)
  · exact h.thread t (hok.congr rfl fun _ => rfl)

theorem CpuStep.add (hb : SysBay e.world.bay)
    (hlen : (e.cpu c).nthreads = (e.cpu c).threads.length)
    (hrun : cpuAddThread sys e c t = .ok e') :
    t ∉ (e.cpu c).threads ∧ CpuStep sys e e' c ((e.cpu c).threads ++ [t]) := by
  obtain ⟨hmem, hrun⟩ := guard_ok hrun
  exact ⟨hmem, .setCpu hb (by simp [hlen]) hrun⟩

theorem CpuStep.remove (hb : SysBay e.world.bay)
    (hlen : (e.cpu c).nthreads = (e.cpu c).threads.length)
    (hrun : cpuRemoveThread sys e c t = .ok e') :
    CpuStep sys e e' c ((e.cpu c).threads.erase t) := by
  obtain ⟨hmem, hrun⟩ := guard_ok hrun
  exact .setCpu hb (by simp [hlen, List.length_erase_of_mem (not_not.mp hmem)]) hrun

/-- The lists after a thread was added to one. -/
theorem CpuStep.mem_add (h : CpuStep sys e e' c ((e.cpu c).threads ++ [t]))
    (ht : t ∉ (e.cpu c).threads) (hnodup : ∀ c, (e.cpu c).threads.Nodup) :
    (∀ t' c', t' ∈ (e'.cpu c').threads ↔ t' ∈ (e.cpu c').threads ∨ t' = t ∧ c' = c) ∧
      ∀ c', (e'.cpu c').threads.Nodup := by
  refine ⟨fun t' c' => ?_, fun c' => ?_⟩
  · by_cases hcc : c' = c
    · rw [hcc, h.self]
      simp
    · rw [h.other c' hcc]
      simp [hcc]
  · by_cases hcc : c' = c
    · rw [hcc, h.self, List.nodup_append]
      refine ⟨hnodup c, by simp, fun a ha b hb heq => ?_⟩
      rw [List.mem_singleton] at hb
      exact ht (hb ▸ heq ▸ ha)
    · rw [h.other c' hcc]
      exact hnodup c'

/-- The lists after a thread was removed from one. -/
theorem CpuStep.mem_remove (h : CpuStep sys e e' c ((e.cpu c).threads.erase t))
    (hnodup : ∀ c, (e.cpu c).threads.Nodup) :
    (∀ t' c', t' ∈ (e'.cpu c').threads ↔ t' ∈ (e.cpu c').threads ∧ ¬ (t' = t ∧ c' = c)) ∧
      ∀ c', (e'.cpu c').threads.Nodup := by
  refine ⟨fun t' c' => ?_, fun c' => ?_⟩
  · by_cases hcc : c' = c
    · rw [hcc, h.self, (hnodup c).mem_erase_iff]
      simp [and_comm]
    · rw [h.other c' hcc]
      simp [hcc]
  · by_cases hcc : c' = c
    · rw [hcc, h.self]
      exact (hnodup c).erase t
    · rw [h.other c' hcc]
      exact hnodup c'

/-! ## The operations of an event -/

theorem preThreadChange_ok {allowed : List ThreadState} {state : ThreadState} {msg : String}
    (h : preThreadChange sys allowed state msg e t = .ok e') :
    (e.th t).state ∈ allowed ∧ ∃ e1 c, threadSetState sys e t state = .ok e1 ∧
      (e1.th t).cpu = some c ∧ cpuUpdate sys e1 c = .ok e' := by
  obtain ⟨hallowed, h⟩ := guard_ok h
  obtain ⟨e1, h1, h⟩ := bind_ok h
  obtain ⟨c, hc, h⟩ := bind_ok h
  exact ⟨not_not.mp hallowed, e1, c, h1, cpuOf_ok hc, h⟩

theorem preThreadExecute_ok {ev : SysEvent θ} (h : preThreadExecute sys e ev t = .ok e') :
    ∃ c e1 e2, threadSetCpu sys e t c = .ok e1 ∧ threadSetState sys e1 t .running = .ok e2 ∧
      cpuAddThread sys e2 c t = .ok e' := by
  obtain ⟨-, h⟩ := guard_ok h
  obtain ⟨-, h⟩ := guard_ok h
  split at h
  · cases h
  · rename_i c _
    obtain ⟨e1, h1, h⟩ := bind_ok h
    obtain ⟨e2, h2, h⟩ := bind_ok h
    exact ⟨c, e1, e2, h1, h2, h⟩

theorem preThreadEnd_ok (h : preThreadEnd sys e t = .ok e') :
    ((e.th t).state = .running ∨ (e.th t).state = .cooling) ∧
      ∃ e1 c e2, threadSetState sys e t .dead = .ok e1 ∧ (e1.th t).cpu = some c ∧
        cpuRemoveThread sys e1 c t = .ok e2 ∧ threadUnsetCpu e2 t = .ok e' := by
  obtain ⟨hstate, h⟩ := guard_ok h
  obtain ⟨e1, h1, h⟩ := bind_ok h
  obtain ⟨c, hc, h⟩ := bind_ok h
  obtain ⟨e2, h2, h⟩ := bind_ok h
  refine ⟨?_, e1, c, e2, h1, cpuOf_ok hc, h2, h⟩
  by_contra hne
  exact hstate (not_or.mp hne)

/-- An affinity event moves a thread that has a CPU, or finds it where it should be. -/
theorem preAffinity_ok {ev : SysEvent θ} (h : preAffinity sys e ev = .ok e') :
    e' = e ∨ ∃ t old newcpu e1, (e.th t).cpu = some old ∧
      cpuMigrateThread sys e old t newcpu = .ok e1 ∧ threadMigrateCpu sys e1 t newcpu = .ok e' := by
  unfold preAffinity at h
  split at h
  · unfold preAffinitySet at h
    simp only at h
    split at h
    · cases h
    rename_i old hold
    obtain ⟨-, h⟩ := guard_ok h
    obtain ⟨-, h⟩ := guard_ok h
    split at h
    · cases h
    split at h
    · exact .inl (Except.ok.inj h).symm
    · obtain ⟨e1, h1, h⟩ := bind_ok h
      exact .inr ⟨_, old, _, e1, hold, h1, h⟩
  · unfold preAffinityRemote at h
    obtain ⟨-, h⟩ := guard_ok h
    simp only at h
    split at h
    · cases h
    obtain ⟨-, h⟩ := guard_ok h
    obtain ⟨-, h⟩ := guard_ok h
    split at h
    · cases h
    rename_i old hold
    split at h
    · cases h
    obtain ⟨e1, h1, h⟩ := bind_ok h
    exact .inr ⟨_, old, _, e1, hold, h1, h⟩
  · cases h

/-! ## Events -/

/-- An event that changes the state of a thread with a CPU. -/
theorem SysOk.threadChange {allowed : List ThreadState} {state : ThreadState} {msg : String}
    (h : SysOk sys e) (hstate : state ≠ .unknown) (hdead : state ≠ .dead)
    (hrun : preThreadChange sys allowed state msg e t = .ok e') :
    Emu.Effect e e' ∧ SysOk sys e' := by
  obtain ⟨-, e1, c, h1, hc1, hrun⟩ := preThreadChange_ok hrun
  obtain ⟨heff, -, hth, hcpu, -⟩ := threadSetState_ok sys h.bay h1
  have hcpuof : ∀ t', (e1.th t').cpu = (e.th t').cpu := by
    intro t'
    rw [hth]
    by_cases htt : t' = t
    · rw [htt, Function.update_self]
    · rw [Function.update_of_ne htt]
  have ht : (e.th t).cpu = some c := (hcpuof t).symm.trans hc1
  have hb1 := heff.sysBay h.bay
  have hstep := CpuStep.update hb1 (by rw [hcpu]; exact (h.cpu c).nthreads) hrun
  have hthreads : ∀ c', (e'.cpu c').threads = (e.cpu c').threads := by
    intro c'
    by_cases hcc : c' = c
    · rw [hcc, hstep.self, hcpu]
    · rw [hstep.other c' hcc, hcpu]
  have hthread := ThreadOk.setState h.bay h.thread hstate h1
  refine ⟨heff.trans hstep.effect, hstep.effect.sysBay hb1, fun t' => hstep.thread t' (hthread t'),
    fun t' => ?_, fun t' c' => ?_, fun c' => ?_, fun c' => ?_⟩
  · rw [hstep.th]
    by_cases htt : t' = t
    · subst htt
      rw [hc1, hth, Function.update_self]
      simp [hstate, hdead]
    · rw [hth, Function.update_of_ne htt]
      exact h.idle t'
  · rw [hthreads, hstep.th, hcpuof]
    exact h.mem t' c'
  · rw [hthreads]
    exact h.nodup c'
  · by_cases hcc : c' = c
    · rw [hcc]
      exact hstep.ok
    · exact hstep.cpus c' hcc ((h.cpu c').setState h.bay (h.not_mem ht hcc) h1)

/-- OHx: a thread that is nowhere goes to a CPU. -/
theorem SysOk.threadExecute {ev : SysEvent θ} (h : SysOk sys e)
    (hrun : preThreadExecute sys e ev t = .ok e') : Emu.Effect e e' ∧ SysOk sys e' := by
  obtain ⟨c, e1, e2, h1, h2, hrun⟩ := preThreadExecute_ok hrun
  obtain ⟨heff1, hnone, hth1, hcpu1, hread1⟩ := threadSetCpu_ok sys h.bay h1
  have hchange : CpuChange sys e e1 t (some c) := ⟨heff1, hth1, hcpu1, hread1⟩
  have hb1 := heff1.sysBay h.bay
  obtain ⟨heff2, -, hth2, hcpu2, -⟩ := threadSetState_ok sys hb1 h2
  have hb2 := heff2.sysBay hb1
  have hcpu : e2.cpu = e.cpu := hcpu2.trans hcpu1
  have hnot : ∀ c', t ∉ (e.cpu c').threads := fun c' => by simp [h.mem, hnone]
  obtain ⟨hmem, hstep⟩ := CpuStep.add hb2 (by rw [hcpu]; exact (h.cpu c).nthreads) hrun
  obtain ⟨hlists, hnodup⟩ := hstep.mem_add hmem fun c' => by rw [hcpu]; exact h.nodup c'
  have hthread := ThreadOk.setState hb1 (ThreadOk.changeCpu hchange h.thread) (by simp) h2
  have hself : (e'.th t).cpu = some c ∧ (e'.th t).state = .running := by
    rw [hstep.th, hth2, Function.update_self, hth1, Function.update_self]
    exact ⟨rfl, rfl⟩
  have hother : ∀ t', t' ≠ t → e'.th t' = e.th t' := fun t' htt => by
    rw [hstep.th, hth2, Function.update_of_ne htt, hth1, Function.update_of_ne htt]
  refine ⟨(heff1.trans heff2).trans hstep.effect, hstep.effect.sysBay hb2,
    fun t' => hstep.thread t' (hthread t'), fun t' => ?_, fun t' c' => ?_, hnodup, fun c' => ?_⟩
  · by_cases htt : t' = t
    · rw [htt, hself.1, hself.2]
      simp
    · rw [hother t' htt]
      exact h.idle t'
  · rw [hlists, hcpu]
    by_cases htt : t' = t
    · rw [htt, hself.1]
      simp [hnot, eq_comm]
    · rw [hother t' htt, h.mem]
      simp [htt]
  · by_cases hcc : c' = c
    · rw [hcc]
      exact hstep.ok
    · refine hstep.cpus c' hcc (((h.cpu c').changeCpu hchange).setState hb1 ?_ h2)
      rw [hcpu1]
      exact hnot c'

/-- OHe: a thread leaves its CPU. -/
theorem SysOk.threadEnd (h : SysOk sys e) (hrun : preThreadEnd sys e t = .ok e') :
    Emu.Effect e e' ∧ SysOk sys e' := by
  obtain ⟨-, e1, c, e2, h1, hc, h2, hrun⟩ := preThreadEnd_ok hrun
  obtain ⟨heff1, -, hth1, hcpu1, -⟩ := threadSetState_ok sys h.bay h1
  have hb1 := heff1.sysBay h.bay
  have ht : (e.th t).cpu = some c := by
    rw [hth1, Function.update_self] at hc
    exact hc
  have hstep := CpuStep.remove hb1 (by rw [hcpu1]; exact (h.cpu c).nthreads) h2
  have hb2 := hstep.effect.sysBay hb1
  obtain ⟨heff3, hth3, hcpu3, hread3⟩ := threadUnsetCpu_ok hb2 hrun
  have hchange : CpuChange sys e2 e' t none := ⟨heff3, hth3, hcpu3, hread3⟩
  obtain ⟨hlists, hnodup⟩ := hstep.mem_remove fun c' => by rw [hcpu1]; exact h.nodup c'
  have hthread := ThreadOk.setState h.bay h.thread (by simp) h1
  have hself : (e'.th t).cpu = none ∧ (e'.th t).state = .dead := by
    rw [hth3, Function.update_self, hstep.th, hth1, Function.update_self]
    exact ⟨rfl, rfl⟩
  have hother : ∀ t', t' ≠ t → e'.th t' = e.th t' := fun t' htt => by
    rw [hth3, Function.update_of_ne htt, hstep.th, hth1, Function.update_of_ne htt]
  refine ⟨(heff1.trans hstep.effect).trans heff3, heff3.sysBay hb2,
    ThreadOk.changeCpu hchange fun t' => hstep.thread t' (hthread t'), fun t' => ?_,
    fun t' c' => ?_, fun c' => by rw [hcpu3]; exact hnodup c', fun c' => CpuOk.changeCpu hchange ?_⟩
  · by_cases htt : t' = t
    · rw [htt, hself.1, hself.2]
      simp
    · rw [hother t' htt]
      exact h.idle t'
  · rw [hcpu3, hlists, hcpu1, h.mem]
    by_cases htt : t' = t
    · rw [htt, hself.1, ht]
      simp [eq_comm]
    · rw [hother t' htt]
      simp [htt]
  · by_cases hcc : c' = c
    · rw [hcc]
      exact hstep.ok
    · exact hstep.cpus c' hcc ((h.cpu c').setState h.bay (h.not_mem ht hcc) h1)

/-- A migration, also to the same CPU. -/
theorem SysOk.migrate {old newcpu : γ} {e1 : Emu θ γ ξ μ ν τ} (h : SysOk sys e)
    (ht : (e.th t).cpu = some old) (h1 : cpuMigrateThread sys e old t newcpu = .ok e1)
    (hrun : threadMigrateCpu sys e1 t newcpu = .ok e') : Emu.Effect e e' ∧ SysOk sys e' := by
  obtain ⟨e0, h0, h1⟩ := bind_ok h1
  have hremove := CpuStep.remove h.bay (h.cpu old).nthreads h0
  have hb0 := hremove.effect.sysBay h.bay
  obtain ⟨hlists0, hnodup0⟩ := hremove.mem_remove h.nodup
  have hcpus0 : ∀ c', CpuOk sys e0 c' := by
    intro c'
    by_cases hcc : c' = old
    · rw [hcc]
      exact hremove.ok
    · exact hremove.cpus c' hcc (h.cpu c')
  obtain ⟨hmem, hadd⟩ := CpuStep.add hb0 (hcpus0 newcpu).nthreads h1
  have hb1 := hadd.effect.sysBay hb0
  obtain ⟨hlists1, hnodup1⟩ := hadd.mem_add hmem hnodup0
  have hcpus1 : ∀ c', CpuOk sys e1 c' := by
    intro c'
    by_cases hcc : c' = newcpu
    · rw [hcc]
      exact hadd.ok
    · exact hadd.cpus c' hcc (hcpus0 c')
  obtain ⟨heff2, hth2, hcpu2, hread2⟩ := threadMigrateCpu_ok sys hb1 hrun
  have hchange : CpuChange sys e1 e' t (some newcpu) := ⟨heff2, hth2, hcpu2, hread2⟩
  have hth : ∀ t', e1.th t' = e.th t' := fun t' => by rw [hadd.th, hremove.th]
  refine ⟨(hremove.effect.trans hadd.effect).trans heff2, heff2.sysBay hb1,
    ThreadOk.changeCpu hchange fun t' => hadd.thread t' (hremove.thread t' (h.thread t')),
    fun t' => ?_, fun t' c' => ?_, fun c' => by rw [hcpu2]; exact hnodup1 c',
    fun c' => CpuOk.changeCpu hchange (hcpus1 c')⟩
  · rw [hchange.state, hth]
    by_cases htt : t' = t
    · rw [htt, hth2, Function.update_self, ← h.idle t, ht]
      simp
    · rw [hth2, Function.update_of_ne htt, hth]
      exact h.idle t'
  · rw [hcpu2, hlists1, hlists0, h.mem]
    by_cases htt : t' = t
    · rw [htt, hth2, Function.update_self, ht]
      simp only [Option.some.injEq, true_and]
      constructor
      · rintro (⟨rfl, hne⟩ | rfl)
        · exact absurd rfl hne
        · rfl
      · rintro rfl
        exact Or.inr rfl
    · rw [hth2, Function.update_of_ne htt, hth]
      simp [htt]

theorem SysOk.preThread {ev : SysEvent θ} (h : SysOk sys e) (hrun : preThread sys e ev = .ok e') :
    Emu.Effect e e' ∧ SysOk sys e' := by
  unfold Ovni.preThread at hrun
  split at hrun
  · rw [← Except.ok.inj hrun]
    exact ⟨.refl, h⟩
  · exact h.threadExecute hrun
  · exact h.threadEnd hrun
  · exact h.threadChange (by simp) (by simp) hrun
  · exact h.threadChange (by simp) (by simp) hrun
  · exact h.threadChange (by simp) (by simp) hrun
  · exact h.threadChange (by simp) (by simp) hrun
  · cases hrun

theorem SysOk.preAffinity {ev : SysEvent θ} (h : SysOk sys e)
    (hrun : preAffinity sys e ev = .ok e') : Emu.Effect e e' ∧ SysOk sys e' := by
  rcases preAffinity_ok hrun with rfl | ⟨t, old, newcpu, e1, hold, h1, hrun⟩
  · exact ⟨.refl, h⟩
  · exact h.migrate hold h1 hrun

/-- Every thread and affinity event keeps the threads and the CPUs in agreement. -/
theorem SysOk.event {ev : SysEvent θ} (h : SysOk sys e)
    (hrun : modelOvniEvent sys e ev = .ok e') : Emu.Effect e e' ∧ SysOk sys e' := by
  obtain ⟨-, hrun⟩ := guard_ok hrun
  split at hrun
  · exact h.preThread hrun
  · exact h.preAffinity hrun
  · cases hrun

end

end Ovni
