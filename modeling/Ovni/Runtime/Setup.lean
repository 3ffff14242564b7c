import Ovni.Lib.Except
import Ovni.Runtime.Process

/-!
# One thread sets up the process

Whatever the order of the steps, one call of `ovni_proc_init` passes the exchange at most.
Until it stores the state no other thread gets past its checks, and from then on the fields
of the process are those of this call, so the metadata of all threads agree with it.
-/

namespace Ovni

open Ovni.Lib

section

variable {ι : Type} [DecidableEq ι] {env : RtEnv ι} {s s' : RtState ι} {i : ι}
  {log : List (ι × RtAct)} {obs : ProcDir → Int → Option (List UInt8)}
  {json : ProcDir → Int → Option StreamInfo}

/-! ## Steps -/

@[simp] theorem RtState.setTh_proc (i : ι) (th : OsThread) : (s.setTh i th).proc = s.proc := rfl

@[simp] theorem RtState.setTh_obs (i : ι) (th : OsThread) : (s.setTh i th).obs = s.obs := rfl

@[simp] theorem RtState.setTh_self (i : ι) (th : OsThread) : (s.setTh i th).th i = th := by
  simp [RtState.setTh]

theorem RtState.setTh_of_ne {j : ι} (th : OsThread) (hj : j ≠ i) :
    (s.setTh i th).th j = s.th j := by
  simp [RtState.setTh, hj]

@[simp] theorem RtState.setRt_proc (i : ι) (rt : Rthread) : (s.setRt i rt).proc = s.proc := rfl

@[simp] theorem RtState.setRt_self (i : ι) (rt : Rthread) :
    (s.setRt i rt).th i = { s.th i with rt } := by
  simp [RtState.setRt, RtState.setTh]

theorem RtState.setRt_of_ne {j : ι} (rt : Rthread) (hj : j ≠ i) :
    (s.setRt i rt).th j = s.th j := by
  simp [RtState.setRt, RtState.setTh, hj]

/-- The events are for threads that are ready. -/
theorem runCall_ready {clk : Nat → UInt64} {st st' : Rthread} {c : Call}
    (h : runCall clk st c = .ok st') : st.ready = true := by
  by_contra hnot
  have hready : st.ready = false := by simpa using hnot
  cases c with
  | emit ev =>
      simp only [runCall, ovniEvEmit, addRounds, ovniEvAdd, hready, if_true] at h
      cases h
  | jumboEmit ev buf => exact (guard_ok h).1 hready
  | flush => exact (guard_ok h).1 hready

/-! ## What the calls do -/

theorem ovniProcInit_ok {app pid : Int} {loom : Name}
    (h : ovniProcInit s i app loom pid = .ok s') : s.proc.st = .uninit ∧
      s' = ({ s with proc := { s.proc with st := .init } } : RtState ι).setTh i
        { s.th i with pc := .procInit .loom app loom pid } := by
  unfold ovniProcInit at h
  cases hst : s.proc.st with
  | uninit =>
      rw [hst] at h
      exact ⟨rfl, (Except.ok.inj h).symm⟩
  | _ =>
      rw [hst] at h
      cases h

omit [DecidableEq ι] in
theorem ovniProcFini_ok (h : ovniProcFini s = .ok s') :
    s.proc.st = .ready ∧ s' = { s with proc := { s.proc with st := .gone } } := by
  unfold ovniProcFini at h
  by_cases hst : s.proc.st = .ready
  · rw [if_pos hst] at h
    exact ⟨hst, (Except.ok.inj h).symm⟩
  · rw [if_neg hst] at h
    cases h

theorem ovniThreadInitCall_ok {tid : Int} {evbuf : Mem}
    (h : ovniThreadInitCall s i tid evbuf = .ok s') :
    (s.th i).rt.ready = true ∧ s' = s ∨
      (s.th i).rt.ready = false ∧ (s.th i).finished = false ∧ tid ≠ 0 ∧ s.proc.st = .ready ∧
        s' = s.setTh i { OsThread.zero with tid, pc := .threadInit .stream evbuf } := by
  by_cases hready : (s.th i).rt.ready = true
  · simp only [ovniThreadInitCall, hready, if_true] at h
    exact Or.inl ⟨hready, (Except.ok.inj h).symm⟩
  · simp only [ovniThreadInitCall, hready, Bool.false_eq_true, if_false] at h
    obtain ⟨hfinished, h⟩ := guard_ok h
    obtain ⟨htid, h⟩ := guard_ok h
    obtain ⟨hst, h⟩ := guard_ok h
    exact Or.inr ⟨by simpa using hready, by simpa using hfinished, htid, not_not.mp hst,
      (Except.ok.inj h).symm⟩

theorem ovniStreamCall_ok {c : Call} (h : ovniStreamCall env s i c = .ok s') :
    ∃ rt, runCall (env.clk i) (s.th i).rt c = .ok rt ∧ s' = s.setRt i rt := by
  obtain ⟨-, h⟩ := guard_ok h
  obtain ⟨rt, hcall, h⟩ := bind_ok h
  exact ⟨rt, hcall, (Except.ok.inj h).symm⟩

theorem ovniAddCpu_ok {index phyid : Int} (h : ovniAddCpu s i index phyid = .ok s') :
    s.proc.st = .ready ∧ (s.th i).rt.ready = true ∧
      s' = s.setTh i { s.th i with cpus := (s.th i).cpus ++ [(index, phyid)] } := by
  obtain ⟨-, h⟩ := guard_ok h
  obtain ⟨-, h⟩ := guard_ok h
  obtain ⟨hst, h⟩ := guard_ok h
  obtain ⟨hready, h⟩ := guard_ok h
  exact ⟨not_not.mp hst, by simpa using hready, (Except.ok.inj h).symm⟩

theorem ovniProcSetRank_ok {rank nranks : Int} (h : ovniProcSetRank s i rank nranks = .ok s') :
    s.proc.st = .ready ∧ (s.th i).rt.ready = true ∧
      s' = s.setTh i { s.th i with rank := some (rank, nranks) } := by
  obtain ⟨hst, h⟩ := guard_ok h
  obtain ⟨hready, h⟩ := guard_ok h
  exact ⟨not_not.mp hst, by simpa using hready, (Except.ok.inj h).symm⟩

/-- The metadata that a thread stores when it ends. -/
def OsThread.lastInfo (th : OsThread) (info : StreamInfo) : StreamInfo :=
  { info with rank := th.rank.or info.rank, cpus := th.cpus, finished := true }

/-- A thread after its end. -/
def OsThread.freed (th : OsThread) (info : StreamInfo) : OsThread :=
  { th with info := some (th.lastInfo info), finished := true, rt := { th.rt with ready := false } }

theorem ovniThreadFree_ok (h : ovniThreadFree s i = .ok s') :
    ∃ info, (s.th i).finished = false ∧ (s.th i).rt.ready = true ∧ (s.th i).info = some info ∧
      s'.proc = s.proc ∧ s'.th = (s.setTh i ((s.th i).freed info)).th ∧
      s'.obs = (if s.proc.moveToFinal then moveFile s.obs (s.th i).tid else s.obs) ∧
      s'.json = (if s.proc.moveToFinal then
          moveFile (putFile s.json .flushed (s.th i).tid (some ((s.th i).lastInfo info)))
            (s.th i).tid
        else putFile s.json .flushed (s.th i).tid (some ((s.th i).lastInfo info))) := by
  obtain ⟨hfinished, h⟩ := guard_ok h
  obtain ⟨hready, h⟩ := guard_ok h
  cases hinfo : (s.th i).info with
  | none =>
      rw [hinfo] at h
      cases h
  | some info =>
      simp only [hinfo] at h
      refine ⟨info, by simpa using hfinished, by simpa using hready, rfl, ?_⟩
      by_cases hmove : s.proc.moveToFinal = true
      · simp only [RtState.setTh_proc, hmove, if_true] at h ⊢
        rw [← Except.ok.inj h]
        exact ⟨rfl, rfl, rfl, rfl⟩
      · simp only [RtState.setTh_proc, hmove, Bool.false_eq_true, if_false] at h ⊢
        rw [← Except.ok.inj h]
        exact ⟨rfl, rfl, rfl, rfl⟩

theorem threadInitNext_ok {evbuf : Mem} {stage : ThreadStage}
    (h : threadInitNext i s evbuf stage = .ok s') : s' = threadInitStep i s evbuf stage ∧
      (stage = .metadata → isValidUtf8 s.proc.loom = true) := by
  unfold threadInitNext at h
  split at h
  · cases h
  next hvalid =>
    refine ⟨(Except.ok.inj h).symm, fun hstage => ?_⟩
    by_contra hno
    exact hvalid ⟨hstage, by simpa using hno⟩

/-- A thread that has done nothing yet. -/
structure OsThread.Fresh (th : OsThread) : Prop where
  idle : th.pc = .idle
  unready : th.rt.ready = false
  unfinished : th.finished = false
  info : th.info = none

/-- The calls of a fresh thread that do not die. -/
theorem OsThread.Fresh.call {c : RtCall} (h : (s.th i).Fresh) (hst : s.proc.st ≠ .ready)
    (hrun : rtCall env i s c = .ok s') :
    s.proc.st = .uninit ∧ ∃ app loom pid, c = .procInit app loom pid := by
  cases c with
  | procInit app loom pid => exact ⟨(ovniProcInit_ok hrun).1, app, loom, pid, rfl⟩
  | procFini => exact absurd (ovniProcFini_ok hrun).1 hst
  | threadInit tid evbuf =>
      rcases ovniThreadInitCall_ok hrun with ⟨hready, -⟩ | ⟨-, -, -, hst', -⟩
      · rw [h.unready] at hready
        cases hready
      · exact absurd hst' hst
  | stream c =>
      obtain ⟨rt, hcall, -⟩ := ovniStreamCall_ok hrun
      have hready := runCall_ready hcall
      rw [h.unready] at hready
      cases hready
  | addCpu index phyid => exact absurd (ovniAddCpu_ok hrun).1 hst
  | setRank rank nranks => exact absurd (ovniProcSetRank_ok hrun).1 hst
  | threadFree =>
      obtain ⟨info, -, hready, -⟩ := ovniThreadFree_ok hrun
      rw [h.unready] at hready
      cases hready

/-! ## Once the process is ready -/

/-- The fields of the process are those of a call of `ovni_proc_init`. -/
structure Rproc.Settled (env : RtEnv ι) (app : Int) (loom : Name) (pid : Int) (proc : Rproc) :
    Prop where
  app : proc.app = app
  loom : proc.loom = loom
  pid : proc.pid = pid
  moveToFinal : proc.moveToFinal = env.tmpdir

/-- A thread that does not set up the process, with metadata that agrees with it. -/
structure OsThread.Knows (app : Int) (loom : Name) (pid : Int) (th : OsThread) : Prop where
  pc : ∀ stage app loom pid, th.pc ≠ .procInit stage app loom pid
  info : ∀ info, th.info = some info → info.app = app ∧ info.loom = loom ∧ info.pid = pid

variable {app pid : Int} {loom : Name}

omit [DecidableEq ι] in
theorem OsThread.Fresh.knows {th : OsThread} (h : th.Fresh) : th.Knows app loom pid := by
  refine ⟨fun stage app loom pid hpc => ?_, fun info hinfo => ?_⟩
  · rw [h.idle] at hpc
    cases hpc
  · rw [h.info] at hinfo
    cases hinfo

theorem knows_setTh (h : ∀ j, (s.th j).Knows app loom pid) {th : OsThread}
    (hth : th.Knows app loom pid) (j : ι) : ((s.setTh i th).th j).Knows app loom pid := by
  by_cases hj : j = i
  · rw [hj, RtState.setTh_self]
    exact hth
  · rw [RtState.setTh_of_ne th hj]
    exact h j

/-- A call once the process is ready: only `ovni_proc_fini` changes it. -/
theorem rtCall_settled {c : RtCall} (hst : s.proc.st = .ready ∨ s.proc.st = .gone)
    (h : ∀ j, (s.th j).Knows app loom pid) (hrun : rtCall env i s c = .ok s') :
    (∀ j, (s'.th j).Knows app loom pid) ∧ (∀ a l p, c ≠ .procInit a l p) ∧
      (s'.proc = s.proc ∧ c ≠ .procFini ∨
        s'.proc = { s.proc with st := .gone } ∧ s.proc.st = .ready ∧ c = .procFini) := by
  cases c with
  | procInit app loom pid =>
      obtain ⟨huninit, -⟩ := ovniProcInit_ok hrun
      rw [huninit] at hst
      simp at hst
  | procFini =>
      obtain ⟨hready, rfl⟩ := ovniProcFini_ok hrun
      exact ⟨h, by simp, Or.inr ⟨rfl, hready, rfl⟩⟩
  | threadInit tid evbuf =>
      rcases ovniThreadInitCall_ok hrun with ⟨-, rfl⟩ | ⟨-, -, -, -, rfl⟩
      · exact ⟨h, by simp, Or.inl ⟨rfl, by simp⟩⟩
      · exact ⟨knows_setTh h ⟨by simp, by simp [OsThread.zero]⟩, by simp, Or.inl ⟨rfl, by simp⟩⟩
  | stream c =>
      obtain ⟨rt, -, rfl⟩ := ovniStreamCall_ok hrun
      exact ⟨knows_setTh h ⟨(h i).pc, (h i).info⟩, by simp, Or.inl ⟨rfl, by simp⟩⟩
  | addCpu index phyid =>
      obtain ⟨-, -, rfl⟩ := ovniAddCpu_ok hrun
      exact ⟨knows_setTh h ⟨(h i).pc, (h i).info⟩, by simp, Or.inl ⟨rfl, by simp⟩⟩
  | setRank rank nranks =>
      obtain ⟨-, -, rfl⟩ := ovniProcSetRank_ok hrun
      exact ⟨knows_setTh h ⟨(h i).pc, (h i).info⟩, by simp, Or.inl ⟨rfl, by simp⟩⟩
  | threadFree =>
      obtain ⟨info, -, -, hinfo, hproc, hth, -⟩ := ovniThreadFree_ok hrun
      have hfreed : ((s.th i).freed info).Knows app loom pid := by
        refine ⟨(h i).pc, fun info' hinfo' => ?_⟩
        rw [← Option.some.inj hinfo']
        exact (h i).info info hinfo
      refine ⟨fun j => ?_, by simp, Or.inl ⟨hproc, by simp⟩⟩
      rw [hth]
      exact knows_setTh h hfreed j

/-- The other parts of a call once the process is ready belong to `ovni_thread_init`. -/
theorem rtNext_settled (hset : s.proc.Settled env app loom pid)
    (h : ∀ j, (s.th j).Knows app loom pid) (hrun : rtNext env i s = some (.ok s')) :
    s'.proc = s.proc ∧ ∀ j, (s'.th j).Knows app loom pid := by
  unfold rtNext at hrun
  cases hpc : (s.th i).pc with
  | idle =>
      rw [hpc] at hrun
      cases hrun
  | procInit stage a l p => exact absurd hpc ((h i).pc stage a l p)
  | threadInit stage evbuf =>
      rw [hpc] at hrun
      rw [(threadInitNext_ok (Option.some.inj hrun)).1]
      cases stage with
      | stream =>
          refine ⟨rfl, fun j => ?_⟩
          by_cases hj : j = i
          · subst hj
            simp only [threadInitStep, RtState.setRt_self, RtState.setTh_self]
            exact ⟨by simp, (h j).info⟩
          · simp only [threadInitStep, RtState.setRt_of_ne _ hj, RtState.setTh_of_ne _ hj]
            exact h j
      | metadata =>
          refine ⟨rfl, fun j => ?_⟩
          simp only [threadInitStep]
          refine knows_setTh h ⟨by simp, fun info hinfo => ?_⟩ j
          rw [← Option.some.inj hinfo]
          exact ⟨hset.app, hset.loom, hset.pid⟩

/-! ## Runs -/

/-- The calls of `ovni_proc_init` in a log, with their arguments. -/
def inits (log : List (ι × RtAct)) : List (Int × Name × Int) :=
  log.filterMap fun entry => match entry.2 with
    | .call (.procInit app loom pid) => some (app, loom, pid)
    | _ => none

/-- How often `ovni_proc_fini` returned. -/
def finis (log : List (ι × RtAct)) : Nat :=
  log.countP fun entry => match entry.2 with
    | .call .procFini => true
    | _ => false

/-- The fields that are written before a stage. -/
def InitStage.Done (env : RtEnv ι) (app : Int) (loom : Name) (pid : Int) (proc : Rproc) :
    InitStage → Prop
  | .loom => True
  | .pid => proc.loom = loom
  | .app => proc.loom = loom ∧ proc.pid = pid
  | .dir => proc.loom = loom ∧ proc.pid = pid ∧ proc.app = app
  | .store => proc.Settled env app loom pid

/-- How far the process is. -/
inductive ProcPhase (env : RtEnv ι) (log : List (ι × RtAct)) (s : RtState ι) : Prop where
  | uninit (hst : s.proc.st = .uninit) (hinits : inits log = []) (hfinis : finis log = 0)
      (hth : ∀ i, (s.th i).Fresh)
  | init (i : ι) (stage : InitStage) (app : Int) (loom : Name) (pid : Int)
      (hst : s.proc.st = .init) (hinits : inits log = [(app, loom, pid)]) (hfinis : finis log = 0)
      (hpc : (s.th i).pc = .procInit stage app loom pid)
      (hself : ({ s.th i with pc := .idle } : OsThread).Fresh) (hth : ∀ j, j ≠ i → (s.th j).Fresh)
      (hdone : stage.Done env app loom pid s.proc)
  | ready (app : Int) (loom : Name) (pid : Int) (hst : s.proc.st = .ready ∨ s.proc.st = .gone)
      (hinits : inits log = [(app, loom, pid)])
      (hfinis : finis log = if s.proc.st = .gone then 1 else 0)
      (hset : s.proc.Settled env app loom pid) (hth : ∀ i, (s.th i).Knows app loom pid)

omit [DecidableEq ι] in
theorem ProcPhase.fresh (h : ProcPhase env log s) (hst : s.proc.st = .uninit) (i : ι) :
    (s.th i).Fresh := by
  cases h with
  | uninit _ _ _ hth => exact hth i
  | init _ _ _ _ _ hst' =>
      rw [hst] at hst'
      cases hst'
  | ready _ _ _ hst' =>
      rw [hst] at hst'
      simp at hst'

omit [DecidableEq ι] in
/-- The process of a thread that has finished is set up. -/
theorem ProcPhase.settled (h : ProcPhase env log s) (hfinished : (s.th i).finished = true) :
    ∃ app loom pid, inits log = [(app, loom, pid)] ∧ s.proc.Settled env app loom pid ∧
      ∀ j, (s.th j).Knows app loom pid := by
  cases h with
  | uninit _ _ _ hth =>
      rw [(hth i).unfinished] at hfinished
      cases hfinished
  | init i₀ _ _ _ _ _ _ _ _ hself hth =>
      by_cases hi : i = i₀
      · have hnot : (s.th i₀).finished = false := hself.unfinished
        rw [hi, hnot] at hfinished
        cases hfinished
      · rw [(hth i hi).unfinished] at hfinished
        cases hfinished
  | ready app loom pid _ hinits _ hset hth => exact ⟨app, loom, pid, hinits, hset, hth⟩

theorem ProcPhase.next (h : ProcPhase env log s) (hrun : rtNext env i s = some (.ok s')) :
    ProcPhase env (log ++ [(i, .next)]) s' := by
  have hinits : inits (log ++ [(i, .next)]) = inits log := by simp [inits]
  have hfinis : finis (log ++ [(i, .next)]) = finis log := by simp [finis]
  cases h with
  | uninit hst _ _ hth =>
      unfold rtNext at hrun
      rw [(hth i).idle] at hrun
      cases hrun
  | init i₀ stage app loom pid hst hlog hfin hpc hself hth hdone =>
      have hi : i = i₀ := by
        by_contra hne
        unfold rtNext at hrun
        rw [(hth i hne).idle] at hrun
        cases hrun
      subst hi
      unfold rtNext at hrun
      rw [hpc] at hrun
      have hrun := Option.some.inj hrun
      have hnext : ∀ (stage' : InitStage) (proc : Rproc), proc.st = .init →
          stage'.Done env app loom pid proc → ProcPhase env (log ++ [(i, .next)])
            (({ s with proc } : RtState ι).setTh i
              { s.th i with pc := .procInit stage' app loom pid }) := by
        intro stage' proc hst' hdone'
        refine .init i stage' app loom pid hst' (hinits.trans hlog) (hfinis.trans hfin) ?_ ?_
          (fun j hj => ?_) hdone'
        · rw [RtState.setTh_self]
        · rw [RtState.setTh_self]
          exact hself
        · rw [RtState.setTh_of_ne _ hj]
          exact hth j hj
      cases stage with
      | loom =>
          simp only [procInitNext] at hrun
          split at hrun
          · cases hrun
          · rw [← Except.ok.inj hrun]
            exact hnext .pid { s.proc with loom } hst rfl
      | pid =>
          rw [← Except.ok.inj hrun]
          exact hnext .app { s.proc with pid } hst ⟨hdone, rfl⟩
      | app =>
          rw [← Except.ok.inj hrun]
          exact hnext .dir { s.proc with app } hst ⟨hdone.1, hdone.2, rfl⟩
      | dir =>
          rw [← Except.ok.inj hrun]
          exact hnext .store { s.proc with moveToFinal := env.tmpdir } hst
            ⟨hdone.2.2, hdone.1, hdone.2.1, rfl⟩
      | store =>
          rw [← Except.ok.inj hrun]
          refine .ready app loom pid (Or.inl rfl) (hinits.trans hlog) (hfinis.trans hfin)
            ⟨hdone.app, hdone.loom, hdone.pid, hdone.moveToFinal⟩ fun j => ?_
          by_cases hj : j = i
          · rw [hj, RtState.setTh_self]
            exact hself.knows
          · rw [RtState.setTh_of_ne _ hj]
            exact (hth j hj).knows
  | ready app loom pid hst hlog hfin hset hth =>
      obtain ⟨hproc, hth'⟩ := rtNext_settled hset hth hrun
      refine .ready app loom pid ?_ (hinits.trans hlog) ?_ ?_ hth'
      · rw [hproc]
        exact hst
      · rw [hproc]
        exact hfinis.trans hfin
      · rw [hproc]
        exact hset

theorem ProcPhase.call {c : RtCall} (h : ProcPhase env log s) (hidle : (s.th i).pc = .idle)
    (hrun : rtCall env i s c = .ok s') : ProcPhase env (log ++ [(i, .call c)]) s' := by
  cases h with
  | uninit hst hlog hfin hth =>
      obtain ⟨-, app, loom, pid, rfl⟩ := (hth i).call (by rw [hst]; simp) hrun
      obtain ⟨-, rfl⟩ := ovniProcInit_ok hrun
      refine .init i .loom app loom pid rfl ?_ ?_ ?_ ?_ (fun j hj => ?_) trivial
      · unfold inits at hlog ⊢
        rw [List.filterMap_append, hlog]
        rfl
      · unfold finis at hfin ⊢
        rw [List.countP_append, hfin]
        rfl
      · rw [RtState.setTh_self]
      · rw [RtState.setTh_self]
        exact ⟨rfl, (hth i).unready, (hth i).unfinished, (hth i).info⟩
      · rw [RtState.setTh_of_ne _ hj]
        exact hth j
  | init i₀ stage app loom pid hst hlog hfin hpc hself hth hdone =>
      have hi : i ≠ i₀ := by
        rintro rfl
        rw [hpc] at hidle
        cases hidle
      obtain ⟨huninit, -⟩ := (hth i hi).call (by rw [hst]; simp) hrun
      rw [hst] at huninit
      cases huninit
  | ready app loom pid hst hlog hfin hset hth =>
      obtain ⟨hth', hno, hproc⟩ := rtCall_settled hst hth hrun
      have hinits : inits (log ++ [(i, .call c)]) = inits log := by
        unfold inits
        rw [List.filterMap_append]
        cases c with
        | procInit a l p => exact absurd rfl (hno a l p)
        | _ => simp
      rcases hproc with ⟨hproc, hc⟩ | ⟨hproc, hready, rfl⟩
      · have hfinis : finis (log ++ [(i, .call c)]) = finis log := by
          unfold finis
          rw [List.countP_append]
          cases c with
          | procFini => exact absurd rfl hc
          | _ => simp
        rw [← hproc] at hst hfin hset
        exact .ready app loom pid hst (hinits.trans hlog) (hfinis.trans hfin) hset hth'
      · have hfinis : finis (log ++ [(i, .call .procFini)]) = finis log + 1 := by
          unfold finis
          rw [List.countP_append]
          rfl
        rw [hready] at hfin
        refine .ready app loom pid (Or.inr (by rw [hproc])) (hinits.trans hlog) ?_ ?_ hth'
        · rw [hfinis, hfin, hproc]
          rfl
        · rw [hproc]
          exact ⟨hset.app, hset.loom, hset.pid, hset.moveToFinal⟩

theorem RtRun.phase (h : RtRun env obs json log s) : ProcPhase env log s := by
  apply h.inv (.uninit rfl rfl rfl fun _ => ⟨rfl, rfl, rfl, rfl⟩)
  intro log s i a s' hphase hstep
  cases hstep with
  | call hidle hrun => exact hphase.call hidle hrun
  | next hrun => exact hphase.next hrun

/-- Whatever the order of the steps of the threads, one call of `ovni_proc_init` gets past the
exchange at most, and one of `ovni_proc_fini` returns at most.  When a thread is ready, or has
metadata, there was such a call, the process is set up with its arguments and the metadata of
the thread agrees with them. -/
theorem process_set_up_once (h : RtRun env obs json log s) :
    (inits log).length ≤ 1 ∧ finis log ≤ 1 ∧
      ∀ i, (s.th i).rt.ready = true ∨ (s.th i).info ≠ none → ∃ app loom pid,
        inits log = [(app, loom, pid)] ∧ s.proc.Settled env app loom pid ∧
        ∀ info, (s.th i).info = some info →
          info.app = app ∧ info.loom = loom ∧ info.pid = pid := by
  cases h.phase with
  | uninit hst hlog hfin hth =>
      refine ⟨by simp [hlog], by omega, fun i hi => ?_⟩
      rw [(hth i).unready, (hth i).info] at hi
      simp at hi
  | init i₀ stage app loom pid hst hlog hfin hpc hself hth hdone =>
      refine ⟨by simp [hlog], by omega, fun i hi => ?_⟩
      by_cases hi₀ : i = i₀
      · rw [hi₀, show (s.th i₀).rt.ready = false from hself.unready,
          show (s.th i₀).info = none from hself.info] at hi
        simp at hi
      · rw [(hth i hi₀).unready, (hth i hi₀).info] at hi
        simp at hi
  | ready app loom pid hst hlog hfin hset hth =>
      refine ⟨by simp [hlog], ?_, fun i _ => ⟨app, loom, pid, hlog, hset, (hth i).info⟩⟩
      rw [hfin]
      split
      · exact Nat.le_refl 1
      · exact Nat.zero_le 1

/-! ## Two threads -/

/-- A step as it is executed. -/
def rtAct (env : RtEnv ι) (i : ι) : RtAct → RtState ι → Option (RtState ι)
  | .call c, s =>
      match (s.th i).pc with
      | .idle => (rtCall env i s c).toOption
      | _ => none
  | .next, s => (rtNext env i s).bind Except.toOption

omit [DecidableEq ι] in
theorem toOption_some {ε α : Type} {x : Except ε α} {a : α} (h : x.toOption = some a) :
    x = .ok a := by
  cases x with
  | error e => cases h
  | ok b => exact congrArg _ (Option.some.inj h)

theorem rtAct_step {a : RtAct} (h : rtAct env i a s = some s') : RtStep env i a s s' := by
  cases a with
  | call c =>
      simp only [rtAct] at h
      split at h
      · exact .call ‹_› (toOption_some h)
      · cases h
  | next =>
      obtain ⟨x, hnext, hx⟩ := Option.bind_eq_some_iff.mp h
      exact .next (hnext.trans (congrArg some (toOption_some hx)))

/-- Two threads that start while the first one sets up the process, each with an event and the
rank, and one with a CPU. -/
def demoThreads : List (Bool × RtAct) :=
  [(false, .call (.procInit 3 (ascii "node") 42)), (false, .next), (false, .next), (false, .next),
    (false, .next), (false, .next), (false, .call (.threadInit 7 fun _ => 0)),
    (true, .call (.threadInit 8 fun _ => 0)), (true, .next), (false, .next), (false, .next),
    (true, .next),
    (false, .call (.stream (.emit (ovniEvSetMcv { OvniEv.zero with clock := 1 } 0x4f 0x48 0x78)))),
    (true, .call (.stream (.emit (ovniEvSetMcv { OvniEv.zero with clock := 2 } 0x4f 0x48 0x65)))),
    (true, .call (.addCpu 0 4)), (false, .call (.setRank 0 2)), (true, .call (.setRank 0 2)),
    (true, .call (.stream .flush)), (false, .call (.stream .flush)), (false, .call .threadFree),
    (true, .call .threadFree), (false, .call .procFini)]

/-- The trace of these threads goes through a temporary directory. -/
def demoEnv : RtEnv Bool :=
  { clk := fun _ k => UInt64.ofNat (min k (2 ^ 64 - 1)), tmpdir := true }

theorem demoThreads_run : ∃ s, RtRun demoEnv (fun _ _ => none) (fun _ _ => none) demoThreads s ∧
    (s.th false).tid = 7 ∧ (s.th true).tid = 8 ∧ ∀ i, (s.th i).finished = true := by
  have heval : (demoThreads.foldlM (fun s entry => rtAct demoEnv entry.1 entry.2 s)
      (rtInit (fun _ _ => none) fun _ _ => none)).map
        (fun s =>
          ((s.th false).tid, (s.th true).tid, (s.th false).finished, (s.th true).finished)) =
      some (7, 8, true, true) := by decide +kernel
  obtain ⟨s, hrun, hs⟩ := Option.map_eq_some_iff.mp heval
  obtain ⟨h0, h1, hf0, hf1⟩ : _ ∧ _ ∧ _ ∧ _ := by simpa using hs
  exact ⟨s, Runs.exec (fun i a s s' => rtAct_step) demoThreads .nil hrun, h0, h1,
    Bool.forall_bool.mpr ⟨hf0, hf1⟩⟩

theorem process_set_up_once_demo : ∃ s,
    RtRun demoEnv (fun _ _ => none) (fun _ _ => none) demoThreads s ∧
      (inits demoThreads).length ≤ 1 ∧ finis demoThreads ≤ 1 := by
  obtain ⟨s, hrun, -⟩ := demoThreads_run
  obtain ⟨hinits, hfinis, -⟩ := process_set_up_once hrun
  exact ⟨s, hrun, hinits, hfinis⟩

end

end Ovni
