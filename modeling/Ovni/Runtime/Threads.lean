import Ovni.Runtime.RoundTrip
import Ovni.Runtime.Setup

/-!
# How far a thread is

A thread is told by the calls that it made itself: its stream holds the events of these calls,
and what it stored of CPUs and ranks is what it added.
-/

namespace Ovni

open Ovni.Lib

/-! ## What a thread said -/

/-- What is picked from the calls of a user. -/
def RtAct.stream? : RtAct → Option Call
  | .call (.stream c) => some c
  | _ => none

def RtAct.cpu? : RtAct → Option (Int × Int)
  | .call (.addCpu index phyid) => some (index, phyid)
  | _ => none

def RtAct.rank? : RtAct → Option (Int × Int)
  | .call (.setRank rank nranks) => some (rank, nranks)
  | _ => none

section

variable {ι : Type} [DecidableEq ι] {env : RtEnv ι} {s s' : RtState ι} {i : ι}
  {log : List (ι × RtAct)} {obs : ProcDir → Int → Option (List UInt8)}
  {json : ProcDir → Int → Option StreamInfo}

/-- The stream of a thread after some calls: the events are in the file and the buffer, and
after a flush those before it are in the file. -/
structure StreamOf (rt : Rthread) (calls : List Call) : Prop where
  wrote : ∃ recs, Wrote { rt with ready := true } calls recs
  flushed : ∀ before, calls = before ++ [.flush] → ∃ recs : List Record,
    (∀ r ∈ recs, IsEvent r.bytes) ∧
      recs.filterMap Record.userBytes? = before.flatMap Call.emitted ∧
      rt.file = headerOfStream ++ (recs.map Record.bytes).flatten

/-- What a thread said in a log: the calls on its stream, its CPUs and its ranks. -/
structure Said where
  calls : List Call
  cpus : List (Int × Int)
  ranks : List (Int × Int)

def said (i : ι) (log : List (ι × RtAct)) : Said :=
  { calls := pick RtAct.stream? i log, cpus := pick RtAct.cpu? i log
    ranks := pick RtAct.rank? i log }

theorem said_other {j : ι} {a : RtAct} (hj : j ≠ i) : said i (log ++ [(j, a)]) = said i log := by
  unfold said
  rw [pick_snoc_of_ne hj, pick_snoc_of_ne hj, pick_snoc_of_ne hj]

theorem said_self (a : RtAct) : said i (log ++ [(i, a)]) =
    { calls := (said i log).calls ++ a.stream?.toList, cpus := (said i log).cpus ++ a.cpu?.toList
      ranks := (said i log).ranks ++ a.rank?.toList } := by
  unfold said
  rw [pick_snoc_self, pick_snoc_self, pick_snoc_self]

/-- How far a thread is, with what it said. -/
inductive ThreadPhase (what : Said) (th : OsThread) : Prop where
  | fresh (htid : th.tid = 0) (hpc : ∀ stage evbuf, th.pc ≠ .threadInit stage evbuf)
      (hready : th.rt.ready = false) (hfinished : th.finished = false) (hinfo : th.info = none)
      (hwhat : what = ⟨[], [], []⟩)
  | opening (evbuf : Mem) (htid : th.tid ≠ 0) (hpc : th.pc = .threadInit .stream evbuf)
      (hready : th.rt.ready = false) (hfinished : th.finished = false) (hinfo : th.info = none)
      (hwhat : what = ⟨[], [], []⟩) (hrt : th.rt.file = []) (hcpus : th.cpus = [])
      (hrank : th.rank = none)
  | opened (evbuf : Mem) (htid : th.tid ≠ 0) (hpc : th.pc = .threadInit .metadata evbuf)
      (hready : th.rt.ready = false) (hfinished : th.finished = false) (hinfo : th.info = none)
      (hwhat : what = ⟨[], [], []⟩) (hrt : StreamOf th.rt []) (hcpus : th.cpus = [])
      (hrank : th.rank = none)
  | ready (info : StreamInfo) (htid : th.tid ≠ 0) (hpc : th.pc = .idle)
      (hready : th.rt.ready = true) (hfinished : th.finished = false) (hinfo : th.info = some info)
      (htold : info.tid = th.tid ∧ info.rank = none) (hrt : StreamOf th.rt what.calls)
      (hcpus : th.cpus = what.cpus) (hrank : th.rank = what.ranks.getLast?)
  | finished (info : StreamInfo) (htid : th.tid ≠ 0) (hpc : th.pc = .idle)
      (hready : th.rt.ready = false) (hfinished : th.finished = true) (hinfo : th.info = some info)
      (htold : info.tid = th.tid ∧ info.finished = true) (hrt : StreamOf th.rt what.calls)
      (hcpus : info.cpus = what.cpus) (hrank : info.rank = what.ranks.getLast?)

omit [DecidableEq ι] in
theorem eta_ready {rt : Rthread} (h : rt.ready = true) :
    ({ rt with ready := true } : Rthread) = rt := by
  cases rt
  cases h
  rfl

/-- A call of a thread that is ready. -/
theorem StreamOf.call {clk : Nat → UInt64} {rt rt' : Rthread} {calls : List Call} {c : Call}
    (h : StreamOf rt calls) (hc : c.Unflagged) (hrun : runCall clk rt c = .ok rt') :
    StreamOf rt' (calls ++ [c]) ∧ rt'.ready = true := by
  obtain ⟨recs, hw⟩ := h.wrote
  rw [eta_ready (runCall_ready hrun)] at hw
  have hnext := hw.call clk hc
  rw [hrun] at hnext
  obtain ⟨recs', hw'⟩ := hnext
  refine ⟨⟨⟨recs', ?_⟩, fun before hbefore => ?_⟩, hw'.holds.ready⟩
  · rw [eta_ready hw'.holds.ready]
    exact hw'
  · obtain ⟨rfl, hlast⟩ := List.append_inj' hbefore rfl
    obtain rfl : c = .flush := List.head_eq_of_cons_eq hlast
    obtain ⟨st, hflush, -, hfile⟩ := ovniFlush_ok clk hw.holds
    obtain rfl : st = rt' := Except.ok.inj (hflush.symm.trans hrun)
    exact ⟨recs, hw.events, hw.emitted, hfile⟩

/-- A fresh stream holds its header. -/
theorem streamOf_init (evbuf : Mem) : StreamOf { ovniThreadInit evbuf with ready := false } [] := by
  refine ⟨⟨[], ovniThreadInit_wrote evbuf⟩, fun before hbefore => ?_⟩
  cases before <;> cases hbefore

/-- A thread that is in no call and not ready has not started, or is finished. -/
theorem ThreadPhase.unready {what : Said} {th : OsThread} (h : ThreadPhase what th)
    (hidle : th.pc = .idle) (hready : th.rt.ready = false) (hfinished : th.finished = false) :
    th.tid = 0 ∧ th.info = none ∧ what = ⟨[], [], []⟩ := by
  cases h with
  | fresh htid _ _ _ hinfo hwhat => exact ⟨htid, hinfo, hwhat⟩
  | opening evbuf _ hpc =>
      rw [hidle] at hpc
      cases hpc
  | opened evbuf _ hpc =>
      rw [hidle] at hpc
      cases hpc
  | ready info _ _ hready' =>
      rw [hready] at hready'
      cases hready'
  | finished info _ _ _ hfinished' =>
      rw [hfinished] at hfinished'
      cases hfinished'

/-- A thread that is ready. -/
theorem ThreadPhase.of_ready {what : Said} {th : OsThread} (h : ThreadPhase what th)
    (hready : th.rt.ready = true) : ∃ info, th.tid ≠ 0 ∧ th.pc = .idle ∧ th.finished = false ∧
      th.info = some info ∧ (info.tid = th.tid ∧ info.rank = none) ∧ StreamOf th.rt what.calls ∧
      th.cpus = what.cpus ∧ th.rank = what.ranks.getLast? := by
  cases h with
  | fresh _ _ hready' =>
      rw [hready] at hready'
      cases hready'
  | opening evbuf _ _ hready' =>
      rw [hready] at hready'
      cases hready'
  | opened evbuf _ _ hready' =>
      rw [hready] at hready'
      cases hready'
  | ready info htid hpc _ hfinished hinfo htold hrt hcpus hrank =>
      exact ⟨info, htid, hpc, hfinished, hinfo, htold, hrt, hcpus, hrank⟩
  | finished info _ _ hready' =>
      rw [hready] at hready'
      cases hready'

theorem ThreadPhase.of_procInit {what : Said} {th : OsThread} {stage : InitStage} {app pid : Int}
    {loom : Name} (h : ThreadPhase what th) (hpc : th.pc = .procInit stage app loom pid) :
    th.tid = 0 := by
  cases h with
  | fresh htid => exact htid
  | opening evbuf _ hpc' =>
      rw [hpc] at hpc'
      cases hpc'
  | opened evbuf _ hpc' =>
      rw [hpc] at hpc'
      cases hpc'
  | ready info _ hpc' =>
      rw [hpc] at hpc'
      cases hpc'
  | finished info _ hpc' =>
      rw [hpc] at hpc'
      cases hpc'

theorem ThreadPhase.of_threadInit {what : Said} {th : OsThread} {stage : ThreadStage} {evbuf : Mem}
    (h : ThreadPhase what th) (hpc : th.pc = .threadInit stage evbuf) :
    th.tid ≠ 0 ∧ th.finished = false ∧ th.info = none ∧ (stage = .stream → th.rt.file = []) := by
  cases h with
  | fresh _ hpc' => exact absurd hpc (hpc' stage evbuf)
  | opening _ htid _ _ hfinished hinfo _ hrt => exact ⟨htid, hfinished, hinfo, fun _ => hrt⟩
  | opened _ htid hpc' _ hfinished hinfo =>
      rw [hpc] at hpc'
      cases hpc'
      exact ⟨htid, hfinished, hinfo, fun hstage => by cases hstage⟩
  | ready info _ hpc' =>
      rw [hpc] at hpc'
      cases hpc'
  | finished info _ hpc' =>
      rw [hpc] at hpc'
      cases hpc'

/-- A thread that made calls on its stream. -/
theorem ThreadPhase.of_said {what : Said} {th : OsThread} (h : ThreadPhase what th)
    (hcalls : what.calls ≠ []) :
    th.tid ≠ 0 ∧ (∀ evbuf, th.pc ≠ .threadInit .stream evbuf) ∧ StreamOf th.rt what.calls := by
  cases h with
  | fresh _ _ _ _ _ hwhat =>
      rw [hwhat] at hcalls
      exact absurd rfl hcalls
  | opening evbuf _ _ _ _ _ hwhat =>
      rw [hwhat] at hcalls
      exact absurd rfl hcalls
  | opened evbuf _ _ _ _ _ hwhat =>
      rw [hwhat] at hcalls
      exact absurd rfl hcalls
  | ready info htid hpc _ _ _ _ hrt => exact ⟨htid, by simp [hpc], hrt⟩
  | finished info htid hpc _ _ _ _ hrt => exact ⟨htid, by simp [hpc], hrt⟩

/-- A thread that has finished. -/
theorem ThreadPhase.of_finished {what : Said} {th : OsThread} (h : ThreadPhase what th)
    (hfinished : th.finished = true) : ∃ info, th.tid ≠ 0 ∧ th.info = some info ∧
      (info.tid = th.tid ∧ info.finished = true) ∧ info.cpus = what.cpus ∧
      info.rank = what.ranks.getLast? := by
  cases h with
  | fresh _ _ _ hfinished' =>
      rw [hfinished] at hfinished'
      cases hfinished'
  | opening evbuf _ _ _ hfinished' =>
      rw [hfinished] at hfinished'
      cases hfinished'
  | opened evbuf _ _ _ hfinished' =>
      rw [hfinished] at hfinished'
      cases hfinished'
  | ready info _ _ _ hfinished' =>
      rw [hfinished] at hfinished'
      cases hfinished'
  | finished info htid _ _ _ hinfo htold _ hcpus hrank =>
      exact ⟨info, htid, hinfo, htold, hcpus, hrank⟩

/-- A call of the thread. -/
theorem ThreadPhase.call {c : RtCall} (h : ThreadPhase (said i log) (s.th i))
    (hidle : (s.th i).pc = .idle) (hfresh : s.proc.st = .uninit → (s.th i).Fresh)
    (hc : ∀ call, c = .stream call → call.Unflagged) (hrun : rtCall env i s c = .ok s') :
    ThreadPhase (said i (log ++ [(i, .call c)])) (s'.th i) := by
  rw [said_self]
  cases c with
  | procInit app loom pid =>
      obtain ⟨hst, rfl⟩ := ovniProcInit_ok hrun
      have hself := hfresh hst
      obtain ⟨htid, hinfo, hwhat⟩ := h.unready hidle hself.unready hself.unfinished
      rw [RtState.setTh_self, hwhat]
      exact .fresh htid (by simp) hself.unready hself.unfinished hinfo rfl
  | procFini =>
      obtain ⟨-, rfl⟩ := ovniProcFini_ok hrun
      simpa [RtAct.stream?, RtAct.cpu?, RtAct.rank?] using h
  | threadInit tid evbuf =>
      rcases ovniThreadInitCall_ok hrun with ⟨-, rfl⟩ | ⟨hready, hfinished, htid, -, rfl⟩
      · simpa [RtAct.stream?, RtAct.cpu?, RtAct.rank?] using h
      · obtain ⟨-, -, hwhat⟩ := h.unready hidle hready hfinished
        rw [RtState.setTh_self, hwhat]
        exact .opening evbuf htid rfl rfl rfl rfl rfl rfl rfl rfl
  | stream call =>
      obtain ⟨rt, hcall, rfl⟩ := ovniStreamCall_ok hrun
      obtain ⟨info, htid, hpc, hfinished, hinfo, htold, hrt, hcpus, hrank⟩ :=
        h.of_ready (runCall_ready hcall)
      obtain ⟨hrt', hready⟩ := hrt.call (hc call rfl) hcall
      rw [RtState.setRt_self]
      exact .ready info htid hpc hready hfinished hinfo htold hrt'
        (by simpa [RtAct.cpu?] using hcpus) (by simpa [RtAct.rank?] using hrank)
  | addCpu index phyid =>
      obtain ⟨-, hready, rfl⟩ := ovniAddCpu_ok hrun
      obtain ⟨info, htid, hpc, hfinished, hinfo, htold, hrt, hcpus, hrank⟩ := h.of_ready hready
      rw [RtState.setTh_self]
      exact .ready info htid hpc hready hfinished hinfo htold (by simpa [RtAct.stream?] using hrt)
        (by simp [RtAct.cpu?, hcpus]) (by simpa [RtAct.rank?] using hrank)
  | setRank rank nranks =>
      obtain ⟨-, hready, rfl⟩ := ovniProcSetRank_ok hrun
      obtain ⟨info, htid, hpc, hfinished, hinfo, htold, hrt, hcpus, hrank⟩ := h.of_ready hready
      rw [RtState.setTh_self]
      exact .ready info htid hpc hready hfinished hinfo htold (by simpa [RtAct.stream?] using hrt)
        (by simpa [RtAct.cpu?] using hcpus) (by simp [RtAct.rank?])
  | threadFree =>
      obtain ⟨info, -, hready, hinfo', -, hth, -⟩ := ovniThreadFree_ok hrun
      obtain ⟨info', htid, hpc, -, hinfo, htold, hrt, hcpus, hrank⟩ := h.of_ready hready
      obtain rfl : info = info' := Option.some.inj (hinfo'.symm.trans hinfo)
      rw [hth, RtState.setTh_self]
      refine .finished ((s.th i).lastInfo info) htid hpc rfl rfl rfl ⟨htold.1, rfl⟩ ?_ ?_ ?_
      · have hfreed : StreamOf ((s.th i).freed info).rt (said i log).calls :=
          ⟨hrt.wrote, hrt.flushed⟩
        simpa [RtAct.stream?] using hfreed
      · simpa [OsThread.lastInfo, RtAct.cpu?] using hcpus
      · simpa [OsThread.lastInfo, RtAct.rank?, htold.2] using hrank

/-- The next part of the call that the thread is in. -/
theorem ThreadPhase.next (h : ThreadPhase (said i log) (s.th i))
    (hrun : rtNext env i s = some (.ok s')) :
    ThreadPhase (said i (log ++ [(i, .next)])) (s'.th i) := by
  have hsaid : said i (log ++ [(i, .next)]) = said i log := by
    rw [said_self]
    simp [RtAct.stream?, RtAct.cpu?, RtAct.rank?]
  rw [hsaid]
  unfold rtNext at hrun
  cases h with
  | fresh htid hpc hready hfinished hinfo hwhat =>
      cases hpc' : (s.th i).pc with
      | idle =>
          rw [hpc'] at hrun
          cases hrun
      | threadInit stage evbuf => exact absurd hpc' (hpc stage evbuf)
      | procInit stage app loom pid =>
          rw [hpc'] at hrun
          have hrun := Option.some.inj hrun
          have hself : ∃ pc, (∀ stage evbuf, pc ≠ Pc.threadInit stage evbuf) ∧
              s'.th i = { s.th i with pc } := by
            cases stage with
            | loom =>
                simp only [procInitNext] at hrun
                split at hrun
                · cases hrun
                · rw [← Except.ok.inj hrun, RtState.setTh_self]
                  exact ⟨_, by simp, rfl⟩
            | _ =>
                rw [← Except.ok.inj hrun, RtState.setTh_self]
                exact ⟨_, by simp, rfl⟩
          obtain ⟨pc, hpc, hth⟩ := hself
          rw [hth]
          exact .fresh htid hpc hready hfinished hinfo hwhat
  | opening evbuf htid hpc hready hfinished hinfo hwhat hrt hcpus hrank =>
      rw [hpc] at hrun
      rw [(threadInitNext_ok (Option.some.inj hrun)).1]
      simp only [threadInitStep, RtState.setRt_self, RtState.setTh_self]
      exact .opened evbuf htid rfl rfl hfinished hinfo hwhat (streamOf_init evbuf) hcpus hrank
  | opened evbuf htid hpc hready hfinished hinfo hwhat hrt hcpus hrank =>
      rw [hpc] at hrun
      rw [(threadInitNext_ok (Option.some.inj hrun)).1]
      simp only [threadInitStep, RtState.setTh_self]
      refine .ready _ htid rfl rfl hfinished rfl ⟨rfl, rfl⟩ ?_ ?_ ?_
      · rw [hwhat]
        exact ⟨hrt.wrote, hrt.flushed⟩
      · rw [hwhat]
        exact hcpus
      · rw [hwhat]
        exact hrank
  | ready info htid hpc hready hfinished hinfo htold hrt hcpus hrank =>
      rw [hpc] at hrun
      cases hrun
  | finished info htid hpc hready hfinished hinfo htold hrt hcpus hrank =>
      rw [hpc] at hrun
      cases hrun

end

end Ovni
