import Mathlib.Data.List.TakeDrop
import Ovni.Runtime.Threads

/-!
# The threads of a process keep apart

Every thread writes the events of its own calls to the file of its id, in their order, however
the steps of the threads interleave, as long as no two threads take the same id.  What the
metadata of a thread says in the end is what the thread itself added.
-/

namespace Ovni

open Ovni.Lib

/-! ## What a call appends to the file -/

theorem copyToBuf_keeps {st st' : Rthread} {bytes : List UInt8}
    (h : copyToBuf st bytes = .ok st') : st.file <+: st'.file := by
  unfold copyToBuf at h
  split at h
  · cases h
  · obtain rfl := Except.ok.inj h
    exact List.prefix_rfl

section Clock

variable {clk : Nat → UInt64} {st st' : Rthread}

theorem timedFlush_keeps (clk : Nat → UInt64) (st : Rthread) :
    st.file <+: (timedFlush clk st).2.2.file :=
  ⟨st.evbuf.slice 0 st.evlen, rfl⟩

theorem addFlushEvents_keeps {add : Rthread → OvniEv → Runtime}
    (hadd : ∀ st ev st', add st ev = .ok st' → st.file <+: st'.file) {t0 t1 : UInt64}
    (h : addFlushEvents add st t0 t1 = .ok st') : st.file <+: st'.file := by
  obtain ⟨st1, h1, h2⟩ := bind_ok h
  exact (hadd _ _ _ h1).trans (hadd _ _ _ h2)

theorem ovniEvAdd_keeps (fuel : Nat) {ev : OvniEv} (h : ovniEvAdd clk fuel st ev = .ok st') :
    st.file <+: st'.file := by
  induction fuel generalizing st ev st' with
  | zero => cases h
  | succ fuel ih =>
      unfold ovniEvAdd at h
      simp only at h
      split at h
      · cases h
      · split at h
        · obtain ⟨st1, h1, h2⟩ := bind_ok h
          have hcopy : st.file <+: st1.file := (timedFlush_keeps clk st).trans (copyToBuf_keeps h1)
          exact hcopy.trans (addFlushEvents_keeps (fun _ _ _ hadd => ih hadd) h2)
        · exact copyToBuf_keeps h

/-- A call only appends to the file of its thread. -/
theorem runCall_keeps {c : Call} (h : runCall clk st c = .ok st') : st.file <+: st'.file := by
  cases c with
  | emit ev => exact ovniEvAdd_keeps addRounds h
  | jumboEmit ev buf =>
      have h := (guard_ok (guard_ok h).2).2
      obtain ⟨ev', -, h⟩ := bind_ok h
      have h := (guard_ok h).2
      split at h
      · obtain ⟨st1, h1, h⟩ := bind_ok h
        obtain ⟨st2, h2, h⟩ := bind_ok h
        have hcopy : st.file <+: st2.file :=
          (timedFlush_keeps clk st).trans ((copyToBuf_keeps h1).trans (copyToBuf_keeps h2))
        exact hcopy.trans (addFlushEvents_keeps (fun _ _ _ => ovniEvAdd_keeps addRounds) h)
      · obtain ⟨st1, h1, h⟩ := bind_ok h
        exact (copyToBuf_keeps h1).trans (copyToBuf_keeps h)
  | flush =>
      have h := (guard_ok (guard_ok h).2).2
      exact (timedFlush_keeps clk st).trans
        (addFlushEvents_keeps (fun _ _ _ => ovniEvAdd_keeps addRounds) h)

end Clock

/-- New bytes go between what the thread wrote and what is left of an old file. -/
theorem writeAt_keeps {old file file' : List UInt8} (h : file <+: file') :
    writeAt (file ++ old.drop file.length) file.length (file'.drop file.length) =
      file' ++ old.drop file'.length := by
  obtain ⟨new, rfl⟩ := h
  have htake : (file ++ old.drop file.length).takeD file.length 0 = file :=
    List.takeD_left file _ 0
  unfold writeAt
  rw [htake, List.drop_left, List.drop_append, List.drop_drop]
  simp [List.drop_eq_nil_of_le]

section

variable {ι : Type} [DecidableEq ι] {env : RtEnv ι} {s s' : RtState ι} {i : ι}
  {log : List (ι × RtAct)} {obs : ProcDir → Int → Option (List UInt8)}
  {json : ProcDir → Int → Option StreamInfo}

/-! ## The files of the threads -/

section Files

variable {α : Type} {files : ProcDir → Int → Option α} {dir dir' : ProcDir} {tid tid' : Int}
  {file : Option α}

@[simp] theorem putFile_self : putFile files dir tid file dir tid = file := by
  simp [putFile]

theorem putFile_dir (h : dir' ≠ dir) : putFile files dir tid file dir' tid' = files dir' tid' := by
  simp [putFile, h]

theorem putFile_tid (h : tid' ≠ tid) : putFile files dir tid file dir' tid' = files dir' tid' := by
  by_cases hd : dir' = dir
  · subst hd
    simp [putFile, h]
  · exact putFile_dir hd

theorem moveFile_final : moveFile files tid .final tid = files .flushed tid := by
  unfold moveFile
  rw [putFile_dir (by simp), putFile_self]

theorem moveFile_tid (h : tid' ≠ tid) : moveFile files tid dir tid' = files dir tid' := by
  unfold moveFile
  rw [putFile_tid h, putFile_tid h]

end Files

/-- What the step of a thread leaves alone: the other threads, their files, and the place of
the files unless the thread is setting up the process. -/
structure LeavesOthers (i : ι) (s s' : RtState ι) : Prop where
  th : ∀ j, j ≠ i → s'.th j = s.th j
  obs : ∀ dir tid, tid ≠ (s'.th i).tid → s'.obs dir tid = s.obs dir tid
  json : ∀ dir tid, tid ≠ (s'.th i).tid → s'.json dir tid = s.json dir tid
  move : (∀ stage app loom pid, (s.th i).pc ≠ .procInit stage app loom pid) →
    s'.proc.moveToFinal = s.proc.moveToFinal

theorem LeavesOthers.setTh {proc : Rproc} {th : OsThread}
    (h : proc.moveToFinal = s.proc.moveToFinal) :
    LeavesOthers i s (({ s with proc } : RtState ι).setTh i th) :=
  ⟨fun _ hj => RtState.setTh_of_ne _ hj, fun _ _ _ => rfl, fun _ _ _ => rfl, fun _ => h⟩

theorem rtCall_apart {c : RtCall} (hrun : rtCall env i s c = .ok s') : LeavesOthers i s s' := by
  cases c with
  | procInit app loom pid =>
      obtain ⟨-, rfl⟩ := ovniProcInit_ok hrun
      exact .setTh rfl
  | procFini =>
      obtain ⟨-, rfl⟩ := ovniProcFini_ok hrun
      exact ⟨fun _ _ => rfl, fun _ _ _ => rfl, fun _ _ _ => rfl, fun _ => rfl⟩
  | threadInit tid evbuf =>
      rcases ovniThreadInitCall_ok hrun with ⟨-, rfl⟩ | ⟨-, -, -, -, rfl⟩
      · exact ⟨fun _ _ => rfl, fun _ _ _ => rfl, fun _ _ _ => rfl, fun _ => rfl⟩
      · exact .setTh rfl
  | stream c =>
      obtain ⟨rt, -, rfl⟩ := ovniStreamCall_ok hrun
      refine ⟨fun _ hj => RtState.setRt_of_ne _ hj, fun dir tid htid => ?_, fun _ _ _ => rfl,
        fun _ => rfl⟩
      rw [RtState.setRt_self] at htid
      exact putFile_tid htid
  | addCpu index phyid =>
      obtain ⟨-, -, rfl⟩ := ovniAddCpu_ok hrun
      exact .setTh rfl
  | setRank rank nranks =>
      obtain ⟨-, -, rfl⟩ := ovniProcSetRank_ok hrun
      exact .setTh rfl
  | threadFree =>
      obtain ⟨info, -, -, -, hproc, hth, hobs, hjson⟩ := ovniThreadFree_ok hrun
      have htid' : (s'.th i).tid = (s.th i).tid := by rw [hth, RtState.setTh_self]; rfl
      refine ⟨fun j hj => ?_, fun dir tid htid => ?_, fun dir tid htid => ?_,
        fun _ => by rw [hproc]⟩
      · rw [hth, RtState.setTh_of_ne _ hj]
      · rw [htid'] at htid
        rw [hobs]
        split
        · exact moveFile_tid htid
        · rfl
      · rw [htid'] at htid
        rw [hjson]
        split
        · rw [moveFile_tid htid, putFile_tid htid]
        · exact putFile_tid htid

theorem rtNext_apart (hrun : rtNext env i s = some (.ok s')) : LeavesOthers i s s' := by
  unfold rtNext at hrun
  cases hpc : (s.th i).pc with
  | idle =>
      rw [hpc] at hrun
      cases hrun
  | procInit stage app loom pid =>
      rw [hpc] at hrun
      have hrun := Option.some.inj hrun
      have hproc : ∀ (proc : Rproc) (th : OsThread),
          LeavesOthers i s (({ s with proc } : RtState ι).setTh i th) := fun proc th =>
        ⟨fun _ hj => RtState.setTh_of_ne _ hj, fun _ _ _ => rfl, fun _ _ _ => rfl,
          fun hno => absurd hpc (hno stage app loom pid)⟩
      cases stage with
      | loom =>
          simp only [procInitNext] at hrun
          split at hrun
          · cases hrun
          · rw [← Except.ok.inj hrun]
            exact hproc _ _
      | _ =>
          rw [← Except.ok.inj hrun]
          exact hproc _ _
  | threadInit stage evbuf =>
      rw [hpc] at hrun
      rw [(threadInitNext_ok (Option.some.inj hrun)).1]
      cases stage with
      | stream =>
          refine ⟨fun j hj => ?_, fun dir tid htid => ?_, fun _ _ _ => rfl, fun _ => rfl⟩
          · simp only [threadInitStep, RtState.setRt_of_ne _ hj, RtState.setTh_of_ne _ hj]
          · simp only [threadInitStep, RtState.setRt_self, RtState.setTh_self] at htid ⊢
            simp only [RtState.setRt, RtState.setTh_self]
            rw [putFile_tid htid]
            exact putFile_tid htid
      | metadata =>
          refine ⟨fun j hj => RtState.setTh_of_ne _ hj, fun _ _ _ => rfl, fun dir tid htid => ?_,
            fun _ => rfl⟩
          simp only [threadInitStep, RtState.setTh_self] at htid ⊢
          exact putFile_tid htid

/-! ## Every stream in its file -/

/-- Where the files of a thread are. -/
def RtState.place (s : RtState ι) (i : ι) : ProcDir :=
  if (s.th i).finished = true ∧ s.proc.moveToFinal = true then .final else .flushed

/-- The files of a thread, with those that were there at the start. -/
structure InFile (obs : ProcDir → Int → Option (List UInt8)) (s : RtState ι) (i : ι) : Prop where
  opening : ∀ evbuf, (s.th i).pc = .threadInit .stream evbuf →
    s.obs .flushed (s.th i).tid = obs .flushed (s.th i).tid
  stream : (∀ evbuf, (s.th i).pc ≠ .threadInit .stream evbuf) →
    s.obs (s.place i) (s.th i).tid = some ((s.th i).rt.file ++
      ((obs .flushed (s.th i).tid).getD []).drop (s.th i).rt.file.length)
  info : ∀ info, (s.th i).info = some info → s.json (s.place i) (s.th i).tid = some info

omit [DecidableEq ι] in
/-- The steps of another thread with another id. -/
theorem InFile.other {j : ι} (h : InFile obs s i) (happart : LeavesOthers j s s') (hij : i ≠ j)
    (htid : (s'.th i).tid ≠ (s'.th j).tid)
    (hmove : (s.th i).finished = true → s'.proc.moveToFinal = s.proc.moveToFinal) :
    InFile obs s' i := by
  have hth := happart.th i hij
  rw [hth] at htid
  have hplace : s'.place i = s.place i := by
    unfold RtState.place
    rw [hth]
    by_cases hf : (s.th i).finished = true
    · rw [hmove hf]
    · simp [hf]
  refine ⟨?_, ?_, ?_⟩
  · rw [hth, happart.obs _ _ htid]
    exact h.opening
  · rw [hth, hplace, happart.obs _ _ htid]
    exact h.stream
  · rw [hth, hplace, happart.json _ _ htid]
    exact h.info

theorem InFile.setTh {th : OsThread} {proc : Rproc} (h : InFile obs s i)
    (hpc : ∀ evbuf, (s.th i).pc ≠ .threadInit .stream evbuf) (hpc' : th.pc = (s.th i).pc)
    (htid : th.tid = (s.th i).tid) (hrt : th.rt = (s.th i).rt) (hinfo : th.info = (s.th i).info)
    (hfinished : th.finished = (s.th i).finished)
    (hmove : proc.moveToFinal = s.proc.moveToFinal) :
    InFile obs (({ s with proc } : RtState ι).setTh i th) i := by
  have hplace : (({ s with proc } : RtState ι).setTh i th).place i = s.place i := by
    unfold RtState.place
    rw [RtState.setTh_self, RtState.setTh_proc, hfinished, hmove]
  refine ⟨fun evbuf he => ?_, fun _ => ?_, ?_⟩
  · rw [RtState.setTh_self, hpc'] at he
    exact absurd he (hpc evbuf)
  · rw [hplace, RtState.setTh_self, htid, hrt]
    exact h.stream hpc
  · rw [hplace, RtState.setTh_self, htid, hinfo]
    exact h.info

omit [DecidableEq ι] in
/-- The files of a thread that is not finished are where they are flushed. -/
theorem place_unfinished (h : (s.th i).finished = false) : s.place i = .flushed := by
  simp [RtState.place, h]

/-- A call of the thread. -/
theorem InFile.call {c : RtCall} (hphase : ThreadPhase (said i log) (s.th i))
    (hidle : (s.th i).pc = .idle) (hself : s.proc.st = .uninit → (s.th i).Fresh)
    (h : (s.th i).tid ≠ 0 → InFile obs s i)
    (hnew : (s.th i).tid = 0 → s.obs .flushed (s'.th i).tid = obs .flushed (s'.th i).tid)
    (hrun : rtCall env i s c = .ok s') (htid : (s'.th i).tid ≠ 0) : InFile obs s' i := by
  have hpc : ∀ evbuf, (s.th i).pc ≠ .threadInit .stream evbuf := by
    intro evbuf
    rw [hidle]
    simp
  cases c with
  | procInit app loom pid =>
      obtain ⟨hst, rfl⟩ := ovniProcInit_ok hrun
      rw [RtState.setTh_self] at htid
      exact absurd (hphase.unready hidle (hself hst).unready (hself hst).unfinished).1 htid
  | procFini =>
      obtain ⟨-, rfl⟩ := ovniProcFini_ok hrun
      obtain ⟨h1, h2, h3⟩ := h htid
      exact ⟨h1, h2, h3⟩
  | threadInit tid evbuf =>
      rcases ovniThreadInitCall_ok hrun with ⟨-, rfl⟩ | ⟨hready, hfinished, htid', -, rfl⟩
      · exact h htid
      · have hzero := (hphase.unready hidle hready hfinished).1
        refine ⟨fun _ _ => hnew hzero, fun hno => ?_, fun info hinfo => ?_⟩
        · rw [RtState.setTh_self] at hno
          exact absurd rfl (hno evbuf)
        · rw [RtState.setTh_self] at hinfo
          cases hinfo
  | stream c =>
      obtain ⟨rt, hcall, rfl⟩ := ovniStreamCall_ok hrun
      rw [RtState.setRt_self] at htid
      obtain ⟨info, -, -, hfinished, -⟩ := hphase.of_ready (runCall_ready hcall)
      have hplace : (s.setRt i rt).place i = s.place i := by
        unfold RtState.place
        rw [RtState.setRt_self, RtState.setRt_proc]
      refine ⟨fun evbuf he => ?_, fun _ => ?_, ?_⟩
      · rw [RtState.setRt_self] at he
        exact absurd he (hpc evbuf)
      · have hfile := (h htid).stream hpc
        rw [place_unfinished hfinished] at hfile hplace
        rw [hplace, RtState.setRt_self]
        simp only [RtState.setRt, putFile_self, hfile, Option.map_some]
        rw [writeAt_keeps (runCall_keeps hcall)]
      · rw [hplace, RtState.setRt_self]
        exact (h htid).info
  | addCpu index phyid =>
      obtain ⟨-, -, rfl⟩ := ovniAddCpu_ok hrun
      rw [RtState.setTh_self] at htid
      exact (h htid).setTh hpc rfl rfl rfl rfl rfl rfl
  | setRank rank nranks =>
      obtain ⟨-, -, rfl⟩ := ovniProcSetRank_ok hrun
      rw [RtState.setTh_self] at htid
      exact (h htid).setTh hpc rfl rfl rfl rfl rfl rfl
  | threadFree =>
      obtain ⟨info, hfinished, -, -, hproc, hth, hobs, hjson⟩ := ovniThreadFree_ok hrun
      have hth' : s'.th i = (s.th i).freed info := by rw [hth, RtState.setTh_self]
      have hplace : s'.place i = if s.proc.moveToFinal then .final else .flushed := by
        unfold RtState.place
        rw [hth', hproc]
        simp [OsThread.freed]
      have htid' : (s.th i).tid ≠ 0 := by
        rw [hth'] at htid
        exact htid
      refine ⟨fun evbuf he => ?_, fun _ => ?_, fun info' hinfo' => ?_⟩
      · rw [hth'] at he
        exact absurd he (hpc evbuf)
      · have hfile := (h htid').stream hpc
        rw [place_unfinished hfinished] at hfile
        rw [hplace, hobs, hth']
        cases s.proc.moveToFinal with
        | true => exact moveFile_final.trans hfile
        | false => exact hfile
      · rw [hth'] at hinfo'
        rw [hplace, hjson, hth', ← hinfo']
        cases s.proc.moveToFinal with
        | true => exact moveFile_final.trans putFile_self
        | false => exact putFile_self

/-- The next part of the call that the thread is in. -/
theorem InFile.next (hphase : ThreadPhase (said i log) (s.th i))
    (h : (s.th i).tid ≠ 0 → InFile obs s i) (hrun : rtNext env i s = some (.ok s'))
    (htid : (s'.th i).tid ≠ 0) : InFile obs s' i := by
  unfold rtNext at hrun
  cases hpc : (s.th i).pc with
  | idle =>
      rw [hpc] at hrun
      cases hrun
  | procInit stage app loom pid =>
      rw [hpc] at hrun
      have hrun := Option.some.inj hrun
      have hsame : (s'.th i).tid = (s.th i).tid := by
        cases stage with
        | loom =>
            simp only [procInitNext] at hrun
            split at hrun
            · cases hrun
            · rw [← Except.ok.inj hrun, RtState.setTh_self]
        | _ => rw [← Except.ok.inj hrun, RtState.setTh_self]
      exact absurd (hsame.trans (hphase.of_procInit hpc)) htid
  | threadInit stage evbuf =>
      obtain ⟨htid', hfinished, hinfo, hempty⟩ := hphase.of_threadInit hpc
      obtain ⟨hopening, hstream, -⟩ := h htid'
      rw [hpc] at hrun
      rw [(threadInitNext_ok (Option.some.inj hrun)).1]
      cases stage with
      | stream =>
          have hplace : (threadInitStep i s evbuf .stream).place i = .flushed := by
            apply place_unfinished
            simp only [threadInitStep, RtState.setRt_self, RtState.setTh_self]
            exact hfinished
          refine ⟨fun evbuf' he => ?_, fun _ => ?_, fun info hinfo' => ?_⟩
          · simp only [threadInitStep, RtState.setRt_self, RtState.setTh_self] at he
            cases he
          · rw [hplace]
            have hwrite : ∀ old file : List UInt8,
                writeAt old 0 file = file ++ old.drop file.length :=
              fun old file => by simp [writeAt]
            simp only [threadInitStep, RtState.setRt, RtState.setTh_self, RtState.setTh_obs,
              putFile_self, Option.map_some, hempty rfl, hopening evbuf hpc, List.length_nil,
              List.drop_zero, hwrite]
          · simp only [threadInitStep, RtState.setRt_self, RtState.setTh_self] at hinfo'
            rw [hinfo] at hinfo'
            cases hinfo'
      | metadata =>
          have hplace : (threadInitStep i s evbuf .metadata).place i = .flushed := by
            apply place_unfinished
            simp only [threadInitStep, RtState.setTh_self]
            exact hfinished
          refine ⟨fun evbuf' he => ?_, fun _ => ?_, fun info hinfo' => ?_⟩
          · simp only [threadInitStep, RtState.setTh_self] at he
            cases he
          · rw [hplace]
            simp only [threadInitStep, RtState.setTh_self]
            rw [place_unfinished hfinished] at hstream
            exact hstream (by rw [hpc]; simp)
          · rw [hplace, ← hinfo']
            simp only [threadInitStep, RtState.setTh_self, putFile_self]

/-! ## Runs -/

/-- No two threads took the same id. -/
def RtState.Distinct (s : RtState ι) : Prop :=
  ∀ i j, (s.th i).tid = (s.th j).tid → (s.th i).tid ≠ 0 → i = j

/-- A thread keeps the id that it took. -/
theorem ThreadPhase.tid_kept {a : RtAct} (h : ThreadPhase (said i log) (s.th i))
    (hstep : RtStep env i a s s') (htid : (s.th i).tid ≠ 0) : (s'.th i).tid = (s.th i).tid := by
  cases hstep with
  | call hidle hrun =>
      rename_i c
      cases c with
      | procInit app loom pid =>
          obtain ⟨-, rfl⟩ := ovniProcInit_ok hrun
          rw [RtState.setTh_self]
      | procFini =>
          obtain ⟨-, rfl⟩ := ovniProcFini_ok hrun
          rfl
      | threadInit tid evbuf =>
          rcases ovniThreadInitCall_ok hrun with ⟨-, rfl⟩ | ⟨hready, hfinished, -, -, -⟩
          · rfl
          · exact absurd (h.unready hidle hready hfinished).1 htid
      | stream c =>
          obtain ⟨rt, -, rfl⟩ := ovniStreamCall_ok hrun
          rw [RtState.setRt_self]
      | addCpu index phyid =>
          obtain ⟨-, -, rfl⟩ := ovniAddCpu_ok hrun
          rw [RtState.setTh_self]
      | setRank rank nranks =>
          obtain ⟨-, -, rfl⟩ := ovniProcSetRank_ok hrun
          rw [RtState.setTh_self]
      | threadFree =>
          obtain ⟨info, -, -, -, -, hth, -⟩ := ovniThreadFree_ok hrun
          rw [hth, RtState.setTh_self]
          rfl
  | next hrun =>
      unfold rtNext at hrun
      cases hpc : (s.th i).pc with
      | idle =>
          rw [hpc] at hrun
          cases hrun
      | procInit stage app loom pid => exact absurd (h.of_procInit hpc) htid
      | threadInit stage evbuf =>
          rw [hpc] at hrun
          rw [(threadInitNext_ok (Option.some.inj hrun)).1]
          cases stage with
          | stream => simp only [threadInitStep, RtState.setRt_self, RtState.setTh_self]
          | metadata => simp only [threadInitStep, RtState.setTh_self]

theorem RtStep.apart {a : RtAct} (h : RtStep env i a s s') : LeavesOthers i s s' := by
  cases h with
  | call _ hrun => exact rtCall_apart hrun
  | next hrun => exact rtNext_apart hrun

/-- A thread that is not the one setting up the process has not finished before. -/
theorem ProcPhase.move_kept (h : ProcPhase env log s) (happart : LeavesOthers i s s') {j : ι}
    (hij : j ≠ i) (hfinished : (s.th j).finished = true) :
    s'.proc.moveToFinal = s.proc.moveToFinal := by
  apply happart.move
  intro stage app loom pid hpc
  cases h with
  | uninit hst _ _ hth =>
      rw [(hth i).idle] at hpc
      cases hpc
  | init i₀ _ _ _ _ hst _ _ _ _ hth =>
      by_cases hi : i = i₀
      · rw [(hth j (by rwa [← hi])).unfinished] at hfinished
        cases hfinished
      · rw [(hth i hi).idle] at hpc
        cases hpc
  | ready _ _ _ _ _ _ _ hth => exact (hth i).pc stage app loom pid hpc

/-- The threads and their files after a log. -/
structure Kept (env : RtEnv ι) (obs : ProcDir → Int → Option (List UInt8))
    (log : List (ι × RtAct)) (s : RtState ι) : Prop where
  proc : ProcPhase env log s
  th : ∀ i, ThreadPhase (said i log) (s.th i)
  -- A file of an id that no thread took is as it was
  untouched : ∀ tid, tid ≠ 0 → (∀ j, (s.th j).tid ≠ tid) → s.obs .flushed tid = obs .flushed tid
  files : s.Distinct → ∀ i, (s.th i).tid ≠ 0 → InFile obs s i

theorem Kept.step {a : RtAct} (h : Kept env obs log s)
    (hc : ∀ c, a = .call (.stream c) → c.Unflagged) (hstep : RtStep env i a s s') :
    Kept env obs (log ++ [(i, a)]) s' := by
  have happart := hstep.apart
  have hkept : ∀ j, (s.th j).tid ≠ 0 → (s'.th j).tid = (s.th j).tid := by
    intro j htid
    by_cases hj : j = i
    · subst hj
      exact (h.th j).tid_kept hstep htid
    · rw [happart.th j hj]
  -- An id that nobody has in the end was nobody's before
  have hfree : ∀ tid, tid ≠ 0 → (∀ j, (s'.th j).tid ≠ tid) →
      s.obs .flushed tid = obs .flushed tid := by
    intro tid htid hno
    refine h.untouched tid htid fun j hj => hno j ?_
    rw [hkept j (by rwa [hj]), hj]
  refine ⟨?_, fun j => ?_, fun tid htid hno => ?_, fun hids j htid => ?_⟩
  · cases hstep with
    | call hidle hrun => exact h.proc.call hidle hrun
    | next hrun => exact h.proc.next hrun
  · by_cases hj : j = i
    · subst hj
      cases hstep with
      | call hidle hrun =>
          refine (h.th j).call hidle (fun hst => ?_) (fun c hcall => hc c (by rw [hcall])) hrun
          exact h.proc.fresh hst j
      | next hrun => exact (h.th j).next hrun
    · rw [said_other (Ne.symm hj), happart.th j hj]
      exact h.th j
  · rw [happart.obs _ _ fun he => hno i he.symm]
    exact hfree tid htid hno
  · have hids' : s.Distinct := by
      intro a b hab ha
      exact hids a b (by rw [hkept a ha, hkept b (by rwa [← hab]), hab]) (by rwa [hkept a ha])
    by_cases hj : j = i
    · subst hj
      cases hstep with
      | call hidle hrun =>
          refine InFile.call (h.th j) hidle (fun hst => h.proc.fresh hst j) (h.files hids' j)
            (fun hzero => ?_) hrun htid
          refine h.untouched _ htid fun k hk => ?_
          have hk0 : (s.th k).tid ≠ 0 := by rwa [hk]
          obtain rfl := hids k j (by rw [hkept k hk0, hk]) (by rwa [hkept k hk0])
          exact hk0 hzero
      | next hrun => exact InFile.next (h.th j) (h.files hids' j) hrun htid
    · have htid' : (s.th j).tid ≠ 0 := by rwa [← happart.th j hj]
      refine (h.files hids' j htid').other happart hj (fun he => hj (hids j i he htid)) ?_
      exact h.proc.move_kept happart hj

theorem RtRun.kept (h : RtRun env obs json log s)
    (hc : ∀ i c, (i, RtAct.call (.stream c)) ∈ log → c.Unflagged) : Kept env obs log s := by
  refine Runs.inv (P := fun log s =>
    (∀ i c, (i, RtAct.call (.stream c)) ∈ log → c.Unflagged) → Kept env obs log s)
    (fun _ => ?_) (fun log s i a s' ih hstep hc => ?_) h hc
  · exact ⟨.uninit rfl rfl rfl fun _ => ⟨rfl, rfl, rfl, rfl⟩,
      fun _ => .fresh rfl (by simp [rtInit, OsThread.zero]) rfl rfl rfl rfl,
      fun _ _ _ => rfl, fun _ _ htid => absurd rfl htid⟩
  · have hlog : ∀ i c, (i, RtAct.call (.stream c)) ∈ log → c.Unflagged :=
      fun i c hmem => hc i c (List.mem_append_left _ hmem)
    refine (ih hlog).step (fun c ha => hc i c ?_) hstep
    rw [← ha]
    simp

/-- Whatever the order of the steps of the threads, when no two of them took the same id and
the last call that a thread made on its stream is a flush, the file of the thread loads and
holds the events of its own calls, in their order, with the flush events in between.  An old
file of that name must not be longer than what the thread wrote. -/
theorem streams_apart (h : RtRun env obs json log s)
    (hc : ∀ i c, (i, RtAct.call (.stream c)) ∈ log → c.Unflagged) (hids : s.Distinct)
    {before : List Call} (hmade : pick RtAct.stream? i log = before ++ [.flush])
    (hold : ((obs .flushed (s.th i).tid).getD []).length ≤ (s.th i).rt.file.length)
    (beyond : Mem) :
    ∃ (file : List UInt8) (stream : Stream) (offs : List Int) (recs : List Record),
      s.obs (s.place i) (s.th i).tid = some file ∧ loadObs file beyond = .ok stream ∧
      stream.Events offs ∧ offs.map (chunkAt stream.buf) = recs.map Record.bytes ∧
      recs.filterMap Record.userBytes? = before.flatMap Call.emitted := by
  have hkept := h.kept hc
  obtain ⟨htid, hpc, hrt⟩ := (hkept.th i).of_said (by simp [said, hmade])
  obtain ⟨recs, hevents, huser, hfile⟩ := hrt.flushed before hmade
  have hwritten := (hkept.files hids i htid).stream hpc
  rw [List.drop_eq_nil_of_le hold, List.append_nil] at hwritten
  obtain ⟨stream, offs, hload, hoffs, hchunks⟩ := stream_of_chunks (recs.map Record.bytes) beyond
    (by simpa using hevents)
  refine ⟨_, stream, offs, recs, hwritten, ?_, hoffs, hchunks, huser⟩
  rw [hfile]
  exact hload

theorem demoThreads_calls (i : Bool) (c : Call)
    (h : (i, RtAct.call (.stream c)) ∈ demoThreads) : c.Unflagged := by
  simp only [demoThreads, List.mem_cons, Prod.mk.injEq, RtAct.call.injEq, RtCall.stream.injEq,
    reduceCtorEq, and_false, false_or, or_false, List.not_mem_nil] at h
  rcases h with ⟨-, rfl⟩ | ⟨-, rfl⟩ | ⟨-, rfl⟩ | ⟨-, rfl⟩
  · exact isJumbo_of_flags_zero rfl
  · exact isJumbo_of_flags_zero rfl
  · trivial
  · trivial

theorem demoThreads_distinct {s : RtState Bool} (h0 : (s.th false).tid = 7)
    (h1 : (s.th true).tid = 8) :
    s.Distinct := by
  unfold RtState.Distinct
  rw [Bool.forall_bool, Bool.forall_bool, Bool.forall_bool, h0, h1]
  simp

theorem streams_apart_demo : ∃ (s : RtState Bool) (file : List UInt8) (stream : Stream)
    (offs : List Int) (recs : List Record),
    RtRun demoEnv (fun _ _ => none) (fun _ _ => none) demoThreads s ∧
      s.obs (s.place true) 8 = some file ∧ loadObs file (fun _ => 0) = .ok stream ∧
      stream.Events offs ∧ offs.map (chunkAt stream.buf) = recs.map Record.bytes ∧
      recs.filterMap Record.userBytes? =
        [normalBytes (ovniEvSetMcv { OvniEv.zero with clock := 2 } 0x4f 0x48 0x65)] := by
  obtain ⟨s, hrun, h0, h1, -⟩ := demoThreads_run
  obtain ⟨file, stream, offs, recs, hfile, hread⟩ := streams_apart hrun demoThreads_calls
    (demoThreads_distinct h0 h1) (i := true) (show pick RtAct.stream? true demoThreads =
      [.emit (ovniEvSetMcv { OvniEv.zero with clock := 2 } 0x4f 0x48 0x65)] ++ [.flush] from rfl)
    (by simp) (fun _ => 0)
  rw [h1] at hfile
  exact ⟨s, file, stream, offs, recs, hrun, hfile, hread⟩

/-- Whatever the order of the steps of the threads, when no two of them took the same id, the
metadata of a thread that has finished is in the directory of the trace and says what the
thread set up the process with and added itself, and only that. -/
theorem RtRun.metadata (h : RtRun env obs json log s)
    (hc : ∀ i c, (i, RtAct.call (.stream c)) ∈ log → c.Unflagged) (hids : s.Distinct)
    (hdone : (s.th i).finished = true) :
    ∃ app loom pid, inits log = [(app, loom, pid)] ∧
      s.json (if env.tmpdir then .final else .flushed) (s.th i).tid = some
        { tid := (s.th i).tid, pid, loom, app, rank := (pick RtAct.rank? i log).getLast?
          cpus := pick RtAct.cpu? i log, finished := true } := by
  have hkept := h.kept hc
  obtain ⟨info, htid, hinfo, htold, hcpus, hrank⟩ := (hkept.th i).of_finished hdone
  obtain ⟨app, loom, pid, hlog, hset, hknows⟩ := hkept.proc.settled hdone
  refine ⟨app, loom, pid, hlog, ?_⟩
  have hfile := (hkept.files hids i htid).info info hinfo
  have hplace : s.place i = if env.tmpdir then .final else .flushed := by
    unfold RtState.place
    rw [hset.moveToFinal]
    simp [hdone]
  obtain ⟨happ, hloom, hpid⟩ := (hknows i).info info hinfo
  rw [← hplace, hfile, ← happ, ← hloom, ← hpid, ← htold.1]
  cases info with
  | mk tid pid loom app rank cpus finished =>
      obtain ⟨-, rfl⟩ := htold
      rw [show cpus = _ from hcpus, show rank = _ from hrank]
      rfl

end

end Ovni
