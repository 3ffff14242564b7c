import Mathlib.Data.List.Basic
import Ovni.EvSpec.Print
import Ovni.Lib.Ensures
import Ovni.System.Accelerators

/-!
# The rows of the threads

`system_connect` of `emu/system.c` connects the threads and gives each one a label in the
ROW file of its trace, which `emu/pv/prf.c` keeps.  There are two loops: one for traces
with accelerators, which stand after the first thread, and one for the others.

Whatever `thread_connect` does to the bay and to the recorder is a parameter, as the loops
only look at what it returns.
-/

namespace Ovni

open Ovni.Lib

/-! ## The ROW file -/

/-- `MAX_PRF_LABEL`. -/
def maxPrfLabel : Nat := 512

/-- `struct prf_row`. -/
structure PrfRow where
  label : Name
  set : Bool
  deriving DecidableEq

/-- `struct prf`; `nrows` is how many rows there are. -/
structure Prf where
  rows : List PrfRow

/-- `prf_open`, where `calloc` clears the rows. -/
def prfOpen (nrows : Nat) : Prf := ⟨List.replicate nrows ⟨[], false⟩⟩

/-- `prf_add`, with what it returns. -/
def prfAdd (prf : Prf) (index : Int) (label : Name) : Int × Prf :=
  match if index < 0 then none else prf.rows[index.toNat]? with
  | none => (-1, prf)
  | some row =>
      if row.set then (-1, prf)
      else if maxPrfLabel ≤ label.length then
        (-1, ⟨prf.rows.set index.toNat ⟨label.take (maxPrfLabel - 1), false⟩⟩)
      else (0, ⟨prf.rows.set index.toNat ⟨label, true⟩⟩)

/-- `prf_close`, with what it writes. -/
def prfClose (prf : Prf) : Except EmuFault Name :=
  if prf.rows.all PrfRow.set then
    .ok (ascii "LEVEL NODE SIZE 1\nhostname\n\nLEVEL THREAD SIZE " ++ itoa prf.rows.length ++
      ascii "\n" ++ prf.rows.flatMap fun row => row.label ++ ascii "\n")
  else .error (.fail "row not set")

/-! ## The threads -/

/-- What the loops read of a `struct thread` and of its process. -/
structure RowThread where
  gindex : Int
  appid : Int32
  tid : Int32

/-- `init_global_indices` of the threads. -/
def initThreadIndices (threads : List RowThread) : List RowThread :=
  threads.mapIdx fun i th => { th with gindex := i }

/-- A label with two numbers, written with `"%s %d.%d"`. -/
def rowLabel (name : Name) (a b : Int32) : Name :=
  name ++ ascii " " ++ decimalText a.toInt ++ ascii "." ++ decimalText b.toInt

/-- What `system_connect` changes, with what its calls of `thread_connect` and `prf_add`
returned. -/
structure Connecting (σ : Type) where
  world : σ
  prf : Prf
  returned : List Int

section

variable {σ : Type} (threadConnect : RowThread → σ → Int × σ)

/-- The call of `thread_connect`. -/
def callConnect (th : RowThread) : Prog EmuFault (Connecting σ) Int := do
  let s ← get
  modify fun s => { s with
    world := (threadConnect th s.world).2
    returned := s.returned ++ [(threadConnect th s.world).1] }
  return (threadConnect th s.world).1

/-- The call of `prf_add`. -/
def callAdd (index : Int) (label : Name) : Prog EmuFault (Connecting σ) Int := do
  let s ← get
  modify fun s => { s with
    prf := (prfAdd s.prf index label).2
    returned := s.returned ++ [(prfAdd s.prf index label).1] }
  return (prfAdd s.prf index label).1

/-- A turn of the loop without `xtasks_config`. -/
def connectThread (th : RowThread) : Prog EmuFault (Connecting σ) Unit := do
  let ret ← callConnect threadConnect th
  if ret ≠ 0 then throw (.fail "thread_connect failed")
  let name := rowLabel (ascii "TH") th.appid th.tid
  if 128 ≤ name.length then throw (.fail "label too long")
  let ret ← callAdd th.gindex name
  if ret ≠ 0 then throw (.fail "prf_add failed for thread")

/-- The loop without `xtasks_config`. -/
def connectThreads : List RowThread → Prog EmuFault (Connecting σ) Unit
  | [] => pure ()
  | th :: threads => do
      connectThread threadConnect th
      connectThreads threads

/-- `thread_acc_execution` and `n_acc`. -/
structure AccCounters where
  threadAccExecution : UInt32
  nAcc : UInt32

/-- The label of a turn with accelerators, and the counters after it; an entry of the
accelerators that was not loaded is a crash. -/
def accLabel (info : InfoAcc) (n : AccCounters) (appid : Int32) :
    Except EmuFault (Name × AccCounters) :=
  if 0 < n.threadAccExecution ∧ n.threadAccExecution.toNat ≤ info.accel.length then
    match info.accel[n.nAcc.toNat]? with
    | none => .error .crash
    | some acc =>
        .ok (rowLabel acc.name.str appid (UInt32.ofNat acc.id).toInt32,
          { n with nAcc := n.nAcc + 1 })
  else .ok (rowLabel (ascii "TH") appid (n.threadAccExecution + 1 - n.nAcc).toInt32, n)

/-- A turn of the loop with `xtasks_config`. -/
def connectThreadAcc (info : InfoAcc) (n : AccCounters) (th : RowThread) :
    Prog EmuFault (Connecting σ) AccCounters := do
  let ret ← callConnect threadConnect th
  if ret ≠ 0 then throw (.fail "thread_connect failed")
  match accLabel info n th.appid with
  | .error e => throw e
  | .ok (name, n) => do
      if 128 ≤ name.length then throw (.fail "label too long")
      let n := { n with threadAccExecution := n.threadAccExecution + 1 }
      let ret ← callAdd th.gindex name
      if ret ≠ -1 then throw (.fail "prf_add failed for thread")
      return n

/-- The loop with `xtasks_config`. -/
def connectThreadsAcc (info : InfoAcc) : AccCounters → List RowThread →
    Prog EmuFault (Connecting σ) Unit
  | _, [] => pure ()
  | n, th :: threads => do
      let n ← connectThreadAcc threadConnect info n th
      connectThreadsAcc info n threads

/-- The labelling of the threads in `system_connect`. -/
def connectLabels (xtasks : Option InfoAcc) (threads : List RowThread) :
    Prog EmuFault (Connecting σ) Unit :=
  match xtasks with
  | none => connectThreads threadConnect threads
  | some info => connectThreadsAcc threadConnect info ⟨0, 0⟩ threads

/-- The labelling of a system, from its first thread and a new file. -/
def labelThreads (xtasks : Option InfoAcc) (threads : List RowThread) (world : σ) :
    Except EmuFault Unit × Connecting σ :=
  (connectLabels threadConnect xtasks (initThreadIndices threads)).run.run
    { world, prf := prfOpen threads.length, returned := [] }

end

/-! ## The labels that are expected -/

/-- The label of the thread at a position: the accelerators stand after the first thread. -/
def threadLabel (xtasks : Option InfoAcc) (i : Nat) (th : RowThread) : Name :=
  match xtasks with
  | none => rowLabel (ascii "TH") th.appid th.tid
  | some info =>
      match i with
      | 0 => rowLabel (ascii "TH") th.appid 1
      | k + 1 =>
          match info.accel[k]? with
          | some acc => rowLabel acc.name.str th.appid (Int32.ofNat acc.id)
          | none => rowLabel (ascii "TH") th.appid (Int32.ofNat (k + 2 - info.accel.length))

/-- The rows that are expected, one for each thread. -/
def threadRows (xtasks : Option InfoAcc) (threads : List RowThread) : List PrfRow :=
  threads.mapIdx fun i th => ⟨threadLabel xtasks i th, true⟩

/-- The labelling does what it should: it fails only when one of its calls failed, and when
it does not, each row has its label and `prf_close` writes the file. -/
structure RowsLabelled {σ : Type} (xtasks : Option InfoAcc) (threads : List RowThread)
    (run : Except EmuFault Unit × Connecting σ) : Prop where
  calls : run.1 = .ok () ↔ ∀ ret ∈ run.2.returned, ret = 0
  rows : run.1 = .ok () → run.2.prf.rows = threadRows xtasks threads
  close : run.1 = .ok () → ∃ text, prfClose run.2.prf = .ok text

/-! ## Labels that fit -/

theorem length_decimalText (x : Int32) : (decimalText x.toInt).length ≤ 11 := by
  have hlo := x.le_toInt
  have hhi := x.toInt_lt
  have hdigits : (itoa x.toInt.natAbs).length ≤ 10 := itoa_length (by decide) (by omega)
  unfold decimalText
  by_cases hneg : x.toInt < 0
  · rw [if_pos hneg, List.length_append, show (ascii "-").length = 1 from rfl]
    omega
  · rw [if_neg hneg]
    omega

theorem length_rowLabel (name : Name) (a b : Int32) :
    (rowLabel name a b).length ≤ name.length + 24 := by
  have ha := length_decimalText a
  have hb := length_decimalText b
  unfold rowLabel
  simp only [List.length_append, show (ascii " ").length = 1 from rfl,
    show (ascii ".").length = 1 from rfl]
  omega

/-- The label of a thread always fits. -/
theorem length_thLabel (a b : Int32) : (rowLabel (ascii "TH") a b).length < 128 := by
  have h := length_rowLabel (ascii "TH") a b
  have hname : (ascii "TH").length = 2 := rfl
  omega

/-! ## prf_add -/

/-- The rows of a file of which the first ones are set. -/
def rowsAfter (done : List PrfRow) (left : Nat) : List PrfRow :=
  done ++ List.replicate left ⟨[], false⟩

theorem prfAdd_next {prf : Prf} {done : List PrfRow} {left : Nat} (label : Name)
    (hrows : prf.rows = rowsAfter done (left + 1)) (hlen : label.length < maxPrfLabel) :
    prfAdd prf done.length label = (0, ⟨rowsAfter (done ++ [⟨label, true⟩]) left⟩) := by
  have hrow : prf.rows[done.length]? = some ⟨[], false⟩ := by
    rw [hrows, rowsAfter, List.getElem?_append_right (le_refl _), Nat.sub_self]
    rfl
  have hset : prf.rows.set done.length ⟨label, true⟩ =
      rowsAfter (done ++ [⟨label, true⟩]) left := by
    rw [hrows, rowsAfter, rowsAfter, List.set_append_right _ _ (le_refl _), Nat.sub_self,
      List.append_assoc]
    rfl
  unfold prfAdd
  rw [if_neg (by omega), Int.toNat_natCast, hrow]
  simp only [Bool.false_eq_true, if_false, not_le.mpr hlen, hset]

theorem prfClose_eq {prf : Prf} (h : ∀ row ∈ prf.rows, row.set = true) :
    ∃ text, prfClose prf = .ok text := by
  unfold prfClose
  rw [if_pos (List.all_eq_true.mpr h)]
  exact ⟨_, rfl⟩

/-! ## The numbers of the labels -/

/-- The counters before the thread at a position. -/
def AccCounters.at (info : InfoAcc) (i : Nat) : AccCounters :=
  ⟨UInt32.ofNat i, UInt32.ofNat (min (i - 1) info.accel.length)⟩

/-- The loop with accelerators gives each thread its label, whatever came before. -/
theorem accLabel_at (info : InfoAcc) {i : Nat} (hi : i < 2 ^ 32) (th : RowThread) :
    ∃ n, accLabel info (.at info i) th.appid = .ok (threadLabel (some info) i th, n) ∧
      { n with threadAccExecution := n.threadAccExecution + 1 } = AccCounters.at info (i + 1) := by
  have hexec : (UInt32.ofNat i).toNat = i := UInt32.toNat_ofNat_of_lt' hi
  have hfits := info.fits
  have hmax : maxAccelerators < 2 ^ 32 := by decide
  unfold accLabel AccCounters.at
  dsimp only
  rw [hexec]
  cases i with
  | zero =>
      refine ⟨⟨0, 0⟩, ?_, ?_⟩
      · rw [if_neg (by simp), Nat.zero_sub, Nat.zero_min]
        rfl
      · rw [Nat.zero_add, Nat.sub_self, Nat.zero_min]
        rfl
  | succ k =>
      have hpos : 0 < UInt32.ofNat (k + 1) := by
        rw [UInt32.lt_iff_toNat_lt, hexec]
        exact Nat.succ_pos k
      have hnext : UInt32.ofNat (k + 1) + 1 = UInt32.ofNat (k + 1 + 1) :=
        (UInt32.ofNat_add _ _).symm
      rw [Nat.add_sub_cancel, Nat.add_sub_cancel]
      by_cases hk : k < info.accel.length
      · have hacc : (UInt32.ofNat (min k info.accel.length)).toNat = k := by
          rw [min_eq_left hk.le]
          exact UInt32.toNat_ofNat_of_lt' ((Nat.lt_succ_self k).trans hi)
        refine ⟨⟨UInt32.ofNat (k + 1), UInt32.ofNat (min k info.accel.length) + 1⟩, ?_, ?_⟩
        · rw [if_pos ⟨hpos, hk⟩, hacc, List.getElem?_eq_getElem hk]
          simp only [threadLabel, List.getElem?_eq_getElem hk, UInt32.toInt32_ofNat']
        · rw [hnext, min_eq_left hk.le, min_eq_left (Nat.succ_le_of_lt hk)]
          rw [UInt32.ofNat_add k 1]
          rfl
      · have hle := not_lt.mp hk
        refine ⟨⟨UInt32.ofNat (k + 1), UInt32.ofNat (min k info.accel.length)⟩, ?_, ?_⟩
        · rw [if_neg (fun h => hk h.2), min_eq_right hle, hnext, ← UInt32.ofNat_sub (by omega)]
          simp only [threadLabel, List.getElem?_eq_none hle, UInt32.toInt32_ofNat']
        · rw [hnext, min_eq_right hle, min_eq_right (by omega)]

/-! ## The loops -/

section

variable {σ : Type} {threadConnect : RowThread → σ → Int × σ} {s : Connecting σ}

@[simp] theorem ensures_callConnect {th : RowThread}
    {post : Except EmuFault Int → Connecting σ → Prop} :
    Ensures (callConnect threadConnect th) s post ↔
      post (.ok (threadConnect th s.world).1) { s with
        world := (threadConnect th s.world).2
        returned := s.returned ++ [(threadConnect th s.world).1] } := Iff.rfl

@[simp] theorem ensures_callAdd {index : Int} {label : Name}
    {post : Except EmuFault Int → Connecting σ → Prop} :
    Ensures (callAdd index label) s post ↔
      post (.ok (prfAdd s.prf index label).1) { s with
        prf := (prfAdd s.prf index label).2
        returned := s.returned ++ [(prfAdd s.prf index label).1] } := Iff.rfl

/-- No call has failed yet, and the first rows are set. -/
structure Progress (done : List PrfRow) (left : Nat) (s : Connecting σ) : Prop where
  calls : ∀ ret ∈ s.returned, ret = 0
  rows : s.prf.rows = rowsAfter done left

/-- After one more call of each that went well. -/
theorem Progress.two_calls {done : List PrfRow} {left : Nat} (h : Progress done left s) :
    ∀ ret ∈ s.returned ++ [0] ++ [0], ret = 0 := by
  intro ret hret
  rw [List.append_assoc, List.mem_append] at hret
  rcases hret with hret | hret
  · exact h.calls ret hret
  · simpa using hret

variable (threadConnect) in
/-- A turn sets the next row, or one of its calls fails. -/
theorem connectThread_progress {done : List PrfRow} {left : Nat} {th : RowThread}
    (hs : Progress done (left + 1) s) (hidx : th.gindex = done.length) :
    Ensures (connectThread threadConnect th) s fun r s' =>
      (r = .ok () ∧
        Progress (done ++ [⟨rowLabel (ascii "TH") th.appid th.tid, true⟩]) left s') ∨
      (r ≠ .ok () ∧ ∃ ret ∈ s'.returned, ret ≠ 0) := by
  have hfits := length_thLabel th.appid th.tid
  have hlen : (rowLabel (ascii "TH") th.appid th.tid).length < maxPrfLabel :=
    hfits.trans (by decide)
  have hadd := prfAdd_next _ hs.rows hlen
  rw [← hidx] at hadd
  unfold connectThread
  rw [ensures_bind, ensures_callConnect, next_ok]
  by_cases hconn : (threadConnect th s.world).1 = 0
  · simp only [hconn, ne_eq, not_true_eq_false, if_false, not_le.mpr hfits, ensures_bind,
      ensures_callAdd, next_ok, hadd, ensures_pure]
    left
    exact ⟨trivial, hs.two_calls, rfl⟩
  · simp only [hconn, ne_eq, not_false_eq_true, if_true, ensures_bind, ensures_throw, next_error]
    right
    refine ⟨(fun h => by cases h), (threadConnect th s.world).1, ?_, hconn⟩
    exact List.mem_append_right _ (List.mem_singleton_self _)

variable (threadConnect) in
/-- The loop sets all the rows, or one of its calls fails. -/
theorem connectThreads_progress {done : List PrfRow} {threads : List RowThread}
    (hs : Progress done threads.length s)
    (hidx : ∀ i th, threads[i]? = some th → th.gindex = ((done.length + i : Nat) : Int)) :
    Ensures (connectThreads threadConnect threads) s fun r s' =>
      (r = .ok () ∧ Progress (done ++ threads.map fun th =>
        ⟨rowLabel (ascii "TH") th.appid th.tid, true⟩) 0 s') ∨
      (r ≠ .ok () ∧ ∃ ret ∈ s'.returned, ret ≠ 0) := by
  induction threads generalizing done s with
  | nil =>
      left
      refine ⟨rfl, ?_⟩
      rw [List.map_nil, List.append_nil]
      exact hs
  | cons th threads ih =>
      unfold connectThreads
      rw [ensures_bind]
      apply (connectThread_progress threadConnect hs (hidx 0 th rfl)).mono
      rintro r s' (⟨rfl, hnext⟩ | ⟨hr, hfail⟩)
      · have hrest := ih hnext (by
          intro i th' hth'
          rw [hidx (i + 1) th' hth', List.length_append, List.length_singleton]
          congr 1
          omega)
        rw [List.append_assoc] at hrest
        exact hrest
      · cases r with
        | ok a => exact absurd rfl hr
        | error e => exact Or.inr ⟨(fun h => by cases h), hfail⟩

variable (threadConnect) in
/-- The loop with accelerators ends at its first thread: `prf_add` returns zero there. -/
theorem connectThreadsAcc_first (info : InfoAcc) {th : RowThread} {threads : List RowThread}
    (hs : Progress [] (threads.length + 1) s) (hidx : th.gindex = 0) :
    Ensures (connectThreadsAcc threadConnect info ⟨0, 0⟩ (th :: threads)) s fun r s' =>
      r ≠ .ok () ∧ ((∀ ret ∈ s'.returned, ret = 0) ↔ (threadConnect th s.world).1 = 0) := by
  have hfits := length_thLabel th.appid 1
  have hadd := prfAdd_next (rowLabel (ascii "TH") th.appid 1) hs.rows (hfits.trans (by decide))
  have hlabel : accLabel info ⟨0, 0⟩ th.appid = .ok (rowLabel (ascii "TH") th.appid 1, ⟨0, 0⟩) :=
    rfl
  rw [List.length_nil, show ((0 : Nat) : Int) = th.gindex from hidx.symm] at hadd
  unfold connectThreadsAcc connectThreadAcc
  rw [ensures_bind, ensures_bind, ensures_callConnect, next_ok, hlabel]
  by_cases hconn : (threadConnect th s.world).1 = 0
  · simp only [hconn, ne_eq, not_true_eq_false, if_false, not_le.mpr hfits, ensures_bind,
      ensures_callAdd, next_ok, hadd]
    rw [if_pos (by decide), ensures_bind, ensures_throw, next_error, next_error]
    exact ⟨(fun h => by cases h), iff_of_true hs.two_calls trivial⟩
  · simp only [hconn, ne_eq, not_false_eq_true, if_true, ensures_bind, ensures_throw, next_error]
    refine ⟨(fun h => by cases h), iff_of_false ?_ not_false⟩
    intro hall
    exact hconn (hall _ (List.mem_append_right _ (List.mem_singleton_self _)))

end

/-! ## The labelling -/

section

variable {σ : Type} (threadConnect : RowThread → σ → Int × σ)

/-- Without `xtasks_config` the labelling does what it should. -/
theorem rowsLabelled_plain (threads : List RowThread) (world : σ) :
    RowsLabelled none threads (labelThreads threadConnect none threads world) := by
  have hindices : (initThreadIndices threads).length = threads.length := List.length_mapIdx
  have hstart : Progress [] (initThreadIndices threads).length
      ({ world, prf := prfOpen threads.length, returned := [] } : Connecting σ) := by
    rw [hindices]
    exact ⟨fun ret hret => absurd hret List.not_mem_nil, rfl⟩
  have hrun := connectThreads_progress threadConnect hstart (by
    intro i th hth
    rw [initThreadIndices, List.getElem?_mapIdx, Option.map_eq_some_iff] at hth
    obtain ⟨th', -, rfl⟩ := hth
    rw [List.length_nil, Nat.zero_add])
  have hrows : (initThreadIndices threads).map (fun th =>
      ⟨rowLabel (ascii "TH") th.appid th.tid, true⟩) = threadRows none threads := by
    apply List.ext_getElem
    · simp [initThreadIndices, threadRows]
    · intro i hi hi'
      simp [initThreadIndices, threadRows, threadLabel]
  rw [hrows] at hrun
  rcases hrun with ⟨hok, hdone⟩ | ⟨herr, hfail⟩
  · have hset : ∀ row ∈ (labelThreads threadConnect none threads world).2.prf.rows,
        row.set = true := by
      intro row hrow
      rw [show (labelThreads threadConnect none threads world).2.prf.rows = _ from hdone.rows,
        rowsAfter, List.nil_append, List.replicate_zero, List.append_nil, threadRows,
        List.mem_mapIdx] at hrow
      obtain ⟨i, hi, rfl⟩ := hrow
      rfl
    refine ⟨iff_of_true hok hdone.calls, ?_, fun _ => prfClose_eq hset⟩
    intro _
    rw [show (labelThreads threadConnect none threads world).2.prf.rows = _ from hdone.rows,
      rowsAfter, List.nil_append, List.replicate_zero, List.append_nil]
  · obtain ⟨ret, hret, hne⟩ := hfail
    refine ⟨iff_of_false herr ?_, fun hok => absurd hok herr, fun hok => absurd hok herr⟩
    intro hall
    exact hne (hall ret hret)

/-- The labelling fails when `thread_connect` or `prf_add` fails and only then, and sets all
the rows otherwise, exactly when there is no `xtasks_config`, or there are no threads, or the
first thread cannot be connected: with `xtasks_config` the loop takes the zero that `prf_add`
returns for a failure. -/
theorem connect_labels_iff (xtasks : Option InfoAcc) (threads : List RowThread) (world : σ) :
    RowsLabelled xtasks threads (labelThreads threadConnect xtasks threads world) ↔
      xtasks = none ∨
        ∀ th, (initThreadIndices threads).head? = some th → (threadConnect th world).1 ≠ 0 := by
  cases xtasks with
  | none => exact iff_of_true (rowsLabelled_plain threadConnect threads world) (Or.inl rfl)
  | some info =>
      cases threads with
      | nil =>
          refine iff_of_true ⟨?_, fun _ => rfl, fun _ => ⟨_, rfl⟩⟩ (Or.inr ?_)
          · exact iff_of_true rfl fun ret hret => absurd hret List.not_mem_nil
          · intro th hth
            cases hth
      | cons th threads =>
          have hindices : initThreadIndices (th :: threads) =
              { th with gindex := 0 } ::
                threads.mapIdx fun i th => { th with gindex := (i + 1 : Nat) } := by
            rw [initThreadIndices, List.mapIdx_cons]
            rfl
          have hstart : Progress []
              ((threads.mapIdx fun i th => { th with gindex := (i + 1 : Nat) }).length + 1)
              ({ world, prf := prfOpen (th :: threads).length, returned := [] } :
                Connecting σ) := by
            rw [List.length_mapIdx]
            exact ⟨fun ret hret => absurd hret List.not_mem_nil, rfl⟩
          have hrun := connectThreadsAcc_first threadConnect info hstart
            (rfl : ({ th with gindex := 0 } : RowThread).gindex = 0)
          rw [← hindices] at hrun
          have herr : (labelThreads threadConnect (some info) (th :: threads) world).1 ≠ .ok () :=
            hrun.1
          have hcalls := hrun.2
          constructor
          · intro h
            right
            intro th' hth' hconn
            rw [hindices] at hth'
            cases hth'
            exact herr (h.calls.mpr (hcalls.mpr hconn))
          · rintro (hnone | hfirst)
            · cases hnone
            · refine ⟨iff_of_false herr ?_, fun hok => absurd hok herr,
                fun hok => absurd hok herr⟩
              intro hall
              exact hfirst _ (by rw [hindices]; rfl) (hcalls.mp hall)

end

/-- With accelerators a system of one thread cannot be labelled, although both calls went
well. -/
theorem connect_labels_accelerators :
    (labelThreads (fun _ (s : Unit) => (0, s))
        (some ⟨[⟨⟨ascii "fft", by decide⟩, 1⟩], by decide⟩) [⟨0, 1, 100⟩] ()).1 =
      .error (.fail "prf_add failed for thread") ∧
    (labelThreads (fun _ (s : Unit) => (0, s))
        (some ⟨[⟨⟨ascii "fft", by decide⟩, 1⟩], by decide⟩) [⟨0, 1, 100⟩] ()).2.returned =
      [0, 0] ∧
    (labelThreads (fun _ (s : Unit) => (0, s))
        (some ⟨[⟨⟨ascii "fft", by decide⟩, 1⟩], by decide⟩) [⟨0, 1, 100⟩] ()).2.prf.rows =
      [⟨ascii "TH 1.1", true⟩] :=
  ⟨rfl, by decide +kernel, by decide +kernel⟩

end Ovni
