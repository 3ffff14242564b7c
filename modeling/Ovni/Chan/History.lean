import Mathlib.Data.List.Chain
import Ovni.Chan.Model
import Ovni.Lib.Except
import Ovni.Patch.Model

/-!
# Histories of a channel

What holds of a channel after any sequence of operations: a stack channel is a list, and a
single channel reads what was set last, unless the write was dropped as a duplicate of the
flushed value while another value was pending.  Without writes in the dirty state the
flushed values differ one after the other.
-/

namespace Ovni

namespace ChanRec

variable {chan chan' : ChanRec} {cb : Bool} {v : Value}

/-! ## One operation -/

theorem setDirty_snd (chan : ChanRec) : (chan.setDirty cb).2 = { chan with isDirty := true } := by
  unfold setDirty
  split
  · rename_i hd
    cases chan
    simp_all
  · rfl

/-- A write that succeeds is dropped as a duplicate, or it is done. -/
theorem set_ok (h : (chan.set cb v).1 = true) :
    chan.type = .single ∧ (chan.isDirty = true → chan.dirtyWrite = true) ∧
      ((chan.allowDup = false ∧ chan.lastValue = v ∧ chan.ignoreDup = true ∧
        (chan.set cb v).2 = chan) ∨
       (¬ (chan.allowDup = false ∧ chan.lastValue = v) ∧
        (chan.set cb v).2 = { chan with value := v, isDirty := true })) := by
  unfold set at h ⊢
  by_cases htype : chan.type ≠ .single
  · simp [htype] at h
  by_cases hd : chan.isDirty ∧ chan.dirtyWrite = false
  · simp [hd] at h
  rw [if_neg htype, if_neg hd] at h ⊢
  refine ⟨by simpa using htype, fun hdirty => ?_, ?_⟩
  · simpa [hdirty] using hd
  by_cases hdup : chan.allowDup = false ∧ chan.lastValue = v
  · rw [if_pos hdup] at h ⊢
    exact Or.inl ⟨hdup.1, hdup.2, h, rfl⟩
  · rw [if_neg hdup, setDirty_snd]
    exact Or.inr ⟨hdup, rfl⟩

theorem push_ok (h : (chan.push cb v).1 = true) :
    chan.type = .stack ∧ (chan.isDirty = true → chan.dirtyWrite = true) ∧
      ((chan.allowDup = false ∧ chan.lastValue = v ∧ chan.ignoreDup = true ∧
        (chan.push cb v).2 = chan) ∨
       (¬ (chan.allowDup = false ∧ chan.lastValue = v) ∧ chan.stack.n < maxChanStack ∧
        (chan.push cb v).2 = { chan with
          isDirty := true
          stack := { n := chan.stack.n + 1
                     values := Function.update chan.stack.values chan.stack.n v } })) := by
  unfold push at h ⊢
  by_cases htype : chan.type ≠ .stack
  · simp [htype] at h
  by_cases hd : chan.isDirty ∧ chan.dirtyWrite = false
  · simp [hd] at h
  rw [if_neg htype, if_neg hd] at h ⊢
  refine ⟨by simpa using htype, fun hdirty => ?_, ?_⟩
  · simpa [hdirty] using hd
  by_cases hdup : chan.allowDup = false ∧ chan.lastValue = v
  · rw [if_pos hdup] at h ⊢
    exact Or.inl ⟨hdup.1, hdup.2, h, rfl⟩
  · rw [if_neg hdup] at h ⊢
    by_cases hfull : chan.stack.n ≥ maxChanStack
    · simp [hfull] at h
    · rw [if_neg hfull, setDirty_snd]
      exact Or.inr ⟨hdup, by omega, rfl⟩

theorem pop_ok (h : (chan.pop cb v).1 = true) :
    chan.type = .stack ∧ (chan.isDirty = true → chan.dirtyWrite = true) ∧ chan.stack.n ≠ 0 ∧
      chan.stack.values (chan.stack.n - 1) = v ∧
      (chan.pop cb v).2 = { chan with
        isDirty := true
        stack := { chan.stack with n := chan.stack.n - 1 } } := by
  unfold pop at h ⊢
  by_cases htype : chan.type ≠ .stack
  · simp [htype] at h
  by_cases hd : chan.isDirty ∧ chan.dirtyWrite = false
  · simp [hd] at h
  by_cases hn : chan.stack.n = 0
  · simp [hn] at h
  by_cases hv : chan.stack.values (chan.stack.n - 1) ≠ v
  · simp [hv] at h
  rw [if_neg htype, if_neg hd, if_neg hn, if_neg hv, setDirty_snd]
  refine ⟨by simpa using htype, fun hdirty => ?_, hn, by simpa using hv, rfl⟩
  simpa [hdirty] using hd

/-- A write leaves the channel as it was, or dirty with other data; its result does not
matter. -/
theorem write_cases (chan : ChanRec) (cb : Bool) (w : ChanWrite) : (w.run cb chan).2 = chan ∨
    ∃ value stack, (chan.stack.n ≤ maxChanStack → stack.n ≤ maxChanStack) ∧
      (w.run cb chan).2 = { chan with value, stack, isDirty := true } := by
  cases w with
  | set v =>
      simp only [ChanWrite.run, set]
      split_ifs
      · exact Or.inl rfl
      · exact Or.inl rfl
      · exact Or.inl rfl
      · exact Or.inr ⟨v, chan.stack, id, setDirty_snd _⟩
  | push v =>
      simp only [ChanWrite.run, push]
      split_ifs with _ _ _ hfull
      · exact Or.inl rfl
      · exact Or.inl rfl
      · exact Or.inl rfl
      · exact Or.inl rfl
      · exact Or.inr ⟨chan.value, _, fun _ => by simp only; omega, setDirty_snd _⟩
  | pop v =>
      simp only [ChanWrite.run, pop]
      split_ifs
      · exact Or.inl rfl
      · exact Or.inl rfl
      · exact Or.inl rfl
      · exact Or.inl rfl
      · exact Or.inr ⟨chan.value, _, fun _ => by simp only; omega, setDirty_snd _⟩

/-! ## Any history -/

/-- What holds of a channel after any operations. -/
structure Ok (type : ChanType) (chan : ChanRec) : Prop where
  type : chan.type = type
  bound : chan.stack.n ≤ maxChanStack
  clean : chan.isDirty = false → chan.read = chan.lastValue

theorem init_ok (type : ChanType) : Ok type (init type) where
  type := rfl
  bound := Nat.zero_le _
  clean := by
    intro _
    cases type <;> rfl

theorem Ok.call {type : ChanType} (h : Ok type chan) (call : ChanCall) (cb : Bool) :
    Ok type (call.run cb chan) := by
  cases call with
  | write w =>
      obtain hsame | ⟨value, stack, hbound, hnew⟩ := write_cases chan cb w
      · rw [ChanCall.run, hsame]
        exact h
      · rw [ChanCall.run, hnew]
        exact ⟨h.type, hbound h.bound, fun hd => by cases hd⟩
  | flush =>
      simp only [ChanCall.run, flush]
      split_ifs
      · exact h
      · exact ⟨h.type, h.bound, fun _ => rfl⟩
  | dirty =>
      simp only [ChanCall.run, dirty]
      split_ifs
      · exact h
      · rw [setDirty_snd]
        exact ⟨h.type, h.bound, fun hd => by cases hd⟩
  | prop p b =>
      cases p <;> exact ⟨h.type, h.bound, h.clean⟩

theorem after_ok (type : ChanType) (history : List (ChanCall × Bool)) :
    Ok type ((init type).after history) := by
  induction history using List.reverseRecOn with
  | nil => exact init_ok type
  | append_singleton history call ih =>
      rw [after, List.foldl_append]
      exact ih.call call.1 call.2

/-! ## Single channels -/

/-- The value to set is the flushed one, and another one is pending: the write would be
dropped as a duplicate. -/
structure Shadowed (chan : ChanRec) (v : Value) : Prop where
  isDirty : chan.isDirty = true
  dirtyWrite : chan.dirtyWrite = true
  allowDup : chan.allowDup = false
  ignoreDup : chan.ignoreDup = true
  lastValue : chan.lastValue = v
  pending : chan.value ≠ v

/-- After a successful `chan_set` the value is read. -/
def SetReads (chan : ChanRec) (cb : Bool) (v : Value) : Prop :=
  (chan.set cb v).1 = true → (chan.set cb v).2.read = v

theorem Shadowed.set_eq (h : Shadowed chan v) (htype : chan.type = .single) (cb : Bool) :
    chan.set cb v = (true, chan) := by
  have hd : ¬ (chan.isDirty ∧ chan.dirtyWrite = false) := by simp [h.dirtyWrite]
  rw [set, if_neg (by simp [htype]), if_neg hd, if_pos ⟨h.allowDup, h.lastValue⟩, h.ignoreDup]

theorem Ok.setReads_iff (h : Ok .single chan) : chan.SetReads cb v ↔ ¬ chan.Shadowed v := by
  have hread : chan.read = chan.value := by rw [read, h.type]
  constructor
  · intro hset hshadow
    have heq := hshadow.set_eq h.type cb
    have hv := hset (by rw [heq])
    rw [heq, hread] at hv
    exact hshadow.pending hv
  · intro hshadow hok
    obtain ⟨-, hdirty, ⟨hallow, hlast, hignore, heq⟩ | ⟨-, heq⟩⟩ := set_ok hok
    · rw [heq, hread]
      by_contra hne
      have hd : chan.isDirty = true := by
        by_contra hclean
        have hflushed := h.clean (by simpa using hclean)
        rw [hread, hlast] at hflushed
        exact hne hflushed
      exact hshadow ⟨hd, hdirty hd, hallow, hignore, hlast, hne⟩
    · rw [heq, read]
      simp only [h.type]

/-! ## Stack channels -/

/-- The stack is a list: what the operations do with it, and what is read. -/
structure StackIsList (chan : ChanRec) (cb : Bool) (v : Value) : Prop where
  length : chan.stack.list.length ≤ maxChanStack
  read : chan.read = chan.stack.list.headD .null
  push : (chan.push cb v).1 = true → (chan.push cb v).2.stack.list = v :: chan.stack.list
  pop : (chan.pop cb v).1 = true → chan.stack.list = v :: (chan.pop cb v).2.stack.list
  flush : chan.flush.2.stack.list = chan.stack.list

theorem Ok.stackIsList (h : Ok .stack chan) (hignore : chan.ignoreDup = false) :
    chan.StackIsList cb v where
  length := by
    rw [ChanStack.length_list]
    exact h.bound
  read := by
    rw [ChanRec.read, h.type, chan.stack.headD_list]
  push := by
    intro hok
    obtain ⟨-, -, ⟨-, -, hignored, -⟩ | ⟨-, -, heq⟩⟩ := push_ok hok
    · rw [hignore] at hignored
      cases hignored
    · rw [heq]
      exact chan.stack.list_push v
  pop := by
    intro hok
    obtain ⟨-, -, hn, hv, heq⟩ := pop_ok hok
    rw [heq, chan.stack.list_pop hn, hv]
  flush := by
    unfold ChanRec.flush
    split_ifs <;> rfl

/-- What is expected of a channel of either type, after any history. -/
def Meets (type : ChanType) (chan : ChanRec) (cb : Bool) (v : Value) : Prop :=
  (type = .single → chan.SetReads cb v) ∧
    (type = .stack → chan.ignoreDup = false → chan.StackIsList cb v)

/-- Only a single channel can miss it, when the value to set is shadowed. -/
theorem chan_history_iff (type : ChanType) (history : List (ChanCall × Bool)) (cb : Bool)
    (v : Value) :
    Meets type ((init type).after history) cb v ↔
      (type = .single → ¬ ((init type).after history).Shadowed v) := by
  have hok := after_ok type history
  cases type with
  | single => simp [Meets, hok.setReads_iff]
  | stack =>
      simp only [Meets, reduceCtorEq, false_implies, true_and, true_implies, iff_true]
      exact hok.stackIsList

/-- A dropped write: the channel was flushed with 1 and 2 is pending when 1 is set. -/
theorem chan_set_dropped : ¬ Meets .single ((init .single).after
    [(.prop .dirtyWrite true, true), (.prop .ignoreDup true, true),
     (.write (.set (.int64 1)), true), (.flush, true), (.write (.set (.int64 2)), true)])
    true (.int64 1) := by
  intro h
  have hread := h.1 rfl rfl
  revert hread
  decide

end ChanRec

/-! ## Flushed values -/

/-- A channel with the values it was flushed with and the last value of the Paraver
channel it is connected to, if it is. -/
structure ChanTrace where
  chan : ChanRec
  flushed : List Value
  last : Option (Option Value)

/-- The Paraver channel keeps the value it emits. -/
def ChanTrace.emitted (last : Option (Option Value)) (v : Value) : Option (Option Value) :=
  last.map fun _ => some v

/-- Successful writes of a channel, which is emitted and flushed after each write that
makes it dirty.  It may be connected to a Paraver trace at any moment. -/
inductive FlushRun (type : ChanType) (ignoreDup : Bool) : ChanTrace → Prop where
  | init : FlushRun type ignoreDup
      { chan := { ChanRec.init type with ignoreDup }, flushed := [], last := none }
  | connect {t : ChanTrace} : FlushRun type ignoreDup t →
      FlushRun type ignoreDup { t with last := some none }
  | quiet {t : ChanTrace} {cb : Bool} {w : ChanWrite} {chan : ChanRec} :
      FlushRun type ignoreDup t → w.run cb t.chan = (true, chan) → chan.isDirty = false →
      FlushRun type ignoreDup { t with chan }
  | flush {t : ChanTrace} {cb : Bool} {w : ChanWrite} {chan chan' : ChanRec} :
      FlushRun type ignoreDup t → w.run cb t.chan = (true, chan) → chan.isDirty = true →
      chan.flush = (true, chan') →
      FlushRun type ignoreDup
        { chan := chan', flushed := t.flushed ++ [chan'.lastValue],
          last := ChanTrace.emitted t.last chan.read }

/-- Neither two values that follow each other nor the last one and null are equal. -/
def NoRepeat (l : List Value) : Prop := List.IsChain (· ≠ ·) (l ++ [.null])

/-- What holds between the writes. -/
structure FlushOk (t : ChanTrace) : Prop where
  clean : t.chan.isDirty = false
  dirtyWrite : t.chan.dirtyWrite = false
  allowDup : t.chan.allowDup = false
  read : t.chan.read = t.chan.lastValue
  stack : NoRepeat t.chan.stack.list
  flushed : NoRepeat t.flushed.reverse
  latest : t.flushed.reverse.headD .null = t.chan.lastValue
  last : t.last = none ∨ t.last = some none ∨ t.last = some (some t.chan.lastValue)

section

variable {type : ChanType} {ignoreDup cb : Bool} {t : ChanTrace} {w : ChanWrite}
variable {chan chan' : ChanRec} {v : Value} {l : List Value}

theorem noRepeat_cons : NoRepeat (v :: l) ↔ v ≠ l.headD .null ∧ NoRepeat l := by
  unfold NoRepeat
  cases l with
  | nil => simp
  | cons u l => simp

/-- A write that makes a clean channel dirty changes what is read. -/
structure Changed (chan chan' : ChanRec) : Prop where
  isDirty : chan'.isDirty = true
  dirtyWrite : chan'.dirtyWrite = chan.dirtyWrite
  allowDup : chan'.allowDup = chan.allowDup
  read : chan'.read ≠ chan.lastValue
  stack : NoRepeat chan'.stack.list

theorem FlushOk.write (h : FlushOk t) (hrun : w.run cb t.chan = (true, chan)) :
    chan = t.chan ∨ Changed t.chan chan := by
  cases w with
  | set v =>
      have hok : (t.chan.set cb v).1 = true := congrArg Prod.fst hrun
      have hchan : (t.chan.set cb v).2 = chan := congrArg Prod.snd hrun
      obtain ⟨htype, -, ⟨-, -, -, heq⟩ | ⟨hdup, heq⟩⟩ := ChanRec.set_ok hok
      · exact Or.inl (hchan.symm.trans heq)
      · rw [heq] at hchan
        subst hchan
        refine Or.inr ⟨rfl, rfl, rfl, fun hread => hdup ⟨h.allowDup, ?_⟩, h.stack⟩
        rw [← hread, ChanRec.read]
        simp only [htype]
  | push v =>
      have hok : (t.chan.push cb v).1 = true := congrArg Prod.fst hrun
      have hchan : (t.chan.push cb v).2 = chan := congrArg Prod.snd hrun
      obtain ⟨htype, -, ⟨-, -, -, heq⟩ | ⟨hdup, -, heq⟩⟩ := ChanRec.push_ok hok
      · exact Or.inl (hchan.symm.trans heq)
      · rw [heq] at hchan
        subst hchan
        have hlast : t.chan.lastValue = t.chan.stack.list.headD .null := by
          rw [← h.read, ChanRec.read, htype, ChanStack.headD_list]
        have hne : v ≠ t.chan.lastValue := fun hv => hdup ⟨h.allowDup, hv.symm⟩
        refine Or.inr ⟨rfl, rfl, rfl, ?_, ?_⟩
        · simpa [ChanRec.read, htype] using hne
        · rw [ChanStack.list_push, noRepeat_cons, ← hlast]
          exact ⟨hne, h.stack⟩
  | pop v =>
      have hok : (t.chan.pop cb v).1 = true := congrArg Prod.fst hrun
      have hchan : (t.chan.pop cb v).2 = chan := congrArg Prod.snd hrun
      obtain ⟨htype, -, hn, hv, heq⟩ := ChanRec.pop_ok hok
      rw [heq] at hchan
      subst hchan
      have hstack := h.stack
      rw [t.chan.stack.list_pop hn, noRepeat_cons, ChanStack.headD_list] at hstack
      have hlast : t.chan.lastValue = t.chan.stack.values (t.chan.stack.n - 1) := by
        rw [← h.read, ChanRec.read, htype]
        exact if_pos (by omega)
      refine Or.inr ⟨rfl, rfl, rfl, ?_, hstack.2⟩
      rw [hlast, ChanRec.read, htype]
      exact hstack.1.symm

theorem FlushRun.ok (h : FlushRun type ignoreDup t) : FlushOk t := by
  induction h with
  | init =>
      refine ⟨rfl, rfl, rfl, ?_, .singleton _, .singleton _, rfl, .inl rfl⟩
      cases type <;> rfl
  | connect _ ih => exact ⟨ih.1, ih.2, ih.3, ih.4, ih.5, ih.6, ih.7, .inr (.inl rfl)⟩
  | quiet _ hrun hclean ih =>
      obtain rfl | hchanged := ih.write hrun
      · exact ih
      · rw [hchanged.isDirty] at hclean
        cases hclean
  | @flush t cb w chan chan' _ hrun hdirty hflush ih =>
      obtain rfl | hchanged := ih.write hrun
      · rw [ih.clean] at hdirty
        cases hdirty
      · rw [ChanRec.flush, if_neg (by simp [hdirty])] at hflush
        cases hflush
        refine ⟨rfl, hchanged.dirtyWrite.trans ih.dirtyWrite,
          hchanged.allowDup.trans ih.allowDup, rfl, hchanged.stack, ?_, ?_, ?_⟩
        · rw [List.reverse_append]
          have hne : chan.read ≠ t.flushed.reverse.headD .null := by
            rw [ih.latest]
            exact hchanged.read
          exact noRepeat_cons.mpr ⟨hne, ih.flushed⟩
        · simp
        · cases hlast : t.last with
          | none => exact .inl rfl
          | some last => exact .inr (.inr rfl)

/-- The flushed values, from the first one on. -/
theorem noRepeat_reverse (h : NoRepeat l.reverse) : List.IsChain (· ≠ ·) (.null :: l) := by
  unfold NoRepeat at h
  rw [← List.reverse_cons, List.isChain_reverse] at h
  exact h.imp fun _ _ hne => hne.symm

section

variable {χ μ ς ρ φ : Type} [DecidableEq ρ] [DecidableEq φ] {p : Patch χ μ ς ρ φ} {r : ρ}

/-- `emit` refuses a value only when it is the last one. -/
theorem emit_not_dup {w : PatchWorld χ μ ς ρ φ}
    (hne : w.mod.other.lastValue r ≠ some (w.bay.read (p.rchan r).chan)) :
    emit p r w ≠ .error (.fail "error duplicated value") := by
  have hdup : isValueDup (w.mod.other.lastValue r) (w.bay.read (p.rchan r).chan) = false := by
    simpa [isValueDup] using hne
  have hwrite : dupAction (p.rchan r).flags (w.mod.other.lastValue r)
      (w.bay.read (p.rchan r).chan) = .write := by
    unfold dupAction
    rw [hdup]
    split_ifs <;> simp_all
  have hprv : prvValue (p.rchan r).flags (w.bay.read (p.rchan r).chan) ≠
      .error (.fail "error duplicated value") := by
    cases w.bay.read (p.rchan r).chan with
    | null => exact fun h => by cases h
    | double bits => exact fun h => by simp [prvValue] at h
    | int64 i =>
        refine Lib.guard_ne_error (by simp) (Lib.guard_ne_error (by simp) ?_)
        exact fun h => by cases h
  unfold emit
  simp only [hwrite]
  apply Lib.bind_ne_error hprv
  intro val _ h
  cases h

variable (χ μ ς ρ φ)

/-- The flushed values of a channel differ from each other, first from null, and so do the
values of its stack; so `emit` never finds a duplicate after a write. -/
theorem flushed_values_differ (h : FlushRun type ignoreDup t) :
    List.IsChain (· ≠ ·) (.null :: t.flushed) ∧ NoRepeat t.chan.stack.list ∧
      ∀ cb w chan last, ChanWrite.run cb t.chan w = (true, chan) → chan.isDirty = true →
        t.last = some last → ∀ (p : Patch χ μ ς ρ φ) (r : ρ) (world : PatchWorld χ μ ς ρ φ),
        world.bay.chan (p.rchan r).chan = chan.view → world.mod.other.lastValue r = last →
        emit p r world ≠ .error (.fail "error duplicated value") := by
  have hok := h.ok
  refine ⟨noRepeat_reverse hok.flushed, hok.stack, ?_⟩
  intro cb w chan last hrun hdirty hlast p r world hchan hworld
  apply emit_not_dup
  rw [hworld, Bay.read, hchan, ChanRec.read_view]
  obtain rfl | hchanged := hok.write hrun
  · rw [hok.clean] at hdirty
    cases hdirty
  · rcases hok.last with hnone | hnone | hsome
    · rw [hlast] at hnone
      cases hnone
    · rw [hlast] at hnone
      cases hnone
      exact nofun
    · rw [hlast] at hsome
      cases hsome
      exact fun heq => hchanged.read (Option.some.inj heq).symm

/-- A stack channel where 1 and 2 are pushed and 2 is popped, connected to a trace after
the first push, and a channel with one value that is set to 1, to null and to 1 again. -/
theorem flushed_values_differ_stack :
    (∃ t, FlushRun .stack false t ∧ t.flushed = [.int64 1, .int64 2, .int64 1] ∧
      List.IsChain (· ≠ ·) (.null :: t.flushed)) ∧
    ∃ t, FlushRun .single false t ∧ t.flushed = [.int64 1, .null, .int64 1] ∧
      List.IsChain (· ≠ ·) (.null :: t.flushed) := by
  constructor
  · have h₀ : FlushRun .stack false _ := .init
    have h₁ := @FlushRun.flush _ _ _ true (.push (.int64 1)) _ _ h₀ rfl rfl rfl
    have h₂ := @FlushRun.flush _ _ _ true (.push (.int64 2)) _ _ h₁.connect rfl rfl rfl
    have h₃ := @FlushRun.flush _ _ _ true (.pop (.int64 2)) _ _ h₂ rfl rfl rfl
    exact ⟨_, h₃, rfl, (flushed_values_differ Unit Unit Unit Unit Unit h₃).1⟩
  · have h₀ : FlushRun .single false _ := .init
    have h₁ := @FlushRun.flush _ _ _ true (.set (.int64 1)) _ _ h₀.connect rfl rfl rfl
    have h₂ := @FlushRun.flush _ _ _ true (.set .null) _ _ h₁ rfl rfl rfl
    have h₃ := @FlushRun.flush _ _ _ true (.set (.int64 1)) _ _ h₂ rfl rfl rfl
    exact ⟨_, h₃, rfl, (flushed_values_differ Unit Unit Unit Unit Unit h₃).1⟩

end

end

end Ovni
