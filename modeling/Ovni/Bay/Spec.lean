import Ovni.Bay.Model

/-!
# What the bay's operations do

Every successful write of a channel leaves the bay as it was or touches that one
channel, which is then in the dirty list.  The walks over the dirty list and over
the callbacks of a channel come with an invariant rule each.
-/

namespace Ovni

/-- Two states of a channel with the same configuration and the same flushed value. -/
structure Chan.Like (chan chan' : Chan) : Prop where
  type : chan'.type = chan.type
  dirtyWrite : chan'.dirtyWrite = chan.dirtyWrite
  allowDup : chan'.allowDup = chan.allowDup
  ignoreDup : chan'.ignoreDup = chan.ignoreDup
  lastValue : chan'.lastValue = chan.lastValue

theorem Chan.Like.refl (chan : Chan) : Chan.Like chan chan := ⟨rfl, rfl, rfl, rfl, rfl⟩

namespace Bay

variable {χ κ : Type} [DecidableEq χ] {b b' : Bay χ κ} {c : χ}

/-- The bay after a write of a channel. -/
def touch (b : Bay χ κ) (c : χ) (chan : Chan) : Bay χ κ :=
  { b.put c { chan with isDirty := true } with
    dirty := if (b.chan c).isDirty then b.dirty else b.dirty ++ [c] }

/-- The dirty list holds the dirty channels, each once. -/
structure DirtyOk (b : Bay χ κ) : Prop where
  nodup : b.dirty.Nodup
  mem_iff : ∀ c, c ∈ b.dirty ↔ (b.chan c).isDirty = true

@[simp] theorem touch_state (chan : Chan) : (b.touch c chan).state = b.state := rfl

@[simp] theorem touch_cb (chan : Chan) : (b.touch c chan).cb = b.cb := rfl

@[simp] theorem touch_enabled (chan : Chan) : (b.touch c chan).enabled = b.enabled := rfl

@[simp] theorem touch_chan_self (chan : Chan) :
    (b.touch c chan).chan c = { chan with isDirty := true } := by
  simp [touch, put]

theorem touch_chan_of_ne (chan : Chan) {x : χ} (h : x ≠ c) :
    (b.touch c chan).chan x = b.chan x := by
  simp [touch, put, Function.update_of_ne h]

theorem touch_read_self (chan : Chan) : (b.touch c chan).read c = chanRead chan := by
  unfold read
  rw [touch_chan_self]
  rfl

theorem touch_read_of_ne (chan : Chan) {x : χ} (h : x ≠ c) :
    (b.touch c chan).read x = b.read x := by
  unfold read
  rw [touch_chan_of_ne chan h]

theorem touch_dirty (chan : Chan) :
    (b.touch c chan).dirty = if (b.chan c).isDirty then b.dirty else b.dirty ++ [c] := rfl

/-- A touch only adds the channel to the dirty list, at its end. -/
theorem touch_dirty_cases (h : b.DirtyOk) (chan : Chan) :
    (c ∈ b.dirty ∧ (b.touch c chan).dirty = b.dirty) ∨
      (c ∉ b.dirty ∧ (b.touch c chan).dirty = b.dirty ++ [c]) := by
  rw [touch_dirty]
  cases hd : (b.chan c).isDirty with
  | true => exact Or.inl ⟨(h.mem_iff c).mpr hd, if_pos rfl⟩
  | false =>
      refine Or.inr ⟨fun hmem => ?_, if_neg (by simp)⟩
      rw [h.mem_iff c, hd] at hmem
      cases hmem

theorem DirtyOk.touch (h : b.DirtyOk) (chan : Chan) : (b.touch c chan).DirtyOk := by
  rcases touch_dirty_cases h chan with ⟨hmem, hdirty⟩ | ⟨hmem, hdirty⟩
  · refine ⟨hdirty ▸ h.nodup, fun x => ?_⟩
    rw [hdirty]
    by_cases hx : x = c
    · subst hx
      simp [hmem]
    · rw [touch_chan_of_ne chan hx]
      exact h.mem_iff x
  · constructor
    · rw [hdirty, List.nodup_append]
      refine ⟨h.nodup, by simp, fun a ha x hx => ?_⟩
      rw [List.mem_singleton.mp hx]
      exact fun he => hmem (he ▸ ha)
    · intro x
      rw [hdirty, List.mem_append, List.mem_singleton]
      by_cases hx : x = c
      · subst hx
        simp
      · rw [touch_chan_of_ne chan hx, h.mem_iff x]
        simp [hx]

theorem take_touch (chan : Chan) (o : χ) {i : Nat} (hi : i < b.dirty.length) :
    (b.touch o chan).dirty.take (i + 1) = b.dirty.take (i + 1) := by
  rw [touch_dirty]
  split
  · rfl
  · rw [List.take_append_of_le_length hi]

theorem drop_touch (chan : Chan) (o : χ) {i : Nat} (hi : i < b.dirty.length) {x : χ}
    (hx : x ∈ b.dirty.drop (i + 1)) : x ∈ (b.touch o chan).dirty.drop (i + 1) := by
  rw [touch_dirty]
  split
  · exact hx
  · rw [List.drop_append_of_le_length hi]
    exact List.mem_append_left _ hx

/-- A channel that is written and was not visited is still to be visited. -/
theorem pending_of_touch (hd : b.DirtyOk) (chan : Chan) (o : χ) {i : Nat}
    (hi : i < b.dirty.length) (ho : o ∉ b.dirty.take (i + 1)) :
    o ∈ (b.touch o chan).dirty.drop (i + 1) := by
  have hmem : o ∈ (b.touch o chan).dirty := by
    rw [((hd.touch chan).mem_iff o), touch_chan_self]
  rw [← List.take_append_drop (i + 1) (b.touch o chan).dirty, take_touch chan o hi,
    List.mem_append] at hmem
  exact hmem.resolve_left ho

/-! ## Writes -/

theorem setDirty_put {chan : Chan} (hd : chan.isDirty = (b.chan c).isDirty)
    (h : (b.put c chan).setDirty c = .ok b') : b' = b.touch c chan := by
  unfold setDirty at h
  simp only [put, Function.update_self] at h
  rw [hd] at h
  cases hdirty : (b.chan c).isDirty with
  | true =>
      simp only [hdirty, if_true] at h
      split at h
      · rw [← Except.ok.inj h]
        have hchan : { chan with isDirty := true } = chan := by
          cases chan
          simp_all
        simp [touch, put, hdirty, hchan]
      · cases h
  | false =>
      simp only [hdirty, Bool.false_eq_true, if_false, cbChanIsDirty] at h
      split at h
      · rw [← Except.ok.inj h]
        simp [touch, put, hdirty]
      · cases h

omit [DecidableEq χ] in
/-- A write that goes on past the checks on the channel. -/
theorem guarded_ok {ty : ChanType} {msg : String} {rest : Except EmuFault (Bay χ κ)}
    (h : (do
      if (b.chan c).type ≠ ty then throw (.fail msg)
      if (b.chan c).isDirty ∧ (b.chan c).dirtyWrite = false then
        throw (.fail "cannot modify dirty channel")
      rest : Except EmuFault (Bay χ κ)) = .ok b') :
    (b.chan c).type = ty ∧ ((b.chan c).isDirty = true → (b.chan c).dirtyWrite = true) ∧
      rest = .ok b' := by
  simp only [bind, Except.bind, throw, throwThe, MonadExceptOf.throw] at h
  by_cases htype : (b.chan c).type = ty
  · by_cases hd : (b.chan c).isDirty = true ∧ (b.chan c).dirtyWrite = false
    · simp [htype, hd] at h
    · rw [if_neg (by simpa using htype), if_neg hd] at h
      exact ⟨htype, fun hdirty => by simpa [hdirty] using hd, h⟩
  · simp [htype] at h

omit [DecidableEq χ] in
/-- What the check of duplicates can do. -/
theorem checkDup_ok {v : Value} {rest : Except EmuFault (Bay χ κ)}
    (h : (do if ← checkDup (b.chan c) v then rest else return b : Except EmuFault (Bay χ κ)) =
      .ok b') :
    (b' = b ∧ (b.chan c).allowDup = false ∧ (b.chan c).ignoreDup = true ∧
        (b.chan c).lastValue = v) ∨
      rest = .ok b' ∧ ((b.chan c).allowDup = true ∨ (b.chan c).lastValue ≠ v) := by
  simp only [checkDup, bind, Except.bind, pure, Except.pure] at h
  by_cases hdup : (b.chan c).allowDup = false ∧ (b.chan c).lastValue = v
  · left
    rw [if_pos hdup] at h
    cases hignore : (b.chan c).ignoreDup with
    | true =>
        simp only [hignore, if_true, Bool.false_eq_true, if_false] at h
        exact ⟨(Except.ok.inj h).symm, hdup.1, rfl, hdup.2⟩
    | false => simp [hignore] at h
  · right
    rw [if_neg hdup] at h
    simp only [if_true] at h
    refine ⟨h, ?_⟩
    by_cases ha : (b.chan c).allowDup = true
    · exact Or.inl ha
    · exact Or.inr fun hv => hdup ⟨by simpa using ha, hv⟩

/-- What `chan_set` can do: ignore a duplicate or write the value. -/
theorem chanSet_ok {v : Value} (h : b.chanSet c v = .ok b') :
    (b.chan c).type = .single ∧
      ((b.chan c).isDirty = true → (b.chan c).dirtyWrite = true) ∧
      ((b' = b ∧ (b.chan c).allowDup = false ∧ (b.chan c).ignoreDup = true ∧
          (b.chan c).lastValue = v) ∨
        b' = b.touch c { b.chan c with value := v } ∧
          ((b.chan c).allowDup = true ∨ (b.chan c).lastValue ≠ v)) := by
  obtain ⟨htype, hdirty, hrest⟩ := guarded_ok h
  refine ⟨htype, hdirty, ?_⟩
  rcases checkDup_ok hrest with hsame | ⟨hset, hnew⟩
  · exact Or.inl hsame
  · exact Or.inr ⟨setDirty_put rfl hset, hnew⟩

/-- What `chan_push` can do: ignore a duplicate or push the value. -/
theorem chanPush_ok {v : Value} (h : b.chanPush c v = .ok b') :
    (b' = b ∧ (b.chan c).allowDup = false ∧ (b.chan c).ignoreDup = true ∧
        (b.chan c).lastValue = v) ∨
      b' = b.touch c { b.chan c with stack := v :: (b.chan c).stack } := by
  obtain ⟨-, -, hrest⟩ := guarded_ok h
  rcases checkDup_ok hrest with hsame | ⟨hset, -⟩
  · exact Or.inl hsame
  · by_cases hfull : maxChanStack ≤ (b.chan c).stack.length
    · rw [if_pos hfull] at hset
      cases hset
    · rw [if_neg hfull] at hset
      exact Or.inr (setDirty_put rfl hset)

/-- What `chan_pop` does with the expected top. -/
theorem chanPop_ok {v : Value} (h : b.chanPop c v = .ok b') :
    ∃ rest, (b.chan c).stack = v :: rest ∧ b' = b.touch c { b.chan c with stack := rest } := by
  obtain ⟨-, -, hrest⟩ := guarded_ok h
  cases hstack : (b.chan c).stack with
  | nil =>
      rw [hstack] at hrest
      cases hrest
  | cons top rest =>
      rw [hstack] at hrest
      by_cases htop : top = v
      · simp only [htop, ne_eq, not_true_eq_false, if_false] at hrest
        exact ⟨rest, by rw [htop], setDirty_put rfl hrest⟩
      · simp only [ne_eq, htop, not_false_eq_true, if_true] at hrest
        cases hrest

end Bay

/-! ## Writes of any kind -/

/-- A write of a channel by a model. -/
inductive ChanOp (χ : Type) where
  | set (c : χ) (v : Value)
  | push (c : χ) (v : Value)
  | pop (c : χ) (v : Value)

section ChanOp

variable {χ κ : Type} [DecidableEq χ] {b b' : Bay χ κ}

/-- The channel that is written. -/
def ChanOp.chan : ChanOp χ → χ
  | .set c _ => c
  | .push c _ => c
  | .pop c _ => c

/-- The write in the bay. -/
def ChanOp.run (op : ChanOp χ) (b : Bay χ κ) : Except EmuFault (Bay χ κ) :=
  match op with
  | .set c v => b.chanSet c v
  | .push c v => b.chanPush c v
  | .pop c v => b.chanPop c v

/-- A write leaves the bay as it was or touches its channel. -/
theorem ChanOp.run_ok {op : ChanOp χ} (h : op.run b = .ok b') :
    b' = b ∨ ∃ chan, Chan.Like (b.chan op.chan) chan ∧ b' = b.touch op.chan chan := by
  cases op with
  | set c v =>
      obtain ⟨-, -, hres⟩ := Bay.chanSet_ok h
      rcases hres with ⟨hsame, -⟩ | ⟨htouch, -⟩
      · exact Or.inl hsame
      · exact Or.inr ⟨{ b.chan c with value := v }, ⟨rfl, rfl, rfl, rfl, rfl⟩, htouch⟩
  | push c v =>
      rcases Bay.chanPush_ok h with ⟨hsame, -⟩ | htouch
      · exact Or.inl hsame
      · exact Or.inr ⟨{ b.chan c with stack := v :: (b.chan c).stack },
          ⟨rfl, rfl, rfl, rfl, rfl⟩, htouch⟩
  | pop c v =>
      obtain ⟨rest, -, htouch⟩ := Bay.chanPop_ok h
      exact Or.inr ⟨{ b.chan c with stack := rest }, ⟨rfl, rfl, rfl, rfl, rfl⟩, htouch⟩

end ChanOp

/-! ## Sequences of writes -/

/-- What a sequence of writes of some channels `src` does: only channels that are
then dirty have changed. -/
structure Bay.Written {χ κ : Type} (src : χ → Prop) (b b' : Bay χ κ) : Prop where
  state : b'.state = b.state
  cb : b'.cb = b.cb
  enabled : b'.enabled = b.enabled
  like : ∀ c, Chan.Like (b.chan c) (b'.chan c)
  same : ∀ c, c ∉ b'.dirty → b'.chan c = b.chan c
  mono : ∀ c ∈ b.dirty, c ∈ b'.dirty
  only : ∀ c ∈ b'.dirty, c ∈ b.dirty ∨ src c
  apart : ∀ c, ¬ src c → b'.chan c = b.chan c
  dirtyOk : b'.DirtyOk

namespace Bay.Written

variable {χ κ : Type} {src : χ → Prop} {b b' b'' : Bay χ κ}

theorem refl (h : b.DirtyOk) : Bay.Written src b b :=
  ⟨rfl, rfl, rfl, fun _ => Chan.Like.refl _, fun _ _ => rfl, fun _ hc => hc,
    fun _ hc => Or.inl hc, fun _ _ => rfl, h⟩

theorem trans (h : Bay.Written src b b') (h' : Bay.Written src b' b'') :
    Bay.Written src b b'' := by
  refine ⟨h'.state.trans h.state, h'.cb.trans h.cb, h'.enabled.trans h.enabled, fun c => ?_,
    fun c hc => ?_, fun c hc => h'.mono c (h.mono c hc), fun c hc => ?_, fun c hc => ?_,
    h'.dirtyOk⟩
  · have h1 := h.like c
    have h2 := h'.like c
    exact ⟨h2.type.trans h1.type, h2.dirtyWrite.trans h1.dirtyWrite,
      h2.allowDup.trans h1.allowDup, h2.ignoreDup.trans h1.ignoreDup,
      h2.lastValue.trans h1.lastValue⟩
  · rw [h'.same c hc]
    exact h.same c fun hmem => hc (h'.mono c hmem)
  · rcases h'.only c hc with hmem | hsrc
    · exact h.only c hmem
    · exact Or.inr hsrc
  · rw [h'.apart c hc, h.apart c hc]

theorem read_of_not_mem (h : Bay.Written src b b') {c : χ} (hc : c ∉ b'.dirty) :
    b'.read c = b.read c := by
  unfold Bay.read
  rw [h.same c hc]

theorem read_of_not_src (h : Bay.Written src b b') {c : χ} (hc : ¬ src c) :
    b'.read c = b.read c := by
  unfold Bay.read
  rw [h.apart c hc]

variable [DecidableEq χ]

theorem touch (h : b.DirtyOk) {c : χ} (hc : src c) {chan : Chan}
    (hlike : Chan.Like (b.chan c) chan) : Bay.Written src b (b.touch c chan) := by
  refine ⟨rfl, rfl, rfl, fun x => ?_, fun x hx => ?_, fun x hx => ?_, fun x hx => ?_,
    fun x hx => ?_, h.touch chan⟩
  · by_cases hxc : x = c
    · subst hxc
      rw [touch_chan_self]
      exact ⟨hlike.type, hlike.dirtyWrite, hlike.allowDup, hlike.ignoreDup, hlike.lastValue⟩
    · rw [touch_chan_of_ne _ hxc]
      exact Chan.Like.refl _
  · apply touch_chan_of_ne
    rintro rfl
    refine hx (((h.touch chan).mem_iff x).mpr ?_)
    rw [touch_chan_self]
  · rcases touch_dirty_cases h (c := c) chan with ⟨-, hd⟩ | ⟨-, hd⟩
    · rwa [hd]
    · rw [hd]
      exact List.mem_append_left _ hx
  · rcases touch_dirty_cases h (c := c) chan with ⟨-, hd⟩ | ⟨-, hd⟩
    · exact Or.inl (hd ▸ hx)
    · rw [hd, List.mem_append, List.mem_singleton] at hx
      rcases hx with hx | rfl
      · exact Or.inl hx
      · exact Or.inr hc
  · apply touch_chan_of_ne
    rintro rfl
    exact hx hc

theorem chanSet (h : b.DirtyOk) {c : χ} (hc : src c) {v : Value}
    (hset : b.chanSet c v = .ok b') : Bay.Written src b b' := by
  obtain ⟨-, -, hres⟩ := Bay.chanSet_ok hset
  rcases hres with ⟨rfl, -⟩ | ⟨rfl, -⟩
  · exact refl h
  · exact touch h hc ⟨rfl, rfl, rfl, rfl, rfl⟩

theorem op (h : b.DirtyOk) {op : ChanOp χ} (hc : src op.chan) (hrun : op.run b = .ok b') :
    Bay.Written src b b' := by
  rcases op.run_ok hrun with rfl | ⟨chan, hlike, rfl⟩
  · exact refl h
  · exact touch h hc hlike

end Bay.Written

/-! ## Flushing -/

namespace Bay

variable {χ κ : Type} [DecidableEq χ] {b b' : Bay χ κ}

/-- A channel after `chan_flush`. -/
def flushed (chan : Chan) : Chan := { chan with lastValue := chanRead chan, isDirty := false }

/-- A flush does not change what is read. -/
theorem chanRead_ite_flushed (P : Prop) [Decidable P] (chan : Chan) :
    chanRead (if P then flushed chan else chan) = chanRead chan := by
  split
  · rfl
  · rfl

theorem flushAll_ok {cs : List χ} (h : b.flushAll cs = .ok b') :
    b' = { b with chan := fun c => if c ∈ cs then flushed (b.chan c) else b.chan c } := by
  induction cs generalizing b with
  | nil =>
      rw [← Except.ok.inj h]
      simp
  | cons c cs ih =>
      unfold flushAll chanFlush at h
      by_cases hd : (b.chan c).isDirty = false
      · rw [if_pos hd] at h
        cases h
      · rw [if_neg hd] at h
        rw [ih h]
        simp only [put]
        congr 1
        funext x
        by_cases hx : x = c
        · subst hx
          simp only [Function.update_self, List.mem_cons, true_or, if_true]
          split <;> rfl
        · simp [hx]

end Bay

/-! ## Concrete runs -/

/-- The result of a step that did not fail. -/
def okOr {α : Type} (d : α) (e : Except EmuFault α) : α :=
  match e with
  | .ok a => a
  | .error _ => d

theorem eq_okOr {α : Type} (d : α) {e : Except EmuFault α} (h : e.isOk = true) :
    e = .ok (okOr d e) := by
  cases e with
  | error e => cases h
  | ok a => rfl

end Ovni
