import Ovni.Patch.Run

/-!
# The lines of a propagation

The emit phase goes over the dirty channels and calls the hook of each Paraver
channel that is registered for one of them, once.  A hook leaves out a value that it
knows or writes one line, so a propagation writes at most one line for each row and
type.
-/

namespace Ovni

open Ovni.Lib

variable {χ μ ς ρ φ : Type}

/-- The line is of the row and type of the channel. -/
def PrvChan.owns (rchan : PrvChan χ φ) (line : PrvLine) : Bool :=
  line.row = rchan.row + 1 && line.type = rchan.type

/-- The number for a value in a trace. -/
def PrvFlags.encode (flags : PrvFlags) : Value → Int
  | .int64 i => if flags.next then i + 1 else i
  | _ => 0

theorem prvValue_encode {flags : PrvFlags} {value : Value} {val : Int}
    (h : prvValue flags value = .ok val) : val = flags.encode value := by
  cases value with
  | null => exact (Except.ok.inj h).symm
  | int64 i =>
      unfold prvValue at h
      simp only at h
      obtain ⟨-, h⟩ := guard_ok h
      obtain ⟨-, h⟩ := guard_ok h
      exact (Except.ok.inj h).symm
  | double bits => cases h

/-! ## The emit phase -/

section Emit

variable [DecidableEq χ] [DecidableEq μ] [DecidableEq ς] [DecidableEq ρ] [DecidableEq φ]
  {p : Patch χ μ ς ρ φ} {parts : List (Part μ ς ρ)} {w w' : PatchWorld χ μ ς ρ φ}

/-- Emit some channels one after the other. -/
def emitAll (p : Patch χ μ ς ρ φ) : List ρ → PatchWorld χ μ ς ρ φ →
    Except EmuFault (PatchWorld χ μ ς ρ φ)
  | [], w => .ok w
  | r :: rs, w => do emitAll p rs (← emit p r w)

omit [DecidableEq χ] [DecidableEq μ] [DecidableEq ς] in
theorem emitAll_append {rs : List ρ} {r : ρ} {w1 : PatchWorld χ μ ς ρ φ}
    (h : emitAll p rs w = .ok w1) (hr : emit p r w1 = .ok w') :
    emitAll p (rs ++ [r]) w = .ok w' := by
  induction rs generalizing w with
  | nil =>
      rw [emitAll] at h
      obtain rfl := Except.ok.inj h
      rw [List.nil_append, emitAll, hr]
      rfl
  | cons r0 rs ih =>
      rw [emitAll] at h
      obtain ⟨w0, h0, h⟩ := bind_ok h
      rw [List.cons_append, emitAll, h0]
      exact ih h

/-- Of the registered channels, those of `done` were emitted, each once. -/
def Emitted (p : Patch χ μ ς ρ φ) (parts : List (Part μ ς ρ)) (w : PatchWorld χ μ ς ρ φ)
    (done : ρ → Prop) (w1 : PatchWorld χ μ ς ρ φ) : Prop :=
  w1.bay = w.bay ∧ ∃ rs : List ρ, rs.Nodup ∧
    (∀ r, r ∈ rs ↔ .prv r ∈ partHooks parts ∧ done r) ∧ emitAll p rs w = .ok w1

omit [DecidableEq χ] [DecidableEq μ] [DecidableEq ς] in
theorem Emitted.congr {done done' : ρ → Prop} {w1 : PatchWorld χ μ ς ρ φ}
    (h : Emitted p parts w done w1) (hdone : ∀ r, .prv r ∈ partHooks parts → (done r ↔ done' r)) :
    Emitted p parts w done' w1 := by
  obtain ⟨hbay, rs, hnodup, hmem, hall⟩ := h
  refine ⟨hbay, rs, hnodup, fun r => ?_, hall⟩
  rw [hmem r]
  exact and_congr_right (hdone r)

omit [DecidableEq χ] [DecidableEq μ] [DecidableEq ς] in
theorem Emitted.emit {done : ρ → Prop} {w1 : PatchWorld χ μ ς ρ φ} {r : ρ}
    (h : Emitted p parts w done w1) (hr : .prv r ∈ partHooks parts) (hnew : ¬ done r)
    (hrun : Ovni.emit p r w1 = .ok w') : Emitted p parts w (fun r' => done r' ∨ r' = r) w' := by
  obtain ⟨hbay, rs, hnodup, hmem, hall⟩ := h
  have hrs : r ∉ rs := fun hin => hnew ((hmem r).mp hin).2
  refine ⟨(emit_bay hrun).1.trans hbay, rs ++ [r], ?_, fun r' => ?_, emitAll_append hall hrun⟩
  · rw [List.nodup_append]
    refine ⟨hnodup, by simp, fun a ha b hb => ?_⟩
    rw [List.mem_singleton.mp hb]
    rintro rfl
    exact hrs ha
  · rw [List.mem_append, List.mem_singleton, hmem r']
    constructor
    · rintro (⟨hin, hdone⟩ | rfl)
      · exact ⟨hin, Or.inl hdone⟩
      · exact ⟨hr, Or.inr rfl⟩
    · rintro ⟨hin, hdone | rfl⟩
      · exact Or.inl ⟨hin, hdone⟩
      · exact Or.inr rfl

/-- The visit of a channel emits what is registered for it. -/
theorem PatchWired.emits_chan (h : PatchWired p parts w) {done : ρ → Prop} {c : χ} {fuel : Nat}
    {w1 w2 : PatchWorld χ μ ς ρ φ} (hdone : Emitted p parts w done w1)
    (hnew : ∀ r, done r → (p.rchan r).chan ≠ c)
    (hrun : propagateChan p.net.call .emit c fuel (w1.bay.cb .emit c).head? w1 = .ok w2) :
    Emitted p parts w (fun r => done r ∨ (p.rchan r).chan = c) w2 := by
  have hnodup := h.wired.nodup .emit c
  -- The callbacks of the channel that are not left are done
  refine (propagateChan_inv (fun R w1 => Emitted p parts w (fun r => done r ∨
      (p.rchan r).chan = c ∧ .other (.prv r) ∉ R) w1 ∧ ∀ k ∈ R, k ∈ w.bay.cb .emit c)
    (fun R w1 hR => by rw [hR.1.1]; exact hnodup) ?_ ⟨?_, ?_⟩ hrun).1.congr fun r _ => by simp
  · rintro k w1 w2 ⟨hemitted, hleft⟩ hcall
    have hk := hleft k List.mem_cons_self
    cases k with
    | select m => exact absurd ((h.wired.select_mem m .emit c).mp hk).2.1 (by simp)
    | input m j => exact absurd ((h.wired.input_mem m j .emit c).mp hk).1 (by simp)
    | other k =>
        cases k with
        | sort s index => exact absurd ((h.hook_mem _ .emit c).mp hk).2.1 (by simp [Hook.type])
        | prv r =>
            obtain ⟨hr, -, hchan⟩ := (h.hook_mem _ .emit c).mp hk
            have hchan : (p.rchan r).chan = c := Option.some.inj hchan
            have hnext := hemitted.emit hr (by
              rintro (hd | ⟨-, hout⟩)
              · exact hnew r hd hchan
              · exact hout List.mem_cons_self) hcall
            refine ⟨hnext.congr fun r' hr' => ?_, fun x hx => ?_⟩
            · rw [hemitted.1, hnext.1]
              have hself : (.other (.prv r) : Cb μ (Hook ς ρ)) ∉
                  cbsAfter (.other (.prv r)) (w.bay.cb .emit c) := not_mem_cbsAfter_self hnodup
              by_cases hrr : r' = r
              · subst hrr
                simp [hchan, hself]
              · simp [hrr]
            · rw [hnext.1] at hx
              exact mem_of_mem_cbsAfter hx
  · rw [cbsFrom_head, hdone.1]
    refine hdone.congr fun r hr => ⟨Or.inl, fun hin => hin.resolve_right ?_⟩
    rintro ⟨hchan, hout⟩
    exact hout ((h.hook_mem _ .emit c).mpr ⟨hr, rfl, congrArg some hchan⟩)
  · rw [cbsFrom_head, hdone.1]
    exact fun k hk => hk

/-- The emit phase emits each registered channel that is dirty, once. -/
theorem PatchWired.emits (h : PatchWired p parts w) (hd : w.bay.DirtyOk) {fuel : Nat}
    (hrun : propagateList p.net.call .emit fuel 0 w = .ok w') :
    Emitted p parts w (fun r => (p.rchan r).chan ∈ w.bay.dirty) w' := by
  obtain ⟨j, hdone, hend⟩ := propagateList_inv
    (fun i w1 => Emitted p parts w (fun r => (p.rchan r).chan ∈ w.bay.dirty.take i) w1)
    (fun fuel i c w1 w2 hdone hc hchan => by
      rw [hdone.1] at hc
      obtain ⟨hi, hget⟩ := List.getElem?_eq_some_iff.mp hc
      have htake : w.bay.dirty.take (i + 1) = w.bay.dirty.take i ++ [c] := by
        rw [List.take_succ_eq_append_getElem hi, hget]
      have hnew : c ∉ w.bay.dirty.take i := by
        have := hd.nodup.sublist (List.take_sublist (i + 1) w.bay.dirty)
        rw [htake, List.nodup_append] at this
        exact fun hmem => this.2.2 c hmem c List.mem_cons_self rfl
      have hapart : ∀ r, (p.rchan r).chan ∈ w.bay.dirty.take i → (p.rchan r).chan ≠ c := by
        rintro r hr rfl
        exact hnew hr
      apply (h.emits_chan hdone hapart hchan).congr
      intro r _
      rw [htake, List.mem_append, List.mem_singleton])
    ⟨rfl, [], List.nodup_nil, by simp, rfl⟩ hrun
  rw [hdone.1] at hend
  apply hdone.congr
  intro r _
  rw [List.take_of_length_le (List.getElem?_eq_none_iff.mp hend)]

/-! ## The lines of a propagation -/

/-- The line that a channel writes. -/
def Patch.line (p : Patch χ μ ς ρ φ) (r : ρ) (w : PatchWorld χ μ ς ρ φ) : PrvLine :=
  { row := (p.rchan r).row + 1, time := (w.mod.other.prv (p.rchan r).prv).time,
    type := (p.rchan r).type, value := (p.rchan r).flags.encode (w.bay.read (p.rchan r).chan) }

/-- The `last_value` of a channel after it writes a line. -/
def Patch.remember (p : Patch χ μ ς ρ φ) (r : ρ) (w : PatchWorld χ μ ς ρ φ) : Option Value :=
  if (p.rchan r).flags.emitDup then w.mod.other.lastValue r
  else some (w.bay.read (p.rchan r).chan)

omit [DecidableEq χ] [DecidableEq μ] [DecidableEq ς] in
/-- What `emit` can do: leave out a value that it knows, or write a line. -/
theorem emit_ok {r : ρ} (h : emit p r w = .ok w') :
    (w' = w ∧ (p.rchan r).flags.emitDup = false ∧
        w.mod.other.lastValue r = some (w.bay.read (p.rchan r).chan)) ∨
      w' = w.setSinks { w.mod.other with
        lastValue := Function.update w.mod.other.lastValue r (p.remember r w)
        prv := Function.update w.mod.other.prv (p.rchan r).prv
          { w.mod.other.prv (p.rchan r).prv with
            lines := p.line r w :: (w.mod.other.prv (p.rchan r).prv).lines } } := by
  unfold emit at h
  simp only at h
  split at h
  · rename_i hskip
    left
    refine ⟨(Except.ok.inj h).symm, ?_⟩
    unfold dupAction at hskip
    cases hdup : (p.rchan r).flags.emitDup with
    | true => simp [hdup] at hskip
    | false =>
        refine ⟨rfl, ?_⟩
        by_contra hne
        simp [hdup, isValueDup, hne] at hskip
  · cases h
  · right
    obtain ⟨val, hval, h⟩ := bind_ok h
    rw [← Except.ok.inj h, prvValue_encode hval]
    unfold Patch.remember writeLine Patch.line World.setSinks
    cases hdup : (p.rchan r).flags.emitDup with
    | true => simp
    | false => simp

/-- No two of the channels are for the same row and type of a trace. -/
def Distinct (p : Patch χ μ ς ρ φ) (S : ρ → Prop) : Prop :=
  ∀ r r', S r → S r' → (p.rchan r).prv = (p.rchan r').prv → (p.rchan r).row = (p.rchan r').row →
    (p.rchan r).type = (p.rchan r').type → r = r'

/-- The lines `new` that emitting some channels adds to each trace. -/
structure Emission (p : Patch χ μ ς ρ φ) (rs : List ρ) (w w' : PatchWorld χ μ ς ρ φ)
    (new : φ → List PrvLine) : Prop where
  lines : ∀ f, (w'.mod.other.prv f).lines = new f ++ (w.mod.other.prv f).lines
  time : ∀ f, (w'.mod.other.prv f).time = (w.mod.other.prv f).time
  owned : ∀ f, ∀ l ∈ new f, l.time = (w.mod.other.prv f).time ∧
    ∃ r ∈ rs, (p.rchan r).prv = f ∧ (p.rchan r).owns l = true
  emitted : ∀ r ∈ rs,
    ((new (p.rchan r).prv).filter (p.rchan r).owns = [p.line r w] ∧
        w'.mod.other.lastValue r = p.remember r w) ∨
      (new (p.rchan r).prv).filter (p.rchan r).owns = [] ∧ (p.rchan r).flags.emitDup = false ∧
        w.mod.other.lastValue r = some (w.bay.read (p.rchan r).chan) ∧
        w'.mod.other.lastValue r = w.mod.other.lastValue r
  kept : ∀ r, r ∉ rs → w'.mod.other.lastValue r = w.mod.other.lastValue r

omit [DecidableEq χ] [DecidableEq μ] [DecidableEq ς] [DecidableEq ρ] [DecidableEq φ] in
theorem owns_iff {r : ρ} {l : PrvLine} : (p.rchan r).owns l = true ↔
    l.row = (p.rchan r).row + 1 ∧ l.type = (p.rchan r).type := by
  simp [PrvChan.owns]

omit [DecidableEq χ] [DecidableEq μ] [DecidableEq ς] [DecidableEq ρ] [DecidableEq φ] in
theorem owns_line {r r' : ρ} : (p.rchan r').owns (p.line r w) = true ↔
    (p.rchan r).row = (p.rchan r').row ∧ (p.rchan r).type = (p.rchan r').type := by
  rw [owns_iff]
  simp [Patch.line]

omit [DecidableEq χ] [DecidableEq μ] [DecidableEq ς] [DecidableEq ρ] [DecidableEq φ] in
/-- The lines that some channels wrote are not of another one. -/
theorem Emission.no_line {r : ρ} {rs : List ρ} {new : φ → List PrvLine}
    (h : Emission p rs w w' new) (hr : r ∉ rs) (hdist : Distinct p (· ∈ r :: rs)) :
    (new (p.rchan r).prv).filter (p.rchan r).owns = [] := by
  apply List.filter_eq_nil_iff.mpr
  intro l hl hown
  obtain ⟨-, r', hr', hprv, hown'⟩ := h.owned _ l hl
  rw [owns_iff] at hown hown'
  have := hdist r r' List.mem_cons_self (List.mem_cons_of_mem r hr') hprv.symm (by omega)
    (hown.2.symm.trans hown'.2)
  exact hr (this ▸ hr')

omit [DecidableEq χ] [DecidableEq μ] [DecidableEq ς] [DecidableEq ρ] in
/-- The line of a channel is not of the others. -/
theorem filter_update_line {r r' : ρ} {rs : List ρ} (hr' : r' ∈ rs) (hne : r' ≠ r)
    (hdist : Distinct p (· ∈ r :: rs)) (new : φ → List PrvLine) :
    (Function.update new (p.rchan r).prv (new (p.rchan r).prv ++ [p.line r w])
        (p.rchan r').prv).filter (p.rchan r').owns =
      (new (p.rchan r').prv).filter (p.rchan r').owns := by
  by_cases hf : (p.rchan r').prv = (p.rchan r).prv
  · have hnot : (p.rchan r').owns (p.line r w) = false := by
      rw [← Bool.not_eq_true, owns_line]
      rintro ⟨hrow, htype⟩
      exact hne (hdist r' r (List.mem_cons_of_mem r hr') List.mem_cons_self hf hrow.symm
        htype.symm)
    rw [hf, Function.update_self, List.filter_append]
    simp [hnot]
  · rw [Function.update_of_ne hf]

omit [DecidableEq χ] [DecidableEq μ] [DecidableEq ς] in
/-- A line is only of the channel that wrote it. -/
theorem Emission.cons {r : ρ} {rs : List ρ} {w1 : PatchWorld χ μ ς ρ φ}
    {new : φ → List PrvLine} (hrs : Emission p rs w1 w' new) (hbay : w1.bay = w.bay)
    (hr : r ∉ rs) (hdist : Distinct p (· ∈ r :: rs))
    (hw1 : w1.mod.other = { w.mod.other with
      lastValue := Function.update w.mod.other.lastValue r (p.remember r w)
      prv := Function.update w.mod.other.prv (p.rchan r).prv
        { w.mod.other.prv (p.rchan r).prv with
          lines := p.line r w :: (w.mod.other.prv (p.rchan r).prv).lines } }) :
    Emission p (r :: rs) w w'
      (Function.update new (p.rchan r).prv (new (p.rchan r).prv ++ [p.line r w])) := by
  have htime : ∀ f, (w1.mod.other.prv f).time = (w.mod.other.prv f).time := by
    intro f
    rw [hw1]
    by_cases hf : f = (p.rchan r).prv
    · subst hf
      simp
    · simp [Function.update_of_ne hf]
  constructor
  case lines =>
    intro f
    rw [hrs.lines f, hw1]
    by_cases hf : f = (p.rchan r).prv
    · subst hf
      simp
    · simp [Function.update_of_ne hf]
  case time =>
    intro f
    rw [hrs.time f, htime f]
  case owned =>
    intro f l hl
    have hold : l ∈ new f → l.time = (w.mod.other.prv f).time ∧
        ∃ r' ∈ r :: rs, (p.rchan r').prv = f ∧ (p.rchan r').owns l = true := by
      intro hl
      obtain ⟨ht, r', hr', hown⟩ := hrs.owned f l hl
      exact ⟨ht.trans (htime f), r', List.mem_cons_of_mem r hr', hown⟩
    by_cases hf : f = (p.rchan r).prv
    · subst hf
      rw [Function.update_self, List.mem_append, List.mem_singleton] at hl
      rcases hl with hl | rfl
      · exact hold hl
      · exact ⟨rfl, r, List.mem_cons_self, rfl, owns_line.mpr ⟨rfl, rfl⟩⟩
    · rw [Function.update_of_ne hf] at hl
      exact hold hl
  case emitted =>
    intro r' hr'
    rcases List.mem_cons.mp hr' with rfl | hmem
    · left
      rw [Function.update_self, List.filter_append, hrs.no_line hr hdist, hrs.kept r' hr, hw1]
      simp [owns_line]
    · have hne : r' ≠ r := by
        rintro rfl
        exact hr hmem
      have hlast : w1.mod.other.lastValue r' = w.mod.other.lastValue r' := by
        rw [hw1]
        simp [Function.update_of_ne hne]
      have hline : p.line r' w1 = p.line r' w := by
        unfold Patch.line
        rw [htime, hbay]
      have hrem : p.remember r' w1 = p.remember r' w := by
        unfold Patch.remember
        rw [hlast, hbay]
      rw [filter_update_line hmem hne hdist]
      rcases hrs.emitted r' hmem with ⟨hl, hv⟩ | ⟨hl, hdup, hv, hv'⟩
      · exact Or.inl ⟨hline ▸ hl, hrem ▸ hv⟩
      · rw [hlast, hbay] at hv
        exact Or.inr ⟨hl, hdup, hv, hv'.trans hlast⟩
  case kept =>
    intro r' hr'
    rw [List.mem_cons, not_or] at hr'
    rw [hrs.kept r' hr'.2, hw1]
    simp [Function.update_of_ne hr'.1]

omit [DecidableEq χ] [DecidableEq μ] [DecidableEq ς] in
/-- Emitting channels for different rows and types. -/
theorem emitAll_emission {rs : List ρ} (hnodup : rs.Nodup) (hdist : Distinct p (· ∈ rs))
    (h : emitAll p rs w = .ok w') : ∃ new, Emission p rs w w' new := by
  induction rs generalizing w with
  | nil =>
      rw [emitAll] at h
      rw [← Except.ok.inj h]
      exact ⟨fun _ => [], fun _ => rfl, fun _ => rfl, by simp, by simp, fun _ _ => rfl⟩
  | cons r rs ih =>
      rw [emitAll] at h
      obtain ⟨w1, hr, h⟩ := bind_ok h
      obtain ⟨hnot, hrest⟩ := List.nodup_cons.mp hnodup
      obtain ⟨new, hnew⟩ := ih hrest (fun a b ha hb =>
        hdist a b (List.mem_cons_of_mem r ha) (List.mem_cons_of_mem r hb)) h
      rcases emit_ok hr with ⟨rfl, hdup, hlast⟩ | hw1
      · refine ⟨new, hnew.lines, hnew.time, fun f l hl => ?_, fun r' hr' => ?_, fun r' hr' => ?_⟩
        · obtain ⟨ht, r', hr', hown⟩ := hnew.owned f l hl
          exact ⟨ht, r', List.mem_cons_of_mem r hr', hown⟩
        · rcases List.mem_cons.mp hr' with rfl | hr'
          · refine Or.inr ⟨List.filter_eq_nil_iff.mpr fun l hl hown => ?_, hdup, hlast,
              hnew.kept r' hnot⟩
            obtain ⟨-, r0, hr0, hprv, hown0⟩ := hnew.owned _ l hl
            rw [owns_iff] at hown hown0
            have := hdist r' r0 List.mem_cons_self (List.mem_cons_of_mem r' hr0) hprv.symm
              (by omega) (hown.2.symm.trans hown0.2)
            exact hnot (this ▸ hr0)
          · exact hnew.emitted r' hr'
        · exact hnew.kept r' fun hin => hr' (List.mem_cons_of_mem r hin)
      · exact ⟨_, hnew.cons (emit_bay hr).1 hnot hdist (by rw [hw1]; rfl)⟩

/-- The traces do not change in the dirty phase. -/
theorem PatchWired.dirty_prv (h : PatchWired p parts w) (hd : w.bay.DirtyOk) {fuel : Nat}
    (hrun : propagateList p.net.call .dirty fuel 0 w = .ok w') :
    w'.mod.other.prv = w.mod.other.prv ∧ w'.mod.other.lastValue = w.mod.other.lastValue := by
  refine (h.walk (fun w1 => w1.mod.other.prv = w.mod.other.prv ∧
    w1.mod.other.lastValue = w.mod.other.lastValue) ?_ hd ⟨rfl, rfl⟩ hrun).2.2
  rintro k c w1 w2 hw1 hd1 ⟨hprv, hlast⟩ hk - hcall
  cases k with
  | select m =>
      rw [cbSelect_other hcall]
      exact ⟨hprv, hlast⟩
  | input m j =>
      rw [World.chanSet_mod hcall]
      exact ⟨hprv, hlast⟩
  | other k =>
      obtain ⟨-, hty, -⟩ := (hw1.hook_mem k .dirty c).mp hk
      cases k with
      | prv r => cases hty
      | sort s index =>
          obtain ⟨old, -, ⟨-, rfl⟩ | ⟨-, sorted, b', -, -, rfl⟩⟩ := sortCbInput_ok hcall
          · exact ⟨hprv, hlast⟩
          · exact ⟨hprv, hlast⟩

end Emit

end Ovni
