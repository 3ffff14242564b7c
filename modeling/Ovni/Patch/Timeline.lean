import Ovni.Lib.Timeline
import Ovni.Patch.Emit

/-!
# The timeline of a trace

A trace only has lines for the values that changed, and some of them are left out
as duplicates.  What a reader sees of a row and type at a time is the last line up
to then, and it is always the value that the channel had after the last propagation
up to then.
-/

namespace Ovni

open Ovni.Lib

variable {χ μ ς ρ φ : Type}

/-! ## What a trace shows -/

/-- The value that the trace shows for a channel at a time. -/
def PrvChan.shown (rchan : PrvChan χ φ) (lines : List PrvLine) (t : Int) : Int :=
  match lastAt rchan.owns PrvLine.time lines t with
  | none => 0
  | some line => line.value

/-- The value of a channel after the last propagation up to a time. -/
def valueAt (f : φ) (c : χ) (hist : List (Propagation χ φ)) (t : Int) : Value :=
  match lastAt (fun _ => true) (Propagation.time · f) hist t with
  | none => .null
  | some prop => prop.read c

/-! ## Runs -/

section Run

variable {p : Patch χ μ ς ρ φ} {parts : List (Part μ ς ρ)} {hist : List (Propagation χ φ)}
  {w w' : PatchWorld χ μ ς ρ φ}

/-- The value of a channel after the last propagation. -/
def latest (c : χ) : List (Propagation χ φ) → Value
  | [] => .null
  | prop :: _ => prop.read c

/-- The value that the trace shows for a channel at the end. -/
def PrvChan.shownLast (rchan : PrvChan χ φ) (lines : List PrvLine) : Int :=
  match lines.find? rchan.owns with
  | none => 0
  | some line => line.value

theorem shown_of_le {rchan : PrvChan χ φ} {lines : List PrvLine} {t : Int}
    (h : ∀ l ∈ lines, l.time ≤ t) : rchan.shown lines t = rchan.shownLast lines := by
  unfold PrvChan.shown PrvChan.shownLast
  rw [lastAt_eq_find _ _ h]

theorem valueAt_of_le {f : φ} {c : χ} {t : Int} (h : ∀ q ∈ hist, q.time f ≤ t) :
    valueAt f c hist t = latest c hist := by
  unfold valueAt
  rw [lastAt_eq_find _ (Propagation.time · f) h]
  cases hist with
  | nil => rfl
  | cons q hist => rfl

/-- What the lines of one propagation are. -/
def LinesOk (p : Patch χ μ ς ρ φ) (parts : List (Part μ ς ρ)) (f : φ)
    (lines : List PrvLine) : Prop :=
  (∀ row type, (lines.filter fun l => l.row = row && l.type = type).length ≤ 1) ∧
    ∀ l ∈ lines, ∃ r, .prv r ∈ partHooks parts ∧ (p.rchan r).prv = f ∧
      l.row = (p.rchan r).row + 1 ∧ l.type = (p.rchan r).type

/-- The traces after some propagations. -/
structure Shown (p : Patch χ μ ς ρ φ) (parts : List (Part μ ς ρ))
    (hist : List (Propagation χ φ)) (w : PatchWorld χ μ ς ρ φ) : Prop where
  shown : ∀ r, .prv r ∈ partHooks parts → ∀ t,
    (p.rchan r).shown (w.mod.other.prv (p.rchan r).prv).lines t =
      (p.rchan r).flags.encode (valueAt (p.rchan r).prv (p.rchan r).chan hist t)
  known : ∀ r v, .prv r ∈ partHooks parts → w.mod.other.lastValue r = some v →
    (p.rchan r).flags.emitDup = false ∧
      (p.rchan r).shownLast (w.mod.other.prv (p.rchan r).prv).lines = (p.rchan r).flags.encode v
  lineTime : ∀ f, ∀ l ∈ (w.mod.other.prv f).lines, l.time ≤ (w.mod.other.prv f).time
  sorted : ∀ f, (w.mod.other.prv f).lines.Pairwise fun a b => b.time ≤ a.time
  histTime : ∀ f, ∀ q ∈ hist, q.time f ≤ (w.mod.other.prv f).time
  current : ∀ c, (w.bay.chan c).isDirty = false → w.bay.read c = latest c hist
  lines : ∀ q ∈ hist, ∀ f, LinesOk p parts f (q.lines f)

theorem Shown.shownLast (h : Shown p parts hist w) {r : ρ} (hr : .prv r ∈ partHooks parts) :
    (p.rchan r).shownLast (w.mod.other.prv (p.rchan r).prv).lines =
      (p.rchan r).flags.encode (latest (p.rchan r).chan hist) := by
  rw [← shown_of_le (h.lineTime _), h.shown r hr, valueAt_of_le (h.histTime _)]

/-- The new lines of a channel decide what is shown. -/
theorem shownLast_append {rchan : PrvChan χ φ} {new lines : List PrvLine} :
    rchan.shownLast (new ++ lines) = match new.filter rchan.owns with
      | [] => rchan.shownLast lines
      | line :: _ => line.value := by
  unfold PrvChan.shownLast
  rw [List.find?_append, ← List.head?_filter]
  cases new.filter rchan.owns with
  | nil => rfl
  | cons line rest => rfl

variable [DecidableEq χ] [DecidableEq μ] [DecidableEq ς] [DecidableEq ρ] [DecidableEq φ]

omit [DecidableEq χ] [DecidableEq μ] [DecidableEq ς] [DecidableEq ρ] [DecidableEq φ] in
/-- The lines of a propagation are of different rows and types. -/
theorem Emission.linesOk {rs : List ρ} {new : φ → List PrvLine} (h : Emission p rs w w' new)
    (hrs : ∀ r ∈ rs, .prv r ∈ partHooks parts) (f : φ) : LinesOk p parts f (new f) := by
  refine ⟨fun row type => ?_, fun l hl => ?_⟩
  · by_cases hnil : (new f).filter (fun l => l.row = row && l.type = type) = []
    · rw [hnil]
      exact Nat.zero_le _
    · obtain ⟨l, hl⟩ := List.exists_mem_of_ne_nil _ hnil
      obtain ⟨hmem, hpair⟩ := List.mem_filter.mp hl
      obtain ⟨-, r, hr, rfl, hown⟩ := h.owned f l hmem
      rw [owns_iff] at hown
      have hfilter : (new (p.rchan r).prv).filter (fun l => l.row = row && l.type = type) =
          (new (p.rchan r).prv).filter (p.rchan r).owns := by
        simp only [Bool.and_eq_true, decide_eq_true_eq] at hpair
        unfold PrvChan.owns
        rw [← hown.1, ← hown.2, hpair.1, hpair.2]
      rw [hfilter]
      rcases h.emitted r hr with ⟨hone, -⟩ | ⟨hnone, -⟩
      · rw [hone]
        exact Nat.le_refl _
      · rw [hnone]
        exact Nat.zero_le _
  · obtain ⟨-, r, hr, hprv, hown⟩ := h.owned f l hl
    exact ⟨r, hrs r hr, hprv, owns_iff.mp hown⟩

omit [DecidableEq χ] [DecidableEq μ] [DecidableEq ς] [DecidableEq φ] in
/-- What a registered channel shows after the emit phase is the value it has then. -/
theorem Emission.shownLast {rs : List ρ} {new : φ → List PrvLine} {we : PatchWorld χ μ ς ρ φ}
    (h : Emission p rs we w' new) (hshown : Shown p parts hist w)
    (hprv : we.mod.other.prv = w.mod.other.prv)
    (hlast : we.mod.other.lastValue = w.mod.other.lastValue)
    (hdist : Distinct p fun r => .prv r ∈ partHooks parts)
    (hrs : ∀ r ∈ rs, .prv r ∈ partHooks parts) {r : ρ} (hr : .prv r ∈ partHooks parts)
    (hclean : r ∉ rs → we.bay.read (p.rchan r).chan = latest (p.rchan r).chan hist) :
    (p.rchan r).shownLast (w'.mod.other.prv (p.rchan r).prv).lines =
      (p.rchan r).flags.encode (we.bay.read (p.rchan r).chan) := by
  rw [h.lines, shownLast_append, hprv]
  by_cases hmem : r ∈ rs
  · rcases h.emitted r hmem with ⟨hone, -⟩ | ⟨hnone, -, hv, -⟩
    · rw [hone]
      rfl
    · rw [hnone]
      rw [hlast] at hv
      exact (hshown.known r _ hr hv).2
  · have hnone : (new (p.rchan r).prv).filter (p.rchan r).owns = [] := by
      refine List.filter_eq_nil_iff.mpr fun l hl hown => hmem ?_
      obtain ⟨-, r', hr', hprv, hown'⟩ := h.owned _ l hl
      rw [owns_iff] at hown hown'
      rw [hdist r r' hr (hrs r' hr') hprv.symm (by omega) (hown.2.symm.trans hown'.2)]
      exact hr'
    rw [hnone, hclean hmem]
    exact hshown.shownLast hr

omit [DecidableEq χ] [DecidableEq μ] [DecidableEq ς] [DecidableEq φ] in
/-- The value that was emitted last, when it is kept, is the one that is shown. -/
theorem Emission.known {rs : List ρ} {new : φ → List PrvLine} {we : PatchWorld χ μ ς ρ φ}
    (h : Emission p rs we w' new) (hshown : Shown p parts hist w)
    (hlast : we.mod.other.lastValue = w.mod.other.lastValue) {r : ρ}
    (hr : .prv r ∈ partHooks parts)
    (hclean : r ∉ rs → we.bay.read (p.rchan r).chan = latest (p.rchan r).chan hist) {v : Value}
    (hv : w'.mod.other.lastValue r = some v) :
    (p.rchan r).flags.emitDup = false ∧
      (p.rchan r).flags.encode (we.bay.read (p.rchan r).chan) = (p.rchan r).flags.encode v := by
  by_cases hin : r ∈ rs
  · rcases h.emitted r hin with ⟨-, hv'⟩ | ⟨-, hdup, hv', hkept⟩
    · have hrem : p.remember r we = some v := hv'.symm.trans hv
      unfold Patch.remember at hrem
      cases hdup : (p.rchan r).flags.emitDup with
      | true =>
          rw [hdup, if_pos rfl, hlast] at hrem
          rw [(hshown.known r v hr hrem).1] at hdup
          cases hdup
      | false =>
          simp only [hdup, Bool.false_eq_true, if_false, Option.some.injEq] at hrem
          exact ⟨rfl, by rw [hrem]⟩
    · refine ⟨hdup, ?_⟩
      rw [Option.some.inj (hv'.symm.trans (hkept.symm.trans hv))]
  · rw [h.kept r hin, hlast] at hv
    obtain ⟨hdup, hknown⟩ := hshown.known r v hr hv
    refine ⟨hdup, ?_⟩
    rw [hclean hin, ← hshown.shownLast hr, hknown]

omit [DecidableEq χ] [DecidableEq μ] [DecidableEq ς] [DecidableEq ρ] [DecidableEq φ] in
/-- The lines of a propagation have its time, so what was shown before it stays, and from
then on a channel shows what it does at the end. -/
theorem Shown.shown_cons (h : Shown p parts hist w) {r : ρ} (hr : .prv r ∈ partHooks parts)
    {q : Propagation χ φ} {new : List PrvLine}
    (htime : q.time (p.rchan r).prv = (w.mod.other.prv (p.rchan r).prv).time)
    (hnew : ∀ l ∈ new, l.time = q.time (p.rchan r).prv)
    (hlast : (p.rchan r).shownLast (new ++ (w.mod.other.prv (p.rchan r).prv).lines) =
      (p.rchan r).flags.encode (q.read (p.rchan r).chan)) (t : Int) :
    (p.rchan r).shown (new ++ (w.mod.other.prv (p.rchan r).prv).lines) t =
      (p.rchan r).flags.encode (valueAt (p.rchan r).prv (p.rchan r).chan (q :: hist) t) := by
  by_cases ht : q.time (p.rchan r).prv ≤ t
  · have hlines : ∀ l ∈ new ++ (w.mod.other.prv (p.rchan r).prv).lines, l.time ≤ t := by
      intro l hl
      rcases List.mem_append.mp hl with hl | hl
      · exact (hnew l hl).le.trans ht
      · exact (htime ▸ h.lineTime _ l hl).trans ht
    have hhist : ∀ q' ∈ q :: hist, q'.time (p.rchan r).prv ≤ t := by
      intro q' hq'
      rcases List.mem_cons.mp hq' with rfl | hq'
      · exact ht
      · exact (htime ▸ h.histTime _ q' hq').trans ht
    rw [shown_of_le hlines, valueAt_of_le hhist, hlast]
    rfl
  · have hlines : ∀ l ∈ new, t < l.time := by
      intro l hl
      rw [hnew l hl]
      exact Int.not_le.mp ht
    have hhist : ∀ q' ∈ [q], t < q'.time (p.rchan r).prv := by
      intro q' hq'
      rw [List.mem_singleton.mp hq']
      exact Int.not_le.mp ht
    unfold PrvChan.shown valueAt
    rw [lastAt_append_of_lt _ _ hlines, ← List.singleton_append, lastAt_append_of_lt _ _ hhist]
    exact h.shown r hr t

omit [DecidableEq χ] [DecidableEq μ] [DecidableEq ς] [DecidableEq ρ] [DecidableEq φ] in
/-- The new lines are not before the old ones. -/
theorem Shown.sorted_append (h : Shown p parts hist w) {f : φ} {new : List PrvLine}
    (hnew : ∀ l ∈ new, l.time = (w.mod.other.prv f).time) :
    (new ++ (w.mod.other.prv f).lines).Pairwise fun a b => b.time ≤ a.time := by
  rw [List.pairwise_append]
  refine ⟨?_, h.sorted f, fun a ha b hb => ?_⟩
  · refine List.Pairwise.imp_of_mem ?_ (List.pairwise_of_forall fun _ _ => trivial)
    intro a b ha hb _
    rw [hnew a ha, hnew b hb]
  · rw [hnew a ha]
    exact h.lineTime f b hb

/-- A propagation keeps what the traces show. -/
theorem Shown.propagate (h : Shown p parts hist w) (hready : PatchReady p parts w)
    (hdist : Distinct p fun r => .prv r ∈ partHooks parts) {fuel : Nat}
    {lines : φ → List PrvLine}
    (hlines : ∀ f, (w'.mod.other.prv f).lines = lines f ++ (w.mod.other.prv f).lines)
    (hrun : bayPropagate p.net.call fuel w = .ok w') :
    Shown p parts
      ({ time := fun f => (w.mod.other.prv f).time, read := w'.bay.read, lines } :: hist) w' := by
  obtain ⟨w1, w2, hdirty, hemit, hw1, hg1, -, hsame, rfl⟩ := hready.phases hrun
  have hd1 : (w1.setState .emitting).bay.DirtyOk := ⟨hg1.dirtyOk.nodup, hg1.dirtyOk.mem_iff⟩
  obtain ⟨hprv, hlast⟩ := PatchWired.dirty_prv
    (show PatchWired p parts (w.setState .propagating) from
      hready.wired.bay rfl rfl fun c => Chan.Like.refl _)
    ⟨hready.dirtyOk.nodup, hready.dirtyOk.mem_iff⟩ hdirty
  have hw1' : PatchWired p parts (w1.setState .emitting) :=
    hw1.bay rfl rfl fun c => Chan.Like.refl _
  obtain ⟨-, rs, hnodup, hrs, hall⟩ := hw1'.emits hd1 hemit
  have hmem : ∀ r ∈ rs, .prv r ∈ partHooks parts := fun r hr => ((hrs r).mp hr).1
  obtain ⟨new, hnew⟩ := emitAll_emission hnodup
    (fun a b ha hb => hdist a b (hmem a ha) (hmem b hb)) hall
  obtain rfl : lines = new := by
    funext f
    have := hnew.lines f
    rw [hlines f] at this
    simp only [World.setState] at this
    rw [hprv] at this
    exact List.append_cancel_right this
  -- The values at the end are those of the emit phase
  have hread : ∀ c, Bay.read { w2.bay with
      chan := fun c => if c ∈ w2.bay.dirty then Bay.flushed (w2.bay.chan c) else w2.bay.chan c
      dirty := []
      state := BayState.ready } c = w1.bay.read c := by
    intro c
    apply (Bay.chanRead_ite_flushed _ _).trans
    rw [hsame]
    rfl
  have hclean : ∀ r, .prv r ∈ partHooks parts → r ∉ rs →
      w1.bay.read (p.rchan r).chan = latest (p.rchan r).chan hist := by
    intro r hr hout
    have hc : (p.rchan r).chan ∉ w1.bay.dirty := fun hin => hout ((hrs r).mpr ⟨hr, hin⟩)
    rw [hg1.read_of_not_mem hc]
    apply h.current _
    rw [← Bool.not_eq_true, ← hready.dirtyOk.mem_iff]
    exact fun hin => hc (hg1.mono hin)
  have hshownLast : ∀ r, .prv r ∈ partHooks parts →
      (p.rchan r).shownLast (w2.mod.other.prv (p.rchan r).prv).lines =
        (p.rchan r).flags.encode (w1.bay.read (p.rchan r).chan) :=
    fun r hr => hnew.shownLast h hprv hlast hdist hmem hr (hclean r hr)
  have htime : ∀ f, (w2.mod.other.prv f).time = (w.mod.other.prv f).time := by
    intro f
    rw [hnew.time f]
    simp only [World.setState, hprv]
  have hnewTime : ∀ f, ∀ l ∈ lines f, l.time = (w.mod.other.prv f).time := by
    intro f l hl
    have := (hnew.owned f l hl).1
    simpa only [World.setState, hprv] using this
  constructor
  case shown =>
    intro r hr t
    have hend := hshownLast r hr
    rw [hlines] at hend ⊢
    apply h.shown_cons hr rfl (hnewTime _)
    rw [hend]
    exact congrArg _ (hread _).symm
  case known =>
    intro r v hr hv
    obtain ⟨hdup, hencode⟩ := hnew.known h hlast hr (hclean r hr) hv
    exact ⟨hdup, (hshownLast r hr).trans hencode⟩
  case lineTime =>
    intro f l hl
    rw [hlines f, List.mem_append] at hl
    rw [htime f]
    rcases hl with hl | hl
    · exact (hnewTime f l hl).le
    · exact h.lineTime f l hl
  case sorted =>
    intro f
    rw [hlines f]
    exact h.sorted_append (hnewTime f)
  case histTime =>
    intro f q hq
    rw [htime f]
    rcases List.mem_cons.mp hq with rfl | hq
    · exact Int.le_refl _
    · exact h.histTime f q hq
  case current =>
    intro c _
    rfl
  case lines =>
    intro q hq f
    rcases List.mem_cons.mp hq with rfl | hq
    · exact hnew.linesOk hmem f
    · exact h.lines q hq f

/-- Connecting a part writes no line. -/
theorem connectPart_prv {part : Part μ ς ρ} (hrun : connectPart p w part = .ok w') :
    (∀ f, (w'.mod.other.prv f).lines = (w.mod.other.prv f).lines) ∧
      ∀ r, w.mod.other.lastValue r = none → w'.mod.other.lastValue r = none := by
  cases part with
  | mux m =>
      obtain ⟨-, -, rfl⟩ := muxInit_eq hrun
      exact ⟨fun _ => rfl, fun _ h => h⟩
  | sort s =>
      rw [connectPart] at hrun
      rw [← Except.ok.inj hrun]
      exact ⟨fun _ => rfl, fun _ h => h⟩
  | sortInput s index =>
      obtain ⟨x, -, -, rfl⟩ := sortSetInput_ok hrun
      exact ⟨fun _ => rfl, fun _ h => h⟩
  | prv r =>
      obtain ⟨id, -, -, -, rfl⟩ := prvRegister_ok hrun
      refine ⟨fun f => ?_, fun r' hr' => ?_⟩
      · simp only [World.setSinks]
        by_cases hf : f = (p.rchan r).prv
        · rw [hf, Function.update_self]
        · rw [Function.update_of_ne hf]
      · simp only [World.setSinks]
        by_cases hrr : r' = r
        · rw [hrr, Function.update_self]
        · rw [Function.update_of_ne hrr]
          exact hr'

/-- The traces of a bay that was just connected. -/
theorem Shown.connect {chan : χ → Chan} (hnull : ∀ c, chanRead (chan c) = .null)
    (hclean : ∀ c, (chan c).isDirty = false) (honce : parts.Nodup)
    (hrun : connectParts p parts (patchInit chan) = .ok w) : Shown p parts [] w := by
  obtain ⟨hinit, hreg⟩ := patchInit_connected (p := p) hclean
  have hstep : ∀ done part (w w' : PatchWorld χ μ ς ρ φ), PatchConnected p done w →
      Registered p done w.mod.other →
      ((∀ c, w.bay.read c = .null) ∧ (∀ f, (w.mod.other.prv f).lines = []) ∧
        ∀ r, w.mod.other.lastValue r = none) → connectPart p w part = .ok w' →
      (∀ c, w'.bay.read c = .null) ∧ (∀ f, (w'.mod.other.prv f).lines = []) ∧
        ∀ r, w'.mod.other.lastValue r = none := by
    rintro done part w w' - - ⟨hread, hlines, hlast⟩ hpart
    obtain ⟨hlines', hlast'⟩ := connectPart_prv hpart
    refine ⟨fun c => ?_, fun f => (hlines' f).trans (hlines f), fun r => hlast' r (hlast r)⟩
    unfold Bay.read
    rcases connectPart_chan hpart c with ⟨_, _, heq, -⟩ | heq
    · rw [heq]
      exact hread c
    · rw [heq]
      rfl
  obtain ⟨-, -, hread, hlines, hlast⟩ := connectParts_inv _ hstep hinit hreg
    ⟨hnull, fun _ => rfl, fun _ => rfl⟩ (by simpa using honce) hrun
  refine ⟨fun r hr t => ?_, fun r v hr hv => ?_, fun f l hl => ?_, fun f => ?_, by simp,
    fun c _ => hread c, by simp⟩
  · rw [hlines]
    rfl
  · rw [hlast r] at hv
    cases hv
  · rw [hlines f] at hl
    cases hl
  · rw [hlines f]
    exact List.Pairwise.nil

omit [DecidableEq μ] [DecidableEq ς] [DecidableEq ρ] [DecidableEq φ] in
theorem Shown.write (h : Shown p parts hist w) {op : BayOp χ} {b : Bay χ (Cb μ (Hook ς ρ))}
    (hrun : op.run w.bay = .ok b) : Shown p parts hist { w with bay := b } := by
  refine ⟨h.shown, h.known, h.lineTime, h.sorted, h.histTime, fun c hc => ?_, h.lines⟩
  rcases op.run_ok hrun with rfl | ⟨chan, hlike, rfl⟩
  · exact h.current c hc
  · have hne : c ≠ op.chan := by
      rintro rfl
      rw [Bay.touch_chan_self] at hc
      cases hc
    rw [Bay.touch_chan_of_ne _ hne] at hc
    rw [Bay.touch_read_of_ne _ hne]
    exact h.current c hc

omit [DecidableEq χ] [DecidableEq μ] [DecidableEq ς] [DecidableEq ρ] in
theorem Shown.advance (h : Shown p parts hist w) {f : φ} {time : Int}
    (hrun : w.prvAdvance f time = .ok w') : Shown p parts hist w' := by
  obtain ⟨hle, rfl⟩ := prvAdvance_ok hrun
  have hlines : ∀ f', ((Function.update w.mod.other.prv f
      { w.mod.other.prv f with time }) f').lines = (w.mod.other.prv f').lines := by
    intro f'
    by_cases hf : f' = f
    · rw [hf, Function.update_self]
    · rw [Function.update_of_ne hf]
  have htime : ∀ f', (w.mod.other.prv f').time ≤ ((Function.update w.mod.other.prv f
      { w.mod.other.prv f with time }) f').time := by
    intro f'
    by_cases hf : f' = f
    · rw [hf, Function.update_self]
      exact hle
    · rw [Function.update_of_ne hf]
  refine ⟨fun r hr t => ?_, fun r v hr hv => ?_, fun f' l hl => ?_, fun f' => ?_, fun f' q hq => ?_,
    h.current, h.lines⟩
  · simp only [World.setSinks, hlines]
    exact h.shown r hr t
  · simp only [World.setSinks, hlines]
    exact h.known r v hr hv
  · simp only [World.setSinks, hlines] at hl ⊢
    exact Int.le_trans (h.lineTime f' l hl) (htime f')
  · simp only [World.setSinks, hlines]
    exact h.sorted f'
  · exact Int.le_trans (h.histTime f' q hq) (htime f')

theorem PatchRun.shown {chan : χ → Chan} (h : PatchRun p parts chan hist w)
    (hnull : ∀ c, chanRead (chan c) = .null)
    (hdist : Distinct p fun r => .prv r ∈ partHooks parts) : Shown p parts hist w := by
  induction h with
  | connect hchan hclean honce hrun => exact Shown.connect hnull hclean honce hrun
  | write _ hrun ih => exact ih.write hrun
  | advance _ hrun ih => exact ih.advance hrun
  | propagate h hlines hrun ih => exact ih.propagate h.ready hdist hlines hrun

/-! ## Registration -/

omit [DecidableEq χ] [DecidableEq μ] [DecidableEq ς] [DecidableEq ρ] [DecidableEq φ] in
/-- The ids of different rows and types are different. -/
theorem getId_inj {nrows type row type' row' id : Int} (hrow : 0 ≤ row ∧ row < nrows)
    (hrow' : 0 ≤ row' ∧ row' < nrows) (h : getId nrows type row = .ok id)
    (h' : getId nrows type' row' = .ok id) : type = type' ∧ row = row' := by
  unfold getId at h h'
  split at h
  · split at h'
    · have heq : type * nrows + row = type' * nrows + row' :=
        (Except.ok.inj h).trans (Except.ok.inj h').symm
      have hdiv : (type * nrows + row) / nrows = (type' * nrows + row') / nrows := by rw [heq]
      have hpos : nrows ≠ 0 := by omega
      rw [Int.add_comm, Int.add_mul_ediv_right _ _ hpos, Int.add_comm (type' * nrows),
        Int.add_mul_ediv_right _ _ hpos, Int.ediv_eq_zero_of_lt hrow.1 hrow.2,
        Int.ediv_eq_zero_of_lt hrow'.1 hrow'.2] at hdiv
      have htype : type = type' := by omega
      subst htype
      exact ⟨rfl, by omega⟩
    · cases h'
  · cases h

/-- The channels of a bay are registered at different rows and types of their traces,
within their rows, and with flags that are accepted. -/
structure PrvLayout (p : Patch χ μ ς ρ φ) (parts : List (Part μ ς ρ)) : Prop where
  distinct : Distinct p fun r => .prv r ∈ partHooks parts
  row : ∀ r, .prv r ∈ partHooks parts →
    0 ≤ (p.rchan r).row ∧ (p.rchan r).row < p.nrows (p.rchan r).prv
  type : ∀ r, .prv r ∈ partHooks parts → 0 ≤ (p.rchan r).type
  flags : ∀ r, .prv r ∈ partHooks parts → checkFlags (p.rchan r).flags = .ok ()

/-- Registering a channel of the layout does not fail, unless its id overflows. -/
theorem prvRegister_distinct (hl : PrvLayout p parts) {done rest : List (Part μ ς ρ)} {r : ρ}
    (hparts : parts = done ++ .prv r :: rest) (honce : parts.Nodup)
    (hreg : Registered p done w.mod.other) :
    (∃ w', prvRegister p w r = .ok w') ∨
      ¬ (inLong ((p.rchan r).type * p.nrows (p.rchan r).prv) ∧
        inLong ((p.rchan r).type * p.nrows (p.rchan r).prv + (p.rchan r).row)) := by
  have hhooks : partHooks parts = partHooks done ++ .prv r :: partHooks rest := by
    rw [hparts]
    simp [partHooks]
  have hr : .prv r ∈ partHooks parts := by
    rw [hhooks]
    simp
  have hnew : .prv r ∉ partHooks done := by
    intro hmem
    obtain ⟨part, hpart, heq⟩ := List.mem_filterMap.mp hmem
    have : part = .prv r := by cases part <;> simp_all
    rw [hparts] at honce
    exact (List.nodup_append.mp honce).2.2 part hpart (.prv r) List.mem_cons_self this
  by_cases hlong : inLong ((p.rchan r).type * p.nrows (p.rchan r).prv) ∧
      inLong ((p.rchan r).type * p.nrows (p.rchan r).prv + (p.rchan r).row)
  · left
    have hid : p.id r = .ok ((p.rchan r).type * p.nrows (p.rchan r).prv + (p.rchan r).row) := by
      unfold Patch.id getId
      rw [if_pos hlong]
    have hfree : findPrvChan p (w.mod.other.prv (p.rchan r).prv).channels
        ((p.rchan r).type * p.nrows (p.rchan r).prv + (p.rchan r).row) = false := by
      unfold findPrvChan
      rw [List.any_eq_false]
      intro r' hr'
      obtain ⟨hmem, hprv⟩ := (hreg _ r').mp hr'
      have hr'' : .prv r' ∈ partHooks parts := by
        rw [hhooks]
        exact List.mem_append_left _ hmem
      cases hid' : p.id r' with
      | error e => simp
      | ok id' =>
          simp only [decide_eq_true_eq]
          rintro rfl
          unfold Patch.id at hid hid'
          rw [hprv] at hid'
          have hrow' := hl.row r' hr''
          rw [hprv] at hrow'
          obtain ⟨htype, hrow⟩ := getId_inj (hl.row r hr) hrow' hid hid'
          have := hl.distinct r r' hr hr'' hprv.symm hrow htype
          exact hnew (this ▸ hmem)
    unfold prvRegister
    simp only [hid, bind, Except.bind]
    rw [if_neg (by simp [hfree]), hl.flags r hr]
    exact ⟨_, rfl⟩
  · exact Or.inr hlong

/-- With channels that start null, registered at different rows and types: no
registration reports a collision (it succeeds unless the id is no `long`), and in
every run the lines of a trace are in order of time, a propagation writes at most one
line for each row and type, and what the trace shows of a channel at any time is the
value that the channel had after the last propagation up to then. -/
theorem prv_timeline {chan : χ → Chan} (hnull : ∀ c, chanRead (chan c) = .null)
    (hclean : ∀ c, (chan c).isDirty = false) (honce : parts.Nodup) (hl : PrvLayout p parts) :
    (∀ done rest r w, parts = done ++ .prv r :: rest →
      connectParts p done (patchInit chan) = .ok w →
        (∃ w', prvRegister p w r = .ok w') ∨
          ¬ (inLong ((p.rchan r).type * p.nrows (p.rchan r).prv) ∧
            inLong ((p.rchan r).type * p.nrows (p.rchan r).prv + (p.rchan r).row))) ∧
    ∀ hist w, PatchRun p parts chan hist w →
      (∀ f, ((w.mod.other.prv f).lines.Pairwise fun a b => b.time ≤ a.time) ∧
        ∀ q ∈ hist, LinesOk p parts f (q.lines f)) ∧
      ∀ r, .prv r ∈ partHooks parts → ∀ t,
        (p.rchan r).shown (w.mod.other.prv (p.rchan r).prv).lines t =
          (p.rchan r).flags.encode (valueAt (p.rchan r).prv (p.rchan r).chan hist t) := by
  refine ⟨fun done rest r w hparts hrun => ?_, fun hist w h => ?_⟩
  · obtain ⟨hinit, hreg⟩ := patchInit_connected (p := p) hclean
    have hdone : done.Nodup := by
      rw [hparts] at honce
      exact (List.nodup_append.mp honce).1
    obtain ⟨-, hreg', -⟩ := connectParts_inv (fun _ _ => True) (fun _ _ _ _ _ _ _ _ => trivial)
      hinit hreg trivial (by simpa using hdone) hrun
    exact prvRegister_distinct hl hparts honce (by simpa using hreg')
  · have hshown := h.shown hnull hl.distinct
    exact ⟨fun f => ⟨hshown.sorted f, fun q hq => hshown.lines q hq f⟩, hshown.shown⟩

end Run

theorem demo_layout : PrvLayout demoPatch demoParts :=
  ⟨fun _ _ _ _ _ _ _ => rfl, fun _ _ => by simp [demoPatch], fun _ _ => by simp [demoPatch],
    fun _ _ => rfl⟩

/-- The small bay after the writes and the propagation, and what its trace shows. -/
theorem prv_timeline_demo :
    ((demoPropagated (demoWritten demoOps)).mod.other.prv ()).lines =
        [{ row := 1, time := 0, type := 7, value := 5 }] ∧
      ∀ t, (demoPatch.rchan ()).shown
          ((demoPropagated (demoWritten demoOps)).mod.other.prv ()).lines t =
        if 0 ≤ t then 5 else 0 := by
  have hlines : ((demoPropagated (demoWritten demoOps)).mod.other.prv ()).lines =
      [{ row := 1, time := 0, type := 7, value := 5 }] := by decide +kernel
  have hrun := demo_written demoOps (by decide +kernel) (by decide +kernel)
  have hprop : bayPropagate demoPatch.net.call 20 (demoWritten demoOps) =
      .ok (demoPropagated (demoWritten demoOps)) := eq_okOr _ (by decide +kernel)
  have hstart : ((demoWritten demoOps).mod.other.prv ()).lines = [] := by decide +kernel
  have htime : ((demoWritten demoOps).mod.other.prv ()).time = 0 := by decide +kernel
  have hread : (demoPropagated (demoWritten demoOps)).bay.read 3 = .int64 5 := by decide +kernel
  have hdone : PatchRun demoPatch demoParts (fun _ => chanInit .single)
      [{ time := fun f => ((demoWritten demoOps).mod.other.prv f).time
         read := (demoPropagated (demoWritten demoOps)).bay.read
         lines := fun _ => [{ row := 1, time := 0, type := 7, value := 5 }] }]
      (demoPropagated (demoWritten demoOps)) :=
    .propagate hrun (fun _ => by rw [hlines, hstart]; rfl) hprop
  refine ⟨hlines, fun t => ?_⟩
  rw [(prv_timeline (fun _ => rfl) (fun _ => rfl) (by decide) demo_layout).2 _ _ hdone |>.2 ()
    (by decide) t]
  unfold valueAt Ovni.Lib.lastAt
  by_cases ht : 0 ≤ t
  · simp only [htime, ht, if_true, List.find?_cons, decide_true, Bool.and_self]
    show PrvFlags.encode _ ((demoPropagated (demoWritten demoOps)).bay.read 3) = 5
    rw [hread]
    rfl
  · simp only [htime, ht, if_false, List.find?_cons, decide_false, Bool.and_false]
    rfl

end Ovni
