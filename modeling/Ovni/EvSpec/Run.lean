import Ovni.EvSpec.Expand

/-!
# The run of the printer

What one turn of the loop of `ev_spec_print` does for the piece that comes first, and from
it what the whole loop returns, writes and reads.
-/

namespace Ovni

open Ovni.Lib

namespace Description

/-! ## Arguments -/

section

variable {p : Printf} {spec : EvSpec} {ev : EmuEv} {mapped : Nat}

theorem ensures_reading {α : Type} {x : Reads EmuFault α} {s : PrintState}
    {post : Except EmuFault α → PrintState → Prop} :
    Ensures (reading x) s post ↔
      Ensures x s.reads fun r reads => post r { s with reads } := Iff.rfl

theorem ensures_store {out : Nat} {text : Name} {s : PrintState}
    {post : Except EmuFault Unit → PrintState → Prop} :
    Ensures (store out text) s post ↔ post (.ok ()) { s with buf := putText s.buf out text } :=
  Iff.rfl

theorem logged_readArg (p : Printf) (arg : EvArg) (fmt : Name) (ev : EmuEv) (mapped : Nat) :
    Logged .crash (readArg p arg fmt ev mapped) := by
  unfold readArg
  cases ev.payload with
  | none => exact logged_throw
  | some payload =>
      by_cases hstr : arg.type = .str
      · simp only [hstr, if_true]
        cases p.limit fmt with
        | none => exact logged_bind (logged_readString _) fun bytes => logged_pure _
        | some n => exact logged_bind (logged_readPrefix _ n) fun bytes => logged_pure _
      · simp only [hstr, if_false]
        exact logged_bind (logged_readBytes _ _) fun bytes => logged_pure _

theorem ensures_snprintf {out len : Nat} {text : Name} (hlen : 0 < len)
    (htext : text.length < 2 ^ 31) {s : PrintState}
    {post : Except EmuFault Int → PrintState → Prop} :
    Ensures (snprintf out len text) s post ↔
      post (.ok text.length)
        { s with buf := putText s.buf out (text.take (len - 1) ++ [0]) } := by
  have hint : toInt32 text.length = text.length := toInt32_of_range (by omega) (by omega)
  unfold snprintf
  simp only [hlen.ne', ne_eq, not_false_eq_true, if_true, hint, ensures_bind, ensures_store,
    next_ok, ensures_pure]

/-- The state after the reads of a piece. -/
def afterReads (p : Printf) (ev : EmuEv) (mapped : Nat) (P : Piece) (s : PrintState) : PrintState :=
  { s with reads := s.reads ++ P.reads p ev mapped }

theorem ensures_printArg {fmt : Option Name} {arg : EvArg} {c : Cursor} {s : PrintState}
    {post : Except EmuFault Cursor → PrintState → Prop} (hlen : 0 < c.len) :
    let P := Piece.region fmt arg
    let s' := afterReads p ev mapped P s
    (P.expand (printedArg p ev mapped) = none →
      (Ensures (printArg p arg (argFmt p fmt arg) c ev mapped) s post ↔
        post (.error .crash) s')) ∧
    ∀ a, P.expand (printedArg p ev mapped) = some a →
      (Ensures (printArg p arg (argFmt p fmt arg) c ev mapped) s post ↔
        post (if c.len ≤ a.length then .error (.fail "no space for argument")
            else .ok (advanceOut c a.length))
          { s' with buf := putText s.buf c.out (a.take (c.len - 1) ++ [0]) }) := by
  intro P s'
  have hlog := logged_readArg p arg (argFmt p fmt arg) ev mapped
  have hread : ∀ {post' : Except EmuFault EvArgData → PrintState → Prop},
      Ensures (reading (readArg p arg (argFmt p fmt arg) ev mapped)) s post' ↔
        post' ((readArg p arg (argFmt p fmt arg) ev mapped).run.run []).1 s' := by
    intro post'
    rw [ensures_reading, hlog.append]
    rfl
  have hfault := hlog.fault
  unfold Ensures at hfault
  unfold printArg
  rw [ensures_bind, hread]
  simp only [P, Piece.expand, printedArg]
  generalize ((readArg p arg (argFmt p fmt arg) ev mapped).run.run []).1 = r at hfault ⊢
  cases r with
  | error e =>
      rw [hfault e rfl, next_error]
      exact ⟨fun _ => Iff.rfl, fun a ha => (by cases ha)⟩
  | ok data =>
      rw [next_ok]
      cases htext : p.text (argFmt p fmt arg) data with
      | none =>
          rw [ensures_throw]
          exact ⟨fun _ => Iff.rfl, fun a ha => (by cases htext.symm.trans ha)⟩
      | some text =>
          refine ⟨fun ha => (by cases htext.symm.trans ha), fun a ha => ?_⟩
          obtain rfl : text = a := Option.some.inj (htext.symm.trans ha)
          simp only [ensures_bind]
          rw [ensures_snprintf hlen (p.text_length _ _ _ htext), next_ok]
          simp only [Nat.cast_le, Int.toNat_natCast]
          by_cases hroom : c.len ≤ text.length
          · simp only [hroom, if_true]
            rfl
          · simp only [hroom, if_false, ensures_pure]
            rfl

/-! ## One turn -/

theorem typeFmt_length (p : Printf) (type : EvArgType) : (typeFmt p type).length < 64 := by
  unfold typeFmt
  by_cases hstr : type = .str
  · rw [if_pos hstr]
    decide
  · have hpri := p.pri_length type
    rw [if_neg hstr, ascii_percent, List.length_append, List.length_singleton]
    omega

variable {n : Nat} {c : Cursor} {s : PrintState}
  {post : Except EmuFault Cursor → PrintState → Prop}

/-- What a turn does for the piece that comes first. -/
def turn (p : Printf) (ev : EmuEv) (mapped : Nat) (P : Piece) (c : Cursor) : PrintM Cursor :=
  match P with
  | .lit ch => do
      store c.out [ch]
      return advanceOut c 1
  | .percent => do
      store c.out (ascii "%")
      return advanceOut c 1
  | .region fmt arg => printArg p arg (argFmt p fmt arg) c ev mapped

theorem printLoop_cons {ch : Fin 256} {inp : Name} {out len : Nat} (hlen : 0 < len) :
    printLoop p spec ev mapped (n + 1) ⟨ch :: inp, out, len⟩ =
      if ch = 37 then
        formatRegion p spec ⟨ch :: inp, out, len⟩ ev mapped >>= printLoop p spec ev mapped n
      else
        store out [ch] >>= fun _ => printLoop p spec ev mapped n ⟨inp, out + 1, len - 1⟩ := by
  rw [printLoop]
  simp only [hlen.ne', if_false]
  rfl

theorem formatRegion_percent {inp : Name} {out len : Nat} (hlen : 0 < len) :
    formatRegion p spec ⟨37 :: 37 :: inp, out, len⟩ ev mapped =
      store out (ascii "%") >>= fun _ => pure ⟨inp, out + 1, len - 1⟩ := by
  simp only [formatRegion, hlen.ne', if_false, List.head?_cons, ne_eq, not_true, List.tail_cons,
    reduceCtorEq, if_true]
  rfl

theorem formatRegion_ok {inp rest : Name} {fmt : Option Name} {arg : EvArg} {out len : Nat}
    (hlen : 0 < len) (hhead : ¬ inp.head? = some 37)
    (hregion : parseRegion spec inp = .ok (fmt, arg, rest)) :
    formatRegion p spec ⟨37 :: inp, out, len⟩ ev mapped =
      printArg p arg (argFmt p fmt arg) ⟨rest, out, len⟩ ev mapped := by
  have hne : ¬ inp = [] := by
    rintro rfl
    obtain ⟨e, he⟩ : ∃ e, parseRegion spec [] = .error e := ⟨_, rfl⟩
    cases he.symm.trans hregion
  have hfmt : ¬ (fmt = none ∧ 64 ≤ (typeFmt p arg.type).length) := by
    have := typeFmt_length p arg.type
    omega
  simp only [formatRegion, hlen.ne', if_false, List.head?_cons, ne_eq, not_true, List.tail_cons,
    hne, hhead, hregion, hfmt]
  rfl

theorem ensures_formatRegion_error (p : Printf) (ev : EmuEv) (mapped out : Nat) {inp : Name}
    {len : Nat} (hlen : 0 < len) (hhead : ¬ inp.head? = some 37) {e : EmuFault}
    (hregion : parseRegion spec inp = .error e) (s : PrintState) :
    ∃ msg, ∀ {post : Except EmuFault Cursor → PrintState → Prop},
      Ensures (formatRegion p spec ⟨37 :: inp, out, len⟩ ev mapped) s post ↔
        post (.error (.fail msg)) s := by
  obtain ⟨msg, rfl⟩ := parseRegion_error hregion
  by_cases hne : inp = []
  · refine ⟨"truncated '%' format", fun {post} => ?_⟩
    simp only [formatRegion, hlen.ne', if_false, List.head?_cons, ne_eq, not_true,
      List.tail_cons, hne, if_true]
    rfl
  · refine ⟨msg, fun {post} => ?_⟩
    simp only [formatRegion, hlen.ne', if_false, List.head?_cons, ne_eq, not_true,
      List.tail_cons, hne, hhead, hregion]
    rfl

/-- A turn where no piece comes first fails. -/
theorem ensures_turn_none (p : Printf) (ev : EmuEv) (mapped n : Nat) (hlen : 0 < c.len)
    (hne : c.inp ≠ []) (hnext : nextPiece spec c.inp = none) (s : PrintState) :
    ∃ msg, ∀ {post : Except EmuFault Cursor → PrintState → Prop},
      Ensures (printLoop p spec ev mapped (n + 1) c) s post ↔ post (.error (.fail msg)) s := by
  obtain ⟨inp, out, len⟩ := c
  obtain ⟨ch, inp, rfl⟩ := List.exists_cons_of_ne_nil hne
  simp only [nextPiece] at hnext
  by_cases hch : ch = 37
  · rw [if_neg (not_not.mpr hch)] at hnext
    by_cases hhead : inp.head? = some 37
    · rw [if_pos hhead] at hnext
      cases hnext
    · rw [if_neg hhead] at hnext
      cases hregion : parseRegion spec inp with
      | ok q => simp [hregion] at hnext
      | error e =>
          obtain ⟨msg, herror⟩ := ensures_formatRegion_error p ev mapped out hlen hhead hregion s
          refine ⟨msg, fun {post} => ?_⟩
          rw [printLoop_cons hlen, if_pos hch, hch, ensures_bind, herror, next_error]
  · rw [if_pos hch] at hnext
    cases hnext

theorem ensures_turn {P : Piece} {rest : Name} (hlen : 0 < c.len)
    (hnext : nextPiece spec c.inp = some (P, rest)) :
    Ensures (printLoop p spec ev mapped (n + 1) c) s post ↔
      Ensures (turn p ev mapped P { c with inp := rest }) s
        (Next (printLoop p spec ev mapped n) post) := by
  obtain ⟨inp, out, len⟩ := c
  simp only at hlen hnext ⊢
  cases inp with
  | nil => cases hnext
  | cons ch inp =>
      rw [printLoop_cons hlen]
      simp only [nextPiece] at hnext
      by_cases hch : ch = 37
      · rw [if_neg (not_not.mpr hch)] at hnext
        rw [if_pos hch, hch, ensures_bind]
        by_cases hhead : inp.head? = some 37
        · rw [if_pos hhead] at hnext
          cases hnext
          obtain ⟨inp, rfl⟩ := List.head?_eq_some_iff.mp hhead
          rw [formatRegion_percent hlen]
          rfl
        · rw [if_neg hhead] at hnext
          cases hregion : parseRegion spec inp with
          | error e => simp [hregion] at hnext
          | ok q =>
              obtain ⟨fmt, arg, left⟩ := q
              simp only [hregion] at hnext
              cases hnext
              rw [formatRegion_ok hlen hhead hregion]
              rfl
      · rw [if_pos hch] at hnext
        cases hnext
        rw [if_neg hch]
        rfl

/-! ## What a piece writes -/

theorem putText_inside {buf : Nat → Fin 256} {out k : Nat} {text : Name} (hk : k < text.length) :
    putText buf out text (out + k) = text[k] := by
  unfold putText
  rw [if_pos ⟨by omega, by omega⟩, Nat.add_sub_cancel_left, List.getD_eq_getElem _ _ hk]

theorem putText_outside {buf : Nat → Fin 256} {out i : Nat} {text : Name}
    (hi : i < out ∨ out + text.length ≤ i) : putText buf out text i = buf i := by
  unfold putText
  rw [if_neg (by omega)]

/-- The buffer has a text from an offset on, and is as it was but for some bytes there. -/
structure Wrote (buf buf' : Nat → Fin 256) (out len : Nat) (text : Name) : Prop where
  inside : ∀ k (hk : k < text.length), buf' (out + k) = text[k]
  frame : ∀ i, i < out ∨ out + len ≤ i → buf' i = buf i

theorem wrote_putText {buf : Nat → Fin 256} {out len : Nat} {text : Name}
    (h : text.length ≤ len) : Wrote buf (putText buf out text) out len text :=
  ⟨fun _ hk => putText_inside hk, fun i hi => putText_outside (by omega)⟩

variable {P : Piece}

theorem turn_none (hlen : 0 < c.len) (ha : P.expand (printedArg p ev mapped) = none) :
    Ensures (turn p ev mapped P c) s post ↔
      post (.error .crash) (afterReads p ev mapped P s) := by
  cases P with
  | lit ch => cases ha
  | percent => cases ha
  | region fmt arg => exact (ensures_printArg hlen).1 ha

theorem turn_small {a : Name} (hlen : 0 < c.len) (ha : P.expand (printedArg p ev mapped) = some a)
    (hroom : c.len < P.need a.length) :
    ∃ msg buf, (∀ i, i < c.out ∨ c.out + c.len ≤ i → buf i = s.buf i) ∧
      ∀ {post : Except EmuFault Cursor → PrintState → Prop},
        Ensures (turn p ev mapped P c) s post ↔
          post (.error (.fail msg)) { afterReads p ev mapped P s with buf := buf } := by
  cases P with
  | lit ch =>
      cases ha
      exact absurd hroom (not_lt.mpr hlen)
  | percent =>
      cases ha
      exact absurd hroom (not_lt.mpr hlen)
  | region fmt arg =>
      have hle : c.len ≤ a.length := Nat.le_of_lt_succ hroom
      refine ⟨"no space for argument", putText s.buf c.out (a.take (c.len - 1) ++ [0]), ?_, ?_⟩
      · intro i hi
        apply putText_outside
        rw [List.length_append, List.length_take, List.length_singleton]
        omega
      · intro post
        rw [turn, (ensures_printArg hlen).2 a ha, if_pos hle]

theorem turn_some {a : Name} (hlen : 0 < c.len) (ha : P.expand (printedArg p ev mapped) = some a)
    (hroom : P.need a.length ≤ c.len) :
    ∃ buf, Wrote s.buf buf c.out c.len a ∧
      ∀ {post : Except EmuFault Cursor → PrintState → Prop},
        Ensures (turn p ev mapped P c) s post ↔
          post (.ok (advanceOut c a.length)) { afterReads p ev mapped P s with buf := buf } := by
  cases P with
  | lit ch =>
      cases ha
      refine ⟨_, wrote_putText hroom, fun {post} => ?_⟩
      simp only [turn, ensures_bind, ensures_store, next_ok, ensures_pure, afterReads,
        Piece.reads, List.append_nil, List.length_singleton]
  | percent =>
      cases ha
      refine ⟨_, wrote_putText hroom, fun {post} => ?_⟩
      simp only [turn, ensures_bind, ensures_store, next_ok, ensures_pure, afterReads,
        Piece.reads, List.append_nil]
      rfl
  | region fmt arg =>
      have hlt : a.length < c.len := hroom
      have htake : a.take (c.len - 1) = a := List.take_of_length_le (by omega)
      refine ⟨putText s.buf c.out (a ++ [0]), ⟨?_, ?_⟩, fun {post} => ?_⟩
      · intro k hk
        rw [putText_inside (by rw [List.length_append]; omega), List.getElem_append_left hk]
      · intro i hi
        apply putText_outside
        rw [List.length_append, List.length_singleton]
        omega
      · rw [turn, (ensures_printArg hlen).2 a ha, htake, if_neg (not_le.mpr hlt)]

/-! ## The loop -/

/-- What the loop returns, writes and reads from a cursor on. -/
structure Printed (p : Printf) (spec : EvSpec) (ev : EmuEv) (mapped : Nat) (c : Cursor)
    (s : PrintState) (r : Except EmuFault Cursor) (s' : PrintState) : Prop where
  crash : r = .error .crash ↔
    ∃ P, PieceReached spec (printedArg p ev mapped) c.len c.inp P ∧
      P.expand (printedArg p ev mapped) = none
  ok : (∃ c', r = .ok c') ↔ ∃ t, Complete spec (printedArg p ev mapped) c.len c.inp t
  fault : ∀ e, r = .error e → e = .crash ∨ ∃ msg, e = .fail msg
  text : ∀ c' t, r = .ok c' → Complete spec (printedArg p ev mapped) c.len c.inp t →
    c'.out = c.out + t.length ∧ t.length ≤ c.len ∧
      ∀ k (hk : k < t.length), s'.buf (c.out + k) = t[k]
  frame : ∀ i, i < c.out ∨ c.out + c.len ≤ i → s'.buf i = s.buf i
  reads : ∃ reads, s'.reads = s.reads ++ reads ∧
    ∀ i, i ∈ reads ↔
      ∃ P, PieceReached spec (printedArg p ev mapped) c.len c.inp P ∧ i ∈ P.reads p ev mapped

/-- A loop that fails before it reaches a piece. -/
theorem Printed.failed {r : Except EmuFault Cursor} {msg : String}
    (hr : r = .error (.fail msg))
    (hreached : ∀ P, ¬ PieceReached spec (printedArg p ev mapped) c.len c.inp P)
    (hcomplete : ∀ t, ¬ Complete spec (printedArg p ev mapped) c.len c.inp t) :
    Printed p spec ev mapped c s r s where
  crash := by
    rw [hr]
    constructor
    · rintro ⟨⟩
    · rintro ⟨P, h, -⟩
      exact absurd h (hreached P)
  ok := by
    rw [hr]
    constructor
    · rintro ⟨c', ⟨⟩⟩
    · rintro ⟨t, h⟩
      exact absurd h (hcomplete t)
  fault e he := by
    rw [hr] at he
    cases he
    exact .inr ⟨msg, rfl⟩
  text c' t _ h := absurd h (hcomplete t)
  frame _ _ := rfl
  reads := by
    refine ⟨[], by simp, fun i => ?_⟩
    simp [hreached]

/-- The loop at the end of the description. -/
theorem Printed.done (hinp : c.inp = []) : Printed p spec ev mapped c s (.ok c) s where
  crash := by
    rw [hinp]
    simp [reached_nil]
  ok := by
    rw [hinp]
    exact ⟨fun _ => ⟨[], .done⟩, fun _ => ⟨c, rfl⟩⟩
  fault e he := by cases he
  text c' t hc' h := by
    rw [hinp, complete_nil] at h
    cases hc'
    rw [h]
    exact ⟨rfl, Nat.zero_le _, fun k hk => absurd hk (Nat.not_lt_zero k)⟩
  frame _ _ := rfl
  reads := by
    rw [hinp]
    refine ⟨[], by simp, fun i => ?_⟩
    simp [reached_nil]

/-- A loop that fails at its first piece. -/
theorem Printed.stopped {rest : Name} {e : EmuFault} {s' : PrintState} (hlen : 0 < c.len)
    (hnext : nextPiece spec c.inp = some (P, rest))
    (hroom : ∀ a, P.expand (printedArg p ev mapped) = some a → c.len < P.need a.length)
    (hcrash : e = .crash ↔ P.expand (printedArg p ev mapped) = none)
    (hfault : e = .crash ∨ ∃ msg, e = .fail msg)
    (hframe : ∀ i, i < c.out ∨ c.out + c.len ≤ i → s'.buf i = s.buf i)
    (hreads : s'.reads = s.reads ++ P.reads p ev mapped) :
    Printed p spec ev mapped c s (.error e) s' := by
  have hreached : ∀ Q, PieceReached spec (printedArg p ev mapped) c.len c.inp Q ↔ Q = P := by
    intro Q
    rw [reached_iff hnext hlen, or_iff_left]
    rintro ⟨a, ha, hle, -⟩
    exact absurd hle (not_le.mpr (hroom a ha))
  have hcomplete : ∀ t, ¬ Complete spec (printedArg p ev mapped) c.len c.inp t := by
    intro t h
    obtain ⟨a, t', ha, hle, -⟩ := (complete_iff hnext).mp h
    exact absurd hle (not_le.mpr (hroom a ha))
  refine ⟨?_, ?_, ?_, fun c' t _ h => absurd h (hcomplete t), hframe, _, hreads, fun i => ?_⟩
  · simp only [hreached, exists_eq_left, ← hcrash, Except.error.injEq]
  · constructor
    · rintro ⟨c', ⟨⟩⟩
    · rintro ⟨t, h⟩
      exact absurd h (hcomplete t)
  · rintro e' ⟨⟩
    exact hfault
  · simp only [hreached, exists_eq_left]

/-- A loop that goes on after its first piece. -/
theorem Printed.step {rest a : Name} {buf : Nat → Fin 256} {r : Except EmuFault Cursor}
    {s' : PrintState} (hlen : 0 < c.len) (hnext : nextPiece spec c.inp = some (P, rest))
    (ha : P.expand (printedArg p ev mapped) = some a) (hroom : P.need a.length ≤ c.len)
    (hwrote : Wrote s.buf buf c.out c.len a)
    (h : Printed p spec ev mapped ⟨rest, c.out + a.length, c.len - a.length⟩
      { afterReads p ev mapped P s with buf := buf } r s') :
    Printed p spec ev mapped c s r s' := by
  have hle : a.length ≤ c.len := (length_le_need P a.length).trans hroom
  have hreached : ∀ Q, PieceReached spec (printedArg p ev mapped) c.len c.inp Q ↔
      Q = P ∨ PieceReached spec (printedArg p ev mapped) (c.len - a.length) rest Q := by
    intro Q
    rw [reached_iff hnext hlen]
    simp only [ha, Option.some.injEq]
    constructor
    · rintro (rfl | ⟨_, rfl, -, hQ⟩)
      · exact .inl rfl
      · exact .inr hQ
    · rintro (rfl | hQ)
      · exact .inl rfl
      · exact .inr ⟨a, rfl, hroom, hQ⟩
  have hcomplete : ∀ t, Complete spec (printedArg p ev mapped) c.len c.inp t ↔
      ∃ t', Complete spec (printedArg p ev mapped) (c.len - a.length) rest t' ∧ t = a ++ t' := by
    intro t
    rw [complete_iff hnext]
    simp only [ha, Option.some.injEq]
    constructor
    · rintro ⟨_, t', rfl, -, ht', rfl⟩
      exact ⟨t', ht', rfl⟩
    · rintro ⟨t', ht', rfl⟩
      exact ⟨a, t', rfl, hroom, ht', rfl⟩
  refine ⟨?_, ?_, h.fault, ?_, ?_, ?_⟩
  · rw [h.crash]
    simp only [hreached, or_and_right, exists_or, exists_eq_left, ha, reduceCtorEq, false_or]
  · rw [h.ok]
    constructor
    · rintro ⟨t', ht'⟩
      exact ⟨a ++ t', (hcomplete _).mpr ⟨t', ht', rfl⟩⟩
    · rintro ⟨t, ht⟩
      obtain ⟨t', ht', -⟩ := (hcomplete t).mp ht
      exact ⟨t', ht'⟩
  · intro c' t hr ht
    obtain ⟨t', ht', rfl⟩ := (hcomplete t).mp ht
    obtain ⟨hout, hlen', htext⟩ := h.text c' t' hr ht'
    simp only at hout hlen' htext
    refine ⟨by rw [hout, List.length_append]; omega, by rw [List.length_append]; omega, ?_⟩
    intro k hk
    by_cases hka : k < a.length
    · rw [h.frame _ (.inl (by simp only; omega)), List.getElem_append_left hka]
      exact hwrote.inside k hka
    · rw [List.length_append] at hk
      have htail := htext (k - a.length) (by omega)
      rw [show c.out + a.length + (k - a.length) = c.out + k by omega] at htail
      rw [htail, List.getElem_append_right (by omega)]
  · intro i hi
    rw [h.frame i (by simp only; omega)]
    exact hwrote.frame i hi
  · obtain ⟨reads, hreads, hmem⟩ := h.reads
    refine ⟨P.reads p ev mapped ++ reads, by rw [hreads]; simp [afterReads], fun i => ?_⟩
    rw [List.mem_append, hmem]
    simp only [hreached, or_and_right, exists_or, exists_eq_left]

/-- The loop comes to its end within as many turns as there are characters. -/
theorem printLoop_printed {n : Nat} {c : Cursor} {s : PrintState} (hn : c.inp.length ≤ n) :
    Ensures (printLoop p spec ev mapped n c) s (Printed p spec ev mapped c s) := by
  induction n generalizing c s with
  | zero =>
      have hinp : c.inp = [] := List.length_eq_zero_iff.mp (by omega)
      exact Printed.done hinp
  | succ n ih =>
      by_cases hinp : c.inp = []
      · obtain ⟨inp, out, len⟩ := c
        obtain rfl : inp = [] := hinp
        exact Printed.done rfl
      · by_cases hlen : c.len = 0
        · obtain ⟨inp, out, len⟩ := c
          obtain ⟨ch, inp, rfl⟩ := List.exists_cons_of_ne_nil hinp
          obtain rfl : len = 0 := hlen
          exact Printed.failed rfl
            (fun P => reached_zero) (fun t => complete_zero hinp)
        · have hlen : 0 < c.len := by omega
          cases hnext : nextPiece spec c.inp with
          | none =>
              obtain ⟨msg, hturn⟩ := ensures_turn_none p ev mapped n hlen hinp hnext s
              rw [hturn]
              exact Printed.failed rfl (fun P => reached_none hnext)
                (fun t => complete_none hnext hinp)
          | some q =>
              obtain ⟨P, rest⟩ := q
              rw [ensures_turn hlen hnext]
              obtain ⟨hok, htext⟩ := nextPiece_iff.mp hnext
              have hshort : rest.length ≤ n := by
                have hlength := congrArg List.length htext
                have hpos := List.length_pos_iff.mpr hok.text_ne_nil
                rw [List.length_append] at hlength
                omega
              cases ha : P.expand (printedArg p ev mapped) with
              | none =>
                  rw [turn_none (c := { c with inp := rest }) hlen ha, next_error]
                  refine Printed.stopped hlen hnext ?_ (by simp [ha]) (.inl rfl)
                    (fun _ _ => rfl) rfl
                  intro a ha'
                  cases ha.symm.trans ha'
              | some a =>
                  by_cases hroom : P.need a.length ≤ c.len
                  · obtain ⟨buf, hwrote, hturn⟩ := turn_some (c := { c with inp := rest })
                      (s := s) hlen ha hroom
                    rw [hturn, next_ok]
                    apply (ih hshort).mono
                    intro r s' h
                    exact Printed.step hlen hnext ha hroom hwrote h
                  · obtain ⟨msg, buf, hframe, hturn⟩ := turn_small
                      (c := { c with inp := rest }) (s := s) hlen ha (not_le.mp hroom)
                    rw [hturn, next_error]
                    refine Printed.stopped hlen hnext ?_ (by simp [ha]) (.inr ⟨msg, rfl⟩)
                      hframe rfl
                    intro a' ha'
                    obtain rfl : a = a' := Option.some.inj (ha.symm.trans ha')
                    exact not_le.mp hroom

end

end Description

end Ovni
