import Ovni.EvSpec.Expand

/-!
# The arguments in the payload

What is read for an argument stays in the payload when its bytes are there, up to the nul
for a string.  The text that is printed for it is then the one of its value.
-/

namespace Ovni

open Ovni.Lib

/-! ## Values -/

/-- The bytes of an argument that are read are in the payload.  At most `limit` bytes of a
string are. -/
def ArgInside (limit : Option Nat) (ev : EmuEv) (arg : EvArg) : Prop :=
  ∃ payload, ev.payload = some payload ∧
    if arg.type = .str then
      (∃ j, arg.offset ≤ j ∧ j < ev.payloadSize ∧ payload j = 0) ∨
        ∃ n, limit = some n ∧ (n = 0 ∨ arg.offset + n ≤ ev.payloadSize)
    else arg.offset + arg.type.size ≤ ev.payloadSize

/-- The bytes of the payload from an offset on. -/
def payloadFrom (ev : EmuEv) (offset : Nat) : List UInt8 :=
  match ev.payload with
  | none => []
  | some payload => (List.range' offset (ev.payloadSize - offset)).map payload

/-- The value of an argument in the payload. -/
def argValue (ev : EmuEv) (arg : EvArg) : EvArgData :=
  if arg.type = .str then .str (textOf ((payloadFrom ev arg.offset).takeWhile fun b => b ≠ 0))
  else .int arg.type (argInt arg.type ((payloadFrom ev arg.offset).take arg.type.size))

/-- The text of an argument in the payload, when its format is valid. -/
def formattedArg (p : Printf) (ev : EmuEv) (fmt : Option Name) (arg : EvArg) : Option Name :=
  p.text (argFmt p fmt arg) (argValue ev arg)

theorem EvArgType.size_pos {type : EvArgType} (h : type ≠ .str) : 0 < type.size := by
  cases type with
  | str => exact absurd rfl h
  | _ => decide

/-! ## Reads -/

theorem forall_range'_lt {a n size : Nat} :
    (∀ i ∈ List.range' a n, i < size) ↔ n = 0 ∨ a + n ≤ size := by
  constructor
  · intro h
    by_cases hn : n = 0
    · exact .inl hn
    · have hlast := h (a + (n - 1)) (List.mem_range'_1.mpr ⟨by omega, by omega⟩)
      exact .inr (by omega)
  · intro h i hi
    obtain ⟨hlo, hhi⟩ := List.mem_range'_1.mp hi
    omega

section

variable {p : Printf} {ev : EmuEv} {arg : EvArg} {fmt : Name} {mapped : Nat}
  {payload : Nat → UInt8} {post : Except EmuFault EvArgData → List Nat → Prop}

theorem ensures_readArg_none (hpayload : ev.payload = none) :
    Ensures (readArg p arg fmt ev mapped) [] post ↔ post (.error .crash) [] := by
  simp only [readArg, hpayload, ensures_throw]

/-- An integer is read as a whole, or not at all when the memory ends before it. -/
theorem ensures_readArg_int (hpayload : ev.payload = some payload) (hstr : arg.type ≠ .str) :
    Ensures (readArg p arg fmt ev mapped) [] post ↔
      if arg.offset + arg.type.size ≤ mapped then
        post (.ok (.int arg.type (argInt arg.type
          ((List.range' arg.offset arg.type.size).map payload))))
          (List.range' arg.offset arg.type.size)
      else post (.error .crash) (List.range' arg.offset (mapped - arg.offset)) := by
  have hsize : ¬ arg.type.size = 0 := (EvArgType.size_pos hstr).ne'
  simp only [readArg, hpayload, hstr, if_false, ensures_bind]
  rw [ensures_readBytes]
  by_cases hmapped : arg.offset + arg.type.size ≤ mapped
  · rw [if_pos (.inr hmapped), if_pos hmapped, next_ok, ensures_pure]
    rfl
  · rw [if_neg (by simp only; omega), if_neg hmapped, next_error]
    rfl

/-- A string is read up to its nul. -/
theorem ensures_readArg_str (hpayload : ev.payload = some payload) (hstr : arg.type = .str)
    {s : List UInt8} (hs : (Span.mk payload mapped).StringAt arg.offset s)
    (hlimit : ∀ n, p.limit fmt = some n → s.length < n) :
    Ensures (readArg p arg fmt ev mapped) [] post ↔
      post (.ok (.str (textOf s))) (List.range' arg.offset (s.length + 1)) := by
  simp only [readArg, hpayload, hstr, if_true]
  cases hfmt : p.limit fmt with
  | none =>
      simp only [ensures_bind]
      rw [ensures_readString hs, next_ok, ensures_pure]
      rfl
  | some n =>
      simp only [ensures_bind]
      rw [ensures_readPrefix_string hs (hlimit n hfmt), next_ok, ensures_pure]
      rfl

/-- A string that has no nul before the limit is read up to the limit. -/
theorem ensures_readArg_limit (hpayload : ev.payload = some payload) (hstr : arg.type = .str)
    {n : Nat} (hlimit : p.limit fmt = some n)
    (hnul : ∀ j, arg.offset ≤ j → j < arg.offset + n → j < mapped → payload j ≠ 0) :
    Ensures (readArg p arg fmt ev mapped) [] post ↔
      if n = 0 ∨ arg.offset + n ≤ mapped then
        post (.ok (.str (textOf ((List.range' arg.offset n).map payload))))
          (List.range' arg.offset n)
      else post (.error .crash) (List.range' arg.offset (mapped - arg.offset)) := by
  simp only [readArg, hpayload, hstr, hlimit, if_true, ensures_bind]
  rw [ensures_readPrefix_bytes hnul, ensures_readBytes]
  by_cases hmapped : n = 0 ∨ arg.offset + n ≤ mapped
  · rw [if_pos hmapped, if_pos hmapped, next_ok, ensures_pure]
    rfl
  · rw [if_neg hmapped, if_neg hmapped, next_error]
    rfl

/-- A string without a nul is read to the end of the memory. -/
theorem ensures_readArg_overrun (hpayload : ev.payload = some payload) (hstr : arg.type = .str)
    (hlimit : p.limit fmt = none) (hnul : ∀ j, arg.offset ≤ j → j < mapped → payload j ≠ 0) :
    Ensures (readArg p arg fmt ev mapped) [] post ↔
      post (.error .crash) (List.range' arg.offset (mapped - arg.offset)) := by
  simp only [readArg, hpayload, hstr, hlimit, if_true, ensures_bind]
  rw [ensures_readString_none hnul, next_error]
  rfl

/-! ## Inside the payload -/

/-- What a call that reads an argument asks of the payload. -/
def KeepsInside (ev : EmuEv) (x : Reads EmuFault EvArgData) : Prop :=
  Ensures x [] fun r reads => r ≠ .error .crash ∧ ∀ i ∈ reads, i < ev.payloadSize

theorem keepsInside_str (hpayload : ev.payload = some payload) (hstr : arg.type = .str)
    (hmapped : ev.payloadSize ≤ mapped) {s : List UInt8}
    (hs : (Span.mk payload mapped).StringAt arg.offset s)
    (hlimit : ∀ n, p.limit fmt = some n → s.length < n) :
    KeepsInside ev (readArg p arg fmt ev mapped) ↔ ArgInside (p.limit fmt) ev arg := by
  rw [KeepsInside, ensures_readArg_str hpayload hstr hs hlimit, forall_range'_lt]
  constructor
  · rintro ⟨-, hreads⟩
    refine ⟨payload, hpayload, ?_⟩
    rw [if_pos hstr]
    exact .inl ⟨arg.offset + s.length, by omega, by omega, hs.nul.2⟩
  · rintro ⟨payload', hpayload', hinside⟩
    obtain rfl : payload = payload' := Option.some.inj (hpayload.symm.trans hpayload')
    rw [if_pos hstr] at hinside
    refine ⟨by simp, .inr ?_⟩
    rcases hinside with ⟨j, hj, hsize, hnul⟩ | ⟨n, hn, hsize⟩
    · have hjm : j < (Span.mk payload mapped).size := by
        simp only
        omega
      obtain ⟨t, ht, hlen⟩ := Span.exists_stringAt hj hjm hnul
      rw [← hs.unique ht] at hlen
      omega
    · have := hlimit n hn
      omega

theorem keepsInside_limit (hpayload : ev.payload = some payload) (hstr : arg.type = .str)
    (hmapped : ev.payloadSize ≤ mapped) {n : Nat} (hlimit : p.limit fmt = some n)
    (hnul : ∀ j, arg.offset ≤ j → j < arg.offset + n → j < mapped → payload j ≠ 0) :
    KeepsInside ev (readArg p arg fmt ev mapped) ↔ ArgInside (p.limit fmt) ev arg := by
  have hinside : ArgInside (p.limit fmt) ev arg ↔ n = 0 ∨ arg.offset + n ≤ ev.payloadSize := by
    constructor
    · rintro ⟨payload', hpayload', hinside⟩
      obtain rfl : payload = payload' := Option.some.inj (hpayload.symm.trans hpayload')
      rw [if_pos hstr] at hinside
      rcases hinside with ⟨j, hj, hsize, hzero⟩ | ⟨k, hk, hsize⟩
      · by_cases hjn : j < arg.offset + n
        · exact absurd hzero (hnul j hj hjn (by omega))
        · omega
      · obtain rfl : n = k := Option.some.inj (hlimit.symm.trans hk)
        exact hsize
    · intro h
      refine ⟨payload, hpayload, ?_⟩
      rw [if_pos hstr]
      exact .inr ⟨n, hlimit, h⟩
  rw [hinside, KeepsInside, ensures_readArg_limit hpayload hstr hlimit hnul]
  by_cases hread : n = 0 ∨ arg.offset + n ≤ mapped
  · rw [if_pos hread, forall_range'_lt]
    simp
  · rw [if_neg hread]
    simp only [ne_eq, not_true, false_and, false_iff]
    omega

/-- The reads stay in the payload exactly when the bytes of the argument are there. -/
theorem readArg_inside_iff (hmapped : ev.payloadSize ≤ mapped) :
    KeepsInside ev (readArg p arg fmt ev mapped) ↔ ArgInside (p.limit fmt) ev arg := by
  cases hpayload : ev.payload with
  | none =>
      rw [KeepsInside, ensures_readArg_none hpayload]
      simp [ArgInside, hpayload]
  | some payload =>
      by_cases hstr : arg.type = .str
      · cases hlimit : p.limit fmt with
        | none =>
            obtain ⟨s, hs⟩ | hnul := (Span.mk payload mapped).stringAt_or arg.offset
            · rw [← hlimit]
              exact keepsInside_str hpayload hstr hmapped hs (by simp [hlimit])
            · rw [KeepsInside, ensures_readArg_overrun hpayload hstr hlimit hnul]
              simp only [ne_eq, not_true, false_and, false_iff]
              rintro ⟨payload', hpayload', hinside⟩
              obtain rfl : payload = payload' := Option.some.inj (hpayload.symm.trans hpayload')
              rw [if_pos hstr] at hinside
              rcases hinside with ⟨j, hj, hsize, hzero⟩ | ⟨n, hn, -⟩
              · exact hnul j hj (by simp only; omega) hzero
              · cases hn
        | some n =>
            rw [← hlimit]
            obtain ⟨s, hs⟩ | hnul := (Span.mk payload mapped).stringAt_or arg.offset
            · by_cases hn : s.length < n
              · apply keepsInside_str hpayload hstr hmapped hs
                intro k hk
                rw [← Option.some.inj (hlimit.symm.trans hk)]
                exact hn
              · apply keepsInside_limit hpayload hstr hmapped hlimit
                intro j hj hjn hsize
                exact hs.ne_nul hj (by omega)
            · exact keepsInside_limit hpayload hstr hmapped hlimit
                fun j hj _ hsize => hnul j hj hsize
      · rw [KeepsInside, ensures_readArg_int hpayload hstr]
        have hpos := EvArgType.size_pos hstr
        have hinside : ArgInside (p.limit fmt) ev arg ↔
            arg.offset + arg.type.size ≤ ev.payloadSize := by
          simp [ArgInside, hpayload, hstr]
        rw [hinside]
        by_cases hread : arg.offset + arg.type.size ≤ mapped
        · rw [if_pos hread, forall_range'_lt]
          simp only [ne_eq, reduceCtorEq, not_false_eq_true, true_and]
          omega
        · rw [if_neg hread]
          simp only [ne_eq, not_true, false_and, false_iff]
          omega

/-! ## What is printed -/

theorem takeWhile_stringAt {m : Span} {i : Nat} {s : List UInt8} (h : m.StringAt i s) :
    ((List.range' i (m.size - i)).map m.byte).takeWhile (fun b => decide (b ≠ 0)) = s := by
  induction s generalizing i with
  | nil =>
      obtain ⟨k, hk⟩ : ∃ k, m.size - i = k + 1 := ⟨m.size - i - 1, by have := h.1; omega⟩
      rw [hk, List.range'_succ, List.map_cons, h.2, List.takeWhile_cons_of_neg (by simp)]
  | cons b s ih =>
      obtain ⟨hi, hb, hne, hs⟩ := h
      have hsize : m.size - i = m.size - (i + 1) + 1 := by omega
      rw [hsize, List.range'_succ, List.map_cons, hb,
        List.takeWhile_cons_of_pos (by simpa using hne), ih hs]

theorem take_payloadFrom {offset n : Nat} (hpayload : ev.payload = some payload)
    (h : offset + n ≤ ev.payloadSize) :
    (payloadFrom ev offset).take n = (List.range' offset n).map payload := by
  simp only [payloadFrom, hpayload]
  rw [← List.map_take, List.take_range'_of_length_ge (by omega)]

/-- The text of an argument that is in the payload, with its nul for a string, is the one of
its value. -/
theorem printedArg_inside {fmt : Option Name} (hmapped : ev.payloadSize ≤ mapped)
    (h : ArgInside none ev arg) : printedArg p ev mapped fmt arg = formattedArg p ev fmt arg := by
  obtain ⟨payload, hpayload, hinside⟩ := h
  have hread : Ensures (readArg p arg (argFmt p fmt arg) ev mapped) [] fun r _ =>
      r.toOption.bind (p.text (argFmt p fmt arg)) = formattedArg p ev fmt arg := by
    by_cases hstr : arg.type = .str
    · simp only [hstr, if_true, reduceCtorEq, false_and, exists_false, or_false] at hinside
      obtain ⟨j, hj, hsize, hnul⟩ := hinside
      let m : Span := ⟨payload, ev.payloadSize⟩
      obtain ⟨s, hs, -⟩ : ∃ s, m.StringAt arg.offset s ∧ _ := Span.exists_stringAt hj hsize hnul
      have hvalue : argValue ev arg = .str (textOf s) := by
        rw [argValue, if_pos hstr, payloadFrom, hpayload]
        exact congrArg _ (congrArg textOf (takeWhile_stringAt hs))
      rw [formattedArg, hvalue]
      by_cases hlimit : ∀ n, p.limit (argFmt p fmt arg) = some n → s.length < n
      · rw [ensures_readArg_str hpayload hstr (hs.mono hmapped) hlimit]
        rfl
      · simp only [not_forall, not_lt] at hlimit
        obtain ⟨n, hfmt, hn⟩ := hlimit
        have hend : arg.offset + s.length < ev.payloadSize := hs.nul.1
        rw [ensures_readArg_limit hpayload hstr hfmt fun j hj hjn _ => hs.ne_nul hj (by omega),
          if_pos (.inr (by omega)), ← p.text_limit _ n _ hfmt]
        have htake : s.take n = (List.range' arg.offset n).map payload := hs.take hn
        rw [← htake, textOf, textOf, List.map_take]
        rfl
    · rw [if_neg hstr] at hinside
      rw [ensures_readArg_int hpayload hstr, if_pos (hinside.trans hmapped), formattedArg,
        argValue, if_neg hstr, take_payloadFrom hpayload hinside]
      rfl
  exact hread

end

end Ovni
