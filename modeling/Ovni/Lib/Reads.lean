import Mathlib.Data.Nat.Find
import Ovni.Lib.Ensures

/-!
# Programs that read memory

A program that reads the memory at a pointer keeps the offsets that it has read, and
fails when it reads past the bytes that are there.
-/

namespace Ovni.Lib

/-- The memory at a pointer, and how many bytes of it there are. -/
structure Span where
  byte : Nat → UInt8
  size : Nat

/-- Programs that fail with an `ε` and keep the offsets that they read. -/
abbrev Reads (ε α : Type) := Prog ε (List Nat) α

namespace Span

/-- The string that starts at an offset, without its nul. -/
def StringAt (m : Span) : Nat → List UInt8 → Prop
  | i, [] => i < m.size ∧ m.byte i = 0
  | i, b :: s => i < m.size ∧ m.byte i = b ∧ b ≠ 0 ∧ m.StringAt (i + 1) s

theorem StringAt.nul {m : Span} {i : Nat} {s : List UInt8} (h : m.StringAt i s) :
    i + s.length < m.size ∧ m.byte (i + s.length) = 0 := by
  induction s generalizing i with
  | nil => exact h
  | cons b s ih =>
      have hnul := ih h.2.2.2
      rw [List.length_cons, show i + (s.length + 1) = i + 1 + s.length by omega]
      exact hnul

theorem StringAt.ne_nul {m : Span} {i j : Nat} {s : List UInt8} (h : m.StringAt i s)
    (hi : i ≤ j) (hj : j < i + s.length) : m.byte j ≠ 0 := by
  induction s generalizing i with
  | nil =>
      rw [List.length_nil] at hj
      omega
  | cons b s ih =>
      rw [List.length_cons] at hj
      by_cases heq : j = i
      · rw [heq, h.2.1]
        exact h.2.2.1
      · exact ih h.2.2.2 (by omega) (by omega)

theorem StringAt.unique {m : Span} {i : Nat} {s t : List UInt8} (hs : m.StringAt i s)
    (ht : m.StringAt i t) : s = t := by
  induction s generalizing i t with
  | nil =>
      cases t with
      | nil => rfl
      | cons b t => exact absurd (ht.2.1 ▸ hs.2) ht.2.2.1
  | cons a s ih =>
      cases t with
      | nil => exact absurd (hs.2.1 ▸ ht.2) hs.2.2.1
      | cons b t => rw [← hs.2.1, ← ht.2.1, ih hs.2.2.2 ht.2.2.2]

/-- A string is also there when there are more bytes. -/
theorem StringAt.mono {m : Span} {i size : Nat} {s : List UInt8} (h : m.StringAt i s)
    (hsize : m.size ≤ size) : (Span.mk m.byte size).StringAt i s := by
  induction s generalizing i with
  | nil => exact ⟨Nat.lt_of_lt_of_le h.1 hsize, h.2⟩
  | cons b s ih => exact ⟨Nat.lt_of_lt_of_le h.1 hsize, h.2.1, h.2.2.1, ih h.2.2.2⟩

theorem StringAt.take {m : Span} {i n : Nat} {s : List UInt8} (h : m.StringAt i s)
    (hn : n ≤ s.length) : s.take n = (List.range' i n).map m.byte := by
  induction n generalizing i s with
  | zero => rfl
  | succ n ih =>
      cases s with
      | nil => exact absurd hn (Nat.not_succ_le_zero n)
      | cons b s =>
          rw [List.take_succ_cons, List.range'_succ, List.map_cons, h.2.1,
            ih h.2.2.2 (Nat.le_of_succ_le_succ hn)]

/-- A string ends at the first nul. -/
theorem exists_stringAt {m : Span} {i j : Nat} (hij : i ≤ j) (hj : j < m.size)
    (hnul : m.byte j = 0) : ∃ s, m.StringAt i s ∧ i + s.length ≤ j := by
  induction hn : j - i generalizing i with
  | zero =>
      obtain rfl : i = j := by omega
      exact ⟨[], ⟨hj, hnul⟩, le_refl _⟩
  | succ n ih =>
      by_cases hbyte : m.byte i = 0
      · exact ⟨[], ⟨by omega, hbyte⟩, hij⟩
      · obtain ⟨s, hs, hlen⟩ := ih (i := i + 1) (by omega) (by omega)
        refine ⟨m.byte i :: s, ⟨by omega, rfl, hbyte, hs⟩, ?_⟩
        rw [List.length_cons]
        omega

theorem stringAt_or (m : Span) (i : Nat) :
    (∃ s, m.StringAt i s) ∨ ∀ j, i ≤ j → j < m.size → m.byte j ≠ 0 := by
  by_cases h : ∃ j, i ≤ j ∧ j < m.size ∧ m.byte j = 0
  · obtain ⟨j, hij, hj, hnul⟩ := h
    obtain ⟨s, hs, -⟩ := exists_stringAt hij hj hnul
    exact .inl ⟨s, hs⟩
  · exact .inr fun j hij hj hnul => h ⟨j, hij, hj, hnul⟩

end Span

section

variable {ε : Type} (fault : ε) (m : Span)

/-- Read one byte. -/
def readByte (i : Nat) : Reads ε UInt8 := do
  if m.size ≤ i then throw fault
  modify fun reads => reads ++ [i]
  return m.byte i

/-- `memcpy` of some bytes. -/
def readBytes : Nat → Nat → Reads ε (List UInt8)
  | _, 0 => return []
  | i, n + 1 => do
      let b ← readByte fault m i
      let bs ← readBytes (i + 1) n
      return b :: bs

/-- The string at an offset, of which `n` bytes at most are there. -/
def readStringFrom : Nat → Nat → Reads ε (List UInt8)
  | _, 0 => throw fault
  | i, n + 1 => do
      let b ← readByte fault m i
      if b = 0 then return []
      let bs ← readStringFrom (i + 1) n
      return b :: bs

/-- Read a string up to its nul. -/
def readString (i : Nat) : Reads ε (List UInt8) := readStringFrom fault m i (m.size - i)

/-- Read at most `n` bytes of a string. -/
def readPrefix : Nat → Nat → Reads ε (List UInt8)
  | _, 0 => return []
  | i, n + 1 => do
      let b ← readByte fault m i
      if b = 0 then return []
      let bs ← readPrefix (i + 1) n
      return b :: bs

variable {fault m} {log : List Nat}

@[simp] theorem ensures_readByte {i : Nat} {post : Except ε UInt8 → List Nat → Prop} :
    Ensures (readByte fault m i) log post ↔
      if i < m.size then post (.ok (m.byte i)) (log ++ [i]) else post (.error fault) log := by
  unfold readByte
  by_cases h : m.size ≤ i
  · simp [h, Nat.not_lt.mpr h]
  · simp only [h, Nat.not_le.mp h, if_false, if_true, ensures_bind, ensures_pure, next_ok,
      ensures_modify]

theorem ensures_readBytes {i n : Nat} {post : Except ε (List UInt8) → List Nat → Prop} :
    Ensures (readBytes fault m i n) log post ↔
      if n = 0 ∨ i + n ≤ m.size then
        post (.ok ((List.range' i n).map m.byte)) (log ++ List.range' i n)
      else post (.error fault) (log ++ List.range' i (m.size - i)) := by
  induction n generalizing i log post with
  | zero => simp [readBytes]
  | succ n ih =>
      simp only [readBytes, ensures_bind, ensures_readByte]
      by_cases hi : i < m.size
      · rw [if_pos hi, next_ok, ensures_bind, ih]
        have hcond : (n = 0 ∨ i + 1 + n ≤ m.size) ↔ (n + 1 = 0 ∨ i + (n + 1) ≤ m.size) := by
          omega
        have hlog : ∀ k, log ++ [i] ++ List.range' (i + 1) k = log ++ List.range' i (k + 1) := by
          intro k
          rw [List.range'_succ, List.append_assoc, List.singleton_append]
        rw [hlog, hlog, show m.size - (i + 1) + 1 = m.size - i by omega]
        simp only [hcond, next_ok, next_error, ensures_pure, List.range'_succ, List.map_cons]
      · have hzero : m.size - i = 0 := by omega
        rw [if_neg hi, if_neg (by omega), next_error, hzero]
        simp

theorem ensures_readStringFrom {i n : Nat} {s : List UInt8} (h : m.StringAt i s)
    (hn : s.length < n) {post : Except ε (List UInt8) → List Nat → Prop} :
    Ensures (readStringFrom fault m i n) log post ↔
      post (.ok s) (log ++ List.range' i (s.length + 1)) := by
  induction n generalizing i s log post with
  | zero => omega
  | succ n ih =>
      simp only [readStringFrom, ensures_bind, ensures_readByte]
      cases s with
      | nil => simp [h.1, h.2]
      | cons b s =>
          obtain ⟨hi, hb, hne, hs⟩ := h
          rw [List.length_cons] at hn
          simp only [hi, if_true, next_ok, hb, hne, if_false, ensures_bind]
          rw [ih hs (by omega), next_ok, ensures_pure, List.length_cons,
            List.range'_succ (n := s.length + 1), List.append_assoc, List.singleton_append]

theorem ensures_readString {i : Nat} {s : List UInt8} (h : m.StringAt i s)
    {post : Except ε (List UInt8) → List Nat → Prop} :
    Ensures (readString fault m i) log post ↔
      post (.ok s) (log ++ List.range' i (s.length + 1)) :=
  ensures_readStringFrom h (by have := h.nul; omega)

theorem ensures_readString_none {i : Nat} (h : ∀ j, i ≤ j → j < m.size → m.byte j ≠ 0)
    {post : Except ε (List UInt8) → List Nat → Prop} :
    Ensures (readString fault m i) log post ↔
      post (.error fault) (log ++ List.range' i (m.size - i)) := by
  unfold readString
  induction hn : m.size - i generalizing i log post with
  | zero => simp [readStringFrom]
  | succ n ih =>
      have hi : i < m.size := by omega
      have hne := h i (le_refl i) hi
      simp only [readStringFrom, ensures_bind, ensures_readByte, hi, if_true, next_ok, hne,
        if_false, ensures_bind]
      rw [ih (fun j hij => h j (by omega)) (by omega), next_error, List.range'_succ,
        List.append_assoc, List.singleton_append]

theorem ensures_readPrefix_string {i n : Nat} {s : List UInt8} (h : m.StringAt i s)
    (hn : s.length < n) {post : Except ε (List UInt8) → List Nat → Prop} :
    Ensures (readPrefix fault m i n) log post ↔
      post (.ok s) (log ++ List.range' i (s.length + 1)) := by
  induction n generalizing i s log post with
  | zero => omega
  | succ n ih =>
      simp only [readPrefix, ensures_bind, ensures_readByte]
      cases s with
      | nil => simp [h.1, h.2]
      | cons b s =>
          obtain ⟨hi, hb, hne, hs⟩ := h
          rw [List.length_cons] at hn
          simp only [hi, if_true, next_ok, hb, hne, if_false, ensures_bind]
          rw [ih hs (by omega), next_ok, ensures_pure, List.length_cons,
            List.range'_succ (n := s.length + 1), List.append_assoc, List.singleton_append]

/-- Without a nul in the prefix, it is read as bytes are. -/
theorem ensures_readPrefix_bytes {i n : Nat}
    (h : ∀ j, i ≤ j → j < i + n → j < m.size → m.byte j ≠ 0)
    {post : Except ε (List UInt8) → List Nat → Prop} :
    Ensures (readPrefix fault m i n) log post ↔ Ensures (readBytes fault m i n) log post := by
  induction n generalizing i log post with
  | zero => rfl
  | succ n ih =>
      simp only [readPrefix, readBytes, ensures_bind, ensures_readByte]
      by_cases hi : i < m.size
      · have hne := h i (le_refl i) (by omega) hi
        simp only [hi, if_true, next_ok, hne, if_false, ensures_bind]
        exact ih fun j hij hj hsize => h j (by omega) (by omega) hsize
      · simp only [hi, if_false, next_error]

end

/-! ## What was read before -/

section

variable {ε α β : Type}

/-- A call adds what it reads to what was read before, and has one way to fail. -/
structure Logged (fault : ε) (x : Reads ε α) : Prop where
  append : ∀ log post, Ensures x log post ↔ Ensures x [] fun r reads => post r (log ++ reads)
  fault : Ensures x [] fun r _ => ∀ e, r = .error e → e = fault

variable {fault : ε} {m : Span}

theorem logged_pure (a : α) : Logged fault (pure a : Reads ε α) := by
  refine ⟨fun log post => ?_, ?_⟩
  · simp only [ensures_pure, List.append_nil]
  · rw [ensures_pure]
    intro e h
    cases h

theorem logged_throw : Logged fault (throw fault : Reads ε α) := by
  refine ⟨fun log post => ?_, ?_⟩
  · simp only [ensures_throw, List.append_nil]
  · rw [ensures_throw]
    intro e h
    cases h
    rfl

theorem logged_bind {x : Reads ε α} {f : α → Reads ε β} (hx : Logged fault x)
    (hf : ∀ a, Logged fault (f a)) : Logged fault (x >>= f) := by
  refine ⟨fun log post => ?_, ?_⟩
  · rw [ensures_bind, ensures_bind, hx.append]
    have hnext : ∀ r reads, Next f post r (log ++ reads) ↔
        Next f (fun r reads => post r (log ++ reads)) r reads := by
      intro r reads
      cases r with
      | error e => rfl
      | ok a =>
          rw [next_ok, next_ok, (hf a).append (log ++ reads), (hf a).append reads]
          simp only [List.append_assoc]
    simp only [hnext]
  · rw [ensures_bind]
    apply hx.fault.mono
    intro r reads hr
    cases r with
    | error e =>
        rw [next_error]
        intro e' h
        cases h
        exact hr e rfl
    | ok a =>
        rw [next_ok, (hf a).append]
        exact (hf a).fault

theorem logged_readByte (i : Nat) : Logged fault (readByte fault m i) := by
  refine ⟨fun log post => ?_, ?_⟩
  · by_cases h : i < m.size
    · simp only [ensures_readByte, h, if_true, List.nil_append]
    · simp only [ensures_readByte, h, if_false, List.append_nil]
  · by_cases h : i < m.size
    · simp [h]
    · simp [h]

theorem logged_readBytes (i n : Nat) : Logged fault (readBytes fault m i n) := by
  induction n generalizing i with
  | zero => exact logged_pure []
  | succ n ih =>
      exact logged_bind (logged_readByte i) fun b => logged_bind (ih (i + 1)) fun bs =>
        logged_pure (b :: bs)

theorem logged_readStringFrom (i n : Nat) : Logged fault (readStringFrom fault m i n) := by
  induction n generalizing i with
  | zero => exact logged_throw
  | succ n ih =>
      apply logged_bind (logged_readByte i)
      intro b
      by_cases hb : b = 0
      · simp only [hb, if_true]
        exact logged_pure []
      · simp only [hb, if_false]
        exact logged_bind (ih (i + 1)) fun bs => logged_pure (b :: bs)

theorem logged_readString (i : Nat) : Logged fault (readString fault m i) :=
  logged_readStringFrom i _

theorem logged_readPrefix (i n : Nat) : Logged fault (readPrefix fault m i n) := by
  induction n generalizing i with
  | zero => exact logged_pure []
  | succ n ih =>
      apply logged_bind (logged_readByte i)
      intro b
      by_cases hb : b = 0
      · simp only [hb, if_true]
        exact logged_pure []
      · simp only [hb, if_false]
        exact logged_bind (ih (i + 1)) fun bs => logged_pure (b :: bs)

end

end Ovni.Lib
