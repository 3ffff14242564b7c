import Ovni.Lib.Memory

/-!
# The binary event

`struct ovni_ev` and the functions of the runtime that size it.  The runtime
that writes events and the emulator that reads them call the same functions,
one on a local variable and the other on a pointer into the mapped stream, so
the model keeps one `OvniEv` and reads it from memory with `evAt`.
-/

namespace Ovni

open Ovni.Lib

/-- The value left in an `int` by the conversion of `x`. -/
def toInt32 (x : Int) : Int := x.bmod (2 ^ 32)

/-- The value left in an `int64_t` by the conversion of `x`. -/
def toInt64 (x : Int) : Int := x.bmod (2 ^ 64)

/-- The value of an `int` as a `size_t`. -/
def toSize (x : Int) : Nat := (x % 2 ^ 64).toNat

/-- `OVNI_EV_JUMBO`. -/
def ovniEvJumbo : UInt8 := 0x10

/-- `OVNI_MAX_EV_BUF`, 2 MiB. -/
def ovniMaxEvBuf : Nat := 2 * 1024 * 1024

/-- `sizeof(struct ovni_ev_header)`. -/
def evHeaderSize : Nat := 12

/-- `sizeof(union ovni_ev_payload)`. -/
def evPayloadUnion : Nat := 16

/-- `struct ovni_ev`.  The payload is the memory after the header: sixteen
bytes of union in a local variable, and whatever follows in a stream. -/
structure OvniEv where
  flags : UInt8
  model : UInt8
  category : UInt8
  value : UInt8
  clock : UInt64
  payload : Nat → UInt8

namespace OvniEv

/-- `ev->header.flags & OVNI_EV_JUMBO`. -/
def isJumbo (ev : OvniEv) : Bool := ev.flags &&& ovniEvJumbo != 0

/-- The first `n` bytes of the payload. -/
def payloadBytes (ev : OvniEv) (n : Nat) : List UInt8 :=
  (List.range n).map ev.payload

/-- `ev->payload.jumbo.size`, a `uint32_t`. -/
def jumboSize (ev : OvniEv) : Nat := leNat (ev.payloadBytes 4)

/-- The twelve bytes of the packed header. -/
def headerBytes (ev : OvniEv) : List UInt8 :=
  [ev.flags, ev.model, ev.category, ev.value] ++ leBytes 8 ev.clock.toNat

/-- The first `n` bytes of the structure, as `memcpy` takes them. -/
def bytes (ev : OvniEv) (n : Nat) : List UInt8 :=
  (ev.headerBytes ++ ev.payloadBytes (n - evHeaderSize)).take n

end OvniEv

/-- `ovni_ev_get_clock`. -/
def ovniEvGetClock (ev : OvniEv) : UInt64 := ev.clock

/-- `get_jumbo_payload_size`, a `size_t`. -/
def getJumboPayloadSize (ev : OvniEv) : Nat := 4 + ev.jumboSize

/-- `ovni_payload_size`.  The jumbo size is a `size_t` narrowed to `int`. -/
def ovniPayloadSize (ev : OvniEv) : Int :=
  if ev.isJumbo then toInt32 (getJumboPayloadSize ev)
  else
    let size := (ev.flags &&& 0x0f).toNat
    -- The minimum size is 2 bytes, so 4 bits encode lengths up to 16
    if size = 0 then 0 else (size + 1 : Nat)

/-- `ovni_ev_size`: the addition is in `int`. -/
def ovniEvSize (ev : OvniEv) : Int := toInt32 (evHeaderSize + ovniPayloadSize ev)

/-- The event that a pointer at distance `p` of the base of `m` names. -/
def evAt (m : Mem) (p : Int) : OvniEv where
  flags := m p
  model := m (p + 1)
  category := m (p + 2)
  value := m (p + 3)
  clock := UInt64.ofNat (leNat (m.slice (p + 4) 8))
  payload := fun i => m (p + 12 + i)

/-! ## Conversions -/

theorem toInt32_of_range {x : Int} (hlo : -2 ^ 31 ≤ x) (hhi : x < 2 ^ 31) :
    toInt32 x = x := by
  unfold toInt32
  exact Int.bmod_eq_of_le (by omega) (by omega)

/-- Conversion of a value at most one turn above the range of `int`. -/
theorem toInt32_of_turn {x : Int} (hlo : -2 ^ 31 ≤ x) (hhi : x < 2 ^ 32 + 2 ^ 31) :
    toInt32 x = if x < 2 ^ 31 then x else x - 2 ^ 32 := by
  split
  · exact toInt32_of_range hlo (by omega)
  · have hturn : toInt32 x = toInt32 (x - 2 ^ 32) := by
      unfold toInt32
      exact (Int.sub_bmod_right x (2 ^ 32)).symm
    rw [hturn, toInt32_of_range] <;> omega

theorem toInt64_of_range {x : Int} (hlo : -2 ^ 63 ≤ x) (hhi : x < 2 ^ 63) :
    toInt64 x = x := by
  unfold toInt64
  exact Int.bmod_eq_of_le (by omega) (by omega)

theorem toInt32_bounds (x : Int) : -2 ^ 31 ≤ toInt32 x ∧ toInt32 x < 2 ^ 31 := by
  have hlo := @Int.le_bmod x (2 ^ 32) (by norm_num)
  have hhi := @Int.bmod_lt x (2 ^ 32) (by norm_num)
  unfold toInt32
  omega

theorem toInt64_bounds (x : Int) : -2 ^ 63 ≤ toInt64 x ∧ toInt64 x < 2 ^ 63 := by
  have hlo := @Int.le_bmod x (2 ^ 64) (by norm_num)
  have hhi := @Int.bmod_lt x (2 ^ 64) (by norm_num)
  unfold toInt64
  omega

theorem toSize_of_nonneg {x : Int} (hlo : 0 ≤ x) (hhi : x < 2 ^ 64) : (toSize x : Int) = x := by
  unfold toSize
  omega

/-! ## Sizes -/

@[simp] theorem OvniEv.length_payloadBytes (ev : OvniEv) (n : Nat) :
    (ev.payloadBytes n).length = n := by
  simp [OvniEv.payloadBytes]

@[simp] theorem OvniEv.length_headerBytes (ev : OvniEv) :
    ev.headerBytes.length = 12 := by
  simp [OvniEv.headerBytes]

theorem OvniEv.jumboSize_lt (ev : OvniEv) : ev.jumboSize < 2 ^ 32 := by
  have h := leNat_lt (ev.payloadBytes 4)
  rw [OvniEv.length_payloadBytes] at h
  unfold OvniEv.jumboSize
  omega

theorem flags_nibble_lt (f : UInt8) : (f &&& 0x0f).toNat < 16 := by
  rw [UInt8.toNat_and]
  exact lt_of_le_of_lt Nat.and_le_right (by decide)

/-- A normal event has no payload or one of 2 to 16 bytes. -/
theorem ovniPayloadSize_normal {ev : OvniEv} (h : ev.isJumbo = false) :
    ovniPayloadSize ev = 0 ∨ 2 ≤ ovniPayloadSize ev ∧ ovniPayloadSize ev ≤ 16 := by
  have hn := flags_nibble_lt ev.flags
  simp only [ovniPayloadSize, h, Bool.false_eq_true, if_false]
  split
  · exact Or.inl rfl
  · right
    omega

theorem ovniEvSize_normal {ev : OvniEv} (h : ev.isJumbo = false) :
    ovniEvSize ev = 12 + ovniPayloadSize ev := by
  have hp := ovniPayloadSize_normal h
  unfold ovniEvSize evHeaderSize
  rw [toInt32_of_range] <;> omega

theorem ovniEvSize_normal_bounds {ev : OvniEv} (h : ev.isJumbo = false) :
    12 ≤ ovniEvSize ev ∧ ovniEvSize ev ≤ 28 := by
  have hp := ovniPayloadSize_normal h
  rw [ovniEvSize_normal h]
  omega

/-- The size of a jumbo event, for every value of its size field: both `int`
conversions together lose one turn of 2^32 from 2^31 - 16 on. -/
theorem ovniEvSize_jumbo {ev : OvniEv} (h : ev.isJumbo = true) :
    ovniEvSize ev =
      if ev.jumboSize < 2 ^ 31 - 16 then 16 + (ev.jumboSize : Int)
      else 16 + (ev.jumboSize : Int) - 2 ^ 32 := by
  have hlt := ev.jumboSize_lt
  have hpay : ovniPayloadSize ev =
      if ev.jumboSize < 2 ^ 31 - 4 then 4 + (ev.jumboSize : Int)
      else 4 + (ev.jumboSize : Int) - 2 ^ 32 := by
    simp only [ovniPayloadSize, h, if_true, getJumboPayloadSize]
    rw [toInt32_of_turn (by omega) (by omega)]
    push_cast
    split_ifs <;> omega
  unfold ovniEvSize evHeaderSize
  rw [hpay, toInt32_of_turn (by split_ifs <;> omega) (by split_ifs <;> omega)]
  split_ifs <;> omega

theorem ovniEvSize_jumbo_of_lt {ev : OvniEv} (h : ev.isJumbo = true)
    (hsize : ev.jumboSize < 2 ^ 31 - 16) :
    ovniEvSize ev = 16 + ev.jumboSize := by
  rw [ovniEvSize_jumbo h, if_pos hsize]

/-- The events whose size as an `int` is not positive: jumbo events with a size
field from 2^31 - 16 to 2^32 - 16. -/
theorem ovniEvSize_nonpos_iff (ev : OvniEv) :
    ovniEvSize ev ≤ 0 ↔
      ev.isJumbo = true ∧ 2 ^ 31 - 16 ≤ ev.jumboSize ∧ ev.jumboSize ≤ 2 ^ 32 - 16 := by
  cases h : ev.isJumbo with
  | false =>
      have hb := ovniEvSize_normal_bounds h
      simp only [Bool.false_eq_true, false_and, iff_false]
      omega
  | true =>
      have hlt := ev.jumboSize_lt
      rw [ovniEvSize_jumbo h]
      simp only [true_and]
      split_ifs <;> omega

end Ovni
