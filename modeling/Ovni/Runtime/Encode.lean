import Ovni.Runtime.Model
import Ovni.Stream.Layout

/-!
# The bytes of one event

What the runtime copies for a normal event and for a jumbo event is a byte
string of the size that the reader computes from it.
-/

namespace Ovni

open Ovni.Lib

/-! ## Flags -/

theorem byte_forall {P : UInt8 → Prop} (h : ∀ n < 256, P (UInt8.ofNat n)) (f : UInt8) :
    P f := by
  have := h f.toNat f.toNat_lt
  simpa using this

theorem flags_size_three (f : UInt8) :
    (((f &&& 0xf0) ||| (UInt8.ofNat 3 &&& 0x0f)) &&& 0x0f).toNat = 3 := by
  revert f
  apply byte_forall
  decide +kernel

theorem flags_jumbo_kept (f : UInt8) :
    ((f &&& 0xf0) ||| (UInt8.ofNat 3 &&& 0x0f)) &&& ovniEvJumbo = f &&& ovniEvJumbo := by
  revert f
  apply byte_forall
  decide +kernel

theorem flags_jumbo_set (f : UInt8) : (f ||| ovniEvJumbo) &&& ovniEvJumbo ≠ 0 := by
  revert f
  apply byte_forall
  decide +kernel

/-! ## Reading a header back -/

section Header

variable (ev : OvniEv) (pay : List UInt8)

theorem headEv_header :
    (headEv (ev.headerBytes ++ pay)).flags = ev.flags ∧
      (headEv (ev.headerBytes ++ pay)).model = ev.model ∧
      (headEv (ev.headerBytes ++ pay)).category = ev.category ∧
      (headEv (ev.headerBytes ++ pay)).value = ev.value := by
  refine ⟨?_, ?_, ?_, ?_⟩ <;> simp [headEv, evAt, Mem.patch, OvniEv.headerBytes] <;> omega

theorem headEv_clock : (headEv (ev.headerBytes ++ pay)).clock = ev.clock := by
  have hslice : (Mem.patch (fun _ => 0) 0 (ev.headerBytes ++ pay)).slice (0 + (4 : Nat)) 8 =
      leBytes 8 ev.clock.toNat := by
    rw [Mem.slice_patch_within _ _ _ _ _ (by simp)]
    simp [OvniEv.headerBytes]
  have hlt : ev.clock.toNat < 256 ^ 8 := ev.clock.toNat_lt
  have hread : (headEv (ev.headerBytes ++ pay)).clock =
      UInt64.ofNat (leNat (leBytes 8 ev.clock.toNat)) := by
    rw [← hslice]
    rfl
  rw [hread, leNat_leBytes_of_lt hlt]
  simp

theorem headEv_payload {k : Nat} (hk : k ≤ pay.length) :
    (headEv (ev.headerBytes ++ pay)).payloadBytes k = pay.take k := by
  have hslice : (Mem.patch (fun _ => 0) 0 (ev.headerBytes ++ pay)).slice (0 + (12 : Nat)) k =
      pay.take k := by
    rw [Mem.slice_patch_within _ _ _ _ _ (by simp; omega), List.drop_left' (by simp)]
  rw [← hslice]
  rfl

end Header

/-! ## Normal events -/

theorem OvniEv.bytes_eq (ev : OvniEv) {n : Nat} (hn : 12 ≤ n) :
    ev.bytes n = ev.headerBytes ++ ev.payloadBytes (n - 12) := by
  unfold OvniEv.bytes evHeaderSize
  rw [List.take_of_length_le]
  simp
  omega

@[simp] theorem OvniEv.length_bytes (ev : OvniEv) {n : Nat} (hn : 12 ≤ n) :
    (ev.bytes n).length = n := by
  rw [ev.bytes_eq hn]
  simp
  omega

/-- The size of a normal event as the `size_t` that is copied. -/
theorem toSize_ovniEvSize_normal {ev : OvniEv} (h : ev.isJumbo = false) :
    12 ≤ toSize (ovniEvSize ev) ∧ toSize (ovniEvSize ev) ≤ 28 ∧
      (toSize (ovniEvSize ev) : Int) = ovniEvSize ev := by
  have hb := ovniEvSize_normal_bounds h
  have hsize := toSize_of_nonneg (x := ovniEvSize ev) (by omega) (by omega)
  omega

/-- The bytes of a normal event. -/
def normalBytes (ev : OvniEv) : List UInt8 := ev.bytes (toSize (ovniEvSize ev))

theorem normalBytes_eq {ev : OvniEv} (h : ev.isJumbo = false) :
    normalBytes ev = ev.headerBytes ++ ev.payloadBytes (toSize (ovniEvSize ev) - 12) :=
  ev.bytes_eq (toSize_ovniEvSize_normal h).1

theorem length_normalBytes {ev : OvniEv} (h : ev.isJumbo = false) :
    (normalBytes ev).length = toSize (ovniEvSize ev) :=
  ev.length_bytes (toSize_ovniEvSize_normal h).1

theorem normalBytes_isEvent {ev : OvniEv} (h : ev.isJumbo = false) :
    IsEvent (normalBytes ev) := by
  obtain ⟨hlo, -, hsize⟩ := toSize_ovniEvSize_normal h
  have hflags : (headEv (normalBytes ev)).flags = ev.flags := by
    rw [normalBytes_eq h]
    exact (headEv_header _ _).1
  have hj : (headEv (normalBytes ev)).isJumbo = false := by
    unfold OvniEv.isJumbo at h ⊢
    rwa [hflags]
  constructor
  · rw [length_normalBytes h, hsize, ovniEvSize_normal hj, ovniEvSize_normal h]
    simp only [ovniPayloadSize, hj, h, hflags, Bool.false_eq_true, if_false]
  · unfold sizedBytes
    rw [hj, length_normalBytes h]
    simpa using hlo

theorem normalBytes_clock {ev : OvniEv} (h : ev.isJumbo = false) :
    (headEv (normalBytes ev)).clock = ev.clock := by
  rw [normalBytes_eq h, headEv_clock]

/-! ## Jumbo events -/

/-- The header of a jumbo event, as the writer leaves it. -/
def jumboHeader (ev : OvniEv) : OvniEv :=
  { ev with flags := ((ev.flags &&& 0xf0) ||| (UInt8.ofNat 3 &&& 0x0f)) ||| ovniEvJumbo }

/-- The bytes of a jumbo event: header, size and data. -/
def jumboBytes (ev : OvniEv) (buf : List UInt8) : List UInt8 :=
  (jumboHeader ev).headerBytes ++ (leBytes 4 buf.length ++ buf)

theorem length_jumboBytes (ev : OvniEv) (buf : List UInt8) :
    (jumboBytes ev buf).length = 16 + buf.length := by
  simp [jumboBytes]
  omega

theorem jumboBytes_isJumbo (ev : OvniEv) (buf : List UInt8) :
    (headEv (jumboBytes ev buf)).isJumbo = true := by
  have hflags : (headEv (jumboBytes ev buf)).flags = (jumboHeader ev).flags :=
    (headEv_header _ _).1
  unfold OvniEv.isJumbo
  rw [hflags, bne_iff_ne]
  exact flags_jumbo_set _

theorem jumboBytes_size (ev : OvniEv) {buf : List UInt8} (hbuf : buf.length < 2 ^ 32) :
    (headEv (jumboBytes ev buf)).jumboSize = buf.length := by
  have hpay : (headEv (jumboBytes ev buf)).payloadBytes 4 = leBytes 4 buf.length := by
    unfold jumboBytes
    rw [headEv_payload _ _ (by simp), List.take_left' (by simp)]
  unfold OvniEv.jumboSize
  rw [hpay, leNat_leBytes_of_lt (by omega)]

theorem jumboBytes_isEvent (ev : OvniEv) {buf : List UInt8} (hbuf : 16 + buf.length < 2 ^ 31) :
    IsEvent (jumboBytes ev buf) := by
  have hj := jumboBytes_isJumbo ev buf
  have hsize := jumboBytes_size ev (show buf.length < 2 ^ 32 by omega)
  constructor
  · rw [ovniEvSize_jumbo_of_lt hj (by omega), hsize, length_jumboBytes]
    push_cast
    rfl
  · unfold sizedBytes
    rw [hj, length_jumboBytes]
    simp

theorem jumboBytes_clock (ev : OvniEv) (buf : List UInt8) :
    (headEv (jumboBytes ev buf)).clock = ev.clock := by
  unfold jumboBytes
  rw [headEv_clock]
  rfl

end Ovni
