import Mathlib.Tactic.Ring
import Mathlib.Data.List.GetD

/-!
# Byte memory seen from a base pointer

A `Mem` is the memory around a pointer: indices at and after the base address
the object itself, and every other index reads whatever bytes happen to lie
there.  Slices, patches and little-endian fields are the only views a byte
format needs, so a reader and a writer can share this interface.
-/

namespace Ovni.Lib

/-- Memory indexed by the signed distance from a base pointer. -/
abbrev Mem := Int → UInt8

namespace Mem

/-- The `n` bytes that start at `p`. -/
def slice (m : Mem) (p : Int) (n : Nat) : List UInt8 :=
  (List.range n).map fun i : Nat => m (p + i)

/-- Overwrite the bytes that start at `p`. -/
def patch (m : Mem) (p : Int) (bs : List UInt8) : Mem := fun i =>
  if p ≤ i ∧ i < p + bs.length then bs.getD (i - p).toNat 0 else m i

@[simp] theorem length_slice (m : Mem) (p : Int) (n : Nat) :
    (slice m p n).length = n := by
  simp [slice]

theorem getElem_slice (m : Mem) (p : Int) (n i : Nat)
    (h : i < (slice m p n).length) : (slice m p n)[i] = m (p + i) := by
  simp [slice]

theorem slice_congr {m m' : Mem} {p p' : Int} {n : Nat}
    (h : ∀ i : Nat, i < n → m (p + i) = m' (p' + i)) :
    slice m p n = slice m' p' n := by
  apply List.map_congr_left
  intro i hi
  exact h i (List.mem_range.mp hi)

theorem slice_add (m : Mem) (p : Int) (a b : Nat) :
    slice m p (a + b) = slice m p a ++ slice m (p + a) b := by
  unfold slice
  rw [List.range_add, List.map_append, List.map_map]
  congr 1
  apply List.map_congr_left
  intro i _
  simp only [Function.comp_apply]
  congr 1
  push_cast
  ring

theorem patch_outside (m : Mem) (p i : Int) (bs : List UInt8)
    (h : i < p ∨ p + bs.length ≤ i) : patch m p bs i = m i := by
  unfold patch
  rw [if_neg (by omega)]

theorem patch_inside (m : Mem) (p : Int) (bs : List UInt8) (i : Nat)
    (h : i < bs.length) : patch m p bs (p + i) = bs[i] := by
  unfold patch
  rw [if_pos (by omega)]
  have hidx : (p + i - p).toNat = i := by omega
  rw [hidx, List.getD_eq_getElem _ _ h]

theorem slice_patch_same (m : Mem) (p : Int) (bs : List UInt8) :
    slice (patch m p bs) p bs.length = bs := by
  apply List.ext_getElem
  · simp
  · intro i _ hi
    rw [getElem_slice, patch_inside m p bs i hi]

/-- A patch is invisible to a slice that does not meet it. -/
theorem slice_patch_disjoint (m : Mem) (p q : Int) (bs : List UInt8) (n : Nat)
    (h : q + n ≤ p ∨ p + bs.length ≤ q) :
    slice (patch m p bs) q n = slice m q n := by
  apply slice_congr
  intro i hi
  apply patch_outside
  omega

/-- Part of a patch, read back. -/
theorem slice_patch_within (m : Mem) (p : Int) (bs : List UInt8) (i k : Nat)
    (h : i + k ≤ bs.length) : slice (patch m p bs) (p + i) k = (bs.drop i).take k := by
  apply List.ext_getElem
  · simp
    omega
  · intro j hj _
    have hjk : j < k := by simpa using hj
    rw [getElem_slice, List.getElem_take, List.getElem_drop]
    have := patch_inside m p bs (i + j) (by omega)
    push_cast at this
    rwa [← Int.add_assoc] at this

end Mem

/-! ## Little-endian fields -/

/-- The natural number with the given little-endian bytes. -/
def leNat : List UInt8 → Nat
  | [] => 0
  | b :: bs => b.toNat + 256 * leNat bs

/-- The `w` little-endian bytes of `n`; bits above `8 * w` are dropped. -/
def leBytes : Nat → Nat → List UInt8
  | 0, _ => []
  | w + 1, n => UInt8.ofNat (n % 256) :: leBytes w (n / 256)

@[simp] theorem length_leBytes (w n : Nat) : (leBytes w n).length = w := by
  induction w generalizing n with
  | zero => rfl
  | succ w ih => simp [leBytes, ih]

theorem leNat_lt (bs : List UInt8) : leNat bs < 256 ^ bs.length := by
  induction bs with
  | nil => simp [leNat]
  | cons b bs ih =>
      have hb : b.toNat < 256 := b.toNat_lt
      rw [leNat, List.length_cons, pow_succ]
      omega

theorem leNat_leBytes (w n : Nat) : leNat (leBytes w n) = n % 256 ^ w := by
  induction w generalizing n with
  | zero => simp [leBytes, leNat, Nat.mod_one]
  | succ w ih =>
      have hbyte : (UInt8.ofNat (n % 256)).toNat = n % 256 := by simp
      rw [leBytes, leNat, ih, hbyte, pow_succ', Nat.mod_mul]

theorem leNat_leBytes_of_lt {w n : Nat} (h : n < 256 ^ w) :
    leNat (leBytes w n) = n := by
  rw [leNat_leBytes, Nat.mod_eq_of_lt h]

end Ovni.Lib
