import Ovni.Lib.Memory

/-!
# Programs that read a memory

A program that reads the memory around a pointer, at any position, keeps the positions
that it reads.  It cannot fail: a read outside of the object gives what happens to lie
there.
-/

namespace Ovni.Lib

/-- Programs that keep the positions that they read. -/
abbrev MemReads (α : Type) := StateM (List Int) α

variable {α β : Type}

namespace Mem

/-- Read the byte at a position. -/
def readByte (m : Mem) (p : Int) : MemReads UInt8 := do
  modify fun reads => reads ++ [p]
  return m p

/-- Read the bytes from a position on. -/
def readSlice (m : Mem) (p : Int) (n : Nat) : MemReads (List UInt8) := do
  modify fun reads => reads ++ (List.range n).map fun i : Nat => p + i
  return m.slice p n

end Mem

namespace MemReads

/-- What a program gives. -/
def value (x : MemReads α) : α := (x.run []).1

/-- The positions that a program reads. -/
def reads (x : MemReads α) : List Int := (x.run []).2

/-- The program gives the value and reads the positions, in their order. -/
def Gives (x : MemReads α) (a : α) (reads : List Int) : Prop :=
  ∀ log, x.run log = (a, log ++ reads)

theorem Gives.value_eq {x : MemReads α} {a : α} {reads : List Int} (h : Gives x a reads) :
    x.value = a := by
  unfold value
  rw [h]

theorem Gives.reads_eq {x : MemReads α} {a : α} {reads : List Int} (h : Gives x a reads) :
    x.reads = reads := by
  unfold MemReads.reads
  rw [h]
  rfl

theorem gives_pure (a : α) : Gives (pure a : MemReads α) a [] := by
  intro log
  rw [List.append_nil]
  rfl

theorem Gives.bind {x : MemReads α} {f : α → MemReads β} {a : α} {b : β} {first rest : List Int}
    (hx : Gives x a first) (hf : Gives (f a) b rest) : Gives (x >>= f) b (first ++ rest) := by
  intro log
  have hrun : (x >>= f).run log = (f (x.run log).1).run (x.run log).2 := rfl
  rw [hrun, hx, hf, List.append_assoc]

/-- What comes after is nothing but a result. -/
theorem Gives.map {x : MemReads α} {a : α} {reads : List Int} (hx : Gives x a reads) (f : α → β) :
    Gives (do return f (← x)) (f a) reads := by
  have h := hx.bind (f := fun a => pure (f a)) (gives_pure (f a))
  rwa [List.append_nil] at h

theorem Gives.of_pos {p : Prop} [Decidable p] {x y : MemReads α} {a : α} {reads : List Int}
    (hp : p) (h : Gives x a reads) : Gives (if p then x else y) a reads := by
  rwa [if_pos hp]

theorem Gives.of_neg {p : Prop} [Decidable p] {x y : MemReads α} {a : α} {reads : List Int}
    (hp : ¬ p) (h : Gives y a reads) : Gives (if p then x else y) a reads := by
  rwa [if_neg hp]

theorem gives_readByte (m : Mem) (p : Int) : Gives (m.readByte p) (m p) [p] := fun _ => rfl

theorem gives_readSlice (m : Mem) (p : Int) (n : Nat) :
    Gives (m.readSlice p n) (m.slice p n) ((List.range n).map fun i : Nat => p + i) :=
  fun _ => rfl

theorem mem_slice_reads {p b : Int} {n : Nat} :
    b ∈ (List.range n).map (fun i : Nat => p + i) ↔ p ≤ b ∧ b < p + n := by
  rw [List.mem_map]
  constructor
  · rintro ⟨i, hi, rfl⟩
    have := List.mem_range.mp hi
    omega
  · rintro ⟨hlo, hhi⟩
    exact ⟨(b - p).toNat, List.mem_range.mpr (by omega), by omega⟩

end MemReads

end Ovni.Lib
