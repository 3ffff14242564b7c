import Ovni.EvSpec.Payload
import Ovni.EvSpec.Run

/-!
# What is printed

The printer returns zero when every region is well formed and the text fits, but a region
must end before the last byte of the buffer, as it is handed to `snprintf` without the
byte that is kept for the nul of the whole.
-/

namespace Ovni

open Ovni.Lib

namespace Description

section

variable {p : Printf} {spec : EvSpec} {ev : EmuEv} {mapped : Nat}

/-! ## The call -/

/-- What `ev_spec_print` returns, writes and reads with some room before the nul. -/
structure PrintResult (p : Printf) (spec : EvSpec) (ev : EmuEv) (mapped room : Nat)
    (buf : Nat → Fin 256) (r : Except EmuFault Unit) (s : PrintState) : Prop where
  crash : r = .error .crash ↔
    ∃ P, PieceReached spec (printedArg p ev mapped) room spec.description P ∧
      P.expand (printedArg p ev mapped) = none
  ok : r = .ok () ↔ ∃ t, Complete spec (printedArg p ev mapped) room spec.description t
  fault : ∀ e, r = .error e → e = .crash ∨ ∃ msg, e = .fail msg
  text : ∀ t, r = .ok () → Complete spec (printedArg p ev mapped) room spec.description t →
    (∀ k (hk : k < t.length), s.buf k = t[k]) ∧ s.buf t.length = 0
  frame : ∀ i, room < i → s.buf i = buf i
  reads : ∀ i, i ∈ s.reads ↔
    ∃ P, PieceReached spec (printedArg p ev mapped) room spec.description P ∧
      i ∈ P.reads p ev mapped

theorem evSpecPrint_result {outlen : Int} (houtlen : 1 ≤ outlen) (buf : Nat → Fin 256) :
    Ensures (evSpecPrint p spec ev mapped outlen) ⟨[], buf⟩
      (PrintResult p spec ev mapped (outlen - 1).toNat buf) := by
  have hpos : ¬ outlen ≤ 0 := by omega
  unfold evSpecPrint
  simp only [hpos, if_false, ensures_bind]
  generalize (outlen - 1).toNat = room
  have hloop : Ensures (printLoop p spec ev mapped spec.description.length
      ⟨spec.description, 0, room⟩) ⟨[], buf⟩
      (Printed p spec ev mapped ⟨spec.description, 0, room⟩ ⟨[], buf⟩) :=
    printLoop_printed (le_refl _)
  apply hloop.mono
  intro r s h
  have hreads : ∀ i, i ∈ s.reads ↔ ∃ P,
      PieceReached spec (printedArg p ev mapped) room spec.description P ∧
      i ∈ P.reads p ev mapped := by
    obtain ⟨reads, heq, hmem⟩ := h.reads
    rw [heq]
    exact hmem
  have hframe : ∀ i, room < i → s.buf i = buf i := by
    intro i hi
    exact h.frame i (.inr (by simp only [Nat.zero_add]; omega))
  cases r with
  | error e =>
      rw [next_error]
      refine ⟨?_, ?_, ?_, fun t hr => (by cases hr), hframe, hreads⟩
      · rw [← h.crash]
        simp only [Except.error.injEq]
      · rw [← h.ok]
        simp only [reduceCtorEq, exists_false]
      · rintro e' ⟨⟩
        exact h.fault e rfl
  | ok c =>
      rw [next_ok, ensures_store]
      obtain ⟨t, ht⟩ := h.ok.mp ⟨c, rfl⟩
      obtain ⟨hout, hlen, -⟩ := h.text c t rfl ht
      simp only [Nat.zero_add] at hout hlen
      refine ⟨?_, ?_, fun e he => (by cases he), ?_, ?_, hreads⟩
      · rw [← h.crash]
        simp only [reduceCtorEq]
      · exact ⟨fun _ => ⟨t, ht⟩, fun _ => rfl⟩
      · intro u _ hu
        obtain ⟨houtu, -, htext⟩ := h.text c u rfl hu
        simp only [Nat.zero_add] at houtu htext
        refine ⟨fun k hk => ?_, ?_⟩
        · simp only
          rw [putText_outside (.inl (by omega)), htext k hk]
        · rw [← houtu]
          have hnul : 0 < ([0] : Name).length := Nat.one_pos
          exact putText_inside hnul
      · intro i hi
        simp only
        rw [putText_outside (.inr (by rw [List.length_singleton]; omega))]
        exact hframe i hi

/-! ## What is asked of it -/

/-- What a call that prints a description returns and writes, where `f` has the texts of
the arguments. -/
structure PrintsWell (f : Option Name → EvArg → Option Name) (spec : EvSpec) (outlen : Int)
    (buf : Nat → Fin 256) (r : Except EmuFault Unit) (s : PrintState) : Prop where
  inside : r ≠ .error .crash ∧ ∀ i : Nat, outlen ≤ i → s.buf i = buf i
  returns : r = .ok () ↔
    ∃ t, Expansion spec f spec.description t ∧ (t.length : Int) ≤ outlen - 1
  text : r = .ok () → ∀ t, Expansion spec f spec.description t →
    (∀ k (hk : k < t.length), s.buf k = t[k]) ∧ s.buf t.length = 0

/-- The regions that are reached have a format that is valid for their argument, and when the
text fits no region ends where the room for it does. -/
structure PrintsAll (f : Option Name → EvArg → Option Name) (spec : EvSpec) (room : Nat) :
    Prop where
  valid : ∀ fmt arg, PieceReached spec f room spec.description (.region fmt arg) → f fmt arg ≠ none
  apart : ∀ t, Expansion spec f spec.description t → t.length ≤ room →
    ¬ RegionEnd spec f spec.description room

variable {f : Option Name → EvArg → Option Name} {room : Nat} {outlen : Int}
  {buf : Nat → Fin 256} {r : Except EmuFault Unit} {s : PrintState}

theorem PrintResult.crash_iff (h : PrintResult p spec ev mapped room buf r s)
    (hagree : Agree spec f (printedArg p ev mapped)) :
    r = .error .crash ↔
      ∃ fmt arg, PieceReached spec f room spec.description (.region fmt arg) ∧
        f fmt arg = none := by
  rw [h.crash]
  constructor
  · rintro ⟨P, hP, hnone⟩
    cases P with
    | lit c => cases hnone
    | percent => cases hnone
    | region fmt arg =>
        exact ⟨fmt, arg, hagree.symm.reached hP, (hagree.region hP.ok).trans hnone⟩
  · rintro ⟨fmt, arg, hP, hnone⟩
    exact ⟨_, hagree.reached hP, (hagree.region hP.ok).symm.trans hnone⟩

theorem PrintResult.ok_iff (h : PrintResult p spec ev mapped room buf r s)
    (hagree : Agree spec f (printedArg p ev mapped)) :
    r = .ok () ↔ ∃ t, Expansion spec f spec.description t ∧ t.length ≤ room ∧
      ¬ RegionEnd spec f spec.description room := by
  rw [h.ok]
  constructor
  · rintro ⟨t, ht⟩
    refine ⟨t, hagree.symm.expansion ht.expansion, ht.length, fun hend => ?_⟩
    exact (ht.expansion.complete_iff ht.length).mp ht (hagree.regionEnd hend)
  · rintro ⟨t, ht, hlen, hend⟩
    refine ⟨t, ((hagree.expansion ht).complete_iff hlen).mpr fun h => hend ?_⟩
    exact hagree.symm.regionEnd h

/-- A call prints well exactly when every region that it reaches can be printed and none ends
at the last byte but one. -/
theorem PrintResult.printsWell_iff (houtlen : 1 ≤ outlen)
    (h : PrintResult p spec ev mapped (outlen - 1).toNat buf r s)
    (hagree : Agree spec f (printedArg p ev mapped)) :
    PrintsWell f spec outlen buf r s ↔ PrintsAll f spec (outlen - 1).toNat := by
  have hroom : ((outlen - 1).toNat : Int) = outlen - 1 := Int.toNat_of_nonneg (by omega)
  constructor
  · intro hwell
    constructor
    · intro fmt arg hreached hnone
      exact hwell.inside.1 ((h.crash_iff hagree).mpr ⟨fmt, arg, hreached, hnone⟩)
    · intro t ht hlen
      have hok : r = .ok () := hwell.returns.mpr ⟨t, ht, by omega⟩
      obtain ⟨u, -, -, hend⟩ := (h.ok_iff hagree).mp hok
      exact hend
  · intro hall
    refine ⟨⟨?_, ?_⟩, ?_, ?_⟩
    · intro hcrash
      obtain ⟨fmt, arg, hreached, hnone⟩ := (h.crash_iff hagree).mp hcrash
      exact hall.valid fmt arg hreached hnone
    · intro i hi
      exact h.frame i (by omega)
    · rw [h.ok_iff hagree]
      constructor
      · rintro ⟨t, ht, hlen, -⟩
        exact ⟨t, ht, by omega⟩
      · rintro ⟨t, ht, hlen⟩
        exact ⟨t, ht, by omega, hall.apart t ht (by omega)⟩
    · intro hok t ht
      obtain ⟨u, hu⟩ := h.ok.mp hok
      obtain rfl : t = u := hu.expansion.unique (hagree.expansion ht)
      exact h.text t hok hu

end

end Description

open Description

/-- The printer stays in the buffer and prints the description when it can exactly when every
region that it reaches has a valid format, and no region of a text that fits ends at the last
byte but one. -/
theorem ev_spec_print_iff (p : Printf) (spec : EvSpec) (ev : EmuEv) (mapped : Nat) (outlen : Int)
    (hmapped : ev.payloadSize ≤ mapped) (hargs : ∀ arg ∈ spec.args, ArgInside none ev arg)
    (houtlen : 1 ≤ outlen) :
    (∀ buf, Ensures (evSpecPrint p spec ev mapped outlen) ⟨[], buf⟩
        (PrintsWell (formattedArg p ev) spec outlen buf)) ↔
      PrintsAll (formattedArg p ev) spec (outlen - 1).toNat := by
  have hagree : Agree spec (formattedArg p ev) (printedArg p ev mapped) := by
    intro fmt arg harg
    exact (printedArg_inside hmapped (hargs arg harg)).symm
  have hcall : ∀ buf, Ensures (evSpecPrint p spec ev mapped outlen) ⟨[], buf⟩ fun r s =>
      PrintsWell (formattedArg p ev) spec outlen buf r s ↔
        PrintsAll (formattedArg p ev) spec (outlen - 1).toNat := by
    intro buf
    exact (evSpecPrint_result houtlen buf).mono fun r s h => h.printsWell_iff houtlen hagree
  constructor
  · intro h
    exact (hcall fun _ => 0).mp (h fun _ => 0)
  · intro h buf
    exact (hcall buf).mpr h

/-! ## An example -/

/-- The argument of the next specification. -/
def cpuArg : EvArg := { size := 4, offset := 0, type := .i32, name := ascii "cpu" }

/-- A specification that prints its only argument. -/
def cpuSpec : EvSpec :=
  { mcv := ascii "OHC", isJumbo := false, args := [cpuArg], payloadSize := 4
    description := ascii "%\x7bcpu\x7d" }

/-- An event with the CPU 5. -/
def cpuEv : EmuEv :=
  { EmuEv.zero with
    m := 0x4f, c := 0x48, v := 0x43, hasPayload := true, payloadSize := 4
    payload := some fun i => if i = 0 then 5 else 0 }

theorem cpuSpec_description : cpuSpec.description = (Piece.region none cpuArg).text ++ [] := by
  decide +kernel

theorem cpuPiece_ok : (Piece.region none cpuArg).Ok cpuSpec :=
  .plain rfl ⟨by decide +kernel, by decide +kernel, by decide +kernel⟩

theorem cpuSpec_next :
    nextPiece cpuSpec cpuSpec.description = some (.region none cpuArg, []) := by
  rw [cpuSpec_description]
  exact nextPiece_text cpuPiece_ok

theorem cpuPiece_text :
    (Piece.region none cpuArg).expand (formattedArg plainPrintf cpuEv) = some (ascii "5") := by
  decide +kernel

theorem cpuSpec_inside : ∀ arg ∈ cpuSpec.args, ArgInside none cpuEv arg := by
  intro arg harg
  obtain rfl : arg = cpuArg := List.mem_singleton.mp harg
  refine ⟨_, rfl, ?_⟩
  rw [if_neg (by decide)]
  decide

/-- The text has a character, which fits with its nul in two bytes, but the call fails. -/
theorem ev_spec_print_last_byte :
    evSpecCompile ⟨ascii "OHC(i32 cpu)", ascii "%\x7bcpu\x7d"⟩ = .ok cpuSpec ∧
      ¬ ∀ buf, Ensures (evSpecPrint plainPrintf cpuSpec cpuEv 4 2) ⟨[], buf⟩
        (PrintsWell (formattedArg plainPrintf cpuEv) cpuSpec 2 buf) := by
  refine ⟨rfl, fun h => ?_⟩
  have hagree : Agree cpuSpec (formattedArg plainPrintf cpuEv)
      (printedArg plainPrintf cpuEv 4) := by
    intro fmt arg harg
    exact (printedArg_inside (le_refl 4) (cpuSpec_inside arg harg)).symm
  have hresult : Ensures (evSpecPrint plainPrintf cpuSpec cpuEv 4 2) ⟨[], fun _ => 0⟩
      (PrintResult plainPrintf cpuSpec cpuEv 4 1 fun _ => 0) := evSpecPrint_result (by decide) _
  have houtlen : (1 : Int) ≤ 2 := by decide
  have hcall := hresult.mono fun r s hr => (hr.printsWell_iff houtlen hagree).mp
  have hall : PrintsAll (formattedArg plainPrintf cpuEv) cpuSpec 1 := hcall (h fun _ => 0)
  have hexpand := Expansion.piece cpuPiece_ok cpuPiece_text .done
  have hend : RegionEnd cpuSpec (formattedArg plainPrintf cpuEv) cpuSpec.description 1 :=
    (regionEnd_iff cpuSpec_next cpuPiece_text).mpr (.inl ⟨rfl, by decide +kernel⟩)
  rw [← cpuSpec_description] at hexpand
  exact hall.apart _ hexpand (by decide +kernel) hend

/-- In a buffer of 16 bytes it is printed. -/
theorem ev_spec_print_iff_cpu :
    Ensures (evSpecPrint plainPrintf cpuSpec cpuEv 4 16) ⟨[], fun _ => 0⟩
      (PrintsWell (formattedArg plainPrintf cpuEv) cpuSpec 16 fun _ => 0) := by
  refine (ev_spec_print_iff plainPrintf cpuSpec cpuEv 4 16 (le_refl 4) cpuSpec_inside
    (by decide)).mpr ⟨?_, ?_⟩ fun _ => 0
  · intro fmt arg hreached hnone
    obtain heq | ⟨_, _, _, h⟩ := (reached_iff cpuSpec_next (by decide)).mp hreached
    · cases heq
      cases cpuPiece_text.symm.trans hnone
    · exact reached_nil h
  · intro t _ _ hend
    obtain ⟨hlen, -⟩ | ⟨k, hk, -⟩ := (regionEnd_iff cpuSpec_next cpuPiece_text).mp hend
    · exact absurd hlen (by decide +kernel)
    · exact regionEnd_nil hk

end Ovni
