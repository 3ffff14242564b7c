import Ovni.EvSpec.Format
import Ovni.Player.EmuEv
import Ovni.Stream.Bounds

/-!
# What the printer reads

The printer does not look at the size of the payload: an argument whose bytes are not
there is read from what comes after the event, and from nowhere when there is no payload.
-/

namespace Ovni

open Ovni.Lib Description

/-! ## What is asked of it -/

/-- The call fails and says why. -/
def PrintFails (buf : Nat → Fin 256) (call : PrintM Unit) : Prop :=
  Ensures call ⟨[], buf⟩ fun r _ => ∃ msg, r = .error (.fail msg)

/-- The call comes to its end with nothing read but bytes of the payload. -/
def ReadsPayload (ev : EmuEv) (buf : Nat → Fin 256) (call : PrintM Unit) : Prop :=
  Ensures call ⟨[], buf⟩ fun r s => r ≠ .error .crash ∧ ∀ i ∈ s.reads, i < ev.payloadSize

section

variable (p : Printf) (spec : EvSpec) (ev : EmuEv) (mapped room : Nat)

/-- The argument of every region that is reached is in the memory, and its format is valid. -/
def ArgsPrintable : Prop :=
  ∀ fmt arg, PieceReached spec (printedArg p ev mapped) room spec.description (.region fmt arg) →
    printedArg p ev mapped fmt arg ≠ none

/-- The argument of every region that is reached is in the payload, with its nul for a string
unless the format reads less of it. -/
def ArgsInside : Prop :=
  ∀ fmt arg, PieceReached spec (printedArg p ev mapped) room spec.description (.region fmt arg) →
    ArgInside (p.limit (argFmt p fmt arg)) ev arg

/-- The description is printed to its end. -/
def PrintedWhole : Prop := ∃ t, Complete spec (printedArg p ev mapped) room spec.description t

end

/-! ## Reads -/

section

variable {p : Printf} {spec : EvSpec} {ev : EmuEv} {mapped room : Nat} {buf : Nat → Fin 256}
  {r : Except EmuFault Unit} {s : PrintState}

/-- What is read for an argument that can be printed is in the payload when its bytes are. -/
theorem reads_region_iff {fmt : Option Name} {arg : EvArg} (hmapped : ev.payloadSize ≤ mapped)
    (hprint : printedArg p ev mapped fmt arg ≠ none) :
    (∀ i ∈ (Piece.region fmt arg).reads p ev mapped, i < ev.payloadSize) ↔
      ArgInside (p.limit (argFmt p fmt arg)) ev arg := by
  rw [← readArg_inside_iff hmapped, KeepsInside, Ensures]
  refine (and_iff_right fun hcrash => hprint ?_).symm
  rw [printedArg, hcrash]
  rfl

theorem print_not_crash_iff (h : PrintResult p spec ev mapped room buf r s) :
    r ≠ .error .crash ↔ ArgsPrintable p spec ev mapped room := by
  rw [ne_eq, h.crash_iff fun _ _ _ => rfl]
  simp only [not_exists, not_and, ArgsPrintable, ne_eq]

theorem print_fails_iff (h : PrintResult p spec ev mapped room buf r s) :
    (∃ msg, r = .error (.fail msg)) ↔
      ArgsPrintable p spec ev mapped room ∧ ¬ PrintedWhole p spec ev mapped room := by
  rw [← print_not_crash_iff h, PrintedWhole, ← h.ok]
  cases r with
  | error e =>
      rcases h.fault e rfl with rfl | ⟨msg, rfl⟩
      · simp
      · simp
  | ok u => simp

theorem print_reads_iff (hmapped : ev.payloadSize ≤ mapped)
    (h : PrintResult p spec ev mapped room buf r s) :
    (r ≠ .error .crash ∧ ∀ i ∈ s.reads, i < ev.payloadSize) ↔
      ArgsPrintable p spec ev mapped room ∧ ArgsInside p spec ev mapped room := by
  rw [print_not_crash_iff h]
  apply and_congr_right
  intro hprint
  constructor
  · intro hreads fmt arg hreached
    rw [← reads_region_iff hmapped (hprint fmt arg hreached)]
    intro i hi
    exact hreads i ((h.reads i).mpr ⟨_, hreached, hi⟩)
  · intro hinside i hi
    obtain ⟨P, hreached, hmem⟩ := (h.reads i).mp hi
    cases P with
    | lit c => exact absurd hmem List.not_mem_nil
    | percent => exact absurd hmem List.not_mem_nil
    | region fmt arg =>
        exact (reads_region_iff hmapped (hprint fmt arg hreached)).mpr
          (hinside fmt arg hreached) i hmem

end

theorem modelEventPrint_find {evspec : UInt8 → Option (List EvSpec)} {ev : EmuEv}
    {specs : List EvSpec} {spec : EvSpec} (hspecs : evspec ev.m = some specs)
    (hspec : modelEvspecFind specs ev.mcv = some spec) (p : Printf) (mapped : Nat)
    (buflen : Int) :
    modelEventPrint p evspec ev mapped buflen = evSpecPrint p spec ev mapped buflen := by
  simp only [modelEventPrint, hspecs, hspec]

/-- The printer keeps to the payload exactly when the argument of every region that it reaches
is there, and printed with a valid format.  A call that fails may have read more. -/
theorem model_event_print_reads_iff (p : Printf) (evspec : UInt8 → Option (List EvSpec))
    (ev : EmuEv) (specs : List EvSpec) (spec : EvSpec) (mapped : Nat) (buflen : Int)
    (buf : Nat → Fin 256) (hspecs : evspec ev.m = some specs)
    (hspec : modelEvspecFind specs ev.mcv = some spec) (hmapped : ev.payloadSize ≤ mapped)
    (hbuflen : 1 ≤ buflen) :
    let call := modelEventPrint p evspec ev mapped buflen
    let room := (buflen - 1).toNat
    (ReadsPayload ev buf call ↔
      ArgsPrintable p spec ev mapped room ∧ ArgsInside p spec ev mapped room) ∧
    (PrintFails buf call ∨ ReadsPayload ev buf call ↔
      ArgsPrintable p spec ev mapped room ∧
        (PrintedWhole p spec ev mapped room → ArgsInside p spec ev mapped room)) := by
  intro call room
  have hcall : Ensures call ⟨[], buf⟩ (PrintResult p spec ev mapped room buf) := by
    simp only [call, modelEventPrint_find hspecs hspec]
    exact evSpecPrint_result hbuflen buf
  have hreads : ReadsPayload ev buf call ↔
      ArgsPrintable p spec ev mapped room ∧ ArgsInside p spec ev mapped room :=
    print_reads_iff hmapped hcall
  have hfails : PrintFails buf call ↔
      ArgsPrintable p spec ev mapped room ∧ ¬ PrintedWhole p spec ev mapped room :=
    print_fails_iff hcall
  rw [hreads, hfails, ← and_or_left, imp_iff_not_or]
  exact ⟨Iff.rfl, Iff.rfl⟩

/-! ## An example -/

/-- The specifications of the events of the model `O`. -/
def cpuEvspec : UInt8 → Option (List EvSpec) := fun m => if m = 0x4f then some [cpuSpec] else none

theorem cpuSpec_found : modelEvspecFind [cpuSpec] (ascii "OHC") = some cpuSpec := rfl

theorem cpuSpec_reached {f : Option Name → EvArg → Option Name} {room : Nat} {fmt : Option Name}
    {arg : EvArg} (h : PieceReached cpuSpec f room cpuSpec.description (.region fmt arg)) :
    fmt = none ∧ arg = cpuArg := by
  by_cases hroom : 0 < room
  · rcases (reached_iff cpuSpec_next hroom).mp h with heq | ⟨_, _, _, hlater⟩
    · cases heq
      exact ⟨rfl, rfl⟩
    · exact absurd hlater reached_nil
  · obtain rfl : room = 0 := by omega
    exact absurd h reached_zero

/-- With its four bytes, the argument is read from the payload. -/
theorem model_event_print_reads_iff_cpu :
    ReadsPayload cpuEv (fun _ => 0) (modelEventPrint plainPrintf cpuEvspec cpuEv 4 1024) := by
  refine (model_event_print_reads_iff plainPrintf cpuEvspec cpuEv [cpuSpec] cpuSpec 4 1024
    (fun _ => 0) rfl cpuSpec_found (le_refl 4) (by decide)).1.mpr ⟨?_, ?_⟩
  · intro fmt arg hreached
    obtain ⟨rfl, rfl⟩ := cpuSpec_reached hreached
    rw [printedArg_inside (le_refl 4) (cpuSpec_inside cpuArg List.mem_cons_self)]
    intro hnone
    cases cpuPiece_text.symm.trans hnone
  · intro fmt arg hreached
    obtain ⟨rfl, rfl⟩ := cpuSpec_reached hreached
    exact cpuSpec_inside cpuArg List.mem_cons_self

/-- A stream with an event of that MCV that has no payload. -/
def absentFile : List UInt8 :=
  ovniStreamMagic ++ [1, 0, 0, 0] ++ ([0x00, 0x4f, 0x48, 0x43] ++ leBytes 8 100)

/-- That stream before its first step. -/
def absentStream : Stream := Stream.fresh (Mem.patch (fun _ => 0) 0 absentFile) 20

/-- The event of `emu_ev` for the event of that stream. -/
def absentEv : EmuEv := emuEv EmuEv.zero (evAt absentStream.buf 8) 0 0

theorem absentEv_payload : absentEv.payload = none := by
  have hsize : ¬ 0 < toSize (ovniPayloadSize (evAt absentStream.buf 8)) := by decide +kernel
  simp only [absentEv, emuEv, hsize, if_false]

/-- The argument is read through a null pointer. -/
theorem model_event_print_absent :
    evSpecCompile ⟨ascii "OHC(i32 cpu)", ascii "%\x7bcpu\x7d"⟩ = .ok cpuSpec ∧
      loadObs absentFile (fun _ => 0) = .ok absentStream ∧
      streamStep absentStream = .ok absentStream.loaded ∧
      streamEv absentStream.loaded = some (evAt absentStream.buf 8) ∧
      absentEv.mcv = cpuSpec.mcv ∧
      ∀ mapped buf,
        let call := modelEventPrint plainPrintf cpuEvspec absentEv mapped 1024
        ¬ (PrintFails buf call ∨ ReadsPayload absentEv buf call) := by
  refine ⟨rfl, rfl, ?_, rfl, by decide +kernel, ?_⟩
  · rw [streamStep_eq_load (by decide +kernel) (by decide +kernel)]
    exact loadEvent_eq_ok (by decide +kernel) (by decide +kernel)
  · intro mapped buf call
    have hcrash : Ensures call ⟨[], buf⟩ fun r _ => r = .error .crash := by
      have hfound : modelEvspecFind [cpuSpec] absentEv.mcv = some cpuSpec := by
        rw [show absentEv.mcv = ascii "OHC" by decide +kernel, cpuSpec_found]
      have hcall : call = evSpecPrint plainPrintf cpuSpec absentEv mapped 1024 :=
        modelEventPrint_find rfl hfound plainPrintf mapped 1024
      rw [hcall]
      refine (evSpecPrint_result (by decide) buf).mono fun r s h => h.crash.mpr ?_
      refine ⟨.region none cpuArg, (reached_iff cpuSpec_next (by decide)).mpr (.inl rfl), ?_⟩
      simp only [Piece.expand, printedArg, readArg, absentEv_payload]
      rfl
    rintro (hfails | hreads)
    · obtain ⟨msg, h⟩ := hfails
      cases hcrash.symm.trans h
    · exact hreads.1 hcrash

end Ovni
