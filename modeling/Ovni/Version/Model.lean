import Mathlib.Data.Fin.VecNotation
import Ovni.Bay.Model
import Ovni.Event
import Ovni.Lib.Strtok
import Ovni.Text

/-!
# Versions

`include/version.h`, and the functions of `emu/model.c` that ask whether the version of a
model is the one that the threads of the trace require.  A version is cut at its
separators with `strtok_r` and the parts are read with `strtol`.
-/

namespace Ovni

open Ovni.Lib

/-! ## The parser -/

instance neZeroThree : NeZero (3 : Nat) := ⟨by decide⟩

/-- The names of the numbers of a version. -/
def versionWhich : Fin 3 → String := ![ "major", "minor", "patch"]

/-- The separators that end each number. -/
def versionDelim : Fin 3 → Name := ![ascii ".", ascii ".", ascii ".-"]

/-- A number of a version: it is read as a `long` and left in an `int`. -/
def versionNumber (which : String) (num : Name) : Except EmuFault Int :=
  match strtoll num with
  | none => .error (.fail ("failed to parse " ++ which ++ " number"))
  | some (n, rest) =>
      if rest ≠ [] then .error (.fail ("failed to parse " ++ which ++ " number"))
      else if toInt32 n < 0 then .error (.fail ("invalid negative " ++ which ++ " number"))
      else .ok (toInt32 n)

/-- One turn of the loop of `version_parse`, on the text that is left and the tuple. -/
def versionTurn (r : Name × (Fin 3 → Int)) (i : Fin 3) :
    Except EmuFault (Name × (Fin 3 → Int)) :=
  match strtok (fun c => decide (c ∈ versionDelim i)) r.1 with
  | none => .error (.fail ("missing " ++ versionWhich i ++ " number"))
  | some (num, rest) => do
      let v ← versionNumber (versionWhich i) num
      return (rest, Function.update r.2 i v)

/-- `version_parse` into a tuple. -/
def versionParse (version : Option Name) (tuple : Fin 3 → Int) :
    Except EmuFault (Fin 3 → Int) :=
  match version with
  | none => .error (.fail "version is NULL")
  | some version => do
      if 64 ≤ version.length then throw (.fail "version too long")
      let r ← (List.finRange 3).foldlM versionTurn (version, tuple)
      return r.2

/-- `version_is_compatible`: major must match exactly. -/
def versionIsCompatible (want offered : Fin 3 → Int) : Bool :=
  if want 0 ≠ offered 0 then false
  else if want 1 > offered 1 then false
  else true

/-! ## The models -/

/-- The metadata of a thread, as far as the versions go: what `ovni.require` says for the
name of each model. -/
structure ThreadMeta where
  require : Option (Name → Option Name)

/-- `should_enable` for a model with a name and the version that it offers. -/
def shouldEnable (offered : Fin 3 → Int) (name : Name) (metadata : Option ThreadMeta) :
    Except EmuFault Bool :=
  match metadata with
  | none => .error (.fail "missing metadata for thread")
  | some metadata =>
      match metadata.require with
      | none => .error (.fail "missing 'ovni.require' key in thread")
      | some require =>
          match require name with
          -- May not have the current model
          | none => .ok false
          | some reqVersion => do
              let want ← versionParse (some reqVersion) fun _ => 0
              if versionIsCompatible want offered = false then
                throw (.fail "unsupported model version")
              return true

/-- `model_version_probe` over the threads of the trace. -/
def modelVersionProbe (name version : Name) (threads : List (Option ThreadMeta)) :
    Except EmuFault Bool := do
  let offered ← versionParse (some version) fun _ => 0
  if 128 ≤ (name ++ ascii ".version").length then throw (.die "model name too long")
  threads.foldlM (fun enable t => do
    let ret ← shouldEnable offered name t
    -- Check the rest of threads
    return enable || ret) false

end Ovni
