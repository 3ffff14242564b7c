import Ovni.Bay.Model
import Ovni.Clkoff.Model
import Ovni.Lib.Except

/-!
# The accelerators

`system_get_accelerators` of `emu/system.c` reads the file of the option
`xtasks_config`: a header, and a line for each kind of accelerator with how many there
are and how they are called.  The fields of a line are read into two variables that are
declared outside the loop and have no value before the first line that gives them one.
-/

namespace Ovni

open Ovni.Lib

/-! ## The file -/

/-- The lines that `getline` returns one after the other. -/
def getlines : Name → List Name
  | [] => []
  | c :: text =>
      if c = 10 then [c] :: getlines text
      else
        match getlines text with
        | [] => [[c]]
        | line :: lines => (c :: line) :: lines

/-- What `%u` reads: an optional sign and some digits. -/
def unsignedText (s : Name) : Option (Int × Name) :=
  let negative := s.head? = some 45
  let s := if s.head? = some 45 ∨ s.head? = some 43 then s.tail else s
  let digits := s.takeWhile isdigit
  if digits = [] then none
  else some (if negative then -(decimal digits : Int) else decimal digits, s.dropWhile isdigit)

/-- What `sscanf` of a line with `"%*s %u %s %*d"` assigns: the count and the name. -/
def accFields (line : Name) : Option Int × Option Name :=
  match convert word (line.takeWhile (· ≠ 0)) with
  | none => (none, none)
  | some (_, s) =>
      match convert unsignedText s with
      | none => (none, none)
      | some (n, s) => (some n, (convert word s).map Prod.fst)

/-! ## system_get_accelerators -/

/-- `MAX_ACCELERATORS`. -/
def maxAccelerators : Nat := 128

/-- A `char name[128]` with a string in it. -/
structure NameBuf where
  str : Name
  fits : str.length < 128
  deriving DecidableEq

/-- `struct acc`. -/
structure Acc where
  name : NameBuf
  id : Nat
  deriving DecidableEq

/-- `struct info_acc`; `n_accelerators` is how many there are. -/
structure InfoAcc where
  accel : List Acc
  fits : accel.length ≤ maxAccelerators

/-- The names and the numbers of the accelerators. -/
def InfoAcc.entries (info : InfoAcc) : List (Name × Nat) :=
  info.accel.map fun acc => (acc.name.str, acc.id)

/-- The variables of the loop; `n_acc` and `name` have no value at first. -/
structure AccVars where
  nAcc : Option Nat
  name : Option NameBuf
  info : InfoAcc

def AccVars.start : AccVars := { nAcc := none, name := none, info := ⟨[], Nat.zero_le _⟩ }

/-- `%u` into `n_acc`, where a number that is not an `unsigned int` is not defined. -/
def scanCount (field : Option Int) (v : AccVars) : Except EmuFault AccVars :=
  match field with
  | none => .ok v
  | some n => if 0 ≤ n ∧ n < 2 ^ 32 then .ok { v with nAcc := some n.toNat } else .error .crash

/-- `%s` into `name`. -/
def scanName (field : Option Name) (v : AccVars) : Except EmuFault AccVars :=
  match field with
  | none => .ok v
  | some str =>
      if fits : str.length < 128 then .ok { v with name := some ⟨str, fits⟩ } else .error .crash

/-- The writes at `accel[n_accelerators]`. -/
def InfoAcc.add (info : InfoAcc) (acc : Acc) : Except EmuFault InfoAcc :=
  if h : info.accel.length < maxAccelerators then
    .ok ⟨info.accel ++ [acc], by rw [List.length_append]; exact h⟩
  else .error .crash

/-- The `for` loop over `i`, with how many turns are left. -/
def addEntries (name : Option NameBuf) : Nat → Nat → InfoAcc → Except EmuFault InfoAcc
  | 0, _, info => .ok info
  | left + 1, i, info =>
      match name with
      | none => .error .crash
      | some name => do
          let info ← info.add ⟨name, i + 1⟩
          addEntries (some name) left (i + 1) info

/-- A turn of the `while` loop. -/
def accLine (v : AccVars) (line : Name) : Except EmuFault AccVars := do
  let v ← scanCount (accFields line).1 v
  let v ← scanName (accFields line).2 v
  match v.nAcc with
  | none => throw .crash
  | some n =>
      let info ← addEntries v.name n 0 v.info
      return { v with info }

/-- `system_get_accelerators` of a file that could be opened. -/
def systemGetAccelerators (text : Name) : Except EmuFault InfoAcc :=
  match getlines text with
  | [] => .error (.die "no header")
  | _ :: lines => do
      let v ← lines.foldlM accLine AccVars.start
      return v.info

/-! ## What a line asks for -/

/-- The entries of a data line; a line that lacks the count or the name has none. -/
def accEntries (line : Name) : List (Name × Nat) :=
  match accFields line with
  | (some n, some name) => (List.range n.toNat).map fun i => (name, i + 1)
  | _ => []

/-- The lines of a file that are read as they should, after a line that left this count:
each data line has a count that is not negative and a name that fits, and where a line
does not parse the last count, of this line or of an earlier one, is zero. -/
inductive AccLines : Option Int → List Name → Prop where
  | nil {count : Option Int} : AccLines count []
  | data {count : Option Int} {line name : Name} {n : Int} {lines : List Name}
      (hfields : accFields line = (some n, some name)) (hn : 0 ≤ n) (hname : name.length < 128)
      (h : AccLines (some n) lines) : AccLines count (line :: lines)
  | other {count : Option Int} {line : Name} {lines : List Name}
      (hfields : (accFields line).2 = none) (hcount : (accFields line).1.or count = some 0)
      (h : AccLines (some 0) lines) : AccLines count (line :: lines)

/-- A line without a count has no name. -/
theorem accFields_count {line name : Name} (h : (accFields line).2 = some name) :
    ∃ n, accFields line = (some n, some name) := by
  unfold accFields at h ⊢
  split at h
  · cases h
  · split at h
    · cases h
    · rename_i n s hn
      exact ⟨n, Prod.ext rfl h⟩

theorem accEntries_none {line : Name} (h : (accFields line).2 = none) : accEntries line = [] := by
  unfold accEntries
  split
  · rename_i n name hfields
    rw [hfields] at h
    cases h
  · rfl

/-! ## The loops -/

/-- The count that a line would be read with. -/
def AccVars.count (v : AccVars) : Option Int := v.nAcc.map Int.ofNat

section

variable {v v' : AccVars} {info info' : InfoAcc}

theorem scanCount_ok {field : Option Int} (h : scanCount field v = .ok v') :
    v'.count = field.or v.count ∧ v'.name = v.name ∧ v'.info = v.info := by
  cases field with
  | none =>
      cases h
      exact ⟨rfl, rfl, rfl⟩
  | some n =>
      unfold scanCount at h
      by_cases hn : 0 ≤ n ∧ n < 2 ^ 32
      · simp only [hn, and_self, if_true] at h
        cases h
        exact ⟨congrArg some (Int.toNat_of_nonneg hn.1), rfl, rfl⟩
      · simp only [hn, if_false] at h
        cases h

theorem scanCount_eq {field : Option Int} (h : ∀ n, field = some n → 0 ≤ n ∧ n < 2 ^ 32) :
    ∃ v', scanCount field v = .ok v' := by
  cases field with
  | none => exact ⟨v, rfl⟩
  | some n =>
      unfold scanCount
      simp only [h n rfl, and_self, if_true]
      exact ⟨_, rfl⟩

theorem scanName_ok {field : Option Name} (h : scanName field v = .ok v') :
    v'.nAcc = v.nAcc ∧ v'.info = v.info ∧
      ∀ str, field = some str → ∃ fits, v'.name = some ⟨str, fits⟩ := by
  cases field with
  | none =>
      cases h
      refine ⟨rfl, rfl, ?_⟩
      intro str hstr
      cases hstr
  | some str =>
      unfold scanName at h
      by_cases fits : str.length < 128
      · simp only [fits, dite_true] at h
        cases h
        refine ⟨rfl, rfl, ?_⟩
        intro str' hstr'
        cases hstr'
        exact ⟨fits, rfl⟩
      · simp only [fits, dite_false] at h
        cases h

theorem scanName_eq {field : Option Name} (h : ∀ str, field = some str → str.length < 128) :
    ∃ v', scanName field v = .ok v' := by
  cases field with
  | none => exact ⟨v, rfl⟩
  | some str =>
      unfold scanName
      simp only [h str rfl, dite_true]
      exact ⟨_, rfl⟩

theorem InfoAcc.add_ok {acc : Acc} (h : info.add acc = .ok info') :
    info'.entries = info.entries ++ [(acc.name.str, acc.id)] := by
  unfold InfoAcc.add at h
  by_cases hlen : info.accel.length < maxAccelerators
  · simp only [hlen, dite_true] at h
    cases h
    unfold InfoAcc.entries
    rw [List.map_append]
    rfl
  · simp only [hlen, dite_false] at h
    cases h

/-- The loop appends as many entries as it has turns. -/
theorem addEntries_ok {name : Option NameBuf} {left i : Nat}
    (h : addEntries name left i info = .ok info') :
    ∃ added, info'.entries = info.entries ++ added ∧ added.length = left ∧
      ∀ buf, name = some buf → added = (List.range' i left).map fun k => (buf.str, k + 1) := by
  induction left generalizing i info with
  | zero =>
      cases h
      exact ⟨[], (List.append_nil _).symm, rfl, fun _ _ => rfl⟩
  | succ left ih =>
      unfold addEntries at h
      cases name with
      | none => cases h
      | some buf =>
          obtain ⟨info₁, hadd, hrest⟩ := bind_ok h
          obtain ⟨added, hadded, hlen, hnames⟩ := ih hrest
          refine ⟨(buf.str, i + 1) :: added, ?_, ?_, ?_⟩
          · rw [hadded, InfoAcc.add_ok hadd, List.append_assoc]
            rfl
          · rw [List.length_cons, hlen]
          · intro buf' hbuf'
            cases hbuf'
            rw [hnames buf rfl]
            rfl

/-- There is room for some entries, so they are added. -/
theorem addEntries_eq {buf : NameBuf} {left i : Nat}
    (hroom : info.entries.length + left ≤ maxAccelerators) :
    ∃ info', addEntries (some buf) left i info = .ok info' := by
  induction left generalizing i info with
  | zero => exact ⟨info, rfl⟩
  | succ left ih =>
      have hlen : info.accel.length < maxAccelerators := by
        rw [InfoAcc.entries, List.length_map] at hroom
        omega
      have hadd : ∃ info₁, info.add ⟨buf, i + 1⟩ = .ok info₁ := by
        unfold InfoAcc.add
        simp only [hlen, dite_true]
        exact ⟨_, rfl⟩
      obtain ⟨info₁, hadd⟩ := hadd
      have hroom₁ : info₁.entries.length + left ≤ maxAccelerators := by
        rw [InfoAcc.add_ok hadd, List.length_append, List.length_singleton]
        omega
      obtain ⟨info', hrest⟩ := ih hroom₁
      refine ⟨info', ?_⟩
      calc
        addEntries (some buf) (left + 1) i info
            = info.add ⟨buf, i + 1⟩ >>= addEntries (some buf) left (i + 1) := rfl
        _ = .ok info' := by rw [hadd, ok_bind, hrest]

/-- What a turn adds, and the count that it leaves. -/
theorem accLine_ok {line : Name} (h : accLine v line = .ok v') :
    ∃ added, v'.info.entries = v.info.entries ++ added ∧
      v'.count = (accFields line).1.or v.count ∧ v'.count = some (added.length : Int) ∧
      ∀ name, (accFields line).2 = some name → name.length < 128 ∧ added = accEntries line := by
  unfold accLine at h
  obtain ⟨v₁, hv₁, h⟩ := bind_ok h
  obtain ⟨v₂, hv₂, h⟩ := bind_ok h
  obtain ⟨hcount₁, hname₁, hinfo₁⟩ := scanCount_ok hv₁
  obtain ⟨hnAcc₂, hinfo₂, hname₂⟩ := scanName_ok hv₂
  have hcount : v₂.count = (accFields line).1.or v.count := by
    rw [← hcount₁]
    exact congrArg (Option.map Int.ofNat) hnAcc₂
  cases hn : v₂.nAcc with
  | none =>
      rw [hn] at h
      cases h
  | some n =>
      rw [hn] at h
      obtain ⟨info', hadd, h⟩ := bind_ok h
      cases h
      obtain ⟨added, hadded, hlen, hnames⟩ := addEntries_ok hadd
      have hleft : v₂.count = some (added.length : Int) := by
        rw [hlen, AccVars.count, hn]
        rfl
      have hsame : (AccVars.mk (some n) v₂.name info').count = v₂.count := by
        rw [AccVars.count, AccVars.count, hn]
      rw [hsame]
      refine ⟨added, ?_, hcount, hleft, ?_⟩
      · rw [hadded, hinfo₂, hinfo₁]
      · intro name hname
        obtain ⟨fits, hbuf⟩ := hname₂ name hname
        obtain ⟨m, hfields⟩ := accFields_count hname
        rw [hfields] at hcount
        have hm : m = n := by
          rw [hleft, hlen] at hcount
          exact (Option.some.inj hcount).symm
        refine ⟨fits, ?_⟩
        rw [hnames _ hbuf, accEntries, hfields, hm, ← List.range_eq_range']
        rfl

/-- A turn goes well when it adds entries of a name that fits, or none. -/
theorem accLine_eq {line : Name} {n : Nat} (hcount : (accFields line).1.or v.count = some (n : Int))
    (hname : ∀ name, (accFields line).2 = some name → name.length < 128)
    (hnone : (accFields line).2 = none → n = 0)
    (hroom : v.info.entries.length + n ≤ maxAccelerators) :
    ∃ v', accLine v line = .ok v' := by
  have hbound : maxAccelerators < 2 ^ 32 := by decide
  have hfield : ∀ m, (accFields line).1 = some m → 0 ≤ m ∧ m < 2 ^ 32 := by
    intro m hm
    rw [hm] at hcount
    cases hcount
    omega
  obtain ⟨v₁, hv₁⟩ := scanCount_eq (v := v) hfield
  obtain ⟨hcount₁, hname₁, hinfo₁⟩ := scanCount_ok hv₁
  obtain ⟨v₂, hv₂⟩ := scanName_eq (v := v₁) hname
  obtain ⟨hnAcc₂, hinfo₂, hname₂⟩ := scanName_ok hv₂
  have hn : v₂.nAcc = some n := by
    rw [hnAcc₂]
    rw [hcount, AccVars.count, Option.map_eq_some_iff] at hcount₁
    obtain ⟨k, hk, heq⟩ := hcount₁
    rw [hk, Int.ofNat.inj heq]
  have hadd : ∃ info', addEntries v₂.name n 0 v₂.info = .ok info' := by
    cases hfields : (accFields line).2 with
    | none =>
        rw [hnone hfields]
        exact ⟨v₂.info, rfl⟩
    | some name =>
        obtain ⟨fits, hbuf⟩ := hname₂ name hfields
        rw [hbuf, hinfo₂, hinfo₁]
        exact addEntries_eq hroom
  obtain ⟨info', hadd⟩ := hadd
  refine ⟨{ v₂ with info := info' }, ?_⟩
  unfold accLine
  rw [hv₁, ok_bind, hv₂, ok_bind, hn]
  dsimp only
  rw [hadd]
  rfl

/-- A run never adds less than its data lines ask for. -/
theorem length_le_run {lines : List Name} (h : lines.foldlM accLine v = .ok v') :
    v.info.entries.length + (lines.flatMap accEntries).length ≤ v'.info.entries.length := by
  induction lines generalizing v with
  | nil =>
      cases h
      exact le_refl _
  | cons line lines ih =>
      rw [List.foldlM_cons] at h
      obtain ⟨v₁, hline, hrest⟩ := bind_ok h
      obtain ⟨added, hadded, -, -, hdata⟩ := accLine_ok hline
      have hle : (accEntries line).length ≤ added.length := by
        cases hfields : (accFields line).2 with
        | none =>
            rw [accEntries_none hfields]
            exact Nat.zero_le _
        | some name => rw [(hdata name hfields).2]
      have hrest := ih hrest
      rw [hadded, List.length_append] at hrest
      rw [List.flatMap_cons, List.length_append]
      omega

/-- A run that adds what its data lines ask for has read every line as it should. -/
theorem accLines_of_run {lines : List Name} (h : lines.foldlM accLine v = .ok v')
    (heq : v'.info.entries = v.info.entries ++ lines.flatMap accEntries) :
    AccLines v.count lines := by
  induction lines generalizing v with
  | nil => exact .nil
  | cons line lines ih =>
      rw [List.foldlM_cons] at h
      obtain ⟨v₁, hline, hrest⟩ := bind_ok h
      obtain ⟨added, hadded, hcount, hlen, hdata⟩ := accLine_ok hline
      rw [List.flatMap_cons] at heq
      cases hfields : (accFields line).2 with
      | some name =>
          obtain ⟨hname, hadd⟩ := hdata name hfields
          obtain ⟨n, hline⟩ := accFields_count hfields
          have hn : v₁.count = some n := by
            rw [hcount, hline]
            rfl
          have hpos : 0 ≤ n := by
            rw [hlen] at hn
            cases hn
            exact Int.natCast_nonneg _
          apply AccLines.data hline hpos hname
          rw [← hn]
          apply ih hrest
          rw [heq, hadded, hadd, List.append_assoc]
      | none =>
          rw [accEntries_none hfields, List.nil_append] at heq
          -- The rest of the run adds at least its own entries, so this line adds nothing
          have hzero : added = [] := by
            have hle := length_le_run hrest
            rw [hadded, heq, List.length_append, List.length_append] at hle
            exact List.eq_nil_of_length_eq_zero (by omega)
          rw [hzero] at hlen hadded
          rw [hlen] at hcount
          apply AccLines.other hfields hcount.symm
          have hcount₁ : v₁.count = some 0 := hlen
          rw [← hcount₁]
          apply ih hrest
          rw [heq, hadded, List.append_nil]

/-- Lines that are read as they should add what their data lines ask for. -/
theorem AccLines.run {count : Option Int} {lines : List Name} (h : AccLines count lines)
    (hcount : v.count = count)
    (hroom : v.info.entries.length + (lines.flatMap accEntries).length ≤ maxAccelerators) :
    ∃ v', lines.foldlM accLine v = .ok v' ∧
      v'.info.entries = v.info.entries ++ lines.flatMap accEntries := by
  induction h generalizing v with
  | nil => exact ⟨v, rfl, (List.append_nil _).symm⟩
  | @data count line name n lines hfields hn hname h ih =>
      rw [List.flatMap_cons, List.length_append] at hroom
      have hentries : (accEntries line).length = n.toNat := by
        rw [accEntries, hfields]
        simp only [List.length_map, List.length_range]
      have hread : (accFields line).1.or v.count = some (n.toNat : Int) := by
        rw [hfields, Int.toNat_of_nonneg hn]
        rfl
      have hnames : ∀ name, (accFields line).2 = some name → name.length < 128 := by
        intro name' hname'
        rw [hfields] at hname'
        cases hname'
        exact hname
      obtain ⟨v₁, hline⟩ := accLine_eq hread hnames (by simp [hfields]) (by omega)
      obtain ⟨added, hadded, hcount₁, -, hdata⟩ := accLine_ok hline
      rw [(hdata name (by rw [hfields])).2] at hadded
      obtain ⟨v', hrest, heq⟩ := ih (by rw [hcount₁, hread, Int.toNat_of_nonneg hn])
        (by rw [hadded, List.length_append]; omega)
      refine ⟨v', ?_, ?_⟩
      · rw [List.foldlM_cons, hline, ok_bind, hrest]
      · rw [heq, hadded, List.flatMap_cons, List.append_assoc]
  | @other count line lines hfields hzero h ih =>
      rw [List.flatMap_cons, accEntries_none hfields, List.nil_append] at hroom ⊢
      have hread : (accFields line).1.or v.count = some ((0 : Nat) : Int) := by
        rw [hcount]
        exact hzero
      have hnames : ∀ name, (accFields line).2 = some name → name.length < 128 := by
        intro name hname
        rw [hfields] at hname
        cases hname
      obtain ⟨v₁, hline⟩ := accLine_eq hread hnames (fun _ => rfl) (by omega)
      obtain ⟨added, hadded, hcount₁, hlen, -⟩ := accLine_ok hline
      have hnil : added = [] := by
        rw [hcount₁, hread] at hlen
        exact List.eq_nil_of_length_eq_zero (by simpa using hlen.symm)
      rw [hnil, List.append_nil] at hadded
      obtain ⟨v', hrest, heq⟩ := ih (by rw [hcount₁, hread]; rfl) (by rw [hadded]; exact hroom)
      refine ⟨v', ?_, ?_⟩
      · rw [List.foldlM_cons, hline, ok_bind, hrest]
      · rw [heq, hadded]

end

/-- With a header, `system_get_accelerators` stays inside its arrays and adds what the data
lines ask for exactly when the lines are read as they should and ask for no more than
`MAX_ACCELERATORS` entries. -/
theorem system_get_accelerators_iff {text header : Name} {lines : List Name}
    (htext : getlines text = header :: lines) :
    (∃ info, systemGetAccelerators text = .ok info ∧
        info.entries = lines.flatMap accEntries) ↔
      AccLines none lines ∧ (lines.flatMap accEntries).length ≤ maxAccelerators := by
  have hcode : systemGetAccelerators text =
      lines.foldlM accLine AccVars.start >>= fun v => .ok v.info := by
    unfold systemGetAccelerators
    rw [htext]
    rfl
  constructor
  · rintro ⟨info, hrun, heq⟩
    rw [hcode] at hrun
    obtain ⟨v, hv, hinfo⟩ := bind_ok hrun
    cases hinfo
    constructor
    · exact accLines_of_run hv heq
    · rw [← heq, InfoAcc.entries, List.length_map]
      exact v.info.fits
  · rintro ⟨hlines, hlen⟩
    obtain ⟨v, hv, heq⟩ := hlines.run (v := AccVars.start) rfl
      (by rw [show AccVars.start.info.entries.length = 0 from rfl, Nat.zero_add]; exact hlen)
    refine ⟨v.info, ?_, heq⟩
    rw [hcode, hv]
    rfl

/-- Two kinds of accelerators. -/
theorem system_get_accelerators_two :
    ∃ info, systemGetAccelerators (ascii "type count name freq\n0 2 fft 100\n1 1 dma 200\n") =
        .ok info ∧
      info.entries = [(ascii "fft", 1), (ascii "fft", 2), (ascii "dma", 1)] := by
  have htext : getlines (ascii "type count name freq\n0 2 fft 100\n1 1 dma 200\n") =
      ascii "type count name freq\n" :: [ascii "0 2 fft 100\n", ascii "1 1 dma 200\n"] := by
    decide +kernel
  have hfft : accFields (ascii "0 2 fft 100\n") = (some 2, some (ascii "fft")) := by
    decide +kernel
  have hdma : accFields (ascii "1 1 dma 200\n") = (some 1, some (ascii "dma")) := by
    decide +kernel
  have hlines : AccLines none [ascii "0 2 fft 100\n", ascii "1 1 dma 200\n"] :=
    .data hfft (by decide) (by decide) (.data hdma (by decide) (by decide) .nil)
  have hentries : [ascii "0 2 fft 100\n", ascii "1 1 dma 200\n"].flatMap accEntries =
      [(ascii "fft", 1), (ascii "fft", 2), (ascii "dma", 1)] := by
    decide +kernel
  have hrun := (system_get_accelerators_iff htext).mpr ⟨hlines, by rw [hentries]; decide⟩
  rw [hentries] at hrun
  exact hrun

/-- A blank line adds the entries of the line before it once more. -/
theorem system_get_accelerators_blank :
    getlines (ascii "type count name freq\n0 2 fft 100\n\n") =
        [ascii "type count name freq\n", ascii "0 2 fft 100\n", ascii "\n"] ∧
      [ascii "0 2 fft 100\n", ascii "\n"].flatMap accEntries =
        [(ascii "fft", 1), (ascii "fft", 2)] ∧
      (systemGetAccelerators (ascii "type count name freq\n0 2 fft 100\n\n")).toOption.map
          InfoAcc.entries =
        some [(ascii "fft", 1), (ascii "fft", 2), (ascii "fft", 1), (ascii "fft", 2)] := by
  decide +kernel


end Ovni
