import Ovni.Clkoff.Model
import Ovni.Lib.Merge

/-!
# From the table to the streams

The entries of the table have different names, so a loom gets at most one offset, and each
stream has none before.  Empty lines of the file are skipped, but a line of white space
ends it, also when entries come after it.
-/

namespace Ovni

open Ovni.Lib

/-! ## The lines of the file -/

/-- An empty line or one of white space. -/
def Blank (line : Name) : Prop := line.all isspace = true

/-- A blank line that is not empty. -/
def SpaceLine (line : Name) : Prop := Blank line ∧ line ≠ [10]

instance (line : Name) : Decidable (Blank line) :=
  inferInstanceAs (Decidable (line.all isspace = true))

instance (line : Name) : Decidable (SpaceLine line) :=
  inferInstanceAs (Decidable (Blank line ∧ line ≠ [10]))

section

variable {δ : Type} (conv : Conversions δ)

/-- The entry of a line with five fields. -/
def entryOf (line : Name) : Option (ClkoffEntry δ) :=
  match sscanf conv line with
  | .entry e => some e
  | _ => none

/-- One entry for each line that has one. -/
def entriesOf (lines : List Name) : List (ClkoffEntry δ) := lines.filterMap (entryOf conv)

/-- The line is blank or has five fields. -/
def LineOk (line : Name) : Prop := Blank line ∨ ∃ e, sscanf conv line = .entry e

variable {conv}

theorem sscanf_blank {line : Name} (h : Blank line) : sscanf conv line = .eof := by
  unfold sscanf
  have hall : (line.takeWhile (· ≠ 0)).all isspace = true := by
    rw [List.all_eq_true]
    intro c hc
    exact List.all_eq_true.mp h c ((List.takeWhile_sublist _).subset hc)
  simp only [hall, if_true]

theorem entryOf_blank {line : Name} (h : Blank line) : entryOf conv line = none := by
  unfold entryOf
  rw [sscanf_blank h]

/-- A line that is not blank gives an entry. -/
theorem LineOk.entry {line : Name} (h : LineOk conv line) (hnot : ¬ Blank line) :
    ∃ e, sscanf conv line = .entry e ∧ entryOf conv line = some e := by
  obtain ⟨e, he⟩ := h.resolve_left hnot
  exact ⟨e, he, by rw [entryOf, he]⟩

/-! ## The parse -/

/-- The lines that are read: those before the first line of white space. -/
def readLines (lines : List Name) : List Name :=
  lines.takeWhile fun line => !decide (SpaceLine line)

theorem readLines_space {line : Name} (h : SpaceLine line) (lines : List Name) :
    readLines (line :: lines) = [] := by
  simp [readLines, h]

theorem readLines_cons {line : Name} (h : ¬ SpaceLine line) (lines : List Name) :
    readLines (line :: lines) = line :: readLines lines := by
  simp [readLines, h]

theorem entriesOf_blank {line : Name} (h : Blank line) (lines : List Name) :
    entriesOf conv (line :: lines) = entriesOf conv lines :=
  List.filterMap_cons_none (entryOf_blank h)

theorem entriesOf_entry {line : Name} {e : ClkoffEntry δ} (h : entryOf conv line = some e)
    (lines : List Name) : entriesOf conv (line :: lines) = e :: entriesOf conv lines :=
  List.filterMap_cons_some h

theorem cparseLoop_eq {fuel : Nat} {lines : List Name} {table : List (ClkoffEntry δ)}
    (htext : TextLines lines) (hlines : ∀ line ∈ lines, LineOk conv line)
    (hnames : ((table ++ entriesOf conv lines).map ClkoffEntry.name).Nodup)
    (hfuel : lines.length < fuel) :
    cparseLoop conv fuel lines.flatten table =
      .ok (table ++ entriesOf conv (readLines lines)) := by
  induction lines generalizing fuel table with
  | nil =>
      obtain ⟨fuel, rfl⟩ : ∃ k, fuel = k + 1 := ⟨fuel - 1, by simp at hfuel; omega⟩
      simp [cparseLoop, fgets, readLines, entriesOf]
  | cons line lines ih =>
      obtain ⟨fuel, rfl⟩ : ∃ k, fuel = k + 1 := ⟨fuel - 1, by simp at hfuel; omega⟩
      obtain ⟨hfgets, hrest⟩ := fgets_cons htext
      have hnext : ∀ line' ∈ lines, LineOk conv line' := fun line' hmem =>
        hlines line' (List.mem_cons_of_mem _ hmem)
      have hlt : lines.length < fuel := by simpa using hfuel
      rw [cparseLoop, hfgets]
      simp only [htext.head_newline]
      by_cases hempty : line = [10]
      · have hblank : Blank line := by
          rw [hempty]
          rfl
        rw [entriesOf_blank hblank] at hnames
        rw [if_pos hempty, ih hrest hnext hnames hlt, readLines_cons fun h => h.2 hempty,
          entriesOf_blank hblank]
      rw [if_neg hempty]
      by_cases hblank : Blank line
      · simp only [sscanf_blank hblank, readLines_space ⟨hblank, hempty⟩]
        simp [entriesOf]
      · obtain ⟨e, hscan, hentry⟩ := (hlines line List.mem_cons_self).entry hblank
        rw [entriesOf_entry hentry] at hnames
        have hnew : e.name ∉ table.map ClkoffEntry.name := by
          rw [List.map_append, List.nodup_append] at hnames
          exact fun hmem => hnames.2.2 e.name hmem e.name (by simp) rfl
        simp only [hscan, cadd, if_neg hnew]
        rw [readLines_cons fun h => hblank h.1, entriesOf_entry hentry]
        have hnames' : ((table ++ [e] ++ entriesOf conv lines).map ClkoffEntry.name).Nodup := by
          simpa using hnames
        have hstep := ih hrest hnext hnames' hlt
        rw [List.append_assoc] at hstep
        exact hstep

/-- Everything is read if and only if no entry comes after a line of white space. -/
theorem entriesOf_readLines {lines : List Name} (hlines : ∀ line ∈ lines, LineOk conv line) :
    entriesOf conv (readLines lines) = entriesOf conv lines ↔
      lines.Pairwise fun line line' => SpaceLine line → Blank line' := by
  induction lines with
  | nil => simp [readLines]
  | cons line lines ih =>
      have hnext : ∀ line' ∈ lines, LineOk conv line' := fun line' hmem =>
        hlines line' (List.mem_cons_of_mem _ hmem)
      rw [List.pairwise_cons]
      by_cases hspace : SpaceLine line
      · rw [readLines_space hspace, entriesOf_blank hspace.1]
        have hall : entriesOf conv [] = entriesOf conv lines ↔ ∀ line' ∈ lines, Blank line' := by
          constructor
          · intro hnil line' hmem
            by_contra hnot
            obtain ⟨e, -, hentry⟩ := (hnext line' hmem).entry hnot
            have hin : e ∈ entriesOf conv lines := List.mem_filterMap.mpr ⟨line', hmem, hentry⟩
            rw [← hnil] at hin
            cases hin
          · intro hblank
            exact (List.filterMap_eq_nil_iff.mpr fun line' hmem =>
              entryOf_blank (hblank line' hmem)).symm
        rw [hall]
        constructor
        · intro hblank
          exact ⟨fun line' hmem _ => hblank line' hmem,
            List.pairwise_of_forall_mem_list fun _ _ line' hmem _ => hblank line' hmem⟩
        · intro hpair line' hmem
          exact hpair.1 line' hmem hspace
      · rw [readLines_cons hspace]
        have hcons : entriesOf conv (line :: readLines lines) = entriesOf conv (line :: lines) ↔
            entriesOf conv (readLines lines) = entriesOf conv lines := by
          cases hentry : entryOf conv line with
          | none =>
              unfold entriesOf
              rw [List.filterMap_cons_none hentry, List.filterMap_cons_none hentry]
          | some e => rw [entriesOf_entry hentry, entriesOf_entry hentry, List.cons_inj_right]
        rw [hcons, ih hnext]
        simp [hspace]

/-- `clkoff_load` gives one entry for each line that is not blank if and only if no entry
comes after a line of white space. -/
theorem clkoffLoad_iff {header : Name} {lines : List Name} (htext : TextLines (header :: lines))
    (hlines : ∀ line ∈ lines, LineOk conv line) (hsome : ∃ line ∈ lines, ¬ Blank line)
    (hnames : ((entriesOf conv lines).map ClkoffEntry.name).Nodup) :
    clkoffLoad conv (header :: lines).flatten = .ok (entriesOf conv lines) ↔
      lines.Pairwise fun line line' => SpaceLine line → Blank line' := by
  obtain ⟨hfgets, hrest⟩ := fgets_cons htext
  have hlen := Nat.lt_succ_of_le hrest.length_le
  have hparse : cparse conv (header :: lines).flatten = .ok (entriesOf conv (readLines lines)) := by
    unfold cparse
    rw [hfgets]
    exact cparseLoop_eq hrest hlines (by simpa using hnames) hlen
  have hne : entriesOf conv lines ≠ [] := by
    obtain ⟨line, hmem, hnot⟩ := hsome
    obtain ⟨e, -, hentry⟩ := (hlines line hmem).entry hnot
    exact List.ne_nil_of_mem (List.mem_filterMap.mpr ⟨line, hmem, hentry⟩)
  rw [← entriesOf_readLines hlines]
  unfold clkoffLoad
  rw [hparse]
  constructor
  · intro hload
    obtain ⟨-, hload⟩ := guard_ok hload
    exact Except.ok.inj hload
  · intro heq
    rw [heq]
    show (if entriesOf conv lines = [] then _ else _) = _
    rw [if_neg hne]
    rfl

/-! ## The looms -/

variable {ℓ : Type} [DecidableEq ℓ] {looms : List ℓ} {name : ℓ → Name}

/-- The offset of the host of a loom: the median of its entry, or zero without one. -/
def medianOf (conv : Conversions δ) (entries : List (ClkoffEntry δ)) (host : Name) : Int :=
  match entries.find? fun e => e.name = host with
  | none => 0
  | some e => conv.toInt64 e.median

/-- The looms of the host of an entry have no offset yet. -/
theorem foldlM_parseLoom {entry : ClkoffEntry δ} {offsets : ℓ → Int} {n : Nat}
    (hnodup : looms.Nodup)
    (hfree : ∀ l ∈ looms, setHostname (name l) = entry.name → offsets l = 0) :
    looms.foldlM (parseLoom conv name entry) (offsets, n) = .ok
      (fun l => if l ∈ looms ∧ setHostname (name l) = entry.name then conv.toInt64 entry.median
        else offsets l,
      n + (looms.filter fun l => setHostname (name l) = entry.name).length) := by
  induction looms generalizing offsets n with
  | nil =>
      simp
      rfl
  | cons l looms ih =>
      rw [List.nodup_cons] at hnodup
      rw [List.foldlM_cons]
      by_cases hhost : setHostname (name l) = entry.name
      · have hzero := hfree l List.mem_cons_self hhost
        have hstep : parseLoom conv name entry (offsets, n) l =
            .ok (Function.update offsets l (conv.toInt64 entry.median), n + 1) := by
          simp [parseLoom, hhost, hzero]
          rfl
        rw [hstep]
        show looms.foldlM (parseLoom conv name entry) (_, n + 1) = _
        rw [ih hnodup.2]
        · refine congrArg Except.ok (Prod.ext (funext fun l' => ?_) ?_)
          · by_cases hl : l' = l
            · simp [hl, hhost, hnodup.1]
            · simp [hl]
          · simp [hhost]
            omega
        · intro l' hl' hhost'
          have hne : l' ≠ l := by
            rintro rfl
            exact hnodup.1 hl'
          rw [Function.update_of_ne hne]
          exact hfree l' (List.mem_cons_of_mem _ hl') hhost'
      · have hstep : parseLoom conv name entry (offsets, n) l = .ok (offsets, n) := by
          simp [parseLoom, hhost]
          rfl
        rw [hstep]
        show looms.foldlM (parseLoom conv name entry) (offsets, n) = _
        rw [ih hnodup.2 fun l' hl' => hfree l' (List.mem_cons_of_mem _ hl')]
        refine congrArg Except.ok (Prod.ext (funext fun l' => ?_) ?_)
        · by_cases hl : l' = l
          · simp [hl, hhost]
          · simp [hl]
        · simp [hhost]

/-- The entry finds a loom of its host. -/
def Matches (looms : List ℓ) (name : ℓ → Name) (entry : ClkoffEntry δ) : Prop :=
  ∃ l ∈ looms, setHostname (name l) = entry.name

variable (conv) in
/-- An entry for looms that have no offset yet. -/
theorem parseClkoffEntry_eq {entry : ClkoffEntry δ} {offsets : ℓ → Int} (hnodup : looms.Nodup)
    (hfree : ∀ l ∈ looms, setHostname (name l) = entry.name → offsets l = 0) :
    (Matches looms name entry ∧ parseClkoffEntry conv looms name offsets entry =
        .ok fun l => if l ∈ looms ∧ setHostname (name l) = entry.name then
          conv.toInt64 entry.median else offsets l) ∨
      ¬ Matches looms name entry ∧ parseClkoffEntry conv looms name offsets entry =
        .error (.fail "cannot find loom with hostname") := by
  unfold parseClkoffEntry
  rw [foldlM_parseLoom hnodup hfree]
  by_cases hmatch : Matches looms name entry
  · left
    obtain ⟨l, hl, hhost⟩ := hmatch
    have hpos : 0 < (looms.filter fun l => setHostname (name l) = entry.name).length :=
      List.length_pos_of_mem (List.mem_filter.mpr ⟨hl, by simpa using hhost⟩)
    refine ⟨⟨l, hl, hhost⟩, ?_⟩
    show (if 0 + _ = 0 then _ else _) = _
    rw [if_neg (by omega)]
    rfl
  · right
    have hnil : (looms.filter fun l => setHostname (name l) = entry.name) = [] := by
      apply List.filter_eq_nil_iff.mpr
      intro l hl
      simpa using fun hhost => hmatch ⟨l, hl, hhost⟩
    rw [hnil]
    exact ⟨hmatch, rfl⟩

variable (conv) in
/-- The offsets after some entries. -/
theorem foldlM_parseClkoffEntry {before entries : List (ClkoffEntry δ)} {offsets : ℓ → Int}
    (hnodup : looms.Nodup) (hnames : ((before ++ entries).map ClkoffEntry.name).Nodup)
    (hoff : ∀ l ∈ looms, offsets l = medianOf conv before (setHostname (name l))) :
    ((∀ e ∈ entries, Matches looms name e) ∧ ∃ offsets',
        entries.foldlM (parseClkoffEntry conv looms name) offsets = .ok offsets' ∧
        ∀ l ∈ looms, offsets' l = medianOf conv (before ++ entries) (setHostname (name l))) ∨
      (∃ e ∈ entries, ¬ Matches looms name e) ∧
        entries.foldlM (parseClkoffEntry conv looms name) offsets =
          .error (.fail "cannot find loom with hostname") := by
  induction entries generalizing before offsets with
  | nil => exact .inl ⟨by simp, offsets, rfl, by simpa using hoff⟩
  | cons e entries ih =>
      rw [List.foldlM_cons]
      have hnew : ∀ e' ∈ before, e'.name ≠ e.name := by
        rw [List.map_append, List.nodup_append] at hnames
        exact fun e' he' => hnames.2.2 e'.name (List.mem_map_of_mem he') e.name (by simp)
      have hfree : ∀ l ∈ looms, setHostname (name l) = e.name → offsets l = 0 := by
        intro l hl hhost
        rw [hoff l hl, medianOf, List.find?_eq_none.mpr]
        intro e' he'
        simpa [hhost] using hnew e' he'
      rcases parseClkoffEntry_eq conv hnodup hfree with ⟨hmatch, hrun⟩ | ⟨hnot, hrun⟩
      · rw [hrun]
        have hsplit : before ++ e :: entries = before ++ [e] ++ entries := by simp
        rw [hsplit] at hnames ⊢
        have hoff1 : ∀ l ∈ looms, (if l ∈ looms ∧ setHostname (name l) = e.name then
            conv.toInt64 e.median else offsets l) =
            medianOf conv (before ++ [e]) (setHostname (name l)) := by
          intro l hl
          unfold medianOf
          rw [List.find?_append]
          by_cases hhost : setHostname (name l) = e.name
          · have hnone : (before.find? fun e' => decide (e'.name = setHostname (name l))) = none :=
              List.find?_eq_none.mpr fun e' he' => by simpa [hhost] using hnew e' he'
            rw [hnone]
            simp [hl, hhost]
          · rw [if_neg fun h => hhost h.2, hoff l hl, medianOf]
            simp [Ne.symm hhost]
        rcases ih hnames hoff1 with ⟨hall, offsets', hrest, hoff'⟩ | ⟨⟨e', he', hnot⟩, hrest⟩
        · refine .inl ⟨fun e' he' => ?_, offsets', hrest, hoff'⟩
          rcases List.mem_cons.mp he' with rfl | he'
          · exact hmatch
          · exact hall e' he'
        · exact .inr ⟨⟨e', List.mem_cons_of_mem _ he', hnot⟩, hrest⟩
      · rw [hrun]
        exact .inr ⟨⟨e, List.mem_cons_self, hnot⟩, rfl⟩

/-! ## The streams -/

/-- A thread stream with the offset of the host of its loom. -/
def withOffset (conv : Conversions δ) (name : ℓ → Name) (entries : List (ClkoffEntry δ))
    (s : TraceStream ℓ) : TraceStream ℓ :=
  match s.loom with
  | none => s
  | some l =>
      let clockOffset := medianOf conv entries (setHostname (name l))
      { s with stream := { s.stream with clockOffset } }

/-- `init_offsets` fails if and only if some entry matches no loom; otherwise each thread
stream has the offset of its host. -/
def OffsetsGiven (conv : Conversions δ) (looms : List ℓ) (name : ℓ → Name)
    (entries : List (ClkoffEntry δ)) (streams : List (TraceStream ℓ)) : Prop :=
  (∀ e ∈ entries, Matches looms name e) ∧
      initOffsets conv looms name entries streams =
        .ok (streams.map (withOffset conv name entries)) ∨
    (∃ e ∈ entries, ¬ Matches looms name e) ∧
      initOffsets conv looms name entries streams =
        .error (.fail "cannot find loom with hostname")

/-- A stream as it was loaded, of a loom of the system. -/
structure LoadedStream (looms : List ℓ) (s : TraceStream ℓ) : Prop where
  unstarted : s.stream.curEv = none
  unset : s.stream.clockOffset = 0
  loom : ∀ l, s.loom = some l → l ∈ looms

omit [DecidableEq ℓ] in
/-- The offset of its loom is set in a stream that was loaded. -/
theorem setOffset_eq {entries : List (ClkoffEntry δ)} {offsets : ℓ → Int} {s : TraceStream ℓ}
    (hoff : ∀ l ∈ looms, offsets l = medianOf conv entries (setHostname (name l)))
    (hs : LoadedStream looms s) :
    setOffset offsets s = .ok (withOffset conv name entries s) := by
  unfold setOffset withOffset
  cases hloom : s.loom with
  | none => rfl
  | some l =>
      have hset : streamClkoffSet s.stream (offsets l) =
          .ok { s.stream with clockOffset := offsets l } := by
        simp [streamClkoffSet, hs.unstarted, hs.unset]
      show Except.bind ((streamClkoffSet s.stream (offsets l)).mapError EmuFault.fail) _ = _
      rw [hset, hoff l (hs.loom l hloom)]
      rfl

/-- The error of `parse_clkoff_entry` for a loom with an offset is never reached. -/
theorem initOffsets_given {entries : List (ClkoffEntry δ)} {streams : List (TraceStream ℓ)}
    (hnodup : looms.Nodup) (hnames : (entries.map ClkoffEntry.name).Nodup)
    (hstreams : ∀ s ∈ streams, LoadedStream looms s) :
    OffsetsGiven conv looms name entries streams := by
  unfold OffsetsGiven initOffsets
  have hnone : ∀ l ∈ looms, (0 : Int) = medianOf conv [] (setHostname (name l)) :=
    fun _ _ => rfl
  rw [← List.nil_append entries] at hnames
  rcases foldlM_parseClkoffEntry conv hnodup hnames hnone with
    ⟨hall, offsets, hrun, hoff⟩ | ⟨hsome, hrun⟩
  · refine .inl ⟨hall, ?_⟩
    rw [hrun]
    show streams.mapM (setOffset offsets) = _
    exact mapM_eq_map fun s hs => setOffset_eq hoff (hstreams s hs)
  · rw [hrun]
    exact .inr ⟨hsome, rfl⟩

/-- The file has a header, and its other lines are blank or have five fields, with
different names. -/
structure OffsetsFile (conv : Conversions δ) (header : Name) (lines : List Name) : Prop where
  text : TextLines (header :: lines)
  line : ∀ line ∈ lines, LineOk conv line
  some : ∃ line ∈ lines, ¬ Blank line
  names : ((entriesOf conv lines).map ClkoffEntry.name).Nodup

/-- Each line that is not blank gives an entry, and the streams get the offsets of all of
them, if and only if no entry comes after a line of white space. -/
theorem clock_offsets_iff {header : Name} {lines : List Name} {streams : List (TraceStream ℓ)}
    (hfile : OffsetsFile conv header lines) (hnodup : looms.Nodup)
    (hstreams : ∀ s ∈ streams, LoadedStream looms s) :
    (∃ entries, clkoffLoad conv (header :: lines).flatten = .ok entries ∧
        entries = entriesOf conv lines ∧ OffsetsGiven conv looms name entries streams) ↔
      lines.Pairwise fun line line' => SpaceLine line → Blank line' := by
  rw [← clkoffLoad_iff hfile.text hfile.line hfile.some hfile.names]
  constructor
  · rintro ⟨entries, hload, rfl, -⟩
    exact hload
  · intro hload
    exact ⟨_, hload, rfl, initOffsets_given hnodup hfile.names hstreams⟩

end

/-- Numbers without a fraction, which `%lf` reads as `%ld` does. -/
def integral : Conversions Int where
  ld := strtoll
  lf := strtoll
  toInt64 := id

/-- The lines `h`, `0 a 5 5 5` and `1 b 7 7 7`. -/
def headerLine : Name := [104, 10]

def lineA : Name := [48, 32, 97, 32, 53, 32, 53, 32, 53, 10]

def lineB : Name := [49, 32, 98, 32, 55, 32, 55, 32, 55, 10]

def entryA : ClkoffEntry Int := ⟨0, [97], 5, 5, 5⟩

def entryB : ClkoffEntry Int := ⟨1, [98], 7, 7, 7⟩

/-- The looms `a.1` and `b.2`. -/
def hostLoom : Bool → Name
  | false => [97, 46, 49]
  | true => [98, 46, 50]

/-- A stream of the loom of the second host, with this offset. -/
def hostStream (clockOffset : Int) : TraceStream Bool where
  loom := some true
  stream :=
    { curEv := none, buf := fun _ => 0, size := 8, lastclock := 0, deltaclock := 0, clockOffset,
      active := true, unsorted := false, usize := 0, offset := 0 }

theorem offsetsFile_between {line : Name} (hline : line = [10] ∨ line = [32, 10]) :
    OffsetsFile integral headerLine [lineA, line, lineB] := by
  have htext : TextLines [line, lineB] := by
    rcases hline with rfl | rfl
    · exact @TextLines.line [] _ (by decide) (by decide) (@TextLines.line
        [49, 32, 98, 32, 55, 32, 55, 32, 55] _ (by decide) (by decide) .nil)
    · exact @TextLines.line [32] _ (by decide) (by decide) (@TextLines.line
        [49, 32, 98, 32, 55, 32, 55, 32, 55] _ (by decide) (by decide) .nil)
  have hblank : Blank line := by
    rcases hline with rfl | rfl
    · rfl
    · rfl
  constructor
  · exact @TextLines.line [104] _ (by decide) (by decide) (@TextLines.line
      [48, 32, 97, 32, 53, 32, 53, 32, 53] _ (by decide) (by decide) htext)
  · intro line' hmem
    simp only [List.mem_cons, List.not_mem_nil, or_false] at hmem
    rcases hmem with rfl | rfl | rfl
    · exact .inr ⟨entryA, rfl⟩
    · exact .inl hblank
    · exact .inr ⟨entryB, rfl⟩
  · exact ⟨lineA, by simp, by decide⟩
  · have hentries : entriesOf integral [lineA, line, lineB] = [entryA, entryB] := by
      have hA : entryOf integral lineA = some entryA := rfl
      have hB : entryOf integral lineB = some entryB := rfl
      rw [entriesOf_entry hA, entriesOf_blank hblank, entriesOf_entry hB]
      rfl
    rw [hentries]
    decide

theorem clock_offsets_empty_line :
    ∃ entries, clkoffLoad integral [headerLine, lineA, [10], lineB].flatten = .ok entries ∧
      entries = entriesOf integral [lineA, [10], lineB] ∧
      OffsetsGiven integral [false, true] hostLoom entries [hostStream 0] := by
  refine (clock_offsets_iff (offsetsFile_between (.inl rfl)) (by decide) ?_).mpr (by decide)
  intro s hs
  rw [List.mem_singleton.mp hs]
  exact ⟨rfl, rfl, by simp⟩

/-- After a line with a blank the entry of the second host is not read, and its stream has
no offset. -/
theorem clock_offsets_space_line :
    OffsetsFile integral headerLine [lineA, [32, 10], lineB] ∧
      entriesOf integral [lineA, [32, 10], lineB] = [entryA, entryB] ∧
      clkoffLoad integral [headerLine, lineA, [32, 10], lineB].flatten = .ok [entryA] ∧
      initOffsets integral [false, true] hostLoom [entryA] [hostStream 0] =
        .ok [hostStream 0] ∧
      withOffset integral hostLoom [entryA, entryB] (hostStream 0) = hostStream 7 :=
  ⟨offsetsFile_between (.inr rfl), rfl, rfl, rfl, rfl⟩

end Ovni
