import Ovni.EvSpec.Compile
import Ovni.EvSpec.Print

/-!
# The pieces of a description

A description is made of characters, escaped percents and format regions.  The parser
reads the first piece of a text, and there is one at most.
-/

namespace Ovni

open Ovni.Lib

/-! ## Pieces -/

/-- A piece of a description; the format of a region starts with its percent. -/
inductive Piece where
  | lit (c : Fin 256)
  | percent
  | region (fmt : Option Name) (arg : EvArg)

namespace Piece

/-- The text of a piece in the description. -/
def text : Piece → Name
  | lit c => [c]
  | percent => ascii "%%"
  | region fmt arg => fmt.getD (ascii "%") ++ (ascii "\x7b" ++ (arg.name ++ ascii "\x7d"))

/-- The piece is well formed: a region has the name of an argument, and a format that is
not empty and does not make the percent an escape. -/
inductive Ok (spec : EvSpec) : Piece → Prop where
  | lit {c : Fin 256} (hc : c ≠ 37) : Ok spec (.lit c)
  | percent : Ok spec .percent
  | plain {arg : EvArg} (harg : evSpecFindArg spec arg.name = some arg)
      (hname : IsArgName arg.name) : Ok spec (.region none arg)
  | custom {body : Name} {arg : EvArg} (hne : body ≠ []) (hlen : body.length ≤ 62)
      (hbrace : 123 ∉ body) (hhead : body.head? ≠ some 37)
      (harg : evSpecFindArg spec arg.name = some arg) (hname : IsArgName arg.name) :
      Ok spec (.region (some (ascii "%" ++ body)) arg)

end Piece

/-! ## The parsers -/

/-- A character that does not end the body is the first one of it. -/
theorem first_of_body {stop c : Fin 256} (hc : c ≠ stop) {inp body rest : Name}
    (htext : c :: inp = body ++ rest) (hhead : rest.head? = some stop) :
    ∃ tail, body = c :: tail ∧ inp = tail ++ rest := by
  cases body with
  | nil =>
      rw [List.nil_append] at htext
      rw [← htext] at hhead
      cases hhead
      exact absurd rfl hc
  | cons b body =>
      cases htext
      exact ⟨body, rfl, rfl⟩

theorem copyLoop_ok {stop : Fin 256} {good : Fin 256 → Bool} {atEnd bad long : EmuFault} {n : Nat}
    {buf inp f rest : Name} (hbuf : buf.length ≤ n) :
    copyLoop stop good atEnd bad long n buf inp = .ok (f, rest) ↔
      ∃ body, inp = body ++ rest ∧ rest.head? = some stop ∧ stop ∉ body ∧
        (∀ c ∈ body, good c = true) ∧ buf.length + body.length ≤ n ∧ f = buf ++ body := by
  induction inp generalizing buf with
  | nil =>
      constructor
      · intro h
        cases h
      · rintro ⟨body, htext, hhead, -⟩
        rw [(List.append_eq_nil_iff.mp htext.symm).2] at hhead
        cases hhead
  | cons c inp ih =>
      unfold copyLoop
      by_cases hc : c = stop
      · rw [if_pos hc]
        constructor
        · intro h
          cases h
          exact ⟨[], rfl, by rw [hc]; rfl, by simp, by simp, by simpa using hbuf, by simp⟩
        · rintro ⟨body, htext, hhead, hbody, -, -, rfl⟩
          cases body with
          | nil =>
              rw [List.nil_append] at htext
              rw [htext, List.append_nil]
          | cons b body =>
              cases htext
              exact absurd (by rw [hc]; exact List.mem_cons_self) hbody
      · rw [if_neg hc]
        by_cases hgood : good c = false
        · rw [if_pos hgood]
          constructor
          · intro h
            cases h
          · rintro ⟨body, htext, hhead, -, hall, -⟩
            obtain ⟨tail, rfl, -⟩ := first_of_body hc htext hhead
            rw [hall c List.mem_cons_self] at hgood
            cases hgood
        · rw [if_neg hgood]
          by_cases hlen : n ≤ buf.length
          · rw [if_pos hlen]
            constructor
            · intro h
              cases h
            · rintro ⟨body, htext, hhead, -, -, htotal, -⟩
              obtain ⟨tail, rfl, -⟩ := first_of_body hc htext hhead
              rw [List.length_cons] at htotal
              omega
          · rw [if_neg hlen, ih (by simp; omega)]
            constructor
            · rintro ⟨body, rfl, hhead, hbody, hall, htotal, rfl⟩
              rw [Bool.not_eq_false] at hgood
              simp only [List.length_append, List.length_singleton] at htotal
              refine ⟨c :: body, rfl, hhead, ?_, List.forall_mem_cons.mpr ⟨hgood, hall⟩, ?_,
                by simp⟩
              · rw [List.mem_cons, not_or]
                exact ⟨Ne.symm hc, hbody⟩
              · rw [List.length_cons]
                omega
            · rintro ⟨body, htext, hhead, hbody, hall, htotal, rfl⟩
              obtain ⟨tail, rfl, hinp⟩ := first_of_body hc htext hhead
              rw [List.mem_cons, not_or] at hbody
              rw [List.length_cons] at htotal
              exact ⟨tail, hinp, hhead, hbody.2, fun b hb => hall b (List.mem_cons_of_mem _ hb),
                by simp; omega, by simp⟩

theorem ascii_percent : ascii "%" = [37] := by decide

theorem ascii_brace : ascii "\x7b" = [123] := by decide

theorem ascii_unbrace : ascii "\x7d" = [125] := by decide

/-- The body of a copy is not empty when the text does not start with its end. -/
theorem body_ne_nil {stop : Fin 256} {body rest : Name} (hinp : (body ++ rest).head? ≠ some stop)
    (hrest : rest.head? = some stop) : body ≠ [] := by
  rintro rfl
  exact hinp hrest

theorem parsePrintfFormat_ok {inp f rest : Name} :
    parsePrintfFormat 64 inp = .ok (f, rest) ↔
      ∃ body, inp = body ++ rest ∧ rest.head? = some 123 ∧ 123 ∉ body ∧ body ≠ [] ∧
        body.length ≤ 62 ∧ f = ascii "%" ++ body := by
  have hlen : (ascii "%").length = 1 := by decide
  unfold parsePrintfFormat
  constructor
  · intro h
    obtain ⟨hhead, h⟩ := guard_ok h
    obtain ⟨-, h⟩ := guard_ok h
    obtain ⟨body, rfl, hrest, hbrace, -, htotal, rfl⟩ := (copyLoop_ok (by decide)).mp h
    exact ⟨body, rfl, hrest, hbrace, body_ne_nil hhead hrest, by omega, rfl⟩
  · rintro ⟨body, rfl, hrest, hbrace, hne, htotal, rfl⟩
    have hhead : ¬ (body ++ rest).head? = some 123 := by
      obtain ⟨b, body, rfl⟩ := List.exists_cons_of_ne_nil hne
      rintro ⟨⟩
      exact hbrace List.mem_cons_self
    have hcopy : copyLoop 123 (fun _ => true) (.fail "unexpected end of format")
        (.fail "bad format") (.fail "format too long") 63 (ascii "%") (body ++ rest) =
        .ok (ascii "%" ++ body, rest) :=
      (copyLoop_ok (by decide)).mpr ⟨body, rfl, hrest, hbrace, fun _ _ => rfl, by omega, rfl⟩
    simp only [hhead, if_false, hcopy]
    rfl

theorem parseArgName_ok {inp name rest : Name} :
    parseArgName 64 inp = .ok (name, rest) ↔
      inp = name ++ rest ∧ rest.head? = some 125 ∧ IsArgName name := by
  unfold parseArgName
  constructor
  · intro h
    obtain ⟨hhead, h⟩ := guard_ok h
    obtain ⟨-, h⟩ := guard_ok h
    obtain ⟨body, rfl, hrest, -, hall, htotal, rfl⟩ := (copyLoop_ok (by simp)).mp h
    exact ⟨rfl, hrest, ⟨body_ne_nil hhead hrest, hall, by simpa using htotal⟩⟩
  · rintro ⟨rfl, hrest, hname⟩
    have hbrace : 125 ∉ name := by
      intro hmem
      exact absurd (hname.alnum _ hmem) (by decide)
    have hhead : ¬ (name ++ rest).head? = some 125 := by
      obtain ⟨b, body, rfl⟩ := List.exists_cons_of_ne_nil hname.ne_nil
      rintro ⟨⟩
      exact hbrace List.mem_cons_self
    have hlen := hname.length
    have hcopy : copyLoop 125 isalnum (.fail "unexpected end of argument name")
        (.fail "bad argument name") (.fail "argument name too long") 63 [] (name ++ rest) =
        .ok (name, rest) :=
      (copyLoop_ok (by simp)).mpr
        ⟨name, rfl, hrest, hbrace, hname.alnum, by rw [List.length_nil]; omega, rfl⟩
    simp only [hhead, if_false, hcopy]
    rfl

theorem evSpecFindArg_name {spec : EvSpec} {name : Name} {arg : EvArg}
    (h : evSpecFindArg spec name = some arg) : arg.name = name := by
  simpa using List.find?_some h

theorem parseRegionArg_ok {spec : EvSpec} {inp rest : Name} {arg : EvArg} :
    parseRegionArg spec inp = .ok (arg, rest) ↔
      evSpecFindArg spec arg.name = some arg ∧ IsArgName arg.name ∧
        inp = ascii "\x7b" ++ (arg.name ++ (ascii "\x7d" ++ rest)) := by
  rw [ascii_brace, ascii_unbrace]
  unfold parseRegionArg
  constructor
  · intro h
    obtain ⟨hopen, h⟩ := guard_ok h
    obtain ⟨q, hparse, h⟩ := bind_ok h
    obtain ⟨name, left⟩ := q
    obtain ⟨hclose, h⟩ := guard_ok h
    obtain ⟨htail, -, hname⟩ := parseArgName_ok.mp hparse
    obtain ⟨body, rfl⟩ := List.head?_eq_some_iff.mp (not_not.mp hopen)
    obtain ⟨left, rfl⟩ := List.head?_eq_some_iff.mp (not_not.mp hclose)
    cases hfind : evSpecFindArg spec name with
    | none =>
        simp only [hfind] at h
        cases h
    | some arg =>
        simp only [hfind] at h
        cases h
        obtain rfl := evSpecFindArg_name hfind
        exact ⟨hfind, hname, by rw [List.tail_cons] at htail; rw [htail]; rfl⟩
  · rintro ⟨hfind, hname, rfl⟩
    have hparse := parseArgName_ok.mpr
      ⟨(rfl : arg.name ++ 125 :: rest = arg.name ++ 125 :: rest), rfl, hname⟩
    simp only [List.cons_append, List.nil_append, List.head?_cons, List.tail_cons, ne_eq,
      not_true, if_false, hparse, ok_bind, hfind]
    rfl

/-- A region is read when it is well formed. -/
theorem parseRegion_ok {spec : EvSpec} {inp rest : Name} {fmt : Option Name} {arg : EvArg}
    (hhead : inp.head? ≠ some 37) :
    parseRegion spec inp = .ok (fmt, arg, rest) ↔
      (Piece.region fmt arg).Ok spec ∧ 37 :: inp = (Piece.region fmt arg).text ++ rest := by
  have htext : ∀ body : Name, (Piece.region (some (ascii "%" ++ body)) arg).text ++ rest =
      37 :: (body ++ (ascii "\x7b" ++ (arg.name ++ (ascii "\x7d" ++ rest)))) := by
    intro body
    simp [Piece.text, ascii_percent]
  have hplain : (Piece.region none arg).text ++ rest =
      37 :: (ascii "\x7b" ++ (arg.name ++ (ascii "\x7d" ++ rest))) := by
    simp [Piece.text, ascii_percent]
  unfold parseRegion
  by_cases hbrace : inp.head? = some 123
  · rw [if_pos hbrace]
    constructor
    · intro h
      obtain ⟨q, hq, h⟩ := bind_ok h
      cases h
      obtain ⟨hfind, hname, hinp⟩ := parseRegionArg_ok.mp hq
      exact ⟨.plain hfind hname, by rw [hplain, hinp]⟩
    · rintro ⟨hok, heq⟩
      cases hok with
      | plain hfind hname =>
          rw [hplain] at heq
          rw [parseRegionArg_ok.mpr ⟨hfind, hname, List.tail_eq_of_cons_eq heq⟩]
          rfl
      | @custom body _ hne hlen hbody hpercent hfind hname =>
          rw [htext] at heq
          rw [List.tail_eq_of_cons_eq heq, List.head?_append_of_ne_nil _ hne] at hbrace
          exact absurd (List.mem_of_mem_head? hbrace) hbody
  · rw [if_neg hbrace]
    constructor
    · intro h
      obtain ⟨q, hq, h⟩ := bind_ok h
      obtain ⟨f, left⟩ := q
      obtain ⟨r, hr, h⟩ := bind_ok h
      cases h
      obtain ⟨body, rfl, -, hbody, hne, hlen, rfl⟩ := parsePrintfFormat_ok.mp hq
      obtain ⟨hfind, hname, rfl⟩ := parseRegionArg_ok.mp hr
      refine ⟨.custom hne hlen hbody ?_ hfind hname, by rw [htext]⟩
      obtain ⟨b, body, rfl⟩ := List.exists_cons_of_ne_nil hne
      exact hhead
    · rintro ⟨hok, heq⟩
      cases hok with
      | plain hfind hname =>
          rw [hplain, ascii_brace] at heq
          rw [List.tail_eq_of_cons_eq heq] at hbrace
          exact absurd rfl hbrace
      | @custom body _ hne hlen hbody hpercent hfind hname =>
          rw [htext] at heq
          have hformat := parsePrintfFormat_ok.mpr ⟨body, List.tail_eq_of_cons_eq heq,
            by rw [ascii_brace]; rfl, hbody, hne, hlen, rfl⟩
          rw [hformat, ok_bind]
          simp only [parseRegionArg_ok.mpr ⟨hfind, hname, rfl⟩]
          rfl

/-! ## How the parsers fail -/

theorem copyLoop_ne_error {e : EmuFault} {stop : Fin 256} {good : Fin 256 → Bool}
    {atEnd bad long : EmuFault} {n : Nat} {buf inp : Name} (hend : atEnd ≠ e) (hbad : bad ≠ e)
    (hlong : long ≠ e) : copyLoop stop good atEnd bad long n buf inp ≠ .error e := by
  induction inp generalizing buf with
  | nil => simpa [copyLoop] using hend
  | cons c inp ih =>
      unfold copyLoop
      by_cases hc : c = stop
      · simp [hc]
      · by_cases hgood : good c = false
        · simpa [hc, hgood] using hbad
        · by_cases hlen : n ≤ buf.length
          · simpa [hc, hgood, hlen] using hlong
          · simpa [hc, hgood, hlen] using ih

theorem parseRegionArg_ne_error {e : EmuFault} (h : ∀ msg, EmuFault.fail msg ≠ e) {spec : EvSpec}
    {inp : Name} : parseRegionArg spec inp ≠ .error e := by
  refine guard_ne_error (h _) (bind_ne_error ?_ fun q _ => guard_ne_error (h _) ?_)
  · exact guard_ne_error (h _) (guard_ne_error (h _) (copyLoop_ne_error (h _) (h _) (h _)))
  · cases evSpecFindArg spec q.1 with
    | none =>
        rintro ⟨⟩
        exact h _ rfl
    | some arg => simp [pure, Except.pure]

theorem parseRegion_ne_error {e : EmuFault} (h : ∀ msg, EmuFault.fail msg ≠ e) {spec : EvSpec}
    {inp : Name} : parseRegion spec inp ≠ .error e := by
  unfold parseRegion
  by_cases hbrace : inp.head? = some 123
  · rw [if_pos hbrace]
    exact bind_ne_error (parseRegionArg_ne_error h) fun q _ => by simp [pure, Except.pure]
  · rw [if_neg hbrace]
    refine bind_ne_error ?_ fun q _ => bind_ne_error (parseRegionArg_ne_error h) fun r _ => ?_
    · exact guard_ne_error (h _) (guard_ne_error (h _) (copyLoop_ne_error (h _) (h _) (h _)))
    · simp [pure, Except.pure]

/-- The parser says why it fails. -/
theorem parseRegion_error {spec : EvSpec} {inp : Name} {e : EmuFault}
    (h : parseRegion spec inp = .error e) : ∃ msg, e = .fail msg := by
  by_contra hne
  exact parseRegion_ne_error (fun msg heq => hne ⟨msg, heq.symm⟩) h

/-! ## The first piece -/

/-- The first piece of a description and what is left of it. -/
def nextPiece (spec : EvSpec) (inp : Name) : Option (Piece × Name) :=
  match inp with
  | [] => none
  | c :: inp =>
      if c ≠ 37 then some (.lit c, inp)
      else if inp.head? = some 37 then some (.percent, inp.tail)
      else match parseRegion spec inp with
        | .error _ => none
        | .ok (fmt, arg, rest) => some (.region fmt arg, rest)

theorem nextPiece_iff {spec : EvSpec} {inp rest : Name} {P : Piece} :
    nextPiece spec inp = some (P, rest) ↔ P.Ok spec ∧ inp = P.text ++ rest := by
  constructor
  · intro h
    unfold nextPiece at h
    cases inp with
    | nil => cases h
    | cons c inp =>
        simp only at h
        by_cases hc : c = 37
        · rw [if_neg (not_not.mpr hc)] at h
          by_cases hhead : inp.head? = some 37
          · rw [if_pos hhead] at h
            obtain ⟨tail, rfl⟩ := List.head?_eq_some_iff.mp hhead
            cases h
            exact ⟨.percent, by rw [hc]; rfl⟩
          · rw [if_neg hhead] at h
            cases hregion : parseRegion spec inp with
            | error e => simp [hregion] at h
            | ok q =>
                obtain ⟨fmt, arg, left⟩ := q
                simp only [hregion] at h
                cases h
                rw [hc]
                exact (parseRegion_ok hhead).mp hregion
        · rw [if_pos hc] at h
          cases h
          exact ⟨.lit hc, rfl⟩
  · rintro ⟨hok, rfl⟩
    have hregion : ∀ {fmt arg}, (Piece.region fmt arg).Ok spec → ∀ inp : Name,
        (Piece.region fmt arg).text ++ rest = 37 :: inp → inp.head? ≠ some 37 →
        nextPiece spec ((Piece.region fmt arg).text ++ rest) =
          some (Piece.region fmt arg, rest) := by
      intro fmt arg hok inp htext hhead
      rw [htext]
      unfold nextPiece
      simp only [ne_eq, not_true, if_false, hhead,
        (parseRegion_ok hhead).mpr ⟨hok, htext.symm⟩]
    cases hok with
    | lit hc =>
        unfold nextPiece
        simp [Piece.text, hc]
    | percent => rfl
    | @plain arg harg hname =>
        refine hregion (.plain harg hname)
          (ascii "\x7b" ++ (arg.name ++ (ascii "\x7d" ++ rest))) ?_ ?_
        · simp [Piece.text, ascii_percent]
        · rw [ascii_brace]
          simp
    | @custom body arg hne hlen hbrace hhead harg hname =>
        refine hregion (.custom hne hlen hbrace hhead harg hname)
          (body ++ (ascii "\x7b" ++ (arg.name ++ (ascii "\x7d" ++ rest)))) ?_ ?_
        · simp [Piece.text, ascii_percent]
        · rw [List.head?_append_of_ne_nil _ hne]
          exact hhead

theorem Piece.Ok.text_ne_nil {spec : EvSpec} {P : Piece} (h : P.Ok spec) : P.text ≠ [] := by
  cases h with
  | lit => simp [Piece.text]
  | percent => simp [Piece.text, ascii]
  | plain => simp [Piece.text, ascii_percent]
  | custom => simp [Piece.text, ascii_percent]

end Ovni
