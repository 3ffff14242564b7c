import Ovni.Lib.Except
import Ovni.Version.Model

/-!
# The versions that are accepted

A version should be three numbers with dots between them, and a suffix after a dash.
`strtok_r` also skips separators that are repeated, and stops the last number at a dot as
well; `strtol` also takes spaces and a sign, and what it returns is cut to an `int`.  A
text is read in one way at most, and the version is the one meant exactly when that
reading is plain.
-/

namespace Ovni

open Ovni.Lib

/-! ## Numbers -/

/-- The parts of a number that `strtol` reads. -/
structure NumberText where
  space : Name
  sign : Name
  digits : Name

namespace NumberText

def text (t : NumberText) : Name := t.space ++ (t.sign ++ t.digits)

def value (t : NumberText) : Int :=
  if t.sign = ascii "-" then -(decimal t.digits : Int) else decimal t.digits

/-- `strtol` reads the number, which is in the range of a `long`. -/
structure Ok (t : NumberText) : Prop where
  space : ∀ c ∈ t.space, isspace c = true
  sign : t.sign = [] ∨ t.sign = ascii "-" ∨ t.sign = ascii "+"
  digits : ∀ c ∈ t.digits, isdigit c = true
  ne_nil : t.digits ≠ []
  range : -2 ^ 63 ≤ t.value ∧ t.value < 2 ^ 63

/-- The number is its digits, and an `int`. -/
structure Plain (t : NumberText) : Prop where
  space : t.space = []
  sign : t.sign = []
  value : t.value < 2 ^ 31

end NumberText

theorem isdigit_iff {c : Fin 256} : isdigit c = true ↔ 48 ≤ c.val ∧ c.val ≤ 57 := by
  unfold isdigit
  rw [decide_eq_true_eq]
  rfl

theorem digit_not_space {c : Fin 256} (h : isdigit c = true) : isspace c = false := by
  rw [isdigit_iff] at h
  unfold isspace
  rw [decide_eq_false_iff_not, not_or, not_and]
  simp only [Fin.le_def, Fin.ext_iff]
  change ¬ c.val = 32 ∧ (9 ≤ c.val → ¬ c.val ≤ 13)
  omega

/-- What follows the spaces of a number. -/
theorem NumberText.Ok.cut_space {t : NumberText} (h : t.Ok) (rest : Name) :
    Cut isspace (t.text ++ rest) t.space (t.sign ++ (t.digits ++ rest)) := by
  obtain ⟨d, ds, hdigits⟩ := List.exists_cons_of_ne_nil h.ne_nil
  refine ⟨by simp [NumberText.text], h.space, ?_⟩
  intro c hc
  rcases h.sign with hs | hs | hs
  · rw [hs, hdigits] at hc
    have hd := h.digits d (by simp [hdigits])
    obtain rfl : d = c := by simpa using hc
    exact digit_not_space hd
  · rw [hs] at hc
    obtain rfl : (45 : Fin 256) = c := by simpa [ascii] using hc
    rfl
  · rw [hs] at hc
    obtain rfl : (43 : Fin 256) = c := by simpa [ascii] using hc
    rfl

/-- The text after the spaces is cut after the sign. -/
inductive SignCut : Name → Name → Prop where
  | none {body : Name} (hminus : body.head? ≠ some 45) (hplus : body.head? ≠ some 43) :
      SignCut [] body
  | minus {body : Name} : SignCut (ascii "-") body
  | plus {body : Name} : SignCut (ascii "+") body

theorem signCut_exists (s : Name) : ∃ sign body, s = sign ++ body ∧ SignCut sign body := by
  by_cases hminus : s.head? = some 45
  · obtain ⟨body, rfl⟩ := List.head?_eq_some_iff.mp hminus
    exact ⟨ascii "-", body, rfl, .minus⟩
  · by_cases hplus : s.head? = some 43
    · obtain ⟨body, rfl⟩ := List.head?_eq_some_iff.mp hplus
      exact ⟨ascii "+", body, rfl, .plus⟩
    · exact ⟨[], s, rfl, .none hminus hplus⟩

theorem SignCut.sign {sign body : Name} (h : SignCut sign body) :
    sign = [] ∨ sign = ascii "-" ∨ sign = ascii "+" := by
  cases h with
  | none => exact .inl rfl
  | minus => exact .inr (.inl rfl)
  | plus => exact .inr (.inr rfl)

theorem NumberText.Ok.signCut {t : NumberText} (h : t.Ok) (rest : Name) :
    SignCut t.sign (t.digits ++ rest) := by
  obtain ⟨d, ds, hdigits⟩ := List.exists_cons_of_ne_nil h.ne_nil
  rcases h.sign with hs | hs | hs
  · have hd := isdigit_iff.mp (h.digits d (by simp [hdigits]))
    rw [hs, hdigits]
    constructor
    · rintro ⟨⟩
      exact absurd hd (by decide)
    · rintro ⟨⟩
      exact absurd hd (by decide)
  · rw [hs]
    exact .minus
  · rw [hs]
    exact .plus

/-- What `strtol` does with the parts of a text. -/
theorem strtoll_parts {str space sign digits rest : Name}
    (hspace : Cut isspace str space (sign ++ (digits ++ rest)))
    (hsign : SignCut sign (digits ++ rest)) (hdigits : Cut isdigit (digits ++ rest) digits rest) :
    strtoll str =
      if digits = [] ∨ (NumberText.mk space sign digits).value < -2 ^ 63 ∨
          2 ^ 63 ≤ (NumberText.mk space sign digits).value then none
      else some ((NumberText.mk space sign digits).value, rest) := by
  unfold strtoll
  rw [hspace.dropWhile]
  generalize hbody : digits ++ rest = body at hsign hdigits
  cases hsign with
  | none hminus hplus =>
      simp only [List.nil_append, hminus, hplus, or_self, if_false, hdigits.takeWhile,
        hdigits.dropWhile, NumberText.value]
      rfl
  | minus =>
      have hhead : (ascii "-" ++ body).head? = some 45 := rfl
      have htail : (ascii "-" ++ body).tail = body := rfl
      simp only [hhead, htail, true_or, if_true, hdigits.takeWhile, hdigits.dropWhile,
        NumberText.value]
  | plus =>
      have hhead : (ascii "+" ++ body).head? = some 43 := rfl
      have htail : (ascii "+" ++ body).tail = body := rfl
      have hne : ¬ (some (43 : Fin 256) = some 45) := by decide
      have hsign : ¬ ascii "+" = ascii "-" := by decide
      simp only [hhead, htail, hne, hsign, or_true, if_true, if_false,
        hdigits.takeWhile, hdigits.dropWhile, NumberText.value]

theorem strtoll_of {t : NumberText} (h : t.Ok) {rest : Name}
    (hrest : ∀ c ∈ rest.head?, isdigit c = false) :
    strtoll (t.text ++ rest) = some (t.value, rest) := by
  rw [strtoll_parts (h.cut_space rest) (h.signCut rest) ⟨rfl, h.digits, hrest⟩]
  apply if_neg
  rintro (hnil | hlow | hhigh)
  · exact h.ne_nil hnil
  · exact absurd h.range.1 (not_le.mpr hlow)
  · exact absurd h.range.2 (not_lt.mpr hhigh)

theorem strtoll_some {str rest : Name} {n : Int} (h : strtoll str = some (n, rest)) :
    ∃ t : NumberText, t.Ok ∧ str = t.text ++ rest ∧ n = t.value := by
  have hspace := cut_while isspace str
  obtain ⟨sign, body, hbody, hsign⟩ := signCut_exists (str.dropWhile isspace)
  obtain ⟨digits, tail, hdigits⟩ : ∃ a b, Cut isdigit body a b := ⟨_, _, cut_while isdigit body⟩
  rw [hdigits.text] at hbody hsign
  rw [hbody] at hspace
  rw [strtoll_parts hspace hsign (hdigits.text ▸ hdigits)] at h
  split at h
  · cases h
  · rename_i hok
    rw [not_or, not_or, not_lt, not_le] at hok
    obtain ⟨rfl, rfl⟩ : _ ∧ tail = rest := by simpa using h
    refine ⟨⟨_, _, _⟩, ⟨hspace.all, hsign.sign, hdigits.all, hok.1, hok.2⟩, ?_, rfl⟩
    exact hspace.text.trans (by simp [NumberText.text])

theorem SignCut.unique {sign body sign' body' : Name} (h : SignCut sign body)
    (h' : SignCut sign' body') (heq : sign ++ body = sign' ++ body') :
    sign = sign' ∧ body = body' := by
  have hsign : sign = sign' := by
    cases h with
    | none hminus hplus =>
        cases h' with
        | none => rfl
        | minus => exact absurd (congrArg List.head? heq) hminus
        | plus => exact absurd (congrArg List.head? heq) hplus
    | minus =>
        cases h' with
        | none hminus _ => exact absurd (congrArg List.head? heq).symm hminus
        | minus => rfl
        | plus => exact absurd (congrArg List.head? heq) (by simp [ascii])
    | plus =>
        cases h' with
        | none _ hplus => exact absurd (congrArg List.head? heq).symm hplus
        | minus => exact absurd (congrArg List.head? heq) (by simp [ascii])
        | plus => rfl
  rw [hsign] at heq
  exact ⟨hsign, List.append_cancel_left heq⟩

theorem NumberText.Ok.unique {t u : NumberText} (ht : t.Ok) (hu : u.Ok) (h : t.text = u.text) :
    t = u := by
  obtain ⟨hspace, hrest⟩ := (ht.cut_space []).unique (h ▸ hu.cut_space [])
  obtain ⟨hsign, hdigits⟩ := (ht.signCut []).unique (hu.signCut []) hrest
  rw [List.append_nil, List.append_nil] at hdigits
  cases t
  cases u
  simp only [NumberText.mk.injEq]
  exact ⟨hspace, hsign, hdigits⟩

theorem versionNumber_ok {which : String} {num : Name} {v : Int} :
    versionNumber which num = .ok v ↔
      ∃ t : NumberText, t.Ok ∧ t.text = num ∧ 0 ≤ toInt32 t.value ∧ v = toInt32 t.value := by
  unfold versionNumber
  constructor
  · intro h
    cases hnum : strtoll num with
    | none => simp [hnum] at h
    | some r =>
        obtain ⟨n, rest⟩ := r
        simp only [hnum] at h
        split at h
        · cases h
        · rename_i hrest
          split at h
          · cases h
          · rename_i hneg
            obtain ⟨t, ht, htext, hvalue⟩ := strtoll_some hnum
            rw [not_not.mp hrest, List.append_nil] at htext
            cases h
            exact ⟨t, ht, htext.symm, hvalue ▸ not_lt.mp hneg, by rw [hvalue]⟩
  · rintro ⟨t, ht, rfl, hpos, rfl⟩
    have hnum : strtoll (t.text ++ []) = some (t.value, []) := strtoll_of ht (by simp)
    rw [List.append_nil] at hnum
    simp only [hnum, ne_eq, not_true, if_false, not_lt.mpr hpos]

theorem forall_fin_three {P : Fin 3 → Prop} (h₀ : P 0) (h₁ : P 1) (h₂ : P 2) : ∀ i, P i :=
  Fin.cases h₀ (Fin.cases h₁ (Fin.cases h₂ fun i => i.elim0))

theorem funext_fin_three {α : Type} {f g : Fin 3 → α} (h₀ : f 0 = g 0) (h₁ : f 1 = g 1)
    (h₂ : f 2 = g 2) : f = g :=
  funext (forall_fin_three h₀ h₁ h₂)

/-! ## Readings -/

/-- The parts of a text that is read as a version: the separators before each number, the
number, and what is left from the separator after it. -/
structure VersionText where
  lead : Fin 3 → Name
  num : Fin 3 → NumberText
  rest : Fin 3 → Name

namespace VersionText

/-- The text is read in these parts. -/
structure Reads (v : VersionText) (s : Name) : Prop where
  major : Token (fun c => decide (c ∈ versionDelim 0)) s (v.lead 0) (v.num 0).text (v.rest 0)
  minor : Token (fun c => decide (c ∈ versionDelim 1)) (v.rest 0).tail (v.lead 1)
    (v.num 1).text (v.rest 1)
  patch : Token (fun c => decide (c ∈ versionDelim 2)) (v.rest 1).tail (v.lead 2)
    (v.num 2).text (v.rest 2)
  number : ∀ i, (v.num i).Ok
  fits : ∀ i, 0 ≤ toInt32 (v.num i).value

/-- No separator is repeated, the numbers are plain, and only a dash ends the patch. -/
structure Plain (v : VersionText) : Prop where
  lead : ∀ i, v.lead i = []
  number : ∀ i, (v.num i).Plain
  suffix : ∀ c ∈ (v.rest 2).head?, c = 45

def tuple (v : VersionText) (i : Fin 3) : Int := toInt32 (v.num i).value

end VersionText

theorem versionTurn_ok {r r' : Name × (Fin 3 → Int)} {i : Fin 3} :
    versionTurn r i = .ok r' ↔
      ∃ lead t rest, Token (fun c => decide (c ∈ versionDelim i)) r.1 lead
          (NumberText.text t) rest ∧ t.Ok ∧ 0 ≤ toInt32 t.value ∧
        r' = (rest.tail, Function.update r.2 i (toInt32 t.value)) := by
  unfold versionTurn
  constructor
  · intro h
    cases htok : strtok (fun c => decide (c ∈ versionDelim i)) r.1 with
    | none => simp [htok] at h
    | some q =>
        obtain ⟨num, tail⟩ := q
        simp only [htok] at h
        obtain ⟨v, hv, h⟩ := bind_ok h
        cases h
        obtain ⟨lead, rest, htoken, rfl⟩ := strtok_some htok
        obtain ⟨t, ht, rfl, hpos, rfl⟩ := versionNumber_ok.mp hv
        exact ⟨lead, t, rest, htoken, ht, hpos, rfl⟩
  · rintro ⟨lead, t, rest, htoken, ht, hpos, rfl⟩
    have hv : versionNumber (versionWhich i) t.text = .ok (toInt32 t.value) :=
      versionNumber_ok.mpr ⟨t, ht, rfl, hpos, rfl⟩
    simp only [htoken.strtok, hv]
    rfl

/-- The versions that are accepted are the texts that can be read. -/
theorem versionParse_ok {s : Name} (hlen : s.length < 64) {tuple t : Fin 3 → Int} :
    versionParse (some s) tuple = .ok t ↔ ∃ v : VersionText, v.Reads s ∧ t = v.tuple := by
  have hturns : List.finRange 3 = [0, 1, 2] := by decide
  have htuple : ∀ a b c : Int, Function.update (Function.update (Function.update tuple 0 a) 1 b)
      2 c = ![a, b, c] := by
    intro a b c
    exact funext_fin_three (by simp) (by simp) (by simp)
  unfold versionParse
  simp only [not_le.mpr hlen, if_false, hturns, List.foldlM_cons, List.foldlM_nil]
  constructor
  · intro h
    obtain ⟨r, hr, h⟩ := bind_ok h
    obtain ⟨r₀, h₀, hr⟩ := bind_ok hr
    obtain ⟨r₁, h₁, hr⟩ := bind_ok hr
    obtain ⟨r₂, h₂, hr⟩ := bind_ok hr
    obtain ⟨lead₀, t₀, rest₀, htok₀, ht₀, hpos₀, rfl⟩ := versionTurn_ok.mp h₀
    obtain ⟨lead₁, t₁, rest₁, htok₁, ht₁, hpos₁, rfl⟩ := versionTurn_ok.mp h₁
    obtain ⟨lead₂, t₂, rest₂, htok₂, ht₂, hpos₂, rfl⟩ := versionTurn_ok.mp h₂
    cases hr
    cases h
    refine ⟨⟨![lead₀, lead₁, lead₂], ![t₀, t₁, t₂], ![rest₀, rest₁, rest₂]⟩,
      ⟨htok₀, htok₁, htok₂, forall_fin_three ht₀ ht₁ ht₂, forall_fin_three hpos₀ hpos₁ hpos₂⟩, ?_⟩
    rw [htuple]
    exact funext_fin_three rfl rfl rfl
  · rintro ⟨v, hv, rfl⟩
    have h₀ : versionTurn (s, tuple) 0 = .ok _ :=
      versionTurn_ok.mpr ⟨_, _, _, hv.major, hv.number 0, hv.fits 0, rfl⟩
    have h₁ : ∀ tuple, versionTurn ((v.rest 0).tail, tuple) 1 = .ok _ := fun tuple =>
      versionTurn_ok.mpr ⟨_, _, _, hv.minor, hv.number 1, hv.fits 1, rfl⟩
    have h₂ : ∀ tuple, versionTurn ((v.rest 1).tail, tuple) 2 = .ok _ := fun tuple =>
      versionTurn_ok.mpr ⟨_, _, _, hv.patch, hv.number 2, hv.fits 2, rfl⟩
    rw [h₀, ok_bind, h₁, ok_bind, h₂, ok_bind]
    have hv' : v.tuple = ![v.tuple 0, v.tuple 1, v.tuple 2] :=
      funext_fin_three rfl rfl rfl
    rw [hv', ← htuple]
    rfl

theorem VersionText.Reads.unique {v w : VersionText} {s : Name} (hv : v.Reads s)
    (hw : w.Reads s) : v = w := by
  obtain ⟨hl₀, ht₀, hr₀⟩ := hv.major.unique hw.major
  obtain ⟨hl₁, ht₁, hr₁⟩ := hv.minor.unique (hr₀ ▸ hw.minor)
  obtain ⟨hl₂, ht₂, hr₂⟩ := hv.patch.unique (hr₁ ▸ hw.patch)
  cases v
  cases w
  simp only [VersionText.mk.injEq]
  refine ⟨funext_fin_three hl₀ hl₁ hl₂, funext_fin_three ?_ ?_ ?_,
    funext_fin_three hr₀ hr₁ hr₂⟩
  · exact (hv.number 0).unique (hw.number 0) ht₀
  · exact (hv.number 1).unique (hw.number 1) ht₁
  · exact (hv.number 2).unique (hw.number 2) ht₂

/-! ## The form of a version -/

/-- The text is `A.B.C` or `A.B.C-suffix`, with these three numbers. -/
def IsVersion (s : Name) (t : Fin 3 → Int) : Prop :=
  ∃ (digits : Fin 3 → Name) (suffix : Name),
    s = digits 0 ++ (ascii "." ++ (digits 1 ++ (ascii "." ++ (digits 2 ++ suffix)))) ∧
    (∀ i, digits i ≠ [] ∧ (∀ c ∈ digits i, isdigit c = true) ∧ decimal (digits i) < 2 ^ 31 ∧
      t i = decimal (digits i)) ∧
    ∀ c ∈ suffix.head?, c = 45

theorem digit_not_delim {c : Fin 256} (h : isdigit c = true) (i : Fin 3) :
    decide (c ∈ versionDelim i) = false := by
  have hne : c ≠ 46 ∧ c ≠ 45 := by
    constructor
    · rintro rfl
      exact absurd h (by decide)
    · rintro rfl
      exact absurd h (by decide)
  rw [decide_eq_false_iff_not]
  revert i
  refine forall_fin_three ?_ ?_ ?_
  · simpa [versionDelim, ascii] using hne.1
  · simpa [versionDelim, ascii] using hne.1
  · simpa [versionDelim, ascii] using hne

/-- Digits are a plain number. -/
theorem digits_ok {digits : Name} (hne : digits ≠ []) (hall : ∀ c ∈ digits, isdigit c = true)
    (hlt : decimal digits < 2 ^ 31) :
    (NumberText.mk [] [] digits).Ok ∧ toInt32 (NumberText.mk [] [] digits).value = decimal digits ∧
      (NumberText.mk [] [] digits).value = decimal digits := by
  have hvalue : (NumberText.mk [] [] digits).value = decimal digits := rfl
  rw [hvalue, toInt32_of_range (by omega) (by omega)]
  exact ⟨⟨by simp, .inl rfl, hall, hne, by rw [hvalue]; omega⟩, rfl, rfl⟩

theorem NumberText.Plain.text_eq {t : NumberText} (h : t.Plain) : t.text = t.digits := by
  simp [NumberText.text, h.space, h.sign]

theorem NumberText.Plain.value_eq {t : NumberText} (h : t.Plain) : t.value = decimal t.digits := by
  have hsign : ¬ t.sign = ascii "-" := by
    rw [h.sign]
    decide
  simp [NumberText.value, hsign]

theorem isVersion_iff {s : Name} {t : Fin 3 → Int} :
    IsVersion s t ↔ ∃ v : VersionText, v.Reads s ∧ v.Plain ∧ t = v.tuple := by
  constructor
  · rintro ⟨digits, suffix, rfl, hdigits, hsuffix⟩
    have hok := fun i => digits_ok (hdigits i).1 (hdigits i).2.1 (hdigits i).2.2.1
    have htoken : ∀ (i : Fin 3) (rest : Name), (∀ c ∈ rest.head?, c ∈ versionDelim i) →
        Token (fun c => decide (c ∈ versionDelim i)) (digits i ++ rest) [] (digits i) rest := by
      intro i rest hrest
      refine token_word (hdigits i).1 ?_ ?_
      · exact fun c hc => digit_not_delim ((hdigits i).2.1 c hc) i
      · exact fun c hc => decide_eq_true (hrest c hc)
    let v : VersionText := ⟨fun _ => [], fun i => ⟨[], [], digits i⟩,
      ![ascii "." ++ (digits 1 ++ (ascii "." ++ (digits 2 ++ suffix))),
        ascii "." ++ (digits 2 ++ suffix), suffix]⟩
    refine ⟨v, ⟨htoken 0 _ ?_, htoken 1 _ ?_, htoken 2 _ ?_, fun i => (hok i).1, ?_⟩,
      ⟨fun _ => rfl, fun i => ⟨rfl, rfl, ?_⟩, hsuffix⟩, ?_⟩
    · simp [ascii, versionDelim]
    · simp [ascii, versionDelim]
    · intro c hc
      rw [hsuffix c hc]
      decide
    · intro i
      rw [(hok i).2.1]
      omega
    · rw [(hok i).2.2]
      exact_mod_cast (hdigits i).2.2.1
    · funext i
      rw [VersionText.tuple, (hok i).2.1, (hdigits i).2.2.2]
  · rintro ⟨v, hv, hplain, rfl⟩
    obtain ⟨c₀, hc₀, hrest₀⟩ := hv.major.rest_eq hv.minor
    obtain ⟨c₁, hc₁, hrest₁⟩ := hv.minor.rest_eq hv.patch
    have htext := fun i => (hplain.number i).text_eq
    refine ⟨fun i => (v.num i).digits, v.rest 2, ?_, ?_, hplain.suffix⟩
    · have hs := hv.major.skip.text
      have htail₀ := hv.minor.skip.text
      have htail₁ := hv.patch.skip.text
      rw [hplain.lead, htext, List.nil_append] at hs htail₀ htail₁
      obtain rfl : c₀ = 46 := by simpa [versionDelim, ascii] using hc₀
      obtain rfl : c₁ = 46 := by simpa [versionDelim, ascii] using hc₁
      rw [hs, hrest₀, htail₀, hrest₁, htail₁]
      rfl
    · intro i
      have hok := hv.number i
      have hvalue := (hplain.number i).value_eq
      have hlt := (hplain.number i).value
      have hrange : decimal (v.num i).digits < 2 ^ 31 := by omega
      refine ⟨hok.ne_nil, hok.digits, hrange, ?_⟩
      rw [VersionText.tuple, hvalue, toInt32_of_range (by omega) (by omega)]

/-! ## What is asked of the versions -/

/-- The text is accepted when it is a version, the numbers are the ones of the version, and
these are compared when a thread requires a model. -/
structure VersionOk (s : Name) : Prop where
  accepts : ∀ tuple, (∃ t, versionParse (some s) tuple = .ok t) ↔ ∃ t, IsVersion s t
  values : ∀ tuple t, IsVersion s t → versionParse (some s) tuple = .ok t
  compares : ∀ offered name require t, IsVersion s t → require name = some s →
    shouldEnable offered name (some ⟨some require⟩) =
      if t 0 = offered 0 ∧ t 1 ≤ offered 1 then .ok true
      else .error (.fail "unsupported model version")

theorem shouldEnable_of_parse {s name : Name} {offered t : Fin 3 → Int}
    {require : Name → Option Name} (hname : require name = some s)
    (hparse : versionParse (some s) (fun _ => 0) = .ok t) :
    shouldEnable offered name (some ⟨some require⟩) =
      if t 0 = offered 0 ∧ t 1 ≤ offered 1 then .ok true
      else .error (.fail "unsupported model version") := by
  have hcompat : versionIsCompatible t offered = decide (t 0 = offered 0 ∧ t 1 ≤ offered 1) := by
    unfold versionIsCompatible
    by_cases hmajor : t 0 = offered 0
    · by_cases hminor : t 1 ≤ offered 1
      · simp [hmajor, hminor]
      · simp [hmajor, hminor, not_le.mp hminor]
    · simp [hmajor]
  unfold shouldEnable
  simp only [hname, hparse, ok_bind, hcompat]
  by_cases h : t 0 = offered 0 ∧ t 1 ≤ offered 1
  · simp only [h, and_self, decide_true, Bool.true_eq_false, if_false, if_true]
    rfl
  · simp only [h, decide_false, if_false, if_true]
    rfl

theorem enable_fold {offered : Fin 3 → Int} {name : Name} {threads : List (Option ThreadMeta)}
    {start enable : Bool}
    (h : threads.foldlM (fun enable t => do
      let ret ← shouldEnable offered name t
      return enable || ret) start = .ok enable) :
    (∀ t ∈ threads, ∃ ret, shouldEnable offered name t = .ok ret) ∧
      (enable = true ↔ start = true ∨ ∃ t ∈ threads, shouldEnable offered name t = .ok true) := by
  induction threads generalizing start with
  | nil =>
      cases h
      simp
  | cons t threads ih =>
      obtain ⟨next, ht, h⟩ := bind_ok (by rw [List.foldlM_cons] at h; exact h)
      obtain ⟨ret, hret, ht⟩ := bind_ok ht
      cases ht
      obtain ⟨hall, hiff⟩ := ih h
      refine ⟨List.forall_mem_cons.mpr ⟨⟨ret, hret⟩, hall⟩, ?_⟩
      rw [hiff]
      simp only [List.mem_cons, or_and_right, exists_or, exists_eq_left, hret, Bool.or_eq_true,
        or_assoc, Except.ok.injEq]

/-- A model is enabled when a thread requires it, and every thread that does requires a
version that is compatible. -/
theorem modelVersionProbe_ok {name version : Name} {threads : List (Option ThreadMeta)}
    {enable : Bool} (h : modelVersionProbe name version threads = .ok enable) :
    ∃ offered, versionParse (some version) (fun _ => 0) = .ok offered ∧
      (∀ t ∈ threads, ∃ ret, shouldEnable offered name t = .ok ret) ∧
      (enable = true ↔ ∃ t ∈ threads, shouldEnable offered name t = .ok true) := by
  obtain ⟨offered, hoffered, h⟩ := bind_ok h
  obtain ⟨-, h⟩ := guard_ok h
  obtain ⟨hall, hiff⟩ := enable_fold h
  exact ⟨offered, hoffered, hall, by simpa using hiff⟩

/-- A text is treated as it should be exactly when it has no reading that is not plain. -/
theorem version_parse_iff (s : Name) (hlen : s.length < 64) :
    VersionOk s ↔ ∀ v : VersionText, v.Reads s → v.Plain := by
  constructor
  · intro h v hv
    obtain ⟨t, ht⟩ := (h.accepts fun _ => 0).mp ⟨_, (versionParse_ok hlen).mpr ⟨v, hv, rfl⟩⟩
    obtain ⟨w, hw, hplain, -⟩ := isVersion_iff.mp ht
    rw [hv.unique hw]
    exact hplain
  · intro h
    have hvalues : ∀ tuple t, IsVersion s t → versionParse (some s) tuple = .ok t := by
      intro tuple t ht
      obtain ⟨v, hv, -, rfl⟩ := isVersion_iff.mp ht
      exact (versionParse_ok hlen).mpr ⟨v, hv, rfl⟩
    refine ⟨fun tuple => ⟨?_, ?_⟩, hvalues, ?_⟩
    · rintro ⟨t, ht⟩
      obtain ⟨v, hv, rfl⟩ := (versionParse_ok hlen).mp ht
      exact ⟨_, isVersion_iff.mpr ⟨v, hv, h v hv, rfl⟩⟩
    · rintro ⟨t, ht⟩
      exact ⟨t, hvalues tuple t ht⟩
    · intro offered name require t ht hname
      exact shouldEnable_of_parse hname (hvalues _ t ht)

/-- The reading of `4294967297.0.0`. -/
def wrappedVersion : VersionText where
  lead := ![[], [], []]
  num := ![⟨[], [], ascii "4294967297"⟩, ⟨[], [], ascii "0"⟩, ⟨[], [], ascii "0"⟩]
  rest := ![ascii ".0.0", ascii ".0", []]

theorem wrappedVersion_reads : wrappedVersion.Reads (ascii "4294967297.0.0") where
  major := ⟨⟨by decide +kernel, by decide +kernel, by decide +kernel⟩,
    ⟨by decide +kernel, by decide +kernel, by decide +kernel⟩, by decide +kernel⟩
  minor := ⟨⟨by decide +kernel, by decide +kernel, by decide +kernel⟩,
    ⟨by decide +kernel, by decide +kernel, by decide +kernel⟩, by decide +kernel⟩
  patch := ⟨⟨by decide +kernel, by decide +kernel, by decide +kernel⟩,
    ⟨by decide +kernel, by decide +kernel, by decide +kernel⟩, by decide +kernel⟩
  number i := ⟨by revert i; decide +kernel, by revert i; decide +kernel,
    by revert i; decide +kernel, by revert i; decide +kernel, by revert i; decide +kernel⟩
  fits := by decide +kernel

/-- The major number of `4294967297.0.0` is taken to be one. -/
theorem version_wrapped : (∃ t, versionParse (some (ascii "4294967297.0.0")) (fun _ => 0) = .ok t ∧
      t 0 = 1) ∧ ¬ VersionOk (ascii "4294967297.0.0") := by
  have hparse : versionParse (some (ascii "4294967297.0.0")) (fun _ => 0) =
      .ok wrappedVersion.tuple :=
    (versionParse_ok (by decide)).mpr ⟨wrappedVersion, wrappedVersion_reads, rfl⟩
  refine ⟨⟨_, hparse, by decide +kernel⟩, fun h => ?_⟩
  obtain ⟨t, ht⟩ := (h.accepts fun _ => 0).mp ⟨_, hparse⟩
  obtain ⟨v, hv, hplain, -⟩ := isVersion_iff.mp ht
  rw [hv.unique wrappedVersion_reads] at hplain
  exact absurd (hplain.number 0).value (by decide +kernel)

theorem version_parse_iff_candidate : VersionOk (ascii "1.2.3-rc1") := by
  have hversion : IsVersion (ascii "1.2.3-rc1") ![1, 2, 3] :=
    ⟨![ascii "1", ascii "2", ascii "3"], ascii "-rc1", by decide +kernel, by decide +kernel,
      by decide +kernel⟩
  obtain ⟨w, hw, hplain, -⟩ := isVersion_iff.mp hversion
  apply (version_parse_iff (ascii "1.2.3-rc1") (by decide)).mpr
  intro v hv
  rw [hv.unique hw]
  exact hplain

end Ovni
