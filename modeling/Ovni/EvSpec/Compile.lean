import Mathlib.Data.List.Forall2
import Ovni.EvSpec.Model
import Ovni.Lib.Except

/-!
# The signatures that compile

The grammar of the signatures, and what the parser takes beyond it.  The items between
the parentheses are cut at commas and closing parentheses alike, and the words of an item
at runs of spaces, so that empty items, further words, a missing parenthesis and text
after it go unseen, and names are not looked at.
-/

namespace Ovni

open Ovni.Lib

/-! ## The grammar -/

/-- An argument as it is declared. -/
abbrev ArgDecl := EvArgType × Name

/-- `argument-name`. -/
structure IsArgName (name : Name) : Prop where
  ne_nil : name ≠ []
  alnum : ∀ c ∈ name, isalnum c = true
  length : name.length ≤ 63

/-- The text of `argument-type " " argument-name`. -/
def argText (arg : ArgDecl) : Name := arg.1.name ++ (ascii " " ++ arg.2)

/-- `argument-list`. -/
inductive ArgList : Name → List ArgDecl → Prop where
  | last {arg : ArgDecl} (hname : IsArgName arg.2) : ArgList (argText arg) [arg]
  | more {arg : ArgDecl} {list : Name} {args : List ArgDecl} (hname : IsArgName arg.2)
      (h : ArgList list args) : ArgList (argText arg ++ (ascii ", " ++ list)) (arg :: args)

/-- `event-mcv`. -/
structure IsMcv (mcv : Name) : Prop where
  length : mcv.length = 3
  graph : ∀ c ∈ mcv, isgraph c = true

/-- `event-type`. -/
def typeText (jumbo : Bool) : Name := if jumbo then ascii "+" else []

/-- `event-definition`; a jumbo event must have arguments. -/
inductive EventDefinition : Name → Name → Bool → List ArgDecl → Prop where
  | plain {mcv : Name} (hmcv : IsMcv mcv) : EventDefinition mcv mcv false []
  | args {mcv list : Name} {jumbo : Bool} {args : List ArgDecl} (hmcv : IsMcv mcv)
      (hargs : ArgList list args) (hcount : args.length ≤ maxArgs) :
      EventDefinition (mcv ++ (typeText jumbo ++ (ascii "(" ++ (list ++ ascii ")")))) mcv jumbo args

/-! ## What the parser takes -/

/-- An item is taken as an argument: its first two words. -/
def LooseArg (item : Name) (arg : ArgDecl) : Prop :=
  ∃ more, tokens (fun c => decide (c ∈ wordDelim)) item = arg.1.name :: arg.2 :: more ∧
    arg.2.length ≤ 63

/-- A signature is taken for these parts. -/
inductive LooseSignature : Name → Name → Bool → List ArgDecl → Prop where
  | plain {mcv : Name} (hmcv : IsMcv mcv) : LooseSignature mcv mcv false []
  | args {mcv body : Name} {jumbo : Bool} {args : List ArgDecl} (hmcv : IsMcv mcv)
      (hargs : List.Forall₂ LooseArg (tokens (fun c => decide (c ∈ argDelim)) body) args)
      (hne : args ≠ []) (hcount : args.length ≤ maxArgs) :
      LooseSignature (mcv ++ (typeText jumbo ++ (ascii "(" ++ body))) mcv jumbo args

/-- The arguments in the payload from an offset on. -/
def layout : Nat → List ArgDecl → List EvArg
  | _, [] => []
  | offset, arg :: args =>
      { size := arg.1.size, offset, type := arg.1, name := arg.2 } ::
        layout (offset + arg.1.size) args

/-- The sizes of some arguments together. -/
def argsSize (args : List ArgDecl) : Nat := (args.map fun arg => arg.1.size).sum

/-- The specification has these parts: the arguments in their order, each at the end of
the ones before it. -/
structure HasParts (spec : EvSpec) (mcv : Name) (jumbo : Bool) (args : List ArgDecl) : Prop where
  mcv : spec.mcv = mcv
  isJumbo : spec.isJumbo = jumbo
  length : spec.args.length = args.length
  args : ∀ i (h : i < args.length), ∃ arg, spec.args[i]? = some arg ∧
    arg.type = args[i].1 ∧ arg.name = args[i].2 ∧ arg.size = args[i].1.size ∧
    arg.offset = (if jumbo then 4 else 0) + argsSize (args.take i)

theorem ascii_space : ascii " " = [32] := by decide

theorem ascii_open : ascii "(" = [40] := by decide

theorem ascii_close : ascii ")" = [41] := by decide

theorem ascii_comma : ascii ", " = [44, 32] := by decide

/-! ## Arguments -/

theorem parseType_ok {type : Name} {t : EvArgType} : parseType type = .ok t ↔ type = t.name := by
  unfold parseType
  constructor
  · intro h
    cases hf : EvArgType.all.find? fun t => decide (type = t.name) with
    | none => simp [hf] at h
    | some u =>
        simp only [hf] at h
        cases h
        simpa using List.find?_some hf
  · rintro rfl
    cases t <;> rfl

/-- The specification with one more argument. -/
def EvSpec.addArg (spec : EvSpec) (arg : ArgDecl) : EvSpec :=
  { spec with
    args := spec.args ++
      [{ size := arg.1.size, offset := spec.payloadSize, type := arg.1, name := arg.2 }]
    payloadSize := spec.payloadSize + arg.1.size }

theorem parseArg_ok {spec spec' : EvSpec} {item : Name} :
    parseArg spec item = .ok spec' ↔
      spec.args.length < maxArgs ∧ ∃ arg, LooseArg item arg ∧ spec' = spec.addArg arg := by
  unfold parseArg
  constructor
  · intro h
    obtain ⟨hcount, h⟩ := guard_ok h
    refine ⟨not_le.mp hcount, ?_⟩
    cases htype : strtok (fun c => decide (c ∈ wordDelim)) item with
    | none =>
        simp only [htype] at h
        cases h
    | some q =>
        obtain ⟨type, saveptr⟩ := q
        simp only [htype] at h
        cases hname : strtok (fun c => decide (c ∈ wordDelim)) saveptr with
        | none =>
            simp only [hname] at h
            cases h
        | some q =>
            obtain ⟨name, rest⟩ := q
            simp only [hname] at h
            obtain ⟨hlen, h⟩ := guard_ok h
            obtain ⟨t, ht, h⟩ := bind_ok h
            cases h
            rw [parseType_ok] at ht
            refine ⟨(t, name),
              ⟨tokens (fun c => decide (c ∈ wordDelim)) rest, ?_, by simp only; omega⟩, rfl⟩
            rw [tokens_of_some htype, tokens_of_some hname, ht]
  · rintro ⟨hcount, ⟨t, name⟩, ⟨more, hwords, hlen⟩, rfl⟩
    obtain ⟨saveptr, htype, hwords⟩ := tokens_cons_iff.mp hwords
    obtain ⟨rest, hname, -⟩ := tokens_cons_iff.mp hwords
    have hlen' : ¬ 64 ≤ name.length := by
      simp only at hlen
      omega
    simp only [not_le.mpr hcount, if_false, htype, hname, hlen', parseType_ok.mpr rfl]
    rfl

/-- The loop takes the items one by one. -/
theorem parseArg_fold {spec spec' : EvSpec} {items : List Name}
    (hcount : spec.args.length ≤ maxArgs) :
    items.foldlM parseArg spec = .ok spec' ↔
      ∃ args, List.Forall₂ LooseArg items args ∧ spec.args.length + args.length ≤ maxArgs ∧
        spec' = args.foldl EvSpec.addArg spec := by
  induction items generalizing spec with
  | nil =>
      constructor
      · intro h
        cases h
        exact ⟨[], .nil, hcount, rfl⟩
      · rintro ⟨args, hargs, -, rfl⟩
        cases hargs
        rfl
  | cons item items ih =>
      rw [List.foldlM_cons]
      constructor
      · intro h
        obtain ⟨next, hnext, h⟩ := bind_ok h
        obtain ⟨hlt, arg, harg, rfl⟩ := parseArg_ok.mp hnext
        have hlen : (spec.addArg arg).args.length = spec.args.length + 1 := by simp [EvSpec.addArg]
        obtain ⟨args, hargs, htotal, rfl⟩ := (ih (by omega)).mp h
        exact ⟨arg :: args, .cons harg hargs, by rw [List.length_cons]; omega, rfl⟩
      · rintro ⟨args, hargs, htotal, rfl⟩
        cases hargs with
        | @cons _ arg _ args harg hargs =>
            rw [List.length_cons] at htotal
            have hlen : (spec.addArg arg).args.length = spec.args.length + 1 := by
              simp [EvSpec.addArg]
            rw [parseArg_ok.mpr ⟨by omega, arg, harg, rfl⟩, ok_bind]
            exact (ih (by omega)).mpr ⟨args, hargs, by omega, rfl⟩

theorem addArgs_eq (spec : EvSpec) (args : List ArgDecl) :
    args.foldl EvSpec.addArg spec =
      { spec with
        args := spec.args ++ layout spec.payloadSize args
        payloadSize := spec.payloadSize + argsSize args } := by
  induction args generalizing spec with
  | nil => simp [layout, argsSize]
  | cons arg args ih =>
      rw [List.foldl_cons, ih]
      simp [EvSpec.addArg, layout, argsSize, Nat.add_assoc]


/-! ## Signatures -/

/-- The specification of these parts. -/
def specOf (mcv : Name) (jumbo : Bool) (args : List ArgDecl) (description : Name) : EvSpec :=
  { mcv, isJumbo := jumbo
    args := layout (if jumbo then 4 else 0) args
    payloadSize := (if jumbo then 4 else 0) + argsSize args
    description }

theorem isMcv_iff {mcv : Name} :
    IsMcv mcv ↔ ∃ m c v, mcv = [m, c, v] ∧ isMcvValid m c v = true := by
  constructor
  · intro h
    obtain ⟨m, c, v, rfl⟩ := List.length_eq_three.mp h.length
    refine ⟨m, c, v, rfl, ?_⟩
    unfold isMcvValid
    rw [h.graph m (by simp), h.graph c (by simp), h.graph v (by simp)]
    rfl
  · rintro ⟨m, c, v, rfl, hvalid⟩
    unfold isMcvValid at hvalid
    rw [Bool.and_eq_true, Bool.and_eq_true] at hvalid
    refine ⟨rfl, ?_⟩
    simp only [List.mem_cons, List.not_mem_nil, or_false, forall_eq_or_imp, forall_eq]
    exact ⟨hvalid.1.1, hvalid.1.2, hvalid.2⟩

/-- The specification before the arguments. -/
def startSpec (mcv : Name) (jumbo : Bool) : EvSpec :=
  { mcv, isJumbo := jumbo, args := [], payloadSize := 0, description := [] }

theorem layout_length (offset : Nat) (args : List ArgDecl) :
    (layout offset args).length = args.length := by
  induction args generalizing offset with
  | nil => rfl
  | cons arg args ih => rw [layout, List.length_cons, List.length_cons, ih]

theorem parseArgs_ok {mcv body : Name} {jumbo : Bool} {spec : EvSpec} :
    parseArgs (startSpec mcv jumbo) body = .ok spec ↔
      ∃ args, List.Forall₂ LooseArg (tokens (fun c => decide (c ∈ argDelim)) body) args ∧
        args.length ≤ maxArgs ∧ spec = specOf mcv jumbo args [] := by
  unfold parseArgs
  rw [parseArg_fold (by simp [startSpec])]
  simp only [addArgs_eq, startSpec, List.nil_append, List.length_nil, Nat.zero_add]
  rfl

theorem parseSignatureArgs_ok {mcv next : Name} {jumbo : Bool} {spec : EvSpec} :
    parseSignatureArgs (startSpec mcv jumbo) next = .ok spec ↔
      (next = [] ∧ jumbo = false ∧ spec = startSpec mcv jumbo) ∨
      ∃ body args, next = ascii "(" ++ body ∧
        List.Forall₂ LooseArg (tokens (fun c => decide (c ∈ argDelim)) body) args ∧ args ≠ [] ∧
        args.length ≤ maxArgs ∧ spec = specOf mcv jumbo args [] := by
  have hparen : ∀ body, ascii "(" ++ body = (40 : Fin 256) :: body := fun body => rfl
  cases next with
  | nil =>
      simp only [parseSignatureArgs, hparen, reduceCtorEq, false_and, exists_false, or_false,
        true_and]
      cases jumbo with
      | true =>
          simp only [Bool.true_eq_false, false_and, iff_false]
          intro h
          cases h
      | false =>
          simp only [true_and]
          exact ⟨fun h => by cases h; rfl, fun h => by rw [h]; rfl⟩
  | cons paren body =>
      simp only [parseSignatureArgs, hparen, reduceCtorEq, false_and, false_or, List.cons.injEq]
      constructor
      · intro h
        obtain ⟨heq, h⟩ := guard_ok h
        obtain ⟨next, hargs, h⟩ := bind_ok h
        obtain ⟨args, hitems, hcount, rfl⟩ := parseArgs_ok.mp hargs
        obtain ⟨hne, h⟩ := guard_ok h
        cases h
        refine ⟨body, args, ⟨not_not.mp heq, rfl⟩, hitems, ?_, hcount, rfl⟩
        rintro rfl
        exact hne rfl
      · rintro ⟨body', args, ⟨rfl, rfl⟩, hitems, hne, hcount, rfl⟩
        have hlen : ¬ (specOf mcv jumbo args []).args.length = 0 := by
          simpa only [specOf, layout_length, List.length_eq_zero_iff] using hne
        rw [parseArgs_ok.mpr ⟨args, hitems, hcount, rfl⟩]
        simp only [ne_eq, not_true, if_false, ok_bind, hlen]
        rfl

theorem parseSignature_ok {sig : Name} {spec : EvSpec} :
    parseSignature EvSpec.zero sig = .ok spec ↔
      ∃ mcv jumbo args, LooseSignature sig mcv jumbo args ∧ spec = specOf mcv jumbo args [] := by
  constructor
  · intro h
    obtain ⟨m, c, v, next, rfl⟩ : ∃ m c v next, sig = m :: c :: v :: next := by
      cases sig with
      | nil => cases h
      | cons m sig =>
          cases sig with
          | nil => cases h
          | cons c sig =>
              cases sig with
              | nil => cases h
              | cons v next => exact ⟨m, c, v, next, rfl⟩
    obtain ⟨hvalid, h⟩ := guard_ok h
    have hmcv : IsMcv [m, c, v] := isMcv_iff.mpr ⟨m, c, v, rfl, by simpa using hvalid⟩
    have htaken : ∀ (jumbo : Bool) (rest : Name),
        m :: c :: v :: next = [m, c, v] ++ (typeText jumbo ++ rest) →
        parseSignatureArgs (startSpec [m, c, v] jumbo) rest = .ok spec →
        ∃ mcv jumbo args, LooseSignature (m :: c :: v :: next) mcv jumbo args ∧
          spec = specOf mcv jumbo args [] := by
      intro jumbo rest htext hargs
      obtain ⟨rfl, rfl, rfl⟩ | ⟨body, args, rfl, hitems, hne, hcount, rfl⟩ :=
        parseSignatureArgs_ok.mp hargs
      · rw [htext]
        exact ⟨[m, c, v], false, [], .plain hmcv, rfl⟩
      · rw [htext]
        exact ⟨[m, c, v], jumbo, args, .args hmcv hitems hne hcount, rfl⟩
    by_cases hplus : next.head? = some 43
    · obtain ⟨rest, rfl⟩ := List.head?_eq_some_iff.mp hplus
      exact htaken true rest rfl h
    · simp only [hplus, if_false] at h
      exact htaken false next rfl h
  · rintro ⟨mcv, jumbo, args, hsig, rfl⟩
    have hvalid : ∀ {m c v : Fin 256} {next : Name}, isMcvValid m c v = true →
        parseSignature EvSpec.zero (m :: c :: v :: next) =
          if next.head? = some 43 then
            parseSignatureArgs (startSpec [m, c, v] true) next.tail
          else parseSignatureArgs (startSpec [m, c, v] false) next := by
      intro m c v next hvalid
      simp only [parseSignature, hvalid, Bool.true_eq_false, if_false]
      rfl
    cases hsig with
    | plain hmcv =>
        obtain ⟨m, c, v, rfl, hok⟩ := isMcv_iff.mp hmcv
        rw [hvalid hok]
        rfl
    | @args _ body _ _ hmcv hitems hne hcount =>
        obtain ⟨m, c, v, rfl, hok⟩ := isMcv_iff.mp hmcv
        have hbody : ∀ jumbo, parseSignatureArgs (startSpec [m, c, v] jumbo) (ascii "(" ++ body) =
            .ok (specOf [m, c, v] jumbo args []) := fun jumbo =>
          parseSignatureArgs_ok.mpr (.inr ⟨body, args, rfl, hitems, hne, hcount, rfl⟩)
        rw [List.cons_append, List.cons_append, List.cons_append, hvalid hok]
        cases jumbo with
        | true => exact hbody true
        | false =>
            have hhead : ¬ ([] ++ (typeText false ++ (ascii "(" ++ body))).head? = some 43 := by
              simp [typeText, ascii_open]
            rw [if_neg hhead]
            exact hbody false

/-- The signatures that compile are the ones that the parser takes. -/
theorem evSpecCompile_ok {sig description : Name} (hlen : sig.length ≤ 255) {spec : EvSpec} :
    evSpecCompile ⟨sig, description⟩ = .ok spec ↔
      ∃ mcv jumbo args, LooseSignature sig mcv jumbo args ∧
        spec = specOf mcv jumbo args description := by
  unfold evSpecCompile
  constructor
  · intro h
    obtain ⟨-, h⟩ := guard_ok h
    obtain ⟨next, hnext, h⟩ := bind_ok h
    cases h
    obtain ⟨mcv, jumbo, args, hsig, rfl⟩ := parseSignature_ok.mp hnext
    exact ⟨mcv, jumbo, args, hsig, rfl⟩
  · rintro ⟨mcv, jumbo, args, hsig, rfl⟩
    have hlen' : ¬ 256 ≤ sig.length := by omega
    simp only [hlen', if_false, parseSignature_ok.mpr ⟨mcv, jumbo, args, hsig, rfl⟩]
    rfl

/-! ## The grammar is taken -/

theorem alnum_delim {c : Fin 256} (h : isalnum c = true) :
    decide (c ∈ argDelim) = false ∧ decide (c ∈ wordDelim) = false := by
  have hne : c ≠ 44 ∧ c ≠ 41 ∧ c ≠ 32 := by
    refine ⟨?_, ?_, ?_⟩
    · rintro rfl
      exact absurd h (by decide)
    · rintro rfl
      exact absurd h (by decide)
    · rintro rfl
      exact absurd h (by decide)
  have hargs : argDelim = [44, 41] := by decide
  have hwords : wordDelim = [32] := by decide
  rw [hargs, hwords]
  simp only [List.mem_cons, List.not_mem_nil, hne.1, hne.2.1, hne.2.2, or_self,
    decide_false, and_self]

theorem typeName_delim (t : EvArgType) : ∀ c ∈ t.name,
    decide (c ∈ argDelim) = false ∧ decide (c ∈ wordDelim) = false := by
  cases t <;> decide +kernel

/-- The words of an argument, when it may come after a space. -/
theorem looseArg_text {arg : ArgDecl} (h : IsArgName arg.2) {lead : Name}
    (hlead : lead = [] ∨ lead = ascii " ") : LooseArg (lead ++ argText arg) arg := by
  have hskip : ∀ c ∈ lead, decide (c ∈ wordDelim) = true := by
    rcases hlead with rfl | rfl
    · simp
    · decide +kernel
  have htype : Token (fun c => decide (c ∈ wordDelim)) (lead ++ argText arg) lead arg.1.name
      (ascii " " ++ arg.2) := by
    refine token_mk hskip ?_ (fun c hc => (typeName_delim arg.1 c hc).2) ?_
    · cases arg.1 <;> decide
    · intro c hc
      obtain rfl : (32 : Fin 256) = c := by simpa [ascii_space] using hc
      decide
  have hname : Token (fun c => decide (c ∈ wordDelim)) arg.2 [] arg.2 [] := by
    have htoken : Token (fun c => decide (c ∈ wordDelim)) (arg.2 ++ []) [] arg.2 [] :=
      token_word h.ne_nil (fun c hc => (alnum_delim (h.alnum c hc)).2) (by simp)
    rwa [List.append_nil] at htoken
  refine ⟨[], ?_, h.length⟩
  rw [htype.tokens, show (ascii " " ++ arg.2).tail = arg.2 from rfl, hname.tokens,
    tokens_nil (by simp)]

/-- An argument is one item, up to the separator after it. -/
theorem item_token {arg : ArgDecl} (h : IsArgName arg.2) {lead rest : Name}
    (hlead : lead = [] ∨ lead = ascii " ")
    (hrest : ∀ c ∈ rest.head?, decide (c ∈ argDelim) = true) :
    Token (fun c => decide (c ∈ argDelim)) (lead ++ argText arg ++ rest) []
      (lead ++ argText arg) rest := by
  have hspace : decide ((32 : Fin 256) ∈ argDelim) = false := by decide
  refine token_word ?_ ?_ hrest
  · simp [argText, h.ne_nil]
  · intro c hc
    simp only [argText, List.mem_append] at hc
    rcases hc with hc | hc | hc | hc
    · rcases hlead with rfl | rfl
      · simp at hc
      · obtain rfl : c = 32 := by simpa [ascii_space] using hc
        exact hspace
    · exact (typeName_delim arg.1 c hc).1
    · obtain rfl : c = 32 := by simpa [ascii_space] using hc
      exact hspace
    · exact (alnum_delim (h.alnum c hc)).1

theorem ArgList.items {list : Name} {args : List ArgDecl} (h : ArgList list args) {lead : Name}
    (hlead : lead = [] ∨ lead = ascii " ") :
    List.Forall₂ LooseArg (tokens (fun c => decide (c ∈ argDelim)) (lead ++ (list ++ ascii ")")))
      args := by
  induction h generalizing lead with
  | @last arg hname =>
      have hclose : ∀ c ∈ (ascii ")").head?, decide (c ∈ argDelim) = true := by decide +kernel
      have htoken := item_token hname hlead hclose
      rw [List.append_assoc] at htoken
      rw [htoken.tokens, tokens_nil (by simp [ascii_close])]
      exact .cons (looseArg_text hname hlead) .nil
  | @more arg list args hname h ih =>
      have hcomma : ∀ c ∈ (ascii ", " ++ (list ++ ascii ")")).head?,
          decide (c ∈ argDelim) = true := by
        intro c hc
        obtain rfl : (44 : Fin 256) = c := by simpa [ascii_comma] using hc
        decide
      have htoken := item_token hname hlead hcomma
      have htext : lead ++ (argText arg ++ (ascii ", " ++ list) ++ ascii ")") =
          lead ++ argText arg ++ (ascii ", " ++ (list ++ ascii ")")) := by
        simp only [List.append_assoc]
      rw [htext, htoken.tokens]
      exact .cons (looseArg_text hname hlead) (ih (.inr rfl))

theorem ArgList.ne_nil {list : Name} {args : List ArgDecl} (h : ArgList list args) :
    args ≠ [] := by
  cases h with
  | last => simp
  | more => simp

theorem EventDefinition.loose {sig mcv : Name} {jumbo : Bool} {args : List ArgDecl}
    (h : EventDefinition sig mcv jumbo args) : LooseSignature sig mcv jumbo args := by
  cases h with
  | plain hmcv => exact .plain hmcv
  | args hmcv hargs hcount => exact .args hmcv (hargs.items (.inl rfl)) hargs.ne_nil hcount

/-! ## What is asked of the signatures -/

/-- The signature compiles when it is in the grammar, and then into its parts. -/
structure SignatureOk (sig : Name) : Prop where
  accepts : ∀ description, (∃ spec, evSpecCompile ⟨sig, description⟩ = .ok spec) ↔
    ∃ mcv jumbo args, EventDefinition sig mcv jumbo args
  parts : ∀ description spec mcv jumbo args, EventDefinition sig mcv jumbo args →
    evSpecCompile ⟨sig, description⟩ = .ok spec → HasParts spec mcv jumbo args

theorem layout_getElem (offset : Nat) (args : List ArgDecl) {i : Nat} (h : i < args.length) :
    (layout offset args)[i]? = some
      { size := args[i].1.size, offset := offset + argsSize (args.take i), type := args[i].1,
        name := args[i].2 } := by
  induction args generalizing offset i with
  | nil => simp at h
  | cons arg args ih =>
      cases i with
      | zero => simp [layout, argsSize]
      | succ i =>
          rw [List.length_cons] at h
          rw [layout, List.getElem?_cons_succ, ih _ (by omega)]
          simp [argsSize, Nat.add_assoc]

theorem specOf_parts (mcv : Name) (jumbo : Bool) (args : List ArgDecl) (description : Name) :
    HasParts (specOf mcv jumbo args description) mcv jumbo args :=
  ⟨rfl, rfl, layout_length _ args, fun _ h => ⟨_, layout_getElem _ args h, rfl, rfl, rfl, rfl⟩⟩

/-- A signature is treated as the grammar says exactly when it is in the grammar or the
parser does not take it either. -/
theorem ev_spec_compile_iff (sig : Name) (hlen : sig.length ≤ 255) :
    SignatureOk sig ↔ ((∃ mcv jumbo args, LooseSignature sig mcv jumbo args) →
      ∃ mcv jumbo args, EventDefinition sig mcv jumbo args) := by
  constructor
  · rintro h ⟨mcv, jumbo, args, hloose⟩
    exact (h.accepts []).mp ⟨_, (evSpecCompile_ok hlen).mpr ⟨mcv, jumbo, args, hloose, rfl⟩⟩
  · intro h
    refine ⟨fun description => ⟨?_, ?_⟩, ?_⟩
    · rintro ⟨spec, hspec⟩
      obtain ⟨mcv, jumbo, args, hloose, -⟩ := (evSpecCompile_ok hlen).mp hspec
      exact h ⟨mcv, jumbo, args, hloose⟩
    · rintro ⟨mcv, jumbo, args, hsig⟩
      exact ⟨_, (evSpecCompile_ok hlen).mpr ⟨mcv, jumbo, args, hsig.loose, rfl⟩⟩
    · intro description spec mcv jumbo args hsig hspec
      rw [(evSpecCompile_ok hlen).mpr ⟨mcv, jumbo, args, hsig.loose, rfl⟩] at hspec
      cases hspec
      exact specOf_parts mcv jumbo args description

/-- The parenthesis that is not closed goes unseen. -/
theorem ev_spec_unclosed :
    (∃ spec, evSpecCompile ⟨ascii "OAs(i32 cpu", []⟩ = .ok spec) ∧
      ¬ SignatureOk (ascii "OAs(i32 cpu") := by
  have hcompile : ∃ spec, evSpecCompile ⟨ascii "OAs(i32 cpu", []⟩ = .ok spec := by
    have hok : (evSpecCompile ⟨ascii "OAs(i32 cpu", []⟩).toOption.isSome = true := by
      decide +kernel
    cases h : evSpecCompile ⟨ascii "OAs(i32 cpu", []⟩ with
    | error e => simp [h, Except.toOption] at hok
    | ok spec => exact ⟨spec, rfl⟩
  refine ⟨hcompile, fun h => ?_⟩
  obtain ⟨mcv, jumbo, args, hsig⟩ := (h.accepts []).mp hcompile
  have hlast : (ascii "OAs(i32 cpu").getLast? = some 117 := by decide +kernel
  have hlength : (ascii "OAs(i32 cpu").length = 11 := by decide +kernel
  generalize ascii "OAs(i32 cpu" = sig at hsig hlast hlength
  cases hsig with
  | plain hmcv => exact absurd (hmcv.length.symm.trans hlength) (by decide)
  | args =>
      rw [ascii_close] at hlast
      simp at hlast

/-- A jumbo event with two arguments. -/
theorem ev_spec_compile_iff_type :
    SignatureOk (ascii "VYc+(u32 typeid, str label)") ∧
      EventDefinition (ascii "VYc+(u32 typeid, str label)") (ascii "VYc") true
        [(.u32, ascii "typeid"), (.str, ascii "label")] := by
  have htext : ascii "VYc+(u32 typeid, str label)" = ascii "VYc" ++ (typeText true ++ (ascii "(" ++
      (argText (.u32, ascii "typeid") ++ (ascii ", " ++ argText (.str, ascii "label")) ++
        ascii ")"))) := by
    decide +kernel
  have hsig : EventDefinition (ascii "VYc+(u32 typeid, str label)") (ascii "VYc") true
      [(.u32, ascii "typeid"), (.str, ascii "label")] := by
    rw [htext]
    exact .args ⟨by decide +kernel, by decide +kernel⟩
      (.more ⟨by decide +kernel, by decide +kernel, by decide +kernel⟩
        (.last ⟨by decide +kernel, by decide +kernel, by decide +kernel⟩)) (by decide +kernel)
  refine ⟨(ev_spec_compile_iff _ (by decide +kernel)).mpr fun _ => ⟨_, _, _, hsig⟩, hsig⟩

end Ovni
