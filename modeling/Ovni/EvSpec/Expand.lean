import Ovni.EvSpec.Pieces

/-!
# How a description is printed

Each piece of a description has a text that it expands to, and the cursor goes on while
there is room.  A character needs the room of what it writes, and a region one byte more,
for the nul of `snprintf`.  What a call returns, writes and reads is said for every
description.
-/

namespace Ovni

open Ovni.Lib

/-! ## Expansions -/

/-- The format of a region: the one it has, or the one of the type. -/
def argFmt (p : Printf) (fmt : Option Name) (arg : EvArg) : Name :=
  fmt.getD (typeFmt p arg.type)

/-- The text of an argument, when it is read and its format is valid. -/
def printedArg (p : Printf) (ev : EmuEv) (mapped : Nat) (fmt : Option Name) (arg : EvArg) :
    Option Name :=
  ((readArg p arg (argFmt p fmt arg) ev mapped).run.run []).1.toOption.bind
    (p.text (argFmt p fmt arg))

namespace Piece

/-- The offsets of the payload that a piece reads. -/
def reads (p : Printf) (ev : EmuEv) (mapped : Nat) : Piece → List Nat
  | lit _ => []
  | percent => []
  | region fmt arg => ((readArg p arg (argFmt p fmt arg) ev mapped).run.run []).2

/-- The text that a piece expands to, for the text that each region has, if any. -/
def expand (f : Option Name → EvArg → Option Name) : Piece → Option Name
  | lit c => some [c]
  | percent => some (ascii "%")
  | region fmt arg => f fmt arg

/-- The room that a piece needs for a text of some length. -/
def need : Piece → Nat → Nat
  | region _ _, n => n + 1
  | _, n => n

end Piece

namespace Description

section

variable (spec : EvSpec) (f : Option Name → EvArg → Option Name)

/-- The text that a description expands to. -/
inductive Expansion : Name → Name → Prop where
  | done : Expansion [] []
  | piece {P : Piece} {a rest t : Name} (hok : P.Ok spec) (ha : P.expand f = some a)
      (h : Expansion rest t) : Expansion (P.text ++ rest) (a ++ t)

/-- The description expands to a text with enough room for every piece. -/
inductive Complete : Nat → Name → Name → Prop where
  | done {len : Nat} : Complete len [] []
  | piece {len : Nat} {P : Piece} {a rest t : Name} (hok : P.Ok spec)
      (ha : P.expand f = some a) (hroom : P.need a.length ≤ len)
      (h : Complete (len - a.length) rest t) : Complete len (P.text ++ rest) (a ++ t)

/-- A piece is reached: there is room for the pieces before it, and a byte more. -/
inductive PieceReached : Nat → Name → Piece → Prop where
  | here {len : Nat} {P : Piece} {rest : Name} (hok : P.Ok spec) (hlen : 0 < len) :
      PieceReached len (P.text ++ rest) P
  | later {len : Nat} {P Q : Piece} {a rest : Name} (hok : P.Ok spec)
      (ha : P.expand f = some a) (hroom : P.need a.length ≤ len)
      (h : PieceReached (len - a.length) rest Q) : PieceReached len (P.text ++ rest) Q

/-- A region ends where its expansion has some length. -/
inductive RegionEnd : Name → Nat → Prop where
  | here {fmt : Option Name} {arg : EvArg} {a rest : Name} (hok : (Piece.region fmt arg).Ok spec)
      (ha : f fmt arg = some a) :
      RegionEnd ((Piece.region fmt arg).text ++ rest) a.length
  | later {P : Piece} {a rest : Name} {n : Nat} (hok : P.Ok spec)
      (ha : P.expand f = some a) (h : RegionEnd rest n) :
      RegionEnd (P.text ++ rest) (a.length + n)

end

section

variable {spec : EvSpec} {f : Option Name → EvArg → Option Name} {len n : Nat}
  {inp rest t : Name} {P Q : Piece}

/-- A description that starts with a piece starts with no other. -/
theorem piece_unique (hnext : nextPiece spec inp = some (P, rest)) {left : Name}
    (hok : Q.Ok spec) (htext : inp = Q.text ++ left) : Q = P ∧ left = rest := by
  rw [nextPiece_iff.mpr ⟨hok, htext⟩] at hnext
  cases hnext
  exact ⟨rfl, rfl⟩

theorem nextPiece_text (hok : P.Ok spec) : nextPiece spec (P.text ++ rest) = some (P, rest) :=
  nextPiece_iff.mpr ⟨hok, rfl⟩

theorem piece_ne_nil (hok : P.Ok spec) : P.text ++ rest ≠ [] :=
  List.append_ne_nil_of_left_ne_nil hok.text_ne_nil rest

theorem complete_nil : Complete spec f len [] t ↔ t = [] := by
  constructor
  · intro h
    generalize hinp : ([] : Name) = inp at h
    cases h with
    | done => rfl
    | piece hok => exact absurd hinp.symm (piece_ne_nil hok)
  · rintro rfl
    exact .done

theorem reached_nil : ¬ PieceReached spec f len [] Q := by
  intro h
  generalize hinp : ([] : Name) = inp at h
  cases h with
  | here hok => exact piece_ne_nil hok hinp.symm
  | later hok => exact piece_ne_nil hok hinp.symm

theorem complete_iff (hnext : nextPiece spec inp = some (P, rest)) :
    Complete spec f len inp t ↔
      ∃ a t', P.expand f = some a ∧ P.need a.length ≤ len ∧
        Complete spec f (len - a.length) rest t' ∧ t = a ++ t' := by
  obtain ⟨hok, htext⟩ := nextPiece_iff.mp hnext
  constructor
  · intro h
    cases h with
    | done => exact absurd htext.symm (piece_ne_nil hok)
    | @piece _ Q a left t hokQ ha hroom h =>
        obtain ⟨rfl, rfl⟩ := piece_unique hnext hokQ rfl
        exact ⟨a, t, ha, hroom, h, rfl⟩
  · rintro ⟨a, t', ha, hroom, h, rfl⟩
    rw [htext]
    exact .piece hok ha hroom h

theorem reached_iff (hnext : nextPiece spec inp = some (P, rest)) (hlen : 0 < len) :
    PieceReached spec f len inp Q ↔
      Q = P ∨ ∃ a, P.expand f = some a ∧ P.need a.length ≤ len ∧
        PieceReached spec f (len - a.length) rest Q := by
  obtain ⟨hok, htext⟩ := nextPiece_iff.mp hnext
  constructor
  · intro h
    cases h with
    | here hokQ => exact .inl (piece_unique hnext hokQ rfl).1
    | @later _ R _ a left hokR ha hroom h =>
        obtain ⟨rfl, rfl⟩ := piece_unique hnext hokR rfl
        exact .inr ⟨a, ha, hroom, h⟩
  · rw [htext]
    rintro (rfl | ⟨a, ha, hroom, h⟩)
    · exact .here hok hlen
    · exact .later hok ha hroom h

theorem complete_none (hnext : nextPiece spec inp = none) (hne : inp ≠ []) :
    ¬ Complete spec f len inp t := by
  intro h
  cases h with
  | done => exact hne rfl
  | piece hok =>
      rw [nextPiece_iff.mpr ⟨hok, rfl⟩] at hnext
      cases hnext

theorem reached_none (hnext : nextPiece spec inp = none) :
    ¬ PieceReached spec f len inp Q := by
  intro h
  cases h with
  | here hok =>
      rw [nextPiece_iff.mpr ⟨hok, rfl⟩] at hnext
      cases hnext
  | later hok =>
      rw [nextPiece_iff.mpr ⟨hok, rfl⟩] at hnext
      cases hnext

/-- Every piece needs some room. -/
theorem need_pos {a : Name} (ha : P.expand f = some a) : 0 < P.need a.length := by
  cases P with
  | lit c =>
      cases ha
      exact Nat.one_pos
  | percent =>
      cases ha
      decide
  | region fmt arg => exact Nat.succ_pos _

theorem need_le (P : Piece) (n : Nat) : P.need n ≤ n + 1 := by
  cases P with
  | lit c => exact Nat.le_succ n
  | percent => exact Nat.le_succ n
  | region fmt arg => exact le_refl (n + 1)

theorem length_le_need (P : Piece) (n : Nat) : n ≤ P.need n := by
  cases P with
  | lit c => exact le_refl n
  | percent => exact le_refl n
  | region fmt arg => exact Nat.le_succ n

theorem reached_zero : ¬ PieceReached spec f 0 inp Q := by
  intro h
  cases h with
  | here _ hlen => exact absurd hlen (lt_irrefl 0)
  | later _ ha hroom => exact absurd (need_pos ha) (by omega)

theorem complete_zero (hne : inp ≠ []) : ¬ Complete spec f 0 inp t := by
  intro h
  cases h with
  | done => exact hne rfl
  | piece _ ha hroom => exact absurd (need_pos ha) (by omega)

theorem Complete.length {len : Nat} (h : Complete spec f len inp t) : t.length ≤ len := by
  induction h with
  | done => exact Nat.zero_le _
  | @piece _ P _ _ _ _ _ hroom _ ih =>
      have := (length_le_need P _).trans hroom
      rw [List.length_append]
      omega

/-! ## The room -/

theorem Complete.expansion {len : Nat} (h : Complete spec f len inp t) :
    Expansion spec f inp t := by
  induction h with
  | done => exact .done
  | piece hok ha _ _ ih => exact .piece hok ha ih

theorem expansion_iff (hnext : nextPiece spec inp = some (P, rest)) :
    Expansion spec f inp t ↔
      ∃ a t', P.expand f = some a ∧ Expansion spec f rest t' ∧ t = a ++ t' := by
  obtain ⟨hok, htext⟩ := nextPiece_iff.mp hnext
  constructor
  · intro h
    cases h with
    | done => exact absurd htext.symm (piece_ne_nil hok)
    | @piece Q a left t hokQ ha h =>
        obtain ⟨rfl, rfl⟩ := piece_unique hnext hokQ rfl
        exact ⟨a, t, ha, h, rfl⟩
  · rintro ⟨a, t', ha, h, rfl⟩
    rw [htext]
    exact .piece hok ha h

/-- A description has one expansion at most. -/
theorem Expansion.unique (h : Expansion spec f inp t) {u : Name} (hu : Expansion spec f inp u) :
    u = t := by
  induction h generalizing u with
  | done =>
      generalize hinp : ([] : Name) = inp at hu
      cases hu with
      | done => rfl
      | piece hok => exact absurd hinp.symm (piece_ne_nil hok)
  | piece hok ha _ ih =>
      obtain ⟨b, u', hb, hu', rfl⟩ := (expansion_iff (nextPiece_text hok)).mp hu
      rw [Option.some.inj (ha.symm.trans hb), ih hu']

theorem regionEnd_nil : ¬ RegionEnd spec f [] n := by
  intro h
  generalize hinp : ([] : Name) = inp at h
  cases h with
  | here hok => exact piece_ne_nil hok hinp.symm
  | later hok => exact piece_ne_nil hok hinp.symm

/-- A region ends at the end of the first piece, which needs a byte more, or later. -/
theorem regionEnd_iff {a : Name} (hnext : nextPiece spec inp = some (P, rest))
    (ha : P.expand f = some a) :
    RegionEnd spec f inp n ↔
      (n = a.length ∧ a.length < P.need a.length) ∨
        ∃ k, RegionEnd spec f rest k ∧ n = a.length + k := by
  obtain ⟨hok, htext⟩ := nextPiece_iff.mp hnext
  constructor
  · intro h
    cases h with
    | @here fmt arg b left hokQ hb =>
        obtain ⟨rfl, rfl⟩ := piece_unique hnext hokQ rfl
        obtain rfl : a = b := Option.some.inj (ha.symm.trans hb)
        exact .inl ⟨rfl, Nat.lt_succ_self _⟩
    | @later Q b left k hokQ hb h =>
        obtain ⟨rfl, rfl⟩ := piece_unique hnext hokQ rfl
        obtain rfl : a = b := Option.some.inj (ha.symm.trans hb)
        exact .inr ⟨k, h, rfl⟩
  · rw [htext]
    rintro (⟨rfl, hneed⟩ | ⟨k, h, rfl⟩)
    · cases P with
      | lit c => exact absurd hneed (lt_irrefl _)
      | percent => exact absurd hneed (lt_irrefl _)
      | region fmt arg => exact .here hok ha
    · exact .later hok ha h

/-- An expansion that fits has enough room for every piece, unless some region ends where
the room does. -/
theorem Expansion.complete_iff (h : Expansion spec f inp t) (hlen : t.length ≤ len) :
    Complete spec f len inp t ↔ ¬ RegionEnd spec f inp len := by
  induction h generalizing len with
  | done => simp only [complete_nil, regionEnd_nil, not_false_eq_true]
  | @piece P a rest t hok ha _ ih =>
      have hnext : nextPiece spec (P.text ++ rest) = some (P, rest) := nextPiece_text hok
      rw [List.length_append] at hlen
      have hrest := @ih (len - a.length) (by omega)
      rw [Description.complete_iff hnext, regionEnd_iff hnext ha]
      constructor
      · rintro ⟨b, u, hb, hroom, hu, htext⟩ hend
        obtain rfl : a = b := Option.some.inj (ha.symm.trans hb)
        obtain rfl : t = u := List.append_cancel_left htext
        rcases hend with ⟨rfl, hneed⟩ | ⟨k, hk, rfl⟩
        · omega
        · rw [Nat.add_sub_cancel_left] at hrest hu
          exact hrest.mp hu hk
      · intro hend
        rw [not_or, not_exists] at hend
        have hneed : P.need a.length ≤ len := by
          have hne : ¬ (len = a.length ∧ a.length < P.need a.length) := hend.1
          have hsmall := need_le P a.length
          omega
        have hlater : ¬ RegionEnd spec f rest (len - a.length) := by
          intro hk
          exact hend.2 _ ⟨hk, by omega⟩
        exact ⟨a, t, ha, hneed, hrest.mpr hlater, rfl⟩

/-! ## The texts of the regions -/

/-- Two ways to print the arguments of an event give the same texts. -/
def Agree (spec : EvSpec) (f g : Option Name → EvArg → Option Name) : Prop :=
  ∀ fmt, ∀ arg ∈ spec.args, f fmt arg = g fmt arg

variable {g : Option Name → EvArg → Option Name}

theorem Agree.symm (h : Agree spec f g) : Agree spec g f := fun fmt arg harg =>
  (h fmt arg harg).symm

theorem Agree.region (h : Agree spec f g) {fmt : Option Name} {arg : EvArg}
    (hok : (Piece.region fmt arg).Ok spec) : f fmt arg = g fmt arg := by
  cases hok with
  | plain harg => exact h _ _ (List.mem_of_find?_eq_some harg)
  | custom _ _ _ _ harg => exact h _ _ (List.mem_of_find?_eq_some harg)

theorem Agree.expand (h : Agree spec f g) (hok : P.Ok spec) : P.expand f = P.expand g := by
  cases P with
  | lit c => rfl
  | percent => rfl
  | region fmt arg => exact h.region hok

theorem Agree.expansion (h : Agree spec f g) (ht : Expansion spec f inp t) :
    Expansion spec g inp t := by
  induction ht with
  | done => exact .done
  | piece hok ha _ ih => exact .piece hok ((h.expand hok).symm.trans ha) ih

theorem Agree.reached (h : Agree spec f g) {len : Nat} (hQ : PieceReached spec f len inp Q) :
    PieceReached spec g len inp Q := by
  induction hQ with
  | here hok hlen => exact .here hok hlen
  | later hok ha hroom _ ih => exact .later hok ((h.expand hok).symm.trans ha) hroom ih

theorem Agree.regionEnd (h : Agree spec f g) (hn : RegionEnd spec f inp n) :
    RegionEnd spec g inp n := by
  induction hn with
  | here hok ha => exact .here hok ((h.region hok).symm.trans ha)
  | later hok ha _ ih => exact .later hok ((h.expand hok).symm.trans ha) ih

theorem PieceReached.ok {len : Nat} (h : PieceReached spec f len inp Q) : Q.Ok spec := by
  induction h with
  | here hok => exact hok
  | later _ _ _ _ ih => exact ih

end

end Description

end Ovni
