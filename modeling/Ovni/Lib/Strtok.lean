import Mathlib.Data.List.TakeWhile

/-!
# Tokens

A text is cut where a class of characters ends.  A tokenizer in the way of `strtok` skips
the delimiters that come first, takes the characters up to the next delimiter and drops
that one, so that runs of delimiters count as one and those at the ends do not count.
-/

namespace Ovni.Lib

section

variable {α : Type} {p : α → Bool} {s a b : List α}

/-! ## Cuts -/

/-- The text is cut where the characters of a class end. -/
structure Cut (p : α → Bool) (s a b : List α) : Prop where
  text : s = a ++ b
  all : ∀ c ∈ a, p c = true
  stop : ∀ c ∈ b.head?, p c = false

theorem cut_while (p : α → Bool) (s : List α) : Cut p s (s.takeWhile p) (s.dropWhile p) := by
  refine ⟨List.takeWhile_append_dropWhile.symm, fun c hc => List.mem_takeWhile_imp hc, ?_⟩
  intro c hc
  have hne : s.dropWhile p ≠ [] := by
    intro hnil
    simp [hnil] at hc
  have hhead := List.head_dropWhile_not p hne
  rw [List.head?_eq_some_head hne, Option.mem_def, Option.some.injEq] at hc
  rw [← hc]
  exact hhead

theorem Cut.takeWhile (h : Cut p s a b) : s.takeWhile p = a := by
  rw [h.text, List.takeWhile_append_of_pos h.all]
  cases hb : b with
  | nil => simp
  | cons c b =>
      have hc := h.stop c (by simp [hb])
      simp [hc]

theorem Cut.dropWhile (h : Cut p s a b) : s.dropWhile p = b := by
  rw [h.text, List.dropWhile_append_of_pos h.all]
  cases hb : b with
  | nil => rfl
  | cons c b =>
      have hc := h.stop c (by simp [hb])
      simp [hc]

theorem Cut.unique {a' b' : List α} (h : Cut p s a b) (h' : Cut p s a' b') : a = a' ∧ b = b' := by
  rw [← h.takeWhile, ← h.dropWhile, ← h'.takeWhile, ← h'.dropWhile]
  exact ⟨rfl, rfl⟩

/-! ## Tokens -/

/-- The delimiters before a token, the token, and the rest from the delimiter after it. -/
structure Token (d : α → Bool) (s lead word rest : List α) : Prop where
  skip : Cut d s lead (word ++ rest)
  take : Cut (fun c => !d c) (word ++ rest) word rest
  ne_nil : word ≠ []

/-- `strtok_r`: the token and the text where the next call goes on. -/
def strtok (d : α → Bool) (s : List α) : Option (List α × List α) :=
  let s := s.dropWhile d
  if s.isEmpty then none
  else some (s.takeWhile fun c => !d c, (s.dropWhile fun c => !d c).tail)

variable {d : α → Bool} {lead word rest : List α}

/-- A token is given by its characters. -/
theorem token_mk (hlead : ∀ c ∈ lead, d c = true) (hne : word ≠ [])
    (hword : ∀ c ∈ word, d c = false) (hrest : ∀ c ∈ rest.head?, d c = true) :
    Token d (lead ++ (word ++ rest)) lead word rest := by
  refine ⟨⟨rfl, hlead, ?_⟩, ⟨rfl, ?_, ?_⟩, hne⟩
  · intro c hc
    obtain ⟨b, word, rfl⟩ := List.exists_cons_of_ne_nil hne
    exact hword c (List.mem_of_mem_head? hc)
  · intro c hc
    rw [hword c hc]
    rfl
  · intro c hc
    rw [hrest c hc]
    rfl

/-- A word at the start of the text. -/
theorem token_word (hne : word ≠ []) (hword : ∀ c ∈ word, d c = false)
    (hrest : ∀ c ∈ rest.head?, d c = true) : Token d (word ++ rest) [] word rest := by
  have hlead : ∀ c ∈ ([] : List α), d c = true := by
    intro c hc
    exact absurd hc List.not_mem_nil
  exact token_mk hlead hne hword hrest

theorem Token.strtok (h : Token d s lead word rest) : strtok d s = some (word, rest.tail) := by
  have hne : (word ++ rest).isEmpty = false := by
    rw [List.isEmpty_eq_false_iff]
    exact List.append_ne_nil_of_left_ne_nil h.ne_nil rest
  unfold Lib.strtok
  simp only [h.skip.dropWhile, hne, Bool.false_eq_true, if_false, h.take.takeWhile,
    h.take.dropWhile]

theorem strtok_some {r : List α} (h : strtok d s = some (word, r)) :
    ∃ lead rest, Token d s lead word rest ∧ r = rest.tail := by
  unfold strtok at h
  by_cases hnil : (s.dropWhile d).isEmpty = true
  · simp [hnil] at h
  · simp only [hnil, if_false, Bool.false_eq_true, Option.some.injEq, Prod.mk.injEq] at h
    have hskip := cut_while d s
    have htake := cut_while (fun c => !d c) (s.dropWhile d)
    have hne : word ≠ [] := by
      obtain ⟨c, cs, hs⟩ := List.exists_cons_of_ne_nil (fun hs => hnil (List.isEmpty_iff.mpr hs))
      have hd := hskip.stop c (by rw [hs]; rfl)
      rw [← h.1, hs]
      simp [hd]
    rw [h.1] at htake
    exact ⟨_, _, ⟨htake.text ▸ hskip, htake.text ▸ htake, hne⟩, h.2.symm⟩

theorem strtok_none : strtok d s = none ↔ ∀ c ∈ s, d c = true := by
  unfold strtok
  have hiff : (s.dropWhile d).isEmpty = true ↔ ∀ c ∈ s, d c = true := by
    rw [List.isEmpty_iff, List.dropWhile_eq_nil_iff]
  by_cases hnil : (s.dropWhile d).isEmpty = true
  · simp only [hnil, if_true, true_iff]
    exact hiff.mp hnil
  · simp only [hnil, if_false, Bool.false_eq_true, reduceCtorEq, false_iff]
    exact fun hall => hnil (hiff.mpr hall)

theorem Token.unique {lead' word' rest' : List α} (h : Token d s lead word rest)
    (h' : Token d s lead' word' rest') : lead = lead' ∧ word = word' ∧ rest = rest' := by
  obtain ⟨hlead, hsame⟩ := h.skip.unique h'.skip
  exact ⟨hlead, h.take.unique (hsame ▸ h'.take)⟩

/-- A token is followed by a delimiter when another token comes after it. -/
theorem Token.rest_eq {d' : α → Bool} {lead' word' rest' : List α}
    (h : Token d s lead word rest) (h' : Token d' rest.tail lead' word' rest') :
    ∃ c, d c = true ∧ rest = c :: rest.tail := by
  cases hrest : rest with
  | nil =>
      have htext := congrArg List.length h'.skip.text
      have hpos := List.length_pos_iff.mpr h'.ne_nil
      rw [hrest] at htext
      simp only [List.tail_nil, List.length_nil, List.length_append] at htext
      omega
  | cons c rest =>
      have hstop := h.take.stop c (by rw [hrest]; rfl)
      exact ⟨c, by simpa using hstop, rfl⟩

/-! ## All the tokens -/

/-- The tokens of at most `n` calls. -/
def strtokLoop (d : α → Bool) : Nat → List α → List (List α)
  | 0, _ => []
  | n + 1, s =>
      match strtok d s with
      | none => []
      | some (word, rest) => word :: strtokLoop d n rest

/-- The tokens of a text, by calls until one returns nothing. -/
def tokens (d : α → Bool) (s : List α) : List (List α) := strtokLoop d s.length s

theorem strtok_length {r : List α} (h : strtok d s = some (word, r)) : r.length < s.length := by
  obtain ⟨lead, rest, htoken, rfl⟩ := strtok_some h
  have htext := congrArg List.length htoken.skip.text
  have hpos := List.length_pos_iff.mpr htoken.ne_nil
  rw [List.length_append, List.length_append] at htext
  rw [List.length_tail]
  omega

/-- As many calls as there are characters are enough. -/
theorem strtokLoop_eq {n : Nat} (h : s.length ≤ n) : strtokLoop d n s = tokens d s := by
  unfold tokens
  generalize hm : s.length = m
  have hle : s.length ≤ m := by omega
  clear hm
  induction n generalizing m s with
  | zero =>
      obtain rfl : s = [] := List.length_eq_zero_iff.mp (by omega)
      cases m with
      | zero => rfl
      | succ m => rfl
  | succ n ih =>
      cases m with
      | zero =>
          obtain rfl : s = [] := List.length_eq_zero_iff.mp (by omega)
          rfl
      | succ m =>
          unfold strtokLoop
          cases hs : strtok d s with
          | none => rfl
          | some r =>
              obtain ⟨word, rest⟩ := r
              have hlt := strtok_length hs
              simp only [ih (s := rest) (by omega) m (by omega)]

theorem tokens_of_none (h : strtok d s = none) : tokens d s = [] := by
  unfold tokens
  cases hs : s.length with
  | zero => rfl
  | succ n =>
      unfold strtokLoop
      rw [h]

theorem tokens_nil (h : ∀ c ∈ s, d c = true) : tokens d s = [] :=
  tokens_of_none (strtok_none.mpr h)

theorem tokens_of_some {r : List α} (h : strtok d s = some (word, r)) :
    tokens d s = word :: tokens d r := by
  have hlt := strtok_length h
  obtain ⟨n, hn⟩ : ∃ n, s.length = n + 1 := ⟨s.length - 1, by omega⟩
  rw [tokens, hn]
  unfold strtokLoop
  rw [h]
  simp only
  rw [strtokLoop_eq (by omega)]

theorem Token.tokens (h : Token d s lead word rest) :
    tokens d s = word :: tokens d rest.tail :=
  tokens_of_some h.strtok

theorem tokens_cons_iff {words : List (List α)} :
    tokens d s = word :: words ↔ ∃ r, strtok d s = some (word, r) ∧ tokens d r = words := by
  cases hs : strtok d s with
  | none => simp [tokens_of_none hs]
  | some q =>
      obtain ⟨w, r⟩ := q
      simp only [tokens_of_some hs, List.cons.injEq, Option.some.injEq, Prod.mk.injEq]
      constructor
      · rintro ⟨rfl, rfl⟩
        exact ⟨r, ⟨rfl, rfl⟩, rfl⟩
      · rintro ⟨r, ⟨rfl, rfl⟩, rfl⟩
        exact ⟨rfl, rfl⟩

end

end Ovni.Lib
