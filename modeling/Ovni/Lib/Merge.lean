import Mathlib.Data.List.Perm.Basic
import Ovni.Lib.Except
import Ovni.Lib.Keyed

/-!
# Merging items one by one

Items are merged into a state by steps that can fail.  A step takes an item when the item
is well formed and agrees with those that were merged before; then the items that can be
merged, and what is known of the state, do not depend on their order.
-/

namespace Ovni.Lib

variable {σ ι ε : Type}

/-- The steps of a merge: `Inv items s` says what the state is after some items. -/
structure Merges (step : σ → ι → Except ε σ) (Inv : List ι → σ → Prop) (Fits : ι → Prop)
    (Agree : ι → ι → Prop) : Prop where
  ok_iff : ∀ {items s i}, Inv items s →
    ((∃ s', step s i = .ok s') ↔ Fits i ∧ ∀ j ∈ items, Agree j i)
  kept : ∀ {items s i s'}, Inv items s → step s i = .ok s' → Inv (items ++ [i]) s'

section

variable {step : σ → ι → Except ε σ} {Inv : List ι → σ → Prop} {Fits : ι → Prop}
variable {Agree : ι → ι → Prop} {items l l' : List ι} {s s' : σ}

theorem Merges.fold_kept (hm : Merges step Inv Fits Agree) (hinv : Inv items s)
    (hfold : l.foldlM step s = .ok s') : Inv (items ++ l) s' := by
  induction l generalizing items s with
  | nil =>
      cases hfold
      simpa using hinv
  | cons i l ih =>
      rw [List.foldlM_cons] at hfold
      obtain ⟨s₁, hstep, hfold⟩ := bind_ok hfold
      have hinv₁ := ih (hm.kept hinv hstep) hfold
      simpa using hinv₁

theorem Merges.fold_ok_iff (hm : Merges step Inv Fits Agree) (hinv : Inv items s) :
    (∃ s', l.foldlM step s = .ok s') ↔
      (∀ i ∈ l, Fits i ∧ ∀ j ∈ items, Agree j i) ∧ l.Pairwise Agree := by
  induction l generalizing items s with
  | nil => exact ⟨fun _ => ⟨by simp, .nil⟩, fun _ => ⟨s, rfl⟩⟩
  | cons i l ih =>
      constructor
      · rintro ⟨s', hfold⟩
        rw [List.foldlM_cons] at hfold
        obtain ⟨s₁, hstep, hfold⟩ := bind_ok hfold
        have hi := (hm.ok_iff hinv).mp ⟨s₁, hstep⟩
        have hl := (ih (hm.kept hinv hstep)).mp ⟨s', hfold⟩
        refine ⟨fun j hj => ?_, List.pairwise_cons.mpr ⟨fun j hj => ?_, hl.2⟩⟩
        · rcases List.mem_cons.mp hj with rfl | hj
          · exact hi
          · exact ⟨(hl.1 j hj).1, fun k hk => (hl.1 j hj).2 k (by simp [hk])⟩
        · exact (hl.1 j hj).2 i (by simp)
      · rintro ⟨hfits, hagree⟩
        rw [List.pairwise_cons] at hagree
        obtain ⟨s₁, hstep⟩ := (hm.ok_iff hinv).mpr (hfits i (by simp))
        have hl : ∃ s', l.foldlM step s₁ = .ok s' := by
          refine (ih (hm.kept hinv hstep)).mpr ⟨fun j hj => ?_, hagree.2⟩
          obtain ⟨hfit, hold⟩ := hfits j (by simp [hj])
          refine ⟨hfit, fun k hk => ?_⟩
          rcases List.mem_append.mp hk with hk | hk
          · exact hold k hk
          · rw [List.mem_singleton.mp hk]
            exact hagree.1 j hj
        rw [List.foldlM_cons, hstep]
        exact hl

/-- Whether the items can be merged does not depend on their order. -/
theorem Merges.fold_ok_perm (hm : Merges step Inv Fits Agree)
    (hsymm : ∀ i j, Agree i j → Agree j i) (hinv : Inv [] s) (hperm : l.Perm l')
    (hfold : ∃ s', l.foldlM step s = .ok s') : ∃ s', l'.foldlM step s = .ok s' := by
  obtain ⟨hfits, hagree⟩ := (hm.fold_ok_iff hinv).mp hfold
  refine (hm.fold_ok_iff hinv).mpr ⟨fun i hi => ?_, ?_⟩
  · exact hfits i (hperm.mem_iff.mpr hi)
  · exact hperm.pairwise hagree fun {i j} => hsymm i j

end

/-! ## A value that some of the items give -/

/-- The value that the items give, all the same one, or the default when none gives any. -/
def Given (Seen : ι → Prop) (get : ι → Option σ) (dflt v : σ) : Prop :=
  (∀ i, Seen i → ∀ a, get i = some a → a = v) ∧ (v = dflt ∨ ∃ i, Seen i ∧ get i = some v)

section

variable {Seen Seen' : ι → Prop} {get : ι → Option σ} {dflt v v' a : σ} {i : ι}

theorem Given.unique (h : Given Seen get dflt v) (h' : Given Seen get dflt v') : v = v' := by
  rcases h.2 with hv | ⟨i, hi, hv⟩
  · rcases h'.2 with hv' | ⟨i, hi, hv'⟩
    · rw [hv, hv']
    · exact (h.1 i hi v' hv').symm
  · exact h'.1 i hi v hv

theorem Given.congr (h : Given Seen get dflt v) (hseen : ∀ i, Seen' i ↔ Seen i) :
    Given Seen' get dflt v := by
  have heq : Seen' = Seen := funext fun i => propext (hseen i)
  rw [heq]
  exact h

theorem Given.none (get : ι → Option σ) (dflt : σ) : Given (fun _ => False) get dflt dflt :=
  ⟨fun _ h => h.elim, Or.inl rfl⟩

/-- A value agrees with the items when it agrees with the one they give. -/
theorem Given.agree_iff (h : Given Seen get dflt v) (hdflt : ∀ i, Seen i → get i ≠ some dflt) :
    (v = dflt ∨ v = a) ↔ ∀ i, Seen i → ∀ b, get i = some b → b = a := by
  constructor
  · rintro (rfl | rfl) i hi b hb
    · have hv := h.1 i hi b hb
      subst hv
      exact absurd hb (hdflt i hi)
    · exact h.1 i hi b hb
  · intro hall
    exact h.2.imp_right fun ⟨i, hi, hv⟩ => hall i hi v hv

/-- An item that gives no value. -/
theorem Given.skip (h : Given Seen get dflt v) (hi : get i = Option.none)
    (hseen : ∀ j, Seen' j ↔ Seen j ∨ j = i) : Given Seen' get dflt v := by
  refine ⟨fun j hj a ha => ?_, h.2.imp_right fun ⟨j, hj, hv⟩ => ⟨j, (hseen j).mpr (.inl hj), hv⟩⟩
  rcases (hseen j).mp hj with hj | rfl
  · exact h.1 j hj a ha
  · rw [hi] at ha
    cases ha

/-- An item that gives a value, which those before agree with. -/
theorem Given.give (hi : get i = some a) (hagree : ∀ j, Seen j → ∀ b, get j = some b → b = a)
    (hseen : ∀ j, Seen' j ↔ Seen j ∨ j = i) : Given Seen' get dflt a := by
  refine ⟨fun j hj b hb => ?_, Or.inr ⟨i, (hseen i).mpr (.inr rfl), hi⟩⟩
  rcases (hseen j).mp hj with hj | rfl
  · exact hagree j hj b hb
  · rw [hi] at hb
    exact (Option.some.inj hb).symm

end

/-! ## Items merged into parts by their key -/

section

variable {α κ : Type} [DecidableEq κ] {key : α → κ} {k : ι → Option κ} {Ok : List ι → α → Prop}
variable {items items' : List ι} {l l' : List α} {x : α} {a : κ} {i : ι}

/-- Each part has the key of some item and is made of the items with that key. -/
structure Parts (k : ι → Option κ) (key : α → κ) (Ok : List ι → α → Prop) (items : List ι)
    (l : List α) : Prop where
  nodup : (l.map key).Nodup
  ok : ∀ x ∈ l, Ok (items.filter fun i => k i = some (key x)) x
  used : ∀ x ∈ l, ∃ i ∈ items, k i = some (key x)
  all : ∀ i ∈ items, ∀ a, k i = some a → ∃ x ∈ l, key x = a

/-- What is known of the part with a key, if there is one. -/
def PartOk (key : α → κ) (Ok : List ι → α → Prop) (a : κ) (items : List ι) :
    Option α → Prop
  | none => items = []
  | some x => key x = a ∧ Ok items x

theorem Parts.nil (k : ι → Option κ) (key : α → κ) (Ok : List ι → α → Prop) :
    Parts k key Ok [] [] where
  nodup := .nil
  ok := by simp
  used := by simp
  all := by simp

theorem Parts.find (h : Parts k key Ok items l) (a : κ) :
    PartOk key Ok a (items.filter fun i => k i = some a) (l.find? fun x => key x = a) := by
  cases hfind : l.find? fun x => key x = a with
  | none =>
      apply List.filter_eq_nil_iff.mpr
      intro i hi hk
      obtain ⟨x, hx, hkey⟩ := h.all i hi a (by simpa using hk)
      exact List.find?_eq_none.mp hfind x hx (by simpa using hkey)
  | some x =>
      have hkey : key x = a := by simpa using List.find?_some hfind
      have hok := h.ok x (List.mem_of_find?_eq_some hfind)
      rw [hkey] at hok
      exact ⟨hkey, hok⟩

theorem Parts.put (h : Parts k key Ok items l) (hk : k i = some (key x))
    (hx : Ok ((items.filter fun i => k i = some (key x)) ++ [i]) x) :
    Parts k key Ok (items ++ [i]) (put key x l) where
  nodup := nodup_put h.nodup
  ok := by
    intro y hy
    rw [List.filter_append]
    rcases mem_put.mp hy with rfl | ⟨hy, hne⟩
    · simpa [hk] using hx
    · have hki : ¬ k i = some (key y) := by
        rw [hk]
        exact fun h => hne (Option.some.inj h).symm
      simpa [hki] using h.ok y hy
  used := by
    intro y hy
    rcases mem_put.mp hy with rfl | ⟨hy, -⟩
    · exact ⟨i, by simp, hk⟩
    · obtain ⟨j, hj, hkj⟩ := h.used y hy
      exact ⟨j, by simp [hj], hkj⟩
  all := by
    intro j hj a ha
    by_cases hax : a = key x
    · exact ⟨x, mem_put.mpr (.inl rfl), hax.symm⟩
    · have hj' : j ∈ items := by
        rcases List.mem_append.mp hj with hj | hj
        · exact hj
        · rw [List.mem_singleton.mp hj, hk] at ha
          exact absurd (Option.some.inj ha).symm hax
      obtain ⟨y, hy, hkey⟩ := h.all j hj' a ha
      exact ⟨y, mem_put.mpr (.inr ⟨hy, by rwa [hkey]⟩), hkey⟩

/-- Parts of the same items are the same, as far as each is known from its items. -/
theorem Parts.perm_map {β : Type} {g : α → β} (h : Parts k key Ok items l)
    (h' : Parts k key Ok items' l') (hperm : items.Perm items')
    (hg : ∀ {items items' x x'}, items.Perm items' → Ok items x → Ok items' x' →
      key x = key x' → g x = g x') : (l.map g).Perm (l'.map g) := by
  have hkeys : (l.map key).Perm (l'.map key) := by
    apply (List.perm_ext_iff_of_nodup h.nodup h'.nodup).mpr
    intro a
    simp only [List.mem_map]
    constructor
    · rintro ⟨x, hx, rfl⟩
      obtain ⟨i, hi, hk⟩ := h.used x hx
      exact h'.all i (hperm.mem_iff.mp hi) _ hk
    · rintro ⟨x, hx, rfl⟩
      obtain ⟨i, hi, hk⟩ := h'.used x hx
      exact h.all i (hperm.mem_iff.mpr hi) _ hk
  apply perm_map_of_key hkeys h'.nodup
  intro x hx x' hx' hkey
  refine hg (hperm.filter _) (h.ok x hx) ?_ hkey
  rw [hkey]
  exact h'.ok x' hx'

/-- The steps that make one part, as the steps of a merge. -/
structure PartMerges (k : ι → Option κ) (key : α → κ) (sub : κ → Option α → ι → Except ε α)
    (Ok : List ι → α → Prop) (Fits : ι → Prop) (Agree : ι → ι → Prop) : Prop where
  ok_iff : ∀ {items o i a}, k i = some a → PartOk key Ok a items o →
    ((∃ x, sub a o i = .ok x) ↔ Fits i ∧ ∀ j ∈ items, Agree j i)
  kept : ∀ {items o i a x}, k i = some a → PartOk key Ok a items o → sub a o i = .ok x →
    key x = a ∧ Ok (items ++ [i]) x

/-- The part with the key of the item is made or changed, and put in its place. -/
def putPart (k : ι → Option κ) (key : α → κ) (sub : κ → Option α → ι → Except ε α) (e : ε)
    (l : List α) (i : ι) : Except ε (List α) :=
  match k i with
  | none => throw e
  | some a => do
      let x ← sub a (l.find? fun x => key x = a) i
      return put key x l

theorem PartMerges.merges {sub : κ → Option α → ι → Except ε α} {Fits : ι → Prop}
    {Agree : ι → ι → Prop} (hm : PartMerges k key sub Ok Fits Agree) (e : ε) :
    Merges (putPart k key sub e) (Parts k key Ok) (fun i => (k i).isSome ∧ Fits i)
      (fun j i => k j = k i → Agree j i) where
  ok_iff := by
    intro items l i h
    unfold putPart
    cases hk : k i with
    | none =>
        refine ⟨?_, fun hfits => absurd hfits.1.1 (by simp)⟩
        rintro ⟨l', hl'⟩
        cases hl'
    | some a =>
        have hsub := hm.ok_iff hk (h.find a)
        have hstep : (∃ l', (do
            let x ← sub a (l.find? fun x => key x = a) i
            return put key x l : Except ε (List α)) = .ok l') ↔
            ∃ x, sub a (l.find? fun x => key x = a) i = .ok x := by
          constructor
          · rintro ⟨l', hl'⟩
            obtain ⟨x, hx, -⟩ := bind_ok hl'
            exact ⟨x, hx⟩
          · rintro ⟨x, hx⟩
            exact ⟨put key x l, by rw [hx]; rfl⟩
        rw [hstep, hsub]
        simp only [List.mem_filter, decide_eq_true_eq, Option.isSome_some, true_and, and_imp]
  kept := by
    intro items l i l' h hstep
    unfold putPart at hstep
    cases hk : k i with
    | none =>
        rw [hk] at hstep
        cases hstep
    | some a =>
        rw [hk] at hstep
        obtain ⟨x, hx, hstep⟩ := bind_ok hstep
        cases hstep
        obtain ⟨rfl, hok⟩ := hm.kept hk (h.find a) hx
        exact h.put hk hok

end

/-! ## Every element of a list -/

variable {α β : Type} {f : α → Except ε β} {g : α → β} {l : List α} {l' : List β}

theorem mapM_ok_iff : (∃ l', l.mapM f = .ok l') ↔ ∀ x ∈ l, ∃ y, f x = .ok y := by
  induction l with
  | nil => exact ⟨fun _ => by simp, fun _ => ⟨[], rfl⟩⟩
  | cons x l ih =>
      rw [List.mapM_cons]
      constructor
      · rintro ⟨l', h⟩
        obtain ⟨y, hy, h⟩ := bind_ok h
        obtain ⟨ys, hys, -⟩ := bind_ok h
        intro z hz
        rcases List.mem_cons.mp hz with rfl | hz
        · exact ⟨y, hy⟩
        · exact ih.mp ⟨ys, hys⟩ z hz
      · intro h
        obtain ⟨y, hy⟩ := h x (by simp)
        obtain ⟨ys, hys⟩ := ih.mpr fun z hz => h z (by simp [hz])
        exact ⟨y :: ys, by rw [hy, hys]; rfl⟩

theorem mapM_ok_map {γ : Type} {h : β → γ} {g : α → γ} (hg : ∀ x y, f x = .ok y → h y = g x)
    (hmap : l.mapM f = .ok l') : l'.map h = l.map g := by
  induction l generalizing l' with
  | nil =>
      cases hmap
      rfl
  | cons x l ih =>
      rw [List.mapM_cons] at hmap
      obtain ⟨y, hy, hmap⟩ := bind_ok hmap
      obtain ⟨ys, hys, hmap⟩ := bind_ok hmap
      cases hmap
      rw [List.map_cons, List.map_cons, hg x y hy, ih hys]

theorem mapM_ok_eq (hg : ∀ x y, f x = .ok y → y = g x) (hmap : l.mapM f = .ok l') :
    l' = l.map g := by
  rw [← mapM_ok_map (h := id) hg hmap, List.map_id]

theorem mapM_ok_mem (hmap : l.mapM f = .ok l') : ∀ y ∈ l', ∃ x ∈ l, f x = .ok y := by
  induction l generalizing l' with
  | nil =>
      cases hmap
      simp
  | cons x l ih =>
      rw [List.mapM_cons] at hmap
      obtain ⟨y, hy, hmap⟩ := bind_ok hmap
      obtain ⟨l₁, hl₁, hmap⟩ := bind_ok hmap
      cases hmap
      intro z hz
      rcases List.mem_cons.mp hz with rfl | hz
      · exact ⟨x, by simp, hy⟩
      · obtain ⟨x', hx', heq⟩ := ih hl₁ z hz
        exact ⟨x', by simp [hx'], heq⟩

theorem mapM_eq_map (hg : ∀ x ∈ l, f x = .ok (g x)) : l.mapM f = .ok (l.map g) := by
  induction l with
  | nil => rfl
  | cons x l ih =>
      have hrest := ih fun y hy => hg y (List.mem_cons_of_mem _ hy)
      rw [List.mapM_cons, hg x List.mem_cons_self, List.map_cons]
      show (l.mapM f >>= fun ys => pure (g x :: ys)) = _
      rw [hrest]
      rfl

end Ovni.Lib
