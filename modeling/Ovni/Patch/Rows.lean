import Ovni.Patch.Run

/-!
# The rows of a sort module

A sort module sorts its values from scratch only the first time that one changes,
and patches the sorted array from then on.  The array is always the ascending sort
of the values and the outputs show it.  The values are those of the inputs, except
for the inputs that are still to be visited.
-/

namespace Ovni

open Ovni.Lib

/-! ## The arrays -/

theorem sorted_mergeSort (values : List Int) :
    (values.mergeSort fun a b => decide (a ≤ b)).Pairwise (· ≤ ·) := by
  have h : (values.mergeSort fun a b => decide (a ≤ b)).Pairwise
      (fun a b => decide (a ≤ b) = true) := List.pairwise_mergeSort
    (fun a b c hab hbc => by simp only [decide_eq_true_eq] at *; omega)
    (fun a b => by simp only [Bool.or_eq_true, decide_eq_true_eq]; omega) values
  exact h.imp fun hab => by simpa using hab

/-- A sorted permutation of the values is their sort. -/
theorem eq_mergeSort {values sorted : List Int} (hperm : sorted.Perm values)
    (hsorted : sorted.Pairwise (· ≤ ·)) :
    sorted = values.mergeSort fun a b => decide (a ≤ b) := by
  refine List.Perm.eq_of_pairwise (fun a b _ _ hab hba => by omega) hsorted
    (sorted_mergeSort values) ?_
  exact hperm.trans (List.mergeSort_perm values _).symm

theorem set_perm {values : List Int} {index : Nat} {old new : Int}
    (h : values[index]? = some old) :
    (values.set index new).Perm (new :: values.erase old) := by
  obtain ⟨hi, rfl⟩ := List.getElem?_eq_some_iff.mp h
  have hsplit : values = values.take index ++ values[index] :: values.drop (index + 1) := by
    rw [← List.drop_eq_getElem_cons hi, List.take_append_drop]
  have hset : values.set index new = values.take index ++ new :: values.drop (index + 1) :=
    List.set_eq_take_append_cons_drop.trans (if_pos hi)
  have herase : (values.erase values[index]).Perm
      (values.take index ++ values.drop (index + 1)) := by
    apply List.Perm.cons_inv (a := values[index])
    apply (List.perm_cons_erase (List.getElem_mem hi)).symm.trans
    nth_rewrite 1 [hsplit]
    exact List.perm_middle
  rw [hset]
  exact List.perm_middle.trans (herase.symm.cons new)

/-- The arrays of a sort module: once copied, `sorted` is the sort of the values; until
then all of them are zero. -/
structure ArraysOk (n : Nat) (st : SortArrays) : Prop where
  length : st.values.length = n
  zero : st.copied = false → st.values = List.replicate n 0
  sorted : st.copied = true → st.sorted = st.values.mergeSort fun a b => decide (a ≤ b)

/-- A change of one value. -/
theorem ArraysOk.update {n : Nat} {st : SortArrays} (h : ArraysOk n st) {index : Nat}
    {old new : Int} (hold : st.values[index]? = some old) (hne : old ≠ new) {sorted : List Int}
    (hrun : sortUpdate st (st.values.set index new) old new = .ok sorted) :
    ArraysOk n { values := st.values.set index new, sorted, copied := true } := by
  refine ⟨by simpa using h.length, by simp, fun _ => ?_⟩
  unfold sortUpdate at hrun
  split at hrun
  · rename_i hcopied
    have hst := h.sorted hcopied
    have hperm : st.sorted.Perm st.values := hst ▸ List.mergeSort_perm _ _
    have hmem : old ∈ st.sorted := hperm.mem_iff.mpr (List.mem_of_getElem? hold)
    obtain ⟨arr, harr, hsorted, hnew⟩ := sortReplace_spec
      (hst ▸ sorted_mergeSort st.values) hmem hne
    obtain rfl : arr = sorted := Except.ok.inj (harr.symm.trans hrun)
    refine eq_mergeSort ?_ hsorted
    exact hnew.trans (((hperm.erase old).cons new).trans (set_perm hold).symm)
  · rw [← Except.ok.inj hrun]
    exact (List.mergeSort_eq_insertionSort (· ≤ ·) _).symm

/-! ## The outputs -/

section Outputs

variable {χ κ : Type} [DecidableEq χ] {b b' : Bay χ κ}

/-- Channels that take any write. -/
def Free (b : Bay χ κ) (c : χ) : Prop :=
  (b.chan c).type = .single ∧ (b.chan c).allowDup = true

omit [DecidableEq χ] in
theorem Free.grown {src : χ → Prop} {c : χ} (h : Free b c) (hg : Bay.Grown src b b') :
    Free b' c := ⟨(hg.like c).type.trans h.1, (hg.like c).allowDup.trans h.2⟩

theorem chanSet_free {c : χ} {v : Value} (h : Free b c) (hset : b.chanSet c v = .ok b') :
    b'.read c = v ∧ ∀ x, x ≠ c → b'.read x = b.read x := by
  obtain ⟨-, -, hres⟩ := Bay.chanSet_ok hset
  rcases hres with ⟨-, hdup, -⟩ | ⟨rfl, -⟩
  · rw [h.2] at hdup
    cases hdup
  · refine ⟨?_, fun x hx => Bay.touch_read_of_ne _ hx⟩
    rw [Bay.touch_read_self]
    simp [chanRead, h.1]

/-- After the loop every output shows its value. -/
theorem sortOutputs_reads {rows : List (χ × Int)} (hd : b.DirtyOk)
    (hfree : ∀ row ∈ rows, Free b row.1) (hnodup : (rows.map Prod.fst).Nodup)
    (h : sortOutputs rows b = .ok b') : ∀ row ∈ rows, b'.read row.1 = .int64 row.2 := by
  induction rows generalizing b with
  | nil => simp
  | cons row rows ih =>
      obtain ⟨out, v⟩ := row
      rw [List.map_cons, List.nodup_cons] at hnodup
      rw [sortOutputs] at h
      -- The rest of the loop leaves this output alone
      have hfirst : ∀ b1, b1.DirtyOk → (∀ row ∈ rows, Free b1 row.1) → b1.read out = .int64 v →
          sortOutputs rows b1 = .ok b' →
          ∀ row ∈ (out, v) :: rows, b'.read row.1 = .int64 row.2 := by
        intro b1 hd1 hfree1 hread hrest row hrow
        rcases List.mem_cons.mp hrow with rfl | hrow
        · rw [(sortOutputs_ok hd1 hrest).1.read_of_not_src hnodup.1]
          exact hread
        · exact ih hd1 hfree1 hnodup.2 hrest row hrow
      split at h
      · rename_i hread
        exact hfirst b hd (fun row hrow => hfree row (List.mem_cons_of_mem _ hrow)) hread h
      · obtain ⟨b1, hset, hrest⟩ := bind_ok h
        have hg := Bay.Grown.chanSet (fun _ => True) hd trivial hset
        refine hfirst b1 hg.dirtyOk
          (fun row hrow => (hfree row (List.mem_cons_of_mem _ hrow)).grown hg)
          (chanSet_free (hfree (out, v) List.mem_cons_self) hset).1 hrest

end Outputs

/-! ## One callback -/

section Module

variable {χ μ ς ρ φ : Type} [DecidableEq χ] [DecidableEq μ] [DecidableEq ς] [DecidableEq ρ]
  [DecidableEq φ] {p : Patch χ μ ς ρ φ} {parts : List (Part μ ς ρ)} {s : ς}
  {w w' : PatchWorld χ μ ς ρ φ} {c : χ} {i : Nat}

/-- A sort module with all its inputs connected and with outputs of its own. -/
structure SortSetup (p : Patch χ μ ς ρ φ) (parts : List (Part μ ς ρ)) (s : ς) : Prop where
  init : .sort s ∈ parts
  inputs : ∀ index < (p.sort s).inputs.length, .sortInput s index ∈ parts
  nodup : (p.sort s).outputs.Nodup
  apart : ∀ c ∈ (p.sort s).inputs, c ∉ (p.sort s).outputs
  mux : ∀ m ∈ partMuxes parts, (p.mux m).output ∉ (p.sort s).outputs
  other : ∀ s' index, .sortInput s' index ∈ parts → s' ≠ s →
    ∀ c ∈ (p.sort s').outputs, c ∉ (p.sort s).outputs

omit [DecidableEq χ] [DecidableEq μ] [DecidableEq ς] [DecidableEq ρ] [DecidableEq φ] in
/-- The outputs of the module are written by its callbacks. -/
theorem SortSetup.out (hs : SortSetup p parts s) (hc : c ∈ (p.sort s).outputs) :
    p.Out parts c := by
  have hpos : 0 < (p.sort s).inputs.length := by
    rw [(p.sort s).same]
    exact List.length_pos_of_mem hc
  refine Or.inr ⟨.sort s 0, ?_, hc⟩
  exact List.mem_filterMap.mpr ⟨.sortInput s 0, hs.inputs 0 hpos, rfl⟩

/-- The arrays are in order and the outputs show them. -/
structure RowsOk (p : Patch χ μ ς ρ φ) (s : ς) (w : PatchWorld χ μ ς ρ φ) : Prop where
  arrays : ArraysOk (p.sort s).outputs.length (w.mod.other.sort s)
  free : ∀ c ∈ (p.sort s).outputs, Free w.bay c
  rows : (w.mod.other.sort s).copied = true →
    ∀ row ∈ (p.sort s).outputs.zip (w.mod.other.sort s).sorted, w.bay.read row.1 = .int64 row.2

omit [DecidableEq μ] [DecidableEq ρ] [DecidableEq φ] in
/-- The callback of an input of the module. -/
theorem RowsOk.own (hs : SortSetup p parts s) (h : RowsOk p s w) (hd : w.bay.DirtyOk)
    {index : Nat} (hrun : sortCbInput p s index c w = .ok w') :
    RowsOk p s w' ∧
      ((w.mod.other.sort s).copied = true → (w'.mod.other.sort s).copied = true) ∧
      (w'.mod.other.sort s).values =
        (w.mod.other.sort s).values.set index (w.bay.read c).toSort := by
  obtain ⟨old, hold, ⟨heq, rfl⟩ | ⟨hne, sorted, b', hsorted, hb', rfl⟩⟩ := sortCbInput_ok hrun
  · refine ⟨h, fun hcopied => hcopied, ?_⟩
    rw [← heq]
    obtain ⟨hi, hget⟩ := List.getElem?_eq_some_iff.mp hold
    rw [← hget, List.set_getElem_self]
  · obtain ⟨hg, -, -⟩ := sortOutputs_ok hd hb'
    have harrays := h.arrays.update hold hne hsorted
    have hfst : ∀ row ∈ (p.sort s).outputs.zip sorted, row.1 ∈ (p.sort s).outputs :=
      fun row hrow => (List.of_mem_zip hrow).1
    refine ⟨⟨?_, fun x hx => (h.free x hx).grown hg, fun _ => ?_⟩, fun _ => ?_, ?_⟩
    · simpa using harrays
    · simp only [Function.update_self]
      refine sortOutputs_reads hd (fun row hrow => h.free _ (hfst row hrow)) ?_ hb'
      have hlen : (p.sort s).outputs.length ≤ sorted.length := by
        have hsort : sorted = _ := harrays.sorted rfl
        rw [hsort, List.length_mergeSort, harrays.length]
      rw [List.map_fst_zip hlen]
      exact hs.nodup
    · simp only [Function.update_self]
    · simp only [Function.update_self]

omit [DecidableEq χ] [DecidableEq μ] [DecidableEq ς] [DecidableEq ρ] [DecidableEq φ] in
/-- Another callback leaves the module alone. -/
theorem RowsOk.other (h : RowsOk p s w) {src : χ → Prop} (hg : Bay.Grown src w.bay w'.bay)
    (hsrc : ∀ c ∈ (p.sort s).outputs, ¬ src c)
    (hsort : w'.mod.other.sort s = w.mod.other.sort s) : RowsOk p s w' := by
  refine ⟨hsort ▸ h.arrays, fun c hc => (h.free c hc).grown hg, fun hcopied row hrow => ?_⟩
  rw [hsort] at hcopied hrow
  rw [hg.read_of_not_src (hsrc _ (List.of_mem_zip hrow).1)]
  exact h.rows hcopied row hrow

/-- What any callback does to the module: its arrays stay in order, and its values
only change at the input that was visited. -/
theorem RowsOk.call (hs : SortSetup p parts s) (h : RowsOk p s w) (hw : PatchWired p parts w)
    (hd : w.bay.DirtyOk) {k : Cb μ (Hook ς ρ)} (hk : k ∈ w.bay.cb .dirty c)
    (hrun : p.net.call k c w = .ok w') :
    RowsOk p s w' ∧
      ((w.mod.other.sort s).copied = true → (w'.mod.other.sort s).copied = true) ∧
      ((∃ index, k = .other (.sort s index) ∧ (w'.mod.other.sort s).values =
          (w.mod.other.sort s).values.set index (w.bay.read c).toSort) ∨
        (∀ index, k ≠ .other (.sort s index)) ∧
          w'.mod.other.sort s = w.mod.other.sort s) := by
  obtain ⟨-, hg, -⟩ := hw.call hd hk hrun
  cases k with
  | select m =>
      obtain ⟨hm, -, rfl⟩ := (hw.wired.select_mem m .dirty c).mp hk
      obtain ⟨choice, -, -, hstep, -, -, hset⟩ := cbSelect_ok hw.wired hm hrun
      have hsort : w'.mod.other.sort s = w.mod.other.sort s := by rw [cbSelect_other hrun]
      refine ⟨h.other (hset.grown hd hstep.state) ?_ hsort, by rw [hsort]; exact id,
        Or.inr ⟨by simp, hsort⟩⟩
      rintro x hx rfl
      exact hs.mux m hm hx
  | input m j =>
      obtain ⟨-, hin, hon⟩ := (hw.wired.input_mem m j .dirty c).mp hk
      have hm := (hw.wired.selected m j hon).1
      obtain ⟨-, hstep, hset, hmod, -⟩ := cbInput_ok hw.wired hm j hrun
      have hsort : w'.mod.other.sort s = w.mod.other.sort s := by rw [hmod]
      refine ⟨h.other (hset.grown hd hstep.state) ?_ hsort, by rw [hsort]; exact id,
        Or.inr ⟨by simp, hsort⟩⟩
      rintro x hx rfl
      exact hs.mux m hm hx
  | other k =>
      obtain ⟨hmem, hty, -⟩ := (hw.hook_mem k .dirty c).mp hk
      cases k with
      | prv r => cases hty
      | sort s' index =>
          by_cases hss : s' = s
          · subst hss
            obtain ⟨hrows, hcopied, hvalues⟩ := h.own hs hd hrun
            exact ⟨hrows, hcopied, Or.inl ⟨index, rfl, hvalues⟩⟩
          · have hsort : w'.mod.other.sort s = w.mod.other.sort s := by
              obtain ⟨old, -, ⟨-, rfl⟩ | ⟨-, sorted, b', -, -, rfl⟩⟩ := sortCbInput_ok hrun
              · rfl
              · simp only [Function.update_of_ne (Ne.symm hss)]
            refine ⟨h.other (hook_ok hd hrun).1 ?_ hsort, by rw [hsort]; exact id,
              Or.inr ⟨?_, hsort⟩⟩
            · intro x hx hx'
              refine hs.other s' index ?_ hss x hx' hx
              obtain ⟨part, hpart, heq⟩ := List.mem_filterMap.mp hmem
              cases part <;> simp_all
            · intro index' heq
              simp only [Cb.other.injEq, Hook.sort.injEq] at heq
              exact hss heq.1

/-! ## The values -/

/-- The values of the module when the first `i` dirty channels were visited, up to the
callbacks `R` of the last of them. -/
def ValuesOk (p : Patch χ μ ς ρ φ) (s : ς) (i : Nat) (R : List (Cb μ (Hook ς ρ)))
    (w : PatchWorld χ μ ς ρ φ) : Prop :=
  ∀ index c, (p.sort s).inputs[index]? = some c → c ∉ w.bay.dirty.drop i →
    .other (.sort s index) ∉ R →
    (w.mod.other.sort s).values[index]? = some (w.bay.read c).toSort

/-- A callback keeps the values, when an input that it writes is still to be visited. -/
theorem ValuesOk.call (hs : SortSetup p parts s) (hrows : RowsOk p s w)
    (hw : PatchWired p parts w) (hd : w.bay.DirtyOk) (hc : w.bay.dirty[i]? = some c)
    {k : Cb μ (Hook ς ρ)} (hk : k ∈ w.bay.cb .dirty c) (hrun : p.net.call k c w = .ok w')
    (hpend : ∀ x ∈ (p.sort s).inputs, w'.bay.read x = w.bay.read x ∨
      x ∈ w'.bay.dirty.drop (i + 1))
    (h : ValuesOk p s (i + 1) (k :: cbsAfter k (w.bay.cb .dirty c)) w) :
    ValuesOk p s (i + 1) (cbsAfter k (w'.bay.cb .dirty c)) w' := by
  obtain ⟨-, -, hvalues⟩ := hrows.call hs hw hd hk hrun
  obtain ⟨hi, -⟩ := List.getElem?_eq_some_iff.mp hc
  obtain ⟨hw', hg, -⟩ := hw.call hd hk hrun
  obtain ⟨l, hl, -⟩ := hg.dirty
  intro index x hx hdrop hleft
  have hread : w'.bay.read x = w.bay.read x :=
    (hpend x (List.mem_of_getElem? hx)).resolve_right hdrop
  have hdrop' : x ∉ w.bay.dirty.drop (i + 1) := by
    intro hmem
    apply hdrop
    rw [hl, List.drop_append_of_le_length hi]
    exact List.mem_append_left _ hmem
  -- Hooks that are left stay left
  have hafter : .other (.sort s index) ∉ cbsAfter k (w.bay.cb .dirty c) := by
    intro hmem
    apply hleft
    cases k with
    | select m =>
        obtain ⟨hm, -⟩ := (hw.wired.select_mem m .dirty c).mp hk
        obtain ⟨-, -, -, hstep, -⟩ := cbSelect_ok hw.wired hm hrun
        exact hstep.after .dirty c _ (by simp) hmem
    | input m j =>
        rw [(cbInput_lists hrun).1]
        exact hmem
    | other k =>
        rw [(hook_ok hd hrun).2.1]
        exact hmem
  rw [hread]
  rcases hvalues with ⟨index0, rfl, hset⟩ | ⟨hne, hsame⟩
  · rw [hset]
    by_cases hii : index0 = index
    · subst hii
      have hcx : c = x := Option.some.inj
        (((hw.hook_mem _ .dirty c).mp hk).2.2.symm.trans hx)
      rw [hcx, List.getElem?_set_self]
      rw [hrows.arrays.length, ← (p.sort s).same]
      exact (List.getElem?_eq_some_iff.mp hx).1
    · rw [List.getElem?_set_ne hii]
      apply h index x hx hdrop'
      intro hmem
      rcases List.mem_cons.mp hmem with heq | hmem
      · simp only [Cb.other.injEq, Hook.sort.injEq, true_and] at heq
        exact hii heq.symm
      · exact hafter hmem
  · rw [hsame]
    apply h index x hx hdrop'
    intro hmem
    rcases List.mem_cons.mp hmem with heq | hmem
    · exact hne index heq.symm
    · exact hafter hmem

/-- At the start of a visit the hooks of the channel are left. -/
theorem ValuesOk.start (hs : SortSetup p parts s) (hw : PatchWired p parts w)
    (hc : w.bay.dirty[i]? = some c) (h : ValuesOk p s i [] w) :
    ValuesOk p s (i + 1) (w.bay.cb .dirty c) w := by
  obtain ⟨hi, hget⟩ := List.getElem?_eq_some_iff.mp hc
  intro index x hx hdrop hleft
  refine h index x hx ?_ (by simp)
  rw [List.drop_eq_getElem_cons hi, hget, List.mem_cons, not_or]
  refine ⟨?_, hdrop⟩
  rintro rfl
  refine hleft ((hw.hook_mem _ .dirty x).mpr ⟨?_, rfl, hx⟩)
  refine List.mem_filterMap.mpr ⟨.sortInput s index, hs.inputs index ?_, rfl⟩
  exact (List.getElem?_eq_some_iff.mp hx).1

/-! ## Inputs that no callback writes -/

/-- The module in the walk over the dirty list. -/
structure Sorting (p : Patch χ μ ς ρ φ) (parts : List (Part μ ς ρ)) (s : ς) (i : Nat)
    (R : List (Cb μ (Hook ς ρ))) (w : PatchWorld χ μ ς ρ φ) : Prop where
  wired : PatchWired p parts w
  dirtyOk : w.bay.DirtyOk
  rows : RowsOk p s w
  values : ValuesOk p s i R w

theorem Sorting.visit (hs : SortSetup p parts s)
    (hsource : ∀ c ∈ (p.sort s).inputs, ¬ p.Out parts c) {fuel : Nat}
    (h : Sorting p parts s i [] w) (hc : w.bay.dirty[i]? = some c)
    (hrun : propagateChan p.net.call .dirty c fuel (w.bay.cb .dirty c).head? w = .ok w') :
    Sorting p parts s (i + 1) [] w' := by
  refine (propagateChan_inv (fun R w1 => (Sorting p parts s (i + 1) R w1 ∧
    w1.bay.dirty[i]? = some c) ∧ ∀ k ∈ R, k ∈ w1.bay.cb .dirty c)
    (fun R w1 h => h.1.1.wired.wired.nodup .dirty c) ?_ ⟨⟨⟨h.wired, h.dirtyOk, h.rows, ?_⟩, hc⟩, ?_⟩
    hrun).1.1
  · rintro k w1 w2 ⟨⟨h1, hc1⟩, hleft⟩ hcall
    have hk := hleft k List.mem_cons_self
    obtain ⟨hw2, hg2, -⟩ := h1.wired.call h1.dirtyOk hk hcall
    refine ⟨⟨⟨hw2, hg2.dirtyOk, (h1.rows.call hs h1.wired h1.dirtyOk hk hcall).1, ?_⟩, ?_⟩,
      fun x hx => mem_of_mem_cbsAfter hx⟩
    · exact h1.values.call hs h1.rows h1.wired h1.dirtyOk hc1 hk hcall
        fun x hx => Or.inl (hg2.read_of_not_src (hsource x hx))
    · obtain ⟨l, hl, -⟩ := hg2.dirty
      rw [hl, List.getElem?_append_left (List.getElem?_eq_some_iff.mp hc1).1]
      exact hc1
  · rw [cbsFrom_head]
    exact h.values.start hs h.wired hc
  · rw [cbsFrom_head]
    exact fun k hk => hk

/-- Between propagations: the values are those of the inputs that are not dirty. -/
structure SortRest (p : Patch χ μ ς ρ φ) (s : ς) (w : PatchWorld χ μ ς ρ φ) : Prop where
  rows : RowsOk p s w
  values : ∀ (index : Nat) c, (p.sort s).inputs[index]? = some c → c ∉ w.bay.dirty →
    (w.mod.other.sort s).values[index]? = some (w.bay.read c).toSort

/-- The emit phase leaves the sort modules alone. -/
theorem PatchWired.emit_sort (h : PatchWired p parts w) (hd : w.bay.DirtyOk) {fuel : Nat}
    (hrun : propagateList p.net.call .emit fuel 0 w = .ok w') :
    w'.mod.other.sort = w.mod.other.sort := by
  refine (h.walk (fun w1 => w1.mod.other.sort = w.mod.other.sort) ?_ hd rfl hrun).2.2
  intro k c w1 w2 hw1 hd1 hP hk _ hcall
  cases k with
  | select m => exact absurd ((hw1.wired.select_mem m .emit c).mp hk).2.1 (by simp)
  | input m j => exact absurd ((hw1.wired.input_mem m j .emit c).mp hk).1 (by simp)
  | other k =>
      cases k with
      | sort s' index => exact absurd ((hw1.hook_mem _ .emit c).mp hk).2.1 (by simp [Hook.type])
      | prv r => rw [(emit_bay (show emit p r w1 = .ok w2 from hcall)).2.2, hP]

/-- The end of a propagation, when the values were right after the dirty phase. -/
theorem SortRest.finish (hs : SortSetup p parts s) {w1 : PatchWorld χ μ ς ρ φ} {fuel n : Nat}
    (hready : PatchReady p parts w) (h : SortRest p s w)
    (hdirty : propagateList p.net.call .dirty fuel 0 (w.setState .propagating) = .ok w1)
    (hlen : w1.bay.dirty.length ≤ n) (hvalues : ValuesOk p s n [] w1)
    (hrun : bayPropagate p.net.call fuel w = .ok w') :
    SortRest p s w' ∧ ((w.mod.other.sort s).copied = true →
      (w'.mod.other.sort s).copied = true) := by
  obtain ⟨w1', w2, hdirty', hemit, hw1, hg1, hw2, hsame, rfl⟩ := hready.phases hrun
  obtain rfl : w1' = w1 := Except.ok.inj (hdirty'.symm.trans hdirty)
  have hw : PatchWired p parts (w.setState .propagating) :=
    hready.wired.bay rfl rfl fun c => Chan.Like.refl _
  have hd : (w.setState .propagating).bay.DirtyOk :=
    ⟨hready.dirtyOk.nodup, hready.dirtyOk.mem_iff⟩
  obtain ⟨-, -, hrows, hcopied⟩ := hw.walk (fun w1 => RowsOk p s w1 ∧
      ((w.mod.other.sort s).copied = true → (w1.mod.other.sort s).copied = true))
    (fun k c w1 w2 hw1 hd1 hP hk _ hcall => by
      obtain ⟨hrows, hmono, -⟩ := hP.1.call hs hw1 hd1 hk hcall
      exact ⟨hrows, fun hc => hmono (hP.2 hc)⟩)
    hd ⟨⟨h.rows.arrays, h.rows.free, h.rows.rows⟩, id⟩ hdirty
  -- The emit phase leaves the module alone
  have hw2' : PatchWired p parts (w1'.setState .emitting) :=
    hw1.bay rfl rfl fun c => Chan.Like.refl _
  have hsort : w2.mod.other.sort = (w1'.setState .emitting).mod.other.sort :=
    hw2'.emit_sort ⟨hg1.dirtyOk.nodup, hg1.dirtyOk.mem_iff⟩ hemit
  have hchan : w2.bay.chan = w1'.bay.chan := by
    rw [hsame]
    rfl
  have hflush : ∀ c, chanRead (if c ∈ w2.bay.dirty then Bay.flushed (w2.bay.chan c)
      else w2.bay.chan c) = w1'.bay.read c := by
    intro c
    rw [Bay.chanRead_ite_flushed, hchan]
    rfl
  refine ⟨⟨⟨?_, fun c hc => ?_, fun hc row hrow => ?_⟩, fun index c hc _ => ?_⟩, fun hc => ?_⟩
  · rw [hsort]
    exact hrows.arrays
  · have hfree := hrows.free c hc
    unfold Free at hfree ⊢
    simp only [hchan]
    split
    · exact hfree
    · exact hfree
  · rw [hsort] at hc hrow
    exact (hflush row.1).trans (hrows.rows hc row hrow)
  · rw [hsort]
    refine (hvalues index c hc ?_ (by simp)).trans
      (congrArg (fun v => some (Value.toSort v)) (hflush c).symm)
    rw [List.drop_of_length_le hlen]
    exact List.not_mem_nil
  · rw [hsort]
    exact hcopied hc

/-- A propagation leaves the values of all inputs in the module. -/
theorem SortRest.propagate (hs : SortSetup p parts s)
    (hsource : ∀ c ∈ (p.sort s).inputs, ¬ p.Out parts c) {fuel : Nat}
    (hready : PatchReady p parts w) (h : SortRest p s w)
    (hrun : bayPropagate p.net.call fuel w = .ok w') :
    SortRest p s w' ∧ ((w.mod.other.sort s).copied = true →
      (w'.mod.other.sort s).copied = true) := by
  obtain ⟨w1, -, hdirty, -⟩ := hready.phases hrun
  have hstart : Sorting p parts s 0 [] (w.setState .propagating) :=
    ⟨hready.wired.bay rfl rfl fun c => Chan.Like.refl _,
      ⟨hready.dirtyOk.nodup, hready.dirtyOk.mem_iff⟩,
      ⟨h.rows.arrays, h.rows.free, h.rows.rows⟩,
      fun index c hc hdrop _ => h.values index c hc hdrop⟩
  obtain ⟨j, hsorting, hend⟩ := propagateList_inv (fun i w1 => Sorting p parts s i [] w1)
    (fun fuel i c w1 w2 h hc hchan => h.visit hs hsource hc hchan) hstart hdirty
  exact h.finish hs hready hdirty (List.getElem?_eq_none_iff.mp hend) hsorting.values hrun

omit [DecidableEq μ] [DecidableEq ς] [DecidableEq ρ] [DecidableEq φ] [DecidableEq χ] in
/-- A nonzero input is a nonzero value, so the arrays are in use. -/
theorem SortRest.copied (h : SortRest p s w) (hnil : w.bay.dirty = [])
    (hne : ∃ c ∈ (p.sort s).inputs, (w.bay.read c).toSort ≠ 0) :
    (w.mod.other.sort s).copied = true := by
  obtain ⟨c, hc, hne⟩ := hne
  by_contra hcopied
  obtain ⟨index, hi, hget⟩ := List.getElem_of_mem hc
  have hval := h.values index c (List.getElem?_eq_some_iff.mpr ⟨hi, hget⟩)
    (by rw [hnil]; exact List.not_mem_nil)
  rw [h.rows.arrays.zero (by simpa using hcopied)] at hval
  exact hne (List.eq_of_mem_replicate (List.mem_of_getElem? hval))

omit [DecidableEq μ] [DecidableEq ς] [DecidableEq ρ] [DecidableEq φ] [DecidableEq χ] in
/-- The values between propagations, and the outputs once the arrays are in use. -/
theorem SortRest.shows (h : SortRest p s w) (hnil : w.bay.dirty = []) :
    (w.mod.other.sort s).values = (p.sort s).inputs.map (fun c => (w.bay.read c).toSort) ∧
      ((w.mod.other.sort s).copied = true →
        (w.mod.other.sort s).sorted.Perm (w.mod.other.sort s).values ∧
        (w.mod.other.sort s).sorted.Pairwise (· ≤ ·) ∧
        (p.sort s).outputs.map w.bay.read = (w.mod.other.sort s).sorted.map .int64) := by
  have harrays := h.rows.arrays
  refine ⟨List.ext_getElem? fun index => ?_, fun hcopied => ?_⟩
  · by_cases hi : index < (p.sort s).inputs.length
    · rw [h.values index _ (List.getElem?_eq_getElem hi) (by rw [hnil]; exact List.not_mem_nil),
        List.getElem?_map, List.getElem?_eq_getElem hi, Option.map_some]
    · have hvalues : (w.mod.other.sort s).values.length ≤ index := by
        rw [harrays.length, ← (p.sort s).same]
        omega
      rw [List.getElem?_eq_none hvalues, List.getElem?_eq_none (by simpa using hi)]
  · have hsorted := harrays.sorted hcopied
    have hperm : (w.mod.other.sort s).sorted.Perm (w.mod.other.sort s).values := by
      rw [hsorted]
      exact List.mergeSort_perm _ _
    have hlen : (p.sort s).outputs.length = (w.mod.other.sort s).sorted.length := by
      rw [hperm.length_eq, harrays.length]
    refine ⟨hperm, hsorted ▸ sorted_mergeSort _, List.ext_getElem (by simpa using hlen) ?_⟩
    intro i hi _
    rw [List.getElem_map, List.getElem_map]
    have hout : i < (p.sort s).outputs.length := by simpa using hi
    have hi' : i < (w.mod.other.sort s).sorted.length := hlen ▸ hout
    apply h.rows.rows hcopied ((p.sort s).outputs[i], (w.mod.other.sort s).sorted[i])
    refine List.mem_iff_getElem.mpr ⟨i, ?_, List.getElem_zip⟩
    rw [List.length_zip, ← hlen, Nat.min_self]
    exact hout

/-- Connecting a part keeps a module that was initialised as it is. -/
theorem connectPart_sort {part : Part μ ς ρ} (hpart : part ≠ .sort s)
    (hrun : connectPart p w part = .ok w') : w'.mod.other.sort s = w.mod.other.sort s := by
  cases part with
  | mux m =>
      obtain ⟨-, -, rfl⟩ := muxInit_eq hrun
      rfl
  | sort s' =>
      rw [connectPart] at hrun
      rw [← Except.ok.inj hrun]
      have hss : s ≠ s' := fun heq => hpart (heq ▸ rfl)
      simp [sortInit, World.setSinks, Function.update_of_ne hss]
  | sortInput s' index =>
      obtain ⟨x, -, -, rfl⟩ := sortSetInput_ok hrun
      rfl
  | prv r =>
      obtain ⟨id, -, -, -, rfl⟩ := prvRegister_ok hrun
      rfl

/-- The arrays made by `sort_init`. -/
def sortZero (n : Nat) : SortArrays :=
  { values := List.replicate n 0, sorted := List.replicate n 0, copied := false }

/-- Free channels stay free when other parts are connected. -/
theorem Free.connectPart {part : Part μ ς ρ} (hrun : connectPart p w part = .ok w')
    (h : Free w.bay c) : Free w'.bay c := by
  unfold Free
  rcases connectPart_chan hrun c with ⟨_, _, heq, hdup⟩ | heq
  · rw [heq]
    exact ⟨h.1, hdup h.2⟩
  · rw [heq]
    exact ⟨rfl, rfl⟩

omit [DecidableEq μ] [DecidableEq ρ] [DecidableEq φ] in
/-- `sort_init` makes the arrays and the outputs. -/
theorem sortInit_zero :
    (sortInit p w s).mod.other.sort s = sortZero (p.sort s).outputs.length ∧
      ∀ c ∈ (p.sort s).outputs, Free (sortInit p w s).bay c := by
  refine ⟨by simp [sortInit, World.setSinks, sortZero], fun c hc => ?_⟩
  unfold Free
  rw [sortInit_chan, if_pos hc]
  exact ⟨rfl, rfl⟩

/-- The module when it is connected. -/
theorem SortRest.connect (hs : SortSetup p parts s) {chan : χ → Chan}
    (hnull : ∀ c ∈ (p.sort s).inputs, chanRead (chan c) = .null)
    (hclean : ∀ c, (chan c).isDirty = false) (honce : parts.Nodup)
    (hrun : connectParts p parts (patchInit chan) = .ok w) :
    SortRest p s w ∧ (w.mod.other.sort s).copied = false := by
  obtain ⟨hinit, hreg⟩ := patchInit_connected (p := p) hclean
  have hstep : ∀ done part (w w' : PatchWorld χ μ ς ρ φ), PatchConnected p done w →
      Registered p done w.mod.other →
      ((∀ c ∈ (p.sort s).inputs, w.bay.read c = .null) ∧ (.sort s ∈ done →
        w.mod.other.sort s = sortZero (p.sort s).outputs.length ∧
          ∀ c ∈ (p.sort s).outputs, Free w.bay c)) → connectPart p w part = .ok w' →
      (∀ c ∈ (p.sort s).inputs, w'.bay.read c = .null) ∧ (.sort s ∈ done ++ [part] →
        w'.mod.other.sort s = sortZero (p.sort s).outputs.length ∧
          ∀ c ∈ (p.sort s).outputs, Free w'.bay c) := by
    rintro done part w w' - - ⟨hread, hzero⟩ hpart
    refine ⟨fun c hc => ?_, fun hmem => ?_⟩
    · unfold Bay.read
      rcases connectPart_chan hpart c with ⟨_, _, heq, -⟩ | heq
      · rw [heq]
        exact hread c hc
      · rw [heq]
        rfl
    · by_cases hself : part = .sort s
      · subst hself
        rw [connectPart] at hpart
        rw [← Except.ok.inj hpart]
        exact sortInit_zero
      · have hdone : .sort s ∈ done := by
          rcases List.mem_append.mp hmem with hmem | hmem
          · exact hmem
          · exact absurd (List.mem_singleton.mp hmem).symm hself
        obtain ⟨hsort, hfree⟩ := hzero hdone
        exact ⟨(connectPart_sort hself hpart).trans hsort,
          fun c hc => (hfree c hc).connectPart hpart⟩
  obtain ⟨-, -, hread, hzero⟩ := connectParts_inv _ hstep hinit hreg
    ⟨hnull, fun hmem => absurd hmem List.not_mem_nil⟩ (by simpa using honce) hrun
  obtain ⟨hsort, hfree⟩ := hzero (by simpa using hs.init)
  refine ⟨⟨⟨?_, hfree, fun hcopied => ?_⟩, fun index c hc _ => ?_⟩, by rw [hsort]; rfl⟩
  · rw [hsort]
    exact ⟨by simp [sortZero], fun _ => rfl, fun h => by cases h⟩
  · rw [hsort] at hcopied
    cases hcopied
  · rw [hsort, hread c (List.mem_of_getElem? hc)]
    have hi := (List.getElem?_eq_some_iff.mp hc).1
    rw [(p.sort s).same] at hi
    simp [sortZero, Value.toSort, hi]

/-! ## Runs -/

/-- The runs of a bay with a sort module whose inputs are only written from outside:
some writes of channels that are no outputs, and a propagation.  The flag tells
whether an input was nonzero after some propagation. -/
inductive SortRun (p : Patch χ μ ς ρ φ) (parts : List (Part μ ς ρ)) (s : ς) (chan : χ → Chan) :
    Bool → PatchWorld χ μ ς ρ φ → Prop where
  | connect {w : PatchWorld χ μ ς ρ φ} (hchan : ∀ c, Unregistered (chan c))
      (hclean : ∀ c, (chan c).isDirty = false) (honce : parts.Nodup)
      (hrun : connectParts p parts (patchInit chan) = .ok w) : SortRun p parts s chan false w
  | step {seen : Bool} {w w' : PatchWorld χ μ ς ρ φ} {ops : List (ChanOp χ)}
      {b : Bay χ (Cb μ (Hook ς ρ))} {fuel : Nat} (h : SortRun p parts s chan seen w)
      (hsource : ∀ op ∈ ops, ¬ p.Out parts op.chan) (hops : writeAll ops w.bay = .ok b)
      (hrun : bayPropagate p.net.call fuel { w with bay := b } = .ok w') :
      SortRun p parts s chan
        (seen || (p.sort s).inputs.any fun c => (w'.bay.read c).toSort ≠ 0) w'

theorem PatchReady.writeAll {ops : List (ChanOp χ)} {b : Bay χ (Cb μ (Hook ς ρ))}
    (h : PatchReady p parts w) (hops : Ovni.writeAll ops w.bay = .ok b) :
    PatchReady p parts { w with bay := b } := by
  induction ops generalizing w with
  | nil =>
      rw [Ovni.writeAll] at hops
      rw [← Except.ok.inj hops]
      exact h
  | cons op ops ih =>
      rw [Ovni.writeAll] at hops
      obtain ⟨b1, hop, hrest⟩ := bind_ok hops
      have hall := ih (h.write (show (BayOp.write op).run w.bay = .ok b1 from hop)) hrest
      exact hall

omit [DecidableEq μ] [DecidableEq ς] [DecidableEq ρ] [DecidableEq φ] in
/-- Writes of inputs leave the values of the others. -/
theorem SortRest.writeAll (hs : SortSetup p parts s) (h : SortRest p s w)
    (hd : w.bay.DirtyOk) {ops : List (ChanOp χ)} {b : Bay χ (Cb μ (Hook ς ρ))}
    (hsource : ∀ op ∈ ops, ¬ p.Out parts op.chan) (hops : Ovni.writeAll ops w.bay = .ok b) :
    SortRest p s { w with bay := b } := by
  have hwritten := writeAll_ok (fun c => ¬ p.Out parts c) hd hsource hops
  have hout : ∀ c ∈ (p.sort s).outputs, ¬ ¬ p.Out parts c :=
    fun c hc hnot => hnot (hs.out hc)
  refine ⟨⟨h.rows.arrays, fun c hc => ?_, fun hcopied row hrow => ?_⟩, fun index c hc hdirty => ?_⟩
  · have hlike := hwritten.like c
    exact ⟨hlike.type.trans (h.rows.free c hc).1, hlike.allowDup.trans (h.rows.free c hc).2⟩
  · have hrow1 := (List.of_mem_zip hrow).1
    rw [hwritten.read_of_not_src (hout _ hrow1)]
    exact h.rows.rows hcopied row hrow
  · rw [hwritten.read_of_not_mem hdirty]
    exact h.values index c hc fun hmem => hdirty (hwritten.mono c hmem)

theorem SortRun.rest (hs : SortSetup p parts s)
    (hsource : ∀ c ∈ (p.sort s).inputs, ¬ p.Out parts c) {chan : χ → Chan}
    (hnull : ∀ c ∈ (p.sort s).inputs, chanRead (chan c) = .null) {seen : Bool}
    (h : SortRun p parts s chan seen w) :
    PatchReady p parts w ∧ SortRest p s w ∧ w.bay.dirty = [] ∧
      (seen = true → (w.mod.other.sort s).copied = true) := by
  induction h with
  | connect hchan hclean honce hrun =>
      obtain ⟨hinit, hreg⟩ := patchInit_connected (p := p) hclean
      obtain ⟨hconn, -, -⟩ := connectParts_inv (fun _ _ => True) (fun _ _ _ _ _ _ _ _ => trivial)
        hinit hreg trivial (by simpa using honce) hrun
      exact ⟨PatchReady.connect hchan hclean honce hrun,
        (SortRest.connect hs hnull hclean honce hrun).1, hconn.connected.nodirty, by simp⟩
  | step _ hops_source hops hrun ih =>
      obtain ⟨hready, hrest, -, hseen⟩ := ih
      have hready1 := hready.writeAll hops
      obtain ⟨hrest', hmono⟩ :=
        (hrest.writeAll hs hready.dirtyOk hops_source hops).propagate hs hsource hready1 hrun
      obtain ⟨hready', hnil, -⟩ := hready1.propagate hrun
      refine ⟨hready', hrest', hnil, fun hflag => ?_⟩
      rw [Bool.or_eq_true] at hflag
      rcases hflag with hflag | hflag
      · exact hmono (hseen hflag)
      · obtain ⟨c, hc, hne⟩ := List.any_eq_true.mp hflag
        exact hrest'.copied hnil ⟨c, hc, by simpa using hne⟩

/-- After every propagation the values of the module are the integers of its inputs;
once an input was nonzero, `sorted` is their ascending sort and the outputs show it. -/
theorem sort_rows_sorted (hs : SortSetup p parts s)
    (hsource : ∀ c ∈ (p.sort s).inputs, ¬ p.Out parts c) {chan : χ → Chan}
    (hnull : ∀ c ∈ (p.sort s).inputs, chanRead (chan c) = .null) {seen : Bool}
    (h : SortRun p parts s chan seen w) :
    (w.mod.other.sort s).values = (p.sort s).inputs.map (fun c => (w.bay.read c).toSort) ∧
      (seen = true →
        (w.mod.other.sort s).sorted.Perm (w.mod.other.sort s).values ∧
        (w.mod.other.sort s).sorted.Pairwise (· ≤ ·) ∧
        (p.sort s).outputs.map w.bay.read = (w.mod.other.sort s).sorted.map .int64) := by
  obtain ⟨-, hrest, hnil, hcopied⟩ := h.rest hs hsource hnull
  obtain ⟨hvalues, hshown⟩ := hrest.shows hnil
  exact ⟨hvalues, fun hseen => hshown (hcopied hseen)⟩

end Module

/-! ## Three inputs -/

/-- A sort module from the channels 0, 1 and 2 to the channels 3, 4 and 5. -/
def demoSort : Patch (Fin 6) Empty Unit Empty Empty where
  mux := Empty.elim
  sort _ := { inputs := [0, 1, 2], outputs := [3, 4, 5], same := rfl }
  rchan := Empty.elim
  nrows := Empty.elim

/-- The module and its inputs. -/
def demoSortParts : List (Part Empty Unit Empty) :=
  [.sort (), .sortInput () 0, .sortInput () 1, .sortInput () 2]

theorem demo_sortSetup : SortSetup demoSort demoSortParts () where
  init := by decide
  inputs := by
    intro index hindex
    have hlt : index < 3 := hindex
    obtain rfl | rfl | rfl : index = 0 ∨ index = 1 ∨ index = 2 := by omega
    · decide
    · decide
    · decide
  nodup := by decide
  apart := by decide
  mux := nofun
  other := fun _ _ _ hne => absurd rfl hne

/-- The module, connected. -/
def demoSortConnected : PatchWorld (Fin 6) Empty Unit Empty Empty :=
  okOr (patchInit fun _ => chanInit .single)
    (connectParts demoSort demoSortParts (patchInit fun _ => chanInit .single))

/-- The module after some writes of the inputs. -/
def demoSortWritten (w : PatchWorld (Fin 6) Empty Unit Empty Empty) (ops : List (ChanOp (Fin 6))) :
    PatchWorld (Fin 6) Empty Unit Empty Empty :=
  { w with bay := okOr w.bay (writeAll ops w.bay) }

/-- The module after some writes of the inputs and a propagation. -/
def demoSortStep (w : PatchWorld (Fin 6) Empty Unit Empty Empty) (ops : List (ChanOp (Fin 6))) :
    PatchWorld (Fin 6) Empty Unit Empty Empty :=
  okOr (demoSortWritten w ops) (bayPropagate demoSort.net.call 20 (demoSortWritten w ops))

theorem demo_sortSource {c : Fin 6} (hc : c ∈ (demoSort.sort ()).inputs) :
    ¬ demoSort.Out demoSortParts c := by
  rintro (⟨m, -⟩ | ⟨k, -, hk⟩)
  · exact m.elim
  · cases k with
    | prv r => exact r.elim
    | sort s index =>
        have hout : c ∈ (demoSort.sort ()).outputs := hk
        have hapart : ∀ c ∈ (demoSort.sort ()).inputs, c ∉ (demoSort.sort ()).outputs := by decide
        exact hapart c hc hout

theorem demo_sortConnect : SortRun demoSort demoSortParts () (fun _ => chanInit .single) false
    demoSortConnected :=
  .connect (fun _ => .init .single) (fun _ => rfl) (by decide)
    (eq_okOr _ (by decide +kernel))

theorem demo_sortStep {seen : Bool} {w : PatchWorld (Fin 6) Empty Unit Empty Empty}
    (ops : List (ChanOp (Fin 6)))
    (h : SortRun demoSort demoSortParts () (fun _ => chanInit .single) seen w)
    (hinput : ∀ op ∈ ops, op.chan ∈ (demoSort.sort ()).inputs)
    (hops : (writeAll ops w.bay).isOk = true)
    (hprop : (bayPropagate demoSort.net.call 20 (demoSortWritten w ops)).isOk = true) :
    SortRun demoSort demoSortParts () (fun _ => chanInit .single)
      (seen || (demoSort.sort ()).inputs.any fun c =>
        ((demoSortStep w ops).bay.read c).toSort ≠ 0)
      (demoSortStep w ops) := by
  have hrun : bayPropagate demoSort.net.call 20 (demoSortWritten w ops) =
      .ok (demoSortStep w ops) := eq_okOr _ hprop
  exact h.step (fun op hop => demo_sortSource (hinput op hop)) (eq_okOr w.bay hops) hrun

/-- Two inputs at once, of which the first takes the path that sorts from scratch. -/
def demoSortFirst : List (ChanOp (Fin 6)) := [.set 0 (.int64 5), .set 1 (.int64 (-3))]

/-- Then an equal value, and a null. -/
def demoSortSecond : List (ChanOp (Fin 6)) := [.set 2 (.int64 5), .set 1 .null]

/-- Two propagations, with several inputs each and equal values. -/
theorem sort_rows_sorted_demo :
    ∃ w1 w2, SortRun demoSort demoSortParts () (fun _ => chanInit .single) true w1 ∧
      SortRun demoSort demoSortParts () (fun _ => chanInit .single) true w2 ∧
      (w1.mod.other.sort ()).values = [5, -3, 0] ∧
      [3, 4, 5].map w1.bay.read = [.int64 (-3), .int64 0, .int64 5] ∧
      (w2.mod.other.sort ()).values = [5, 0, 5] ∧
      [3, 4, 5].map w2.bay.read = [.int64 0, .int64 5, .int64 5] := by
  have hfirst := demo_sortStep demoSortFirst demo_sortConnect (by decide)
    (by decide +kernel) (by decide +kernel)
  have hsecond := demo_sortStep demoSortSecond hfirst (by decide)
    (by decide +kernel) (by decide +kernel)
  obtain ⟨w1, hw1⟩ : ∃ w1, demoSortStep demoSortConnected demoSortFirst = w1 := ⟨_, rfl⟩
  obtain ⟨w2, hw2⟩ : ∃ w2, demoSortStep w1 demoSortSecond = w2 := ⟨_, rfl⟩
  have hseen : (false || (demoSort.sort ()).inputs.any fun c =>
      ((demoSortStep demoSortConnected demoSortFirst).bay.read c).toSort ≠ 0) = true := by
    decide +kernel
  rw [hseen, Bool.true_or, hw1, hw2] at hsecond
  rw [hseen, hw1] at hfirst
  obtain ⟨hvalues1, hrows1⟩ := sort_rows_sorted demo_sortSetup (fun _ => demo_sortSource)
    (fun _ _ => rfl) hfirst
  obtain ⟨hvalues2, hrows2⟩ := sort_rows_sorted demo_sortSetup (fun _ => demo_sortSource)
    (fun _ _ => rfl) hsecond
  have hsorted1 : (w1.mod.other.sort ()).sorted = [-3, 0, 5] := by
    rw [← hw1]
    decide +kernel
  have hsorted2 : (w2.mod.other.sort ()).sorted = [0, 5, 5] := by
    rw [← hw2, ← hw1]
    decide +kernel
  refine ⟨w1, w2, hfirst, hsecond, hvalues1.trans ?_, ?_, hvalues2.trans ?_, ?_⟩
  · rw [← hw1]
    decide +kernel
  · have hread := (hrows1 rfl).2.2
    rw [hsorted1] at hread
    exact hread
  · rw [← hw2, ← hw1]
    decide +kernel
  · have hread := (hrows2 rfl).2.2
    rw [hsorted2] at hread
    exact hread

end Ovni
