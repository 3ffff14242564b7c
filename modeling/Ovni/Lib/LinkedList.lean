import Mathlib.Logic.Function.Basic

/-!
# Doubly linked lists

Lists threaded through the links of their nodes.  The last node has no next one, and
the first one points back to the last.  Nodes are added and deleted with a few writes
that leave the nodes of other lists alone.
-/

namespace Ovni.Lib

/-- The links of all nodes. -/
structure Links (α : Type) where
  next : α → Option α
  prev : α → Option α

section

variable {α : Type} {k k' : Links α} {head : Option α} {l : List α} {x y : α}

/-! ## The lists -/

/-- Each node points to the one after it, and that one back. -/
def Linked (k : Links α) : List α → Prop
  | [] => True
  | [x] => k.next x = none
  | x :: y :: l => k.next x = some y ∧ k.prev y = some x ∧ Linked k (y :: l)

/-- The nodes that are reached from `head`, in order. -/
structure IsDList (k : Links α) (head : Option α) (l : List α) : Prop where
  head : head = l.head?
  linked : Linked k l
  tail : ∀ x ∈ l.head?, k.prev x = l.getLast?
  nodup : l.Nodup

theorem Linked.frame (h : Linked k l) (hnext : ∀ x ∈ l, k'.next x = k.next x)
    (hprev : ∀ x ∈ l.tail, k'.prev x = k.prev x) : Linked k' l := by
  induction l with
  | nil => trivial
  | cons x l ih =>
      cases l with
      | nil => exact (hnext x (by simp)).trans h
      | cons y l =>
          refine ⟨(hnext x (by simp)).trans h.1, (hprev y (by simp)).trans h.2.1, ih h.2.2 ?_ ?_⟩
          · exact fun z hz => hnext z (List.mem_cons_of_mem _ hz)
          · exact fun z hz => hprev z (List.mem_cons_of_mem _ hz)

theorem IsDList.nil (k : Links α) : IsDList k none [] :=
  ⟨rfl, trivial, by simp, List.nodup_nil⟩

/-- A list only depends on the links of its nodes. -/
theorem IsDList.frame (h : IsDList k head l)
    (hsame : ∀ x ∈ l, k'.next x = k.next x ∧ k'.prev x = k.prev x) : IsDList k' head l := by
  refine ⟨h.head, h.linked.frame (fun x hx => (hsame x hx).1) fun x hx =>
    (hsame x (List.mem_of_mem_tail hx)).2, fun x hx => ?_, h.nodup⟩
  exact (hsame x (List.mem_of_mem_head? hx)).2.trans (h.tail x hx)

theorem Linked.unique {l' : List α} (h : Linked k l) (h' : Linked k l')
    (hhead : l.head? = l'.head?) : l = l' := by
  induction l generalizing l' with
  | nil =>
      cases l' with
      | nil => rfl
      | cons y l' => cases hhead
  | cons x l ih =>
      cases l' with
      | nil => cases hhead
      | cons y l' =>
          obtain rfl : x = y := by simpa using hhead
          -- The link of the first node tells whether there is another one
          cases l with
          | nil =>
              cases l' with
              | nil => rfl
              | cons y' l' =>
                  have hnone : k.next x = none := h
                  rw [h'.1] at hnone
                  cases hnone
          | cons z l =>
              cases l' with
              | nil =>
                  have hnone : k.next x = none := h'
                  rw [h.1] at hnone
                  cases hnone
              | cons y' l' =>
                  have hz : some z = some y' := h.1.symm.trans h'.1
                  rw [ih h.2.2 h'.2.2 hz]

/-- The list is determined by its head. -/
theorem IsDList.unique {l' : List α} (h : IsDList k head l) (h' : IsDList k head l') : l = l' :=
  h.linked.unique h'.linked (h.head.symm.trans h'.head)

/-! ## The operations -/

variable [DecidableEq α]

def Links.setNext (k : Links α) (x : α) (y : Option α) : Links α :=
  { k with next := Function.update k.next x y }

def Links.setPrev (k : Links α) (x : α) (y : Option α) : Links α :=
  { k with prev := Function.update k.prev x y }

/-- `DL_PREPEND`: the links and the head after it. -/
def dlPrepend (k : Links α) (head : Option α) (add : α) : Links α × Option α :=
  let k := k.setNext add head
  match head with
  | some h => ((k.setPrev add (k.prev h)).setPrev h (some add), some add)
  | none => (k.setPrev add (some add), some add)

/-- `DL_DELETE`, unless it follows a null link. -/
def dlDelete (k : Links α) (head : Option α) (del : α) : Option (Links α × Option α) :=
  if k.prev del = some del then some (k, none)
  else if head = some del then do
    let next ← k.next del
    return (k.setPrev next (k.prev del), k.next del)
  else do
    let prev ← k.prev del
    let k := k.setNext prev (k.next del)
    match k.next del with
    | some next => return (k.setPrev next (k.prev del), head)
    | none => return (k.setPrev (← head) (k.prev del), head)

/-- The new node is the first one, and only the links of the list have changed. -/
theorem IsDList.prepend (h : IsDList k head l) (hx : x ∉ l) :
    IsDList (dlPrepend k head x).1 (dlPrepend k head x).2 (x :: l) ∧
      ∀ z, z ∉ x :: l → (dlPrepend k head x).1.next z = k.next z ∧
        (dlPrepend k head x).1.prev z = k.prev z := by
  have hnodup := h.nodup
  cases l with
  | nil =>
      obtain rfl := h.head
      refine ⟨⟨rfl, ?_, ?_, by simp⟩, fun z hz => ?_⟩
      · simp [Linked, dlPrepend, Links.setNext, Links.setPrev]
      · simp [dlPrepend, Links.setNext, Links.setPrev]
      · have hz : z ≠ x := by simpa using hz
        simp [dlPrepend, Links.setNext, Links.setPrev, Function.update_of_ne hz]
  | cons y l =>
      obtain rfl := h.head
      have hne : x ≠ y := fun heq => hx (by simp [heq])
      have hnew : ∀ z, (dlPrepend k (y :: l).head? x).1.next z =
          Function.update k.next x (some y) z := fun z => rfl
      have hprev : ∀ z, (dlPrepend k (y :: l).head? x).1.prev z =
          Function.update (Function.update k.prev x (k.prev y)) y (some x) z := fun z => rfl
      refine ⟨⟨rfl, ⟨(hnew x).trans (by simp), (hprev y).trans (by simp),
        h.linked.frame ?_ ?_⟩, ?_, ?_⟩, fun z hz => ?_⟩
      · intro z hz
        rw [hnew, Function.update_of_ne]
        rintro rfl
        exact hx hz
      · intro z hz
        rw [hprev, Function.update_of_ne, Function.update_of_ne]
        · rintro rfl
          exact hx (List.mem_cons_of_mem _ hz)
        · rintro rfl
          exact (List.nodup_cons.mp hnodup).1 hz
      · intro z hz
        obtain rfl : x = z := by simpa using hz
        rw [hprev, Function.update_of_ne hne, Function.update_self, h.tail y (by simp)]
        rfl
      · exact List.nodup_cons.mpr ⟨hx, hnodup⟩
      · simp only [List.mem_cons, not_or] at hz
        rw [hnew, hprev, Function.update_of_ne hz.1, Function.update_of_ne hz.2.1,
          Function.update_of_ne hz.1]
        exact ⟨rfl, rfl⟩

/-- The first node is deleted, and only the links of the list have changed. -/
theorem IsDList.delete_head (h : IsDList k head (x :: l)) :
    ∃ k', dlDelete k head x = some (k', l.head?) ∧ IsDList k' l.head? l ∧
      ∀ z, z ∉ l → k'.next z = k.next z ∧ k'.prev z = k.prev z := by
  obtain ⟨hx, hnodup⟩ := List.nodup_cons.mp h.nodup
  have htail : k.prev x = (x :: l).getLast? := h.tail x rfl
  cases l with
  | nil =>
      exact ⟨k, by simp [dlDelete, htail], IsDList.nil k, fun z _ => ⟨rfl, rfl⟩⟩
  | cons y l =>
      have hlast : k.prev x ≠ some x := by
        rw [htail, List.getLast?_cons_cons]
        exact fun heq => hx (List.mem_of_mem_getLast? heq)
      have hnext : k.next x = some y := h.linked.1
      refine ⟨k.setPrev y (k.prev x), ?_, ⟨rfl, ?_, ?_, hnodup⟩, fun z hz => ⟨rfl, ?_⟩⟩
      · have hhead : head = some x := h.head
        simp [dlDelete, hlast, hhead, hnext]
      · refine h.linked.2.2.frame (fun _ _ => rfl) fun z hz => ?_
        refine Function.update_of_ne ?_ _ _
        rintro rfl
        exact (List.nodup_cons.mp hnodup).1 hz
      · intro z hz
        obtain rfl : y = z := by simpa using hz
        simp only [Links.setPrev, Function.update_self, htail]
        rfl
      · refine Function.update_of_ne ?_ _ _
        rintro rfl
        exact hz (by simp)

end

end Ovni.Lib
