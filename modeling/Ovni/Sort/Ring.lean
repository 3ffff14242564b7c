import Ovni.Sort.Model

/-!
# The ring of the last events

A ring of size `n` holds the last `n - 1` pointers that were added.  `RingHolds`
lists them from the head to the tail, and each loop over the ring is described
by what it does to that list.
-/

namespace Ovni

open Ovni.Lib

/-- The index of the `j`-th entry. -/
def Ring.at (r : Ring) (j : Nat) : Nat :=
  if r.head + j < r.size then r.head + j else r.head + j - r.size

/-- The entries of the ring, from the oldest to the newest. -/
structure RingHolds (r : Ring) (l : List Int) : Prop where
  size : 2 ≤ r.size
  head : r.head < r.size
  count : l.length < r.size
  tail : r.tail = r.at l.length
  ev : ∀ j (hj : j < l.length), r.ev (r.at j) = l[j]
  start : l.length + 1 < r.size → r.head = 0

section Index

variable {r : Ring} {i j : Nat}

theorem Ring.at_inj (_hh : r.head < r.size) (hi : i < r.size) (hj : j < r.size) :
    r.at i = r.at j ↔ i = j := by
  unfold Ring.at
  split_ifs <;> omega

theorem Ring.next_at (hh : r.head < r.size) (hj : j < r.size) :
    r.next (r.at j) = r.at (j + 1) := by
  unfold Ring.next Ring.at
  split_ifs <;> omega

theorem Ring.mod_at (hh : r.head < r.size) (hj : j + 1 < r.size) :
    (r.at j + 1) % r.size = r.at (j + 1) := by
  have hlt : r.at j < r.size := by
    unfold Ring.at
    split <;> omega
  unfold Ring.at at *
  by_cases hend : r.head + j + 1 = r.size
  · rw [if_pos (by omega), if_neg (by omega), hend, Nat.mod_self]
    omega
  · rw [Nat.mod_eq_of_lt (by split_ifs at hlt ⊢ <;> omega)]
    split_ifs <;> omega

theorem Ring.prev_at (_hh : r.head < r.size) (hj : j + 1 < r.size) :
    r.prev (r.at (j + 1)) = r.at j := by
  unfold Ring.prev Ring.at
  by_cases hwrap : r.head + (j + 1) < r.size
  · rw [if_pos hwrap, if_neg (by omega), if_pos (by omega)]
    omega
  · rw [if_neg hwrap]
    by_cases hzero : r.head + (j + 1) - r.size = 0
    · rw [if_pos hzero, if_pos (by omega)]
      omega
    · rw [if_neg hzero, if_neg (by omega)]
      omega

theorem Ring.prev_head (hh : r.head < r.size) : r.prev r.head = r.at (r.size - 1) := by
  unfold Ring.prev Ring.at
  split_ifs <;> omega

end Index

/-! ## ring_add -/

/-- The last `n - 1` of a list. -/
def window (n : Nat) (l : List Int) : List Int := l.drop (l.length - (n - 1))

theorem length_window (n : Nat) (l : List Int) :
    (window n l).length = min l.length (n - 1) := by
  unfold window
  rw [List.length_drop]
  omega

theorem window_append (n : Nat) (hn : 2 ≤ n) (l : List Int) (x : Int) :
    window n (window n l ++ [x]) = window n (l ++ [x]) := by
  unfold window
  simp only [List.length_append, List.length_drop, List.length_singleton]
  by_cases hfull : n - 1 ≤ l.length
  · rw [List.drop_append_of_le_length (by simp; omega), List.drop_drop,
      List.drop_append_of_le_length (by omega)]
    congr 2
    omega
  · have h0 : l.length - (n - 1) = 0 := by omega
    have h1 : l.length - 0 + 1 - (n - 1) = l.length + 1 - (n - 1) := by omega
    rw [h0, h1, List.drop_zero]

section Add

variable {r : Ring} {l : List Int}

/-- Adding to a ring with room for one more. -/
theorem RingHolds.add_room (h : RingHolds r l) (hroom : l.length + 1 < r.size) (x : Int) :
    RingHolds (ringAdd r x) (l ++ [x]) := by
  have hhead : r.head = 0 := h.start hroom
  have htail : r.tail = l.length := by
    rw [h.tail]
    unfold Ring.at
    rw [hhead, if_pos (by omega), Nat.zero_add]
  have hadd : ringAdd r x =
      { r with ev := Function.update r.ev l.length x, tail := l.length + 1, head := 0 } := by
    have hnext : (if r.size ≤ l.length + 1 then 0 else l.length + 1) = l.length + 1 :=
      if_neg (by omega)
    unfold ringAdd
    have hfar : ¬ 0 = l.length + 1 := by omega
    simp only [htail, hhead, hnext, if_neg hfar]
    rw [if_neg (by omega)]
  rw [hadd]
  refine ⟨h.size, by simp only; omega, by simp; omega, ?_, fun j hj => ?_, fun _ => rfl⟩
  · simp only [Ring.at, List.length_append, List.length_singleton]
    rw [if_pos (by omega)]
    omega
  · have hev := h.ev
    simp only [Ring.at, hhead, Nat.zero_add, List.length_append,
      List.length_singleton] at hev hj ⊢
    rw [if_pos (by omega)]
    by_cases hlast : j = l.length
    · subst hlast
      simp
    · rw [Function.update_of_ne hlast, List.getElem_append_left (by omega)]
      have := hev j (by omega)
      rwa [if_pos (by omega)] at this

/-- Adding to a full ring drops its oldest entry: the tail is one before the head, which
moves on with it. -/
theorem RingHolds.add_full (h : RingHolds r l) (hfull : l.length + 1 = r.size) (x : Int) :
    RingHolds (ringAdd r x) ((l ++ [x]).drop 1) := by
  have hs := h.size
  have hh := h.head
  have ht := h.tail
  have htail : r.tail = r.prev r.head := by
    rw [ht, Ring.prev_head hh]
    congr 1
    omega
  have hnext : (if r.size ≤ r.tail + 1 then 0 else r.tail + 1) = r.head := by
    rw [htail]
    unfold Ring.prev
    split_ifs <;> omega
  have hadd : ringAdd r x =
      { r with ev := Function.update r.ev r.tail x, tail := r.head, head := r.next r.head } := by
    unfold ringAdd
    simp only [hnext, if_true]
    rfl
  have hstep : ∀ j, j + 1 < r.size →
      ({ r with ev := Function.update r.ev r.tail x, tail := r.head,
                head := r.next r.head } : Ring).at j = r.at (j + 1) := by
    intro j hj
    simp only [Ring.at, Ring.next]
    split_ifs <;> omega
  rw [hadd]
  refine ⟨hs, ?_, by simp; omega, ?_, fun j hj => ?_, fun hlt => ?_⟩
  · simp only [Ring.next]
    split_ifs <;> omega
  · simp only [List.length_drop, List.length_append, List.length_singleton, Ring.at, Ring.next]
    split_ifs <;> omega
  · have hj' : j < l.length := by simpa using hj
    rw [hstep j (by omega)]
    simp only [List.getElem_drop]
    have hcomm : 1 + j = j + 1 := Nat.add_comm 1 j
    by_cases hlast : j + 1 = l.length
    · have hidx : r.at (j + 1) = r.tail := by rw [hlast, ht]
      rw [hidx, Function.update_self, List.getElem_append_right (by omega)]
      simp
    · have hidx : r.at (j + 1) ≠ r.tail := by
        rw [ht, Ne, Ring.at_inj hh (by omega) h.count]
        exact hlast
      rw [Function.update_of_ne hidx, h.ev (j + 1) (by omega),
        List.getElem_append_left (by omega)]
      simp only [hcomm]
  · simp only [List.length_drop, List.length_append, List.length_singleton] at hlt
    omega

/-- Adding to a ring drops its oldest entry when it is full. -/
theorem RingHolds.add (h : RingHolds r l) (x : Int) :
    RingHolds (ringAdd r x) (window r.size (l ++ [x])) := by
  have hc := h.count
  have hlen : (l ++ [x]).length = l.length + 1 := by
    rw [List.length_append, List.length_singleton]
  unfold window
  rw [hlen]
  by_cases hroom : l.length + 1 < r.size
  · have hdrop : l.length + 1 - (r.size - 1) = 0 := by omega
    rw [hdrop, List.drop_zero]
    exact h.add_room hroom x
  · have hdrop : l.length + 1 - (r.size - 1) = 1 := by omega
    rw [hdrop]
    exact h.add_full (by omega) x

end Add

/-! ## find_destination -/

/-- The clock of the event at an offset. -/
def clockAt (buf : Mem) (p : Int) : Nat := (evAt buf p).clock.toNat

section Find

variable {r : Ring} {l : List Int} (buf : Mem) (clock : Nat)

/-- Where the search stands when the first `j` entries are left. -/
def Ring.cursor (r : Ring) (j : Nat) : Nat := if j = 0 then r.at (r.size - 1) else r.at (j - 1)

omit buf clock in
theorem Ring.prev_cursor {j : Nat} (hh : r.head < r.size) (hj : j < r.size) :
    r.prev (r.at j) = r.cursor j := by
  unfold Ring.cursor
  split
  · rename_i hzero
    rw [hzero, ← Ring.prev_head hh]
    congr 1
    unfold Ring.at
    split <;> omega
  · have hback := Ring.prev_at hh (j := j - 1) (by omega)
    rwa [Nat.sub_add_cancel (by omega)] at hback

/-- The search goes back to the newest entry with a smaller clock. -/
theorem findLoop_spec (h : RingHolds r l) (fuel j nback : Nat) (hj : j ≤ l.length)
    (hfuel : j < fuel) :
    (∃ k, ∃ hk : k < l.length, k < j ∧
      findLoop buf r clock (r.prev r.head) fuel (r.cursor j) nback = .ok (.inl (r.at k)) ∧
      clockAt buf l[k] < clock) ∨
    (findLoop buf r clock (r.prev r.head) fuel (r.cursor j) nback = .ok (.inr (nback + j)) ∧
      ∀ i (hi : i < l.length), i < j → clock ≤ clockAt buf l[i]) := by
  have hc := h.count
  induction j generalizing fuel nback with
  | zero =>
      right
      obtain ⟨fuel, rfl⟩ : ∃ n, fuel = n + 1 := ⟨fuel - 1, by omega⟩
      rw [findLoop, Ring.prev_head h.head]
      simp [Ring.cursor]
  | succ j ih =>
      obtain ⟨fuel, rfl⟩ : ∃ n, fuel = n + 1 := ⟨fuel - 1, by omega⟩
      have hcur : r.cursor (j + 1) = r.at j := by simp [Ring.cursor]
      have hstop : r.at j ≠ r.prev r.head := by
        rw [Ring.prev_head h.head, Ne, Ring.at_inj h.head (by omega) (by omega)]
        omega
      rw [findLoop, hcur, if_neg hstop, h.ev j (by omega)]
      by_cases hlt : (evAt buf l[j]).clock.toNat < clock
      · rw [if_pos hlt]
        exact .inl ⟨j, by omega, by omega, rfl, hlt⟩
      · rw [if_neg hlt, Ring.prev_cursor h.head (by omega)]
        rcases ih fuel (nback + 1) (by omega) (by omega) with
          ⟨k, hk, hkj, hfind, hclk⟩ | ⟨hnone, hall⟩
        · exact .inl ⟨k, hk, by omega, hfind, hclk⟩
        · refine .inr ⟨by rw [hnone]; congr 2; omega, fun i hi hij => ?_⟩
          by_cases hlast : i = j
          · subst hlast
            exact not_lt.mp hlt
          · exact hall i hi (by omega)

omit buf clock in
/-- While there is room for one more the tail counts the entries. -/
theorem RingHolds.tail_eq (h : RingHolds r l) (hroom : l.length + 1 < r.size) :
    r.tail = l.length := by
  rw [h.tail]
  unfold Ring.at
  rw [h.start hroom, if_pos (by omega), Nat.zero_add]

/-- The destination is an entry with a smaller clock, or the first event of a
stream that is all in the ring and has no such entry; otherwise the sort fails. -/
theorem findDestination_spec (h : RingHolds r l) :
    (∃ k, ∃ hk : k < l.length, findDestination buf r clock = .ok (r.at k) ∧
      clockAt buf l[k] < clock) ∨
    (l.length + 1 < r.size ∧ findDestination buf r clock = .ok (r.at 0)) ∨
    ∃ msg, findDestination buf r clock = .error (.fail msg) := by
  have hc := h.count
  have hs := h.size
  have hstart : r.prev r.tail = r.cursor l.length := by
    rw [h.tail, Ring.prev_cursor h.head hc]
  unfold findDestination
  rw [hstart]
  rcases findLoop_spec buf clock h r.size l.length 0 le_rfl hc with
    ⟨k, hk, -, hfind, hclk⟩ | ⟨hnone, -⟩
  · rw [hfind]
    exact .inl ⟨k, hk, rfl, hclk⟩
  · rw [hnone]
    simp only [Nat.zero_add, bind, Except.bind]
    by_cases hroom : l.length + 1 < r.size
    · have hhead := h.start hroom
      have hat : r.at 0 = 0 := by
        unfold Ring.at
        rw [hhead, if_pos (by omega)]
      have htail := h.tail_eq hroom
      refine .inr (.inl ⟨hroom, ?_⟩)
      rw [if_pos hroom, if_neg (by omega), hat, hhead]
      simp only [htail, if_neg (not_le.mpr hroom)]
      rfl
    · rw [if_neg hroom]
      exact .inr (.inr ⟨_, rfl⟩)

end Find

/-! ## rebuild_ring and ring_check -/

section Rebuild

variable {buf : Mem}

/-- Rebuilding from entry `k` on points the entries to the events that now lie
from `first` on. -/
theorem rebuildLoop_spec (chunks : List (List UInt8)) (hev : ∀ c ∈ chunks, IsEvent c)
    {r : Ring} {l : List Int} {k fuel : Nat} {first : Int} (h : RingHolds r l)
    (hk : k + chunks.length = l.length) (hlaid : Laid buf first chunks)
    (hfuel : chunks.length < fuel) :
    ∃ r', rebuildLoop buf (first + chunks.flatten.length) fuel r (r.at k) first = .ok r' ∧
      RingHolds r' (l.take k ++ offsetsFrom first chunks) ∧ r'.size = r.size ∧
      r'.head = r.head := by
  have hc := h.count
  induction chunks generalizing r l k fuel first with
  | nil =>
      obtain ⟨fuel, rfl⟩ : ∃ n, fuel = n + 1 := ⟨fuel - 1, by simp at hfuel; omega⟩
      have hkl : k = l.length := by simpa using hk
      refine ⟨r, ?_, ?_, rfl, rfl⟩
      · rw [rebuildLoop, hkl, if_pos h.tail.symm]
        simp
      · simpa [offsetsFrom, hkl] using h
  | cons c cs ih =>
      obtain ⟨fuel, rfl⟩ : ∃ n, fuel = n + 1 := ⟨fuel - 1, by simp at hfuel; omega⟩
      have hkl : k < l.length := by
        simp only [List.length_cons] at hk
        omega
      have hce := hev c (by simp)
      obtain ⟨hfirst, hrest⟩ := laid_cons.mp hlaid
      have hge := hce.length_ge
      have hsize : (toSize (ovniEvSize (evAt buf first)) : Int) = c.length := by
        rw [hce.size_at hfirst]
        have hlt := hce.length_lt
        exact toSize_of_nonneg (by omega) (by omega)
      have hset : RingHolds { r with ev := Function.update r.ev (r.at k) first }
          (l.set k first) := by
        have htail := h.tail
        refine ⟨h.size, h.head, by simpa using hc, ?_, fun j hj => ?_, by simpa using h.start⟩
        · rw [List.length_set]
          exact htail
        have hj' : j < l.length := by simpa using hj
        show Function.update r.ev (r.at k) first (r.at j) = _
        by_cases hjk : j = k
        · subst hjk
          simp
        · have hne : r.at j ≠ r.at k := by
            rw [Ne, Ring.at_inj h.head (by omega) (by omega)]
            exact hjk
          rw [Function.update_of_ne hne, h.ev j hj', List.getElem_set_ne (by omega)]
      have hmore : r.at k ≠ r.tail := by
        rw [h.tail, Ne, Ring.at_inj h.head (by omega) hc]
        omega
      obtain ⟨r', hrun, hholds, hs', hh'⟩ := ih (fun c' hc' => hev c' (by simp [hc'])) hset
        (k := k + 1) (by simp only [List.length_cons, List.length_set] at hk ⊢; omega) hrest
        (show cs.length < fuel by simp only [List.length_cons] at hfuel; omega)
        (by simpa using hc)
      refine ⟨r', ?_, ?_, hs', hh'⟩
      · rw [rebuildLoop, if_neg hmore, end_cons, if_neg (by omega)]
        simp only [hsize, Ring.next_at h.head (show k < r.size by omega)]
        exact hrun
      · have htake : (l.set k first).take (k + 1) = l.take k ++ [first] := by
          rw [List.take_succ_eq_append_getElem (by simpa using hkl)]
          simp [List.take_set_of_le]
        rw [htake, List.append_assoc] at hholds
        exact hholds

/-- The check finds the entries from `k` on in order. -/
theorem ringCheckLoop_spec {r : Ring} {l : List Int} (h : RingHolds r l) (fuel k last : Nat)
    (hk : k ≤ l.length) (hfuel : l.length < fuel + k)
    (hlast : ∀ i (hi : i < l.length), k ≤ i → last ≤ clockAt buf l[i])
    (hsorted : (l.drop k).Pairwise fun a b => clockAt buf a ≤ clockAt buf b) :
    ringCheckLoop buf r fuel (r.at k) last = .ok () := by
  have hc := h.count
  induction fuel generalizing k last with
  | zero => omega
  | succ fuel ih =>
      by_cases hkl : k = l.length
      · rw [ringCheckLoop, hkl, if_pos h.tail.symm]
      · have hlt : k < l.length := by omega
        have hmore : r.at k ≠ r.tail := by
          rw [h.tail, Ne, Ring.at_inj h.head (by omega) hc]
          exact hkl
        rw [List.drop_eq_getElem_cons hlt, List.pairwise_cons] at hsorted
        have hnext : ¬ (evAt buf l[k]).clock.toNat < last := not_lt.mpr (hlast k hlt le_rfl)
        rw [ringCheckLoop, if_neg hmore, h.ev k hlt]
        simp only [if_neg hnext, Ring.mod_at h.head (show k + 1 < r.size by omega)]
        refine ih (k + 1) _ (by omega) (by omega) (fun i hi hki => ?_) hsorted.2
        apply hsorted.1
        rw [List.mem_drop_iff_getElem]
        exact ⟨i - (k + 1), by omega, by simp only [Nat.add_sub_cancel' hki]⟩

end Rebuild

end Ovni
