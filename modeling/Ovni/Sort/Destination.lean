import Mathlib.Data.List.Induction
import Mathlib.Data.List.Nodup
import Ovni.Lib.Ensures
import Ovni.Lib.Except
import Ovni.Sort.Ring

/-!
# Looking for a destination

What the ring holds after any number of additions, and which of its slots
`find_destination` looks at before it returns.
-/

namespace Ovni

open Ovni.Lib

/-! ## find_destination -/

/-- The loop of `find_destination`, which keeps the slots that it visits. -/
def findLoopVisits (buf : Mem) (r : Ring) (clock stop : Nat) :
    Nat → Nat → Nat → Prog SortFault (List Nat) (Nat ⊕ Nat)
  | 0, _, _ => throw .rounds
  | fuel + 1, i, nback => do
      if i = stop then return .inr nback
      modify fun visited => visited ++ [i]
      if (evAt buf (r.ev i)).clock.toNat < clock then return .inl i
      findLoopVisits buf r clock stop fuel (r.prev i) (nback + 1)

/-- `find_destination` with the slots that it visits. -/
def findDestinationVisits (buf : Mem) (r : Ring) (clock : Nat) :
    Prog SortFault (List Nat) Int := do
  let found ← findLoopVisits buf r clock (r.prev r.head) r.size (r.prev r.tail) 0
  match found with
  | .inl i => return i
  | .inr nback => do
      -- The ring is not full yet, so it starts at the first event
      if nback + 1 < r.size then
        if r.head ≠ 0 then throw (.die "ring head expected to be 0")
        if r.size ≤ r.tail + 1 then throw (.die "ring tail expected to be less")
        return r.head
      return -1

section

variable {buf : Mem} {r : Ring} {clock : Nat}

theorem findLoop_visits (stop fuel i nback : Nat) (visited : List Nat) :
    Ensures (findLoopVisits buf r clock stop fuel i nback) visited fun res _ =>
      findLoop buf r clock stop fuel i nback = res := by
  induction fuel generalizing i nback visited with
  | zero => rfl
  | succ fuel ih =>
      unfold findLoopVisits findLoop
      by_cases hstop : i = stop
      · simp only [hstop, if_true, ensures_pure]
      · simp only [hstop, if_false, ensures_bind, ensures_modify, next_ok]
        by_cases hlow : (evAt buf (r.ev i)).clock.toNat < clock
        · simp only [hlow, if_true, ensures_pure]
        · simp only [hlow, if_false]
          exact ih (r.prev i) (nback + 1) _

end

/-! ## The slots -/

/-- The slots from the head to the tail, in circular order. -/
def Ring.slots (r : Ring) : List Nat :=
  (List.range ((r.tail + r.size - r.head) % r.size)).map fun j => (r.head + j) % r.size

section

variable {r : Ring} {l : List Int}

theorem Ring.mod_eq_at {j : Nat} (hh : r.head < r.size) (hj : j < r.size) :
    (r.head + j) % r.size = r.at j := by
  unfold Ring.at
  by_cases hwrap : r.head + j < r.size
  · rw [if_pos hwrap, Nat.mod_eq_of_lt hwrap]
  · rw [if_neg hwrap, Nat.mod_eq_sub_mod (not_lt.mp hwrap), Nat.mod_eq_of_lt (by omega)]

theorem RingHolds.slots_eq (h : RingHolds r l) :
    r.slots = (List.range l.length).map r.at := by
  have hh := h.head
  have hc := h.count
  have hcount : (r.tail + r.size - r.head) % r.size = l.length := by
    rw [h.tail]
    unfold Ring.at
    by_cases hwrap : r.head + l.length < r.size
    · rw [if_pos hwrap, show r.head + l.length + r.size - r.head = l.length + r.size by omega,
        Nat.add_mod_right, Nat.mod_eq_of_lt hc]
    · rw [if_neg hwrap,
        show r.head + l.length - r.size + r.size - r.head = l.length by omega,
        Nat.mod_eq_of_lt hc]
  rw [Ring.slots, hcount]
  apply List.map_congr_left
  intro j hj
  exact Ring.mod_eq_at hh ((List.mem_range.mp hj).trans hc)

theorem RingHolds.map_slots (h : RingHolds r l) : r.slots.map r.ev = l := by
  rw [h.slots_eq, List.map_map]
  apply List.ext_getElem
  · simp
  · intro j hj hj'
    rw [List.getElem_map, List.getElem_range, Function.comp_apply, h.ev j hj']

theorem RingHolds.length_slots (h : RingHolds r l) : r.slots.length = l.length := by
  rw [h.slots_eq, List.length_map, List.length_range]

theorem RingHolds.getElem_slots (h : RingHolds r l) {j : Nat} (hj : j < r.slots.length) :
    r.slots[j] = r.at j := by
  simp only [h.slots_eq, List.getElem_map, List.getElem_range]

end

/-! ## Additions -/

/-- The ring after some additions. -/
def Ring.fill (r : Ring) (evs : List Int) : Ring := evs.foldl ringAdd (ringReset r)

section

variable {r : Ring} (hsize : 2 ≤ r.size)

include hsize

/-- The ring holds the last of the events that were added. -/
theorem Ring.fill_holds (evs : List Int) :
    RingHolds (r.fill evs) (window r.size evs) ∧ (r.fill evs).size = r.size := by
  induction evs using List.reverseRecOn with
  | nil =>
      have hat : (ringReset r).at 0 = 0 := by
        unfold Ring.at
        simp only [ringReset, Nat.zero_add]
        rw [if_pos (by omega)]
      have hempty : window r.size [] = [] := List.drop_nil
      rw [hempty]
      refine ⟨⟨hsize, ?_, ?_, hat.symm, ?_, fun _ => rfl⟩, rfl⟩
      · exact Nat.zero_lt_of_lt hsize
      · exact Nat.zero_lt_of_lt hsize
      · intro j hj
        exact absurd hj (Nat.not_lt_zero j)
  | append_singleton evs x ih =>
      obtain ⟨hholds, hfill⟩ := ih
      have hadd : r.fill (evs ++ [x]) = ringAdd (r.fill evs) x := by
        unfold Ring.fill
        rw [List.foldl_append]
        rfl
      have hnext := hholds.add x
      rw [hfill, window_append r.size hsize] at hnext
      rw [hadd]
      exact ⟨hnext, hfill⟩

/-- Up to one event less than slots, the head stays. -/
theorem Ring.fill_head (evs : List Int) (hlen : evs.length ≤ r.size - 1) :
    (r.fill evs).head = 0 ∧ (r.fill evs).tail = evs.length := by
  induction evs using List.reverseRecOn with
  | nil => exact ⟨rfl, rfl⟩
  | append_singleton evs x ih =>
      rw [List.length_append, List.length_singleton] at hlen
      obtain ⟨hhead, htail⟩ := ih (by omega)
      have hfill := (Ring.fill_holds hsize evs).2
      have hadd : r.fill (evs ++ [x]) = ringAdd (r.fill evs) x := by
        unfold Ring.fill
        rw [List.foldl_append]
        rfl
      have hnext : ¬ r.size ≤ evs.length + 1 := by omega
      have hapart : ¬ 0 = evs.length + 1 := by omega
      have hzero : ¬ r.size ≤ 0 := by omega
      rw [hadd, List.length_append, List.length_singleton]
      simp only [ringAdd, hhead, htail, hfill, hnext, hapart, hzero, if_false, and_self]

end

/-! ## What is visited -/

section

variable {buf : Mem} {r : Ring} {l : List Int} {clock : Nat}

/-- The slots visited when the first `j` entries are left. -/
def visitedFrom (r : Ring) (count j : Nat) : List Nat :=
  (List.range' j (count - j)).reverse.map r.at

theorem visitedFrom_snoc {count j : Nat} (hj : j < count) :
    visitedFrom r count (j + 1) ++ [r.at j] = visitedFrom r count j := by
  unfold visitedFrom
  rw [show count - j = count - (j + 1) + 1 by omega, List.range'_succ, List.reverse_cons,
    List.map_append]
  rfl

theorem visitedFrom_sublist (h : RingHolds r l) (j : Nat) :
    (visitedFrom r l.length j).Nodup ∧ ∀ i ∈ visitedFrom r l.length j, i ∈ r.slots := by
  have hc := h.count
  have hbound : ∀ i ∈ List.range' j (l.length - j), i < l.length := by
    intro i hi
    have := List.mem_range'_1.mp hi
    omega
  constructor
  · apply List.Nodup.map_on _ (List.nodup_reverse.mpr (List.nodup_range' 1))
    intro i hi k hk heq
    have hi' := hbound i (List.mem_reverse.mp hi)
    have hk' := hbound k (List.mem_reverse.mp hk)
    exact (Ring.at_inj h.head (hi'.trans hc) (hk'.trans hc)).mp heq
  · intro i hi
    obtain ⟨k, hk, rfl⟩ := List.mem_map.mp hi
    rw [h.slots_eq]
    exact List.mem_map_of_mem (List.mem_range.mpr (hbound k (List.mem_reverse.mp hk)))

/-- Where the search stops: at the newest entry with a lower clock, of the first `j`. -/
def StopsAt (buf : Mem) (r : Ring) (l : List Int) (clock j nback : Nat)
    (res : Except SortFault (Nat ⊕ Nat)) (visited : List Nat) : Prop :=
  (∃ k, ∃ hk : k < l.length, k < j ∧ res = .ok (.inl (r.at k)) ∧ clockAt buf l[k] < clock ∧
    (∀ i (hi : i < l.length), k < i → i < j → clock ≤ clockAt buf l[i]) ∧
    visited = visitedFrom r l.length k) ∨
  (res = .ok (.inr (nback + j)) ∧
    (∀ i (hi : i < l.length), i < j → clock ≤ clockAt buf l[i]) ∧
    visited = visitedFrom r l.length 0)

/-- The loop visits the entries from the newest on. -/
theorem findLoopVisits_spec (h : RingHolds r l) (fuel j nback : Nat) (hj : j ≤ l.length)
    (hfuel : j < fuel) :
    Ensures (findLoopVisits buf r clock (r.prev r.head) fuel (r.cursor j) nback)
      (visitedFrom r l.length j) (StopsAt buf r l clock j nback) := by
  have hc := h.count
  induction j generalizing fuel nback with
  | zero =>
      obtain ⟨fuel, rfl⟩ : ∃ n, fuel = n + 1 := ⟨fuel - 1, by omega⟩
      have hcur : r.cursor 0 = r.prev r.head := (Ring.prev_head h.head).symm
      simp only [findLoopVisits, hcur, if_true, ensures_pure]
      refine .inr ⟨rfl, fun i _ hi => ?_, rfl⟩
      exact absurd hi (Nat.not_lt_zero i)
  | succ j ih =>
      obtain ⟨fuel, rfl⟩ : ∃ n, fuel = n + 1 := ⟨fuel - 1, by omega⟩
      have hcur : r.cursor (j + 1) = r.at j := by simp [Ring.cursor]
      have hstop : r.at j ≠ r.prev r.head := by
        rw [Ring.prev_head h.head, Ne, Ring.at_inj h.head (by omega) (by omega)]
        omega
      simp only [findLoopVisits, hcur, hstop, if_false, ensures_bind, ensures_modify, next_ok,
        h.ev j (by omega), visitedFrom_snoc hj]
      by_cases hlow : (evAt buf l[j]).clock.toNat < clock
      · simp only [hlow, if_true, ensures_pure]
        refine .inl ⟨j, by omega, Nat.lt_succ_self j, rfl, hlow, fun i _ hji hij => ?_, rfl⟩
        omega
      · simp only [hlow, if_false, Ring.prev_cursor h.head (show j < r.size by omega)]
        apply (ih fuel (nback + 1) (by omega) (by omega)).mono
        intro res visited hstops
        have hlast : ∀ i (hi : i < l.length), i = j → clock ≤ clockAt buf l[i] := by
          rintro i hi rfl
          exact not_lt.mp hlow
        rcases hstops with ⟨k, hk, hkj, hres, hclock, habove, hvisited⟩ | ⟨hres, hall, hvisited⟩
        · refine .inl ⟨k, hk, by omega, hres, hclock, fun i hi hki hij => ?_, hvisited⟩
          by_cases heq : i = j
          · exact hlast i hi heq
          · exact habove i hi hki (by omega)
        · refine .inr ⟨by rw [hres]; congr 2; omega, fun i hi hij => ?_, hvisited⟩
          by_cases heq : i = j
          · exact hlast i hi heq
          · exact hall i hi (by omega)

end

/-- The value that `find_destination` returns. -/
def asReturned : Except SortFault Nat → Except SortFault Int
  | .ok i => .ok i
  | .error (.fail _) => .ok (-1)
  | .error (.die msg) => .error (.die msg)
  | .error .rounds => .error .rounds

theorem findLoop_error {buf : Mem} {r : Ring} {clock stop fuel i nback : Nat} {e : SortFault}
    (h : findLoop buf r clock stop fuel i nback = .error e) : e = .rounds := by
  induction fuel generalizing i nback with
  | zero =>
      cases h
      rfl
  | succ fuel ih =>
      rw [findLoop] at h
      by_cases hstop : i = stop
      · rw [if_pos hstop] at h
        cases h
      · rw [if_neg hstop] at h
        by_cases hlow : (evAt buf (r.ev i)).clock.toNat < clock
        · rw [if_pos hlow] at h
          cases h
        · rw [if_neg hlow] at h
          exact ih h

/-- The visits are those of `find_destination`. -/
theorem findDestination_visits (buf : Mem) (r : Ring) (clock : Nat) :
    Ensures (findDestinationVisits buf r clock) [] fun res _ =>
      res = asReturned (findDestination buf r clock) := by
  unfold findDestinationVisits
  rw [ensures_bind]
  apply (findLoop_visits (r.prev r.head) r.size (r.prev r.tail) 0 []).mono
  intro res visited hloop
  cases res with
  | error e =>
      rw [next_error, findLoop_error hloop]
      rw [findLoop_error hloop] at hloop
      rw [findDestination, hloop]
      rfl
  | ok found =>
      rw [next_ok, findDestination, hloop, ok_bind]
      cases found with
      | inl i => rfl
      | inr nback =>
          by_cases hroom : nback + 1 < r.size
          · by_cases hhead : r.head = 0
            · by_cases htail : r.size ≤ r.tail + 1
              · simp only [hroom, hhead, htail, if_true, ne_eq, not_true, if_false]
                rfl
              · simp only [hroom, hhead, htail, if_true, ne_eq, not_true, if_false]
                rfl
            · simp only [hroom, hhead, if_true, ne_eq, not_false_eq_true]
              rfl
          · simp only [hroom, if_false]
            rfl

/-- What `find_destination` returns for a ring that holds some events. -/
theorem findDestinationVisits_spec {buf : Mem} {r : Ring} {l : List Int} {clock : Nat}
    (h : RingHolds r l) :
    Ensures (findDestinationVisits buf r clock) [] fun res visited =>
      (visited.Nodup ∧ ∀ i ∈ visited, i ∈ r.slots) ∧
      ((∃ k, ∃ hk : k < l.length, res = .ok (r.at k : Int) ∧ clockAt buf l[k] < clock ∧
          ∀ i (hi : i < l.length), k < i → clock ≤ clockAt buf l[i]) ∨
        ((∀ i (hi : i < l.length), clock ≤ clockAt buf l[i]) ∧
          res = .ok (if l.length + 1 < r.size then (r.head : Int) else -1))) := by
  have hc := h.count
  have hstart : r.prev r.tail = r.cursor l.length := by
    rw [h.tail, Ring.prev_cursor h.head hc]
  have hnone : visitedFrom r l.length l.length = [] := by
    unfold visitedFrom
    rw [Nat.sub_self]
    rfl
  unfold findDestinationVisits
  rw [ensures_bind, hstart, ← hnone]
  apply (findLoopVisits_spec h r.size l.length 0 (le_refl _) hc).mono
  intro res visited hstops
  rcases hstops with ⟨k, hk, -, rfl, hclock, habove, rfl⟩ | ⟨rfl, hall, rfl⟩
  · rw [next_ok, ensures_pure]
    refine ⟨visitedFrom_sublist h k, .inl ⟨k, hk, rfl, hclock, fun i hi hki => ?_⟩⟩
    exact habove i hi hki hi
  · rw [next_ok, Nat.zero_add]
    have hall' : ∀ i (hi : i < l.length), clock ≤ clockAt buf l[i] := fun i hi => hall i hi hi
    by_cases hroom : l.length + 1 < r.size
    · have hhead := h.start hroom
      have htail : ¬ r.size ≤ r.tail + 1 := by
        rw [h.tail_eq hroom]
        omega
      simp only [hroom, hhead, htail, if_true, if_false, ne_eq, not_true, ensures_pure]
      exact ⟨visitedFrom_sublist h 0, .inr ⟨hall', trivial⟩⟩
    · simp only [hroom, if_false, ensures_pure]
      exact ⟨visitedFrom_sublist h 0, .inr ⟨hall', trivial⟩⟩

/-- After any additions the slots from the head to the tail hold the last events, and the
search returns the newest of them with a lower clock. -/
theorem find_destination_newest (buf : Mem) (r : Ring) (evs : List Int) (clock : Nat)
    (hsize : 2 ≤ r.size) :
    let r' := evs.foldl ringAdd (ringReset r)
    r'.slots.map r'.ev = evs.drop (evs.length - (r.size - 1)) ∧
    r'.slots.length = min evs.length (r.size - 1) ∧
    (evs.length ≤ r.size - 1 → r'.head = 0) ∧
    (evs ≠ [] → Ensures (findDestinationVisits buf r' clock) [] fun res visited =>
      visited.Nodup ∧ (∀ i ∈ visited, i ∈ r'.slots) ∧
      ((∃ j, ∃ hj : j < r'.slots.length, res = .ok (r'.slots[j] : Int) ∧
          clockAt buf (r'.ev r'.slots[j]) < clock ∧
          ∀ i (hi : i < r'.slots.length), j < i → clock ≤ clockAt buf (r'.ev r'.slots[i])) ∨
        ((∀ i ∈ r'.slots, clock ≤ clockAt buf (r'.ev i)) ∧
          res = .ok (if evs.length < r.size - 1 then (r'.head : Int) else -1)))) := by
  intro r'
  have hr' : r' = r.fill evs := rfl
  obtain ⟨hholds, hfill⟩ := Ring.fill_holds hsize evs
  rw [← hr'] at hholds hfill
  have hlength : r'.slots.length = min evs.length (r.size - 1) := by
    rw [hholds.length_slots, length_window]
  refine ⟨hholds.map_slots, hlength, ?_, ?_⟩
  · intro hlen
    exact (Ring.fill_head hsize evs hlen).1
  · intro _
    have hev : ∀ i (hi : i < r'.slots.length) (hi' : i < (window r.size evs).length),
        r'.ev r'.slots[i] = (window r.size evs)[i] := by
      intro i hi hi'
      rw [hholds.getElem_slots hi, hholds.ev i hi']
    have hsame : r'.slots.length = (window r.size evs).length := hholds.length_slots
    apply (findDestinationVisits_spec hholds).mono
    intro res visited hfound
    obtain ⟨⟨hnodup, hheld⟩, hfound⟩ := hfound
    refine ⟨hnodup, hheld, ?_⟩
    rcases hfound with ⟨k, hk, hres, hclock, habove⟩ | ⟨hall, hres⟩
    · have hk' : k < r'.slots.length := by omega
      refine .inl ⟨k, hk', ?_, ?_, fun i hi hki => ?_⟩
      · rw [hres, hholds.getElem_slots hk']
      · rw [hev k hk' hk]
        exact hclock
      · rw [hev i hi (by omega)]
        exact habove i (by omega) hki
    · refine .inr ⟨fun i hi => ?_, ?_⟩
      · obtain ⟨k, hk, rfl⟩ := List.mem_iff_getElem.mp hi
        rw [hev k hk (by omega)]
        exact hall k (by omega)
      · have hroom : (window r.size evs).length + 1 < r'.size ↔ evs.length < r.size - 1 := by
          rw [length_window, hfill]
          omega
        rw [hres]
        simp only [hroom]

/-- A ring of three slots after three additions. -/
def threeSlots : Ring := [8, 20, 32].foldl ringAdd (ringReset ⟨0, 0, 3, fun _ => 0⟩)

/-- It keeps the last two. -/
theorem find_destination_newest_wrapped :
    threeSlots.slots.map threeSlots.ev = [20, 32] ∧ threeSlots.slots.length = 2 := by
  obtain ⟨hmap, hlength, -⟩ := find_destination_newest (fun _ => 0) ⟨0, 0, 3, fun _ => 0⟩
    [8, 20, 32] 25 (by decide)
  exact ⟨hmap, hlength⟩

end Ovni
