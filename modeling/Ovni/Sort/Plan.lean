import Ovni.Sort.Ring

/-!
# One sort plan

`execute_sort_plan` over a stream whose events are laid one after the other from
offset 8 on.  The events before the region are sorted, so the destination found
in the ring splits them where every later event may stay, and sorting the bytes
from there on sorts everything read so far.
-/

namespace Ovni

open Ovni.Lib

/-! ## What the C library promises of qsort -/

/-- A comparison that is consistent with itself, as `qsort` asks for. -/
structure Comparison (cmp : Int → Int → Int) : Prop where
  sign : ∀ a b, cmp a b < 0 ↔ 0 < cmp b a
  trans : ∀ a b c, cmp a b ≤ 0 → cmp b c ≤ 0 → cmp a c ≤ 0

/-- `qsort` leaves the same pointers in the order of the comparison. -/
structure Qsort.Sorts (qsort : Qsort) : Prop where
  perm : ∀ cmp, Comparison cmp → ∀ table, (qsort cmp table).Perm table
  sorted : ∀ cmp, Comparison cmp → ∀ table,
    (qsort cmp table).Pairwise fun a b => cmp a b ≤ 0

theorem cmpEv_nonpos_iff (buf : Mem) (a b : Int) :
    cmpEv buf a b ≤ 0 ↔
      toInt64 (evAt buf a).clock.toNat ≤ toInt64 (evAt buf b).clock.toNat := by
  simp only [cmpEv]
  split_ifs <;> omega

theorem cmpEv_comparison (buf : Mem) : Comparison (cmpEv buf) := by
  constructor
  · intro a b
    simp only [cmpEv]
    split_ifs <;> omega
  · intro a b c hab hbc
    rw [cmpEv_nonpos_iff] at *
    exact hab.trans hbc

/-- The clocks of the events do not decrease. -/
def ClockSorted (chunks : List (List UInt8)) : Prop :=
  chunks.Pairwise fun a b => clockOf a ≤ clockOf b

/-! ## Walks over laid events -/

section Walk

variable {buf : Mem} {p : Int} {chunks : List (List UInt8)}

theorem length_le_flatten (hev : ∀ c ∈ chunks, IsEvent c) :
    chunks.length ≤ chunks.flatten.length := by
  induction chunks with
  | nil => simp
  | cons c cs ih =>
      have hge := (hev c (by simp)).length_ge
      have := ih fun c' hc' => hev c' (by simp [hc'])
      simp only [List.length_cons, List.flatten_cons, List.length_append]
      omega

/-- Each offset points to the bytes of one of the events. -/
theorem laid_of_mem_offsets (hlaid : Laid buf p chunks) {q : Int}
    (hq : q ∈ offsetsFrom p chunks) : ∃ c ∈ chunks, buf.slice q c.length = c := by
  induction chunks generalizing p with
  | nil => simp [offsetsFrom] at hq
  | cons c cs ih =>
      obtain ⟨hfirst, hrest⟩ := laid_cons.mp hlaid
      simp only [offsetsFrom, List.mem_cons] at hq
      rcases hq with rfl | hq
      · exact ⟨c, by simp, hfirst⟩
      · obtain ⟨c', hc', hslice⟩ := ih hrest hq
        exact ⟨c', by simp [hc'], hslice⟩

/-- The clock read through an offset is that of the event it points to. -/
theorem clockAt_of_mem_offsets (hev : ∀ c ∈ chunks, IsEvent c) (hlaid : Laid buf p chunks)
    {q : Int} (hq : q ∈ offsetsFrom p chunks) : clockAt buf q = clockOf (chunkAt buf q) := by
  obtain ⟨c, hc, hslice⟩ := laid_of_mem_offsets hlaid hq
  have hce := hev c hc
  unfold chunkAt
  rw [hce.size_at hslice, Int.toNat_natCast, hslice]
  exact (hce.evAt_eq hslice).2.2.2

theorem clockAt_getElem (hev : ∀ c ∈ chunks, IsEvent c) (hlaid : Laid buf p chunks) {i : Nat}
    (hi : i < chunks.length) :
    clockAt buf ((offsetsFrom p chunks).get ⟨i, by simpa using hi⟩) = clockOf chunks[i] := by
  rw [clockAt_of_mem_offsets hev hlaid (List.get_mem _ _)]
  have hmap := (eventsFrom_flatten buf p chunks hlaid hev).2
  congr 1
  simp only [List.get_eq_getElem]
  rw [← List.getElem_map (chunkAt buf) (h := by simpa using hi)]
  simp only [hmap]

theorem minClockLoop_spec (hev : ∀ c ∈ chunks, IsEvent c) (hlaid : Laid buf p chunks)
    (fuel m : Nat) (hfuel : chunks.length < fuel) :
    ∃ m', minClockLoop buf (p + chunks.flatten.length) fuel p m = .ok m' ∧ m' ≤ m ∧
      ∀ c ∈ chunks, m' ≤ clockOf c := by
  induction chunks generalizing p fuel m with
  | nil =>
      obtain ⟨fuel, rfl⟩ : ∃ n, fuel = n + 1 := ⟨fuel - 1, by simp at hfuel; omega⟩
      refine ⟨m, ?_, le_rfl, by simp⟩
      rw [minClockLoop, if_pos (by simp)]
  | cons c cs ih =>
      obtain ⟨fuel, rfl⟩ : ∃ n, fuel = n + 1 := ⟨fuel - 1, by simp at hfuel; omega⟩
      have hce := hev c (by simp)
      have hge := hce.length_ge
      obtain ⟨hfirst, hrest⟩ := laid_cons.mp hlaid
      have hclock : (evAt buf p).clock.toNat = clockOf c := (hce.evAt_eq hfirst).2.2.2
      obtain ⟨m', hrun, hle, hall⟩ := ih (fun c' hc' => hev c' (by simp [hc'])) hrest fuel
        (if clockOf c < m then clockOf c else m)
        (by simp only [List.length_cons] at hfuel; omega)
      refine ⟨m', ?_, ?_, ?_⟩
      · rw [minClockLoop, end_cons, if_neg (by omega)]
        simp only [hclock, hce.size_at hfirst]
        exact hrun
      · split at hle <;> omega
      · intro c' hc'
        rcases List.mem_cons.mp hc' with rfl | hc'
        · split at hle <;> omega
        · exact hall c' hc'

theorem countLoop_spec (hev : ∀ c ∈ chunks, IsEvent c) (hlaid : Laid buf p chunks)
    (fuel n : Nat) (hfuel : chunks.length < fuel) :
    countLoop buf (p + chunks.flatten.length) fuel p n = .ok (n + chunks.length) := by
  induction chunks generalizing p fuel n with
  | nil =>
      obtain ⟨fuel, rfl⟩ : ∃ n, fuel = n + 1 := ⟨fuel - 1, by simp at hfuel; omega⟩
      rw [countLoop, if_pos (by simp)]
      rfl
  | cons c cs ih =>
      obtain ⟨fuel, rfl⟩ : ∃ n, fuel = n + 1 := ⟨fuel - 1, by simp at hfuel; omega⟩
      have hce := hev c (by simp)
      have hge := hce.length_ge
      obtain ⟨hfirst, hrest⟩ := laid_cons.mp hlaid
      rw [countLoop, end_cons, if_neg (by omega), hce.size_at hfirst,
        ih (fun c' hc' => hev c' (by simp [hc'])) hrest fuel (n + 1)
          (by simp only [List.length_cons] at hfuel; omega), List.length_cons]
      congr 1
      omega

theorem indexEvents_eq (hev : ∀ c ∈ chunks, IsEvent c) (hlaid : Laid buf p chunks) :
    indexEvents buf chunks.length p = offsetsFrom p chunks := by
  induction chunks generalizing p with
  | nil => rfl
  | cons c cs ih =>
      obtain ⟨hfirst, hrest⟩ := laid_cons.mp hlaid
      rw [List.length_cons, indexEvents, (hev c (by simp)).size_at hfirst,
        ih (fun c' hc' => hev c' (by simp [hc'])) hrest]
      rfl

end Walk

/-! ## sort_buf -/

section SortBuf

variable {qsort : Qsort} (hq : qsort.Sorts) (junk : Mem) {chunks : List (List UInt8)}
  (hev : ∀ c ∈ chunks, IsEvent c) (hclk : ∀ c ∈ chunks, clockOf c < 2 ^ 63)

include hq hev hclk

/-- Sorting the bytes of some events gives the bytes of the same events in clock
order. -/
theorem sortBuf_spec :
    ∃ chunks' : List (List UInt8), sortBuf qsort junk chunks.flatten = .ok chunks'.flatten ∧
      chunks'.Perm chunks ∧ ClockSorted chunks' := by
  set buf2 := junk.patch 0 chunks.flatten with hbuf2
  have hlaid : Laid buf2 0 chunks := Mem.slice_patch_same _ _ _
  have hcount : countEvents buf2 0 chunks.flatten.length = .ok chunks.length := by
    have hlen := length_le_flatten hev
    have hloop := countLoop_spec hev hlaid (chunks.flatten.length + 1) 0 (by omega)
    rw [Int.zero_add, Nat.zero_add] at hloop
    unfold countEvents
    rw [Int.sub_zero, Int.toNat_natCast]
    exact hloop
  set table := qsort (cmpEv buf2) (offsetsFrom 0 chunks) with htable
  have hperm : table.Perm (offsetsFrom 0 chunks) := hq.perm _ (cmpEv_comparison _) _
  have hsorted := hq.sorted _ (cmpEv_comparison buf2) (offsetsFrom 0 chunks)
  rw [← htable] at hsorted
  have hread : ∀ q ∈ table, ∃ c ∈ chunks, chunkAt buf2 q = c ∧ clockAt buf2 q = clockOf c ∧
      buf2.slice q (toSize (ovniEvSize (evAt buf2 q))) = chunkAt buf2 q := by
    intro q hmem
    obtain ⟨c, hc, hslice⟩ := laid_of_mem_offsets hlaid (hperm.mem_iff.mp hmem)
    have hce := hev c hc
    have hsize := hce.size_at hslice
    have hlt := hce.length_lt
    have hto : toSize (ovniEvSize (evAt buf2 q)) = (ovniEvSize (evAt buf2 q)).toNat := by
      have := toSize_of_nonneg (x := ovniEvSize (evAt buf2 q)) (by omega) (by omega)
      omega
    refine ⟨c, hc, ?_, (hce.evAt_eq hslice).2.2.2, by rw [hto]; rfl⟩
    unfold chunkAt
    rw [hsize, Int.toNat_natCast, hslice]
  have hwrite : writeEvents buf2 table = (table.map (chunkAt buf2)).flatten := by
    unfold writeEvents
    congr 1
    apply List.map_congr_left
    intro q hmem
    obtain ⟨c, -, -, -, hsame⟩ := hread q hmem
    exact hsame
  have hpermChunks : (table.map (chunkAt buf2)).Perm chunks := by
    have := hperm.map (chunkAt buf2)
    rwa [(eventsFrom_flatten buf2 0 chunks hlaid hev).2] at this
  have hlen : chunks.flatten.length = (table.map (chunkAt buf2)).flatten.length :=
    hpermChunks.flatten.length_eq.symm
  refine ⟨table.map (chunkAt buf2), ?_, hpermChunks, ?_⟩
  · unfold sortBuf
    rw [← hbuf2]
    simp only [hcount, bind, Except.bind, indexEvents_eq hev hlaid, ← htable, hwrite]
    rw [hlen, Mem.slice_patch_same]
    rfl
  · unfold ClockSorted
    rw [List.pairwise_map]
    apply hsorted.imp_of_mem
    intro a b ha hb hab
    obtain ⟨ca, hca, hchunkA, hclkA, -⟩ := hread a ha
    obtain ⟨cb, hcb, hchunkB, hclkB, -⟩ := hread b hb
    have hlta := hclk ca hca
    have hltb := hclk cb hcb
    rw [cmpEv_nonpos_iff] at hab
    unfold clockAt at hclkA hclkB
    rw [hclkA, hclkB, toInt64_of_range (by omega) (by omega),
      toInt64_of_range (by omega) (by omega)] at hab
    rw [hchunkA, hchunkB]
    omega

end SortBuf

/-! ## execute_sort_plan -/

section Execute

variable {buf : Mem} {r : Ring} {base : Int}

/-- Pointing the ring to the events from the `q`-th on in their new order. -/
theorem rebuildRing_spec {front back : List (List UInt8)} (hev : ∀ c ∈ back, IsEvent c)
    {k : Nat} {l : List Int} (h : RingHolds r l) (hk : k + back.length = l.length)
    (hlaid : Laid buf base (front ++ back)) (hsorted : ClockSorted back) :
    ∃ r', rebuildRing buf r (r.at k) (base + front.flatten.length)
        (base + (front ++ back).flatten.length) = .ok r' ∧
      ringCheck buf r' (r.at k) = .ok () ∧
      RingHolds r' (l.take k ++ offsetsFrom (base + front.flatten.length) back) ∧
      r'.size = r.size := by
  set first := base + (front.flatten.length : Int) with hfirst
  have hback := (laid_append.mp hlaid).2
  have hc := h.count
  have hend : base + ((front ++ back).flatten.length : Int) = first + back.flatten.length := by
    rw [hfirst, List.flatten_append, List.length_append]
    push_cast
    ring
  obtain ⟨r', hrun, hholds, hsize, hhead⟩ :=
    rebuildLoop_spec back hev h hk hback (show back.length < r.size by omega)
  have hat : r.at k = r'.at k := by
    unfold Ring.at
    rw [hsize, hhead]
  have hlen : (l.take k).length = k := by
    rw [List.length_take]
    omega
  have hdrop : (l.take k ++ offsetsFrom first back).drop k = offsetsFrom first back :=
    List.drop_left' hlen
  refine ⟨r', by rw [hend]; exact hrun, ?_, hholds, hsize⟩
  rw [hat]
  unfold ringCheck
  have hcount := hholds.count
  refine ringCheckLoop_spec hholds r'.size k 0 (by simp; omega) (by omega)
    (fun i _ _ => Nat.zero_le _) ?_
  rw [hdrop]
  unfold ClockSorted at hsorted
  rw [← (eventsFrom_flatten buf first back hback hev).2, List.pairwise_map] at hsorted
  apply hsorted.imp_of_mem
  intro a b ha hb hab
  rwa [clockAt_of_mem_offsets hev hback ha, clockAt_of_mem_offsets hev hback hb]

/-- The last pointers after the events from the `q`-th on were rearranged. -/
theorem window_rearranged (n : Nat) {front back back' : List (List UInt8)} {k : Nat}
    (hperm : back'.Perm back)
    (hk : k + back.length = (window n (offsetsFrom base (front ++ back))).length) :
    (window n (offsetsFrom base (front ++ back))).take k ++
        offsetsFrom (base + front.flatten.length) back' =
      window n (offsetsFrom base (front ++ back')) := by
  have hlen := hperm.length_eq
  unfold window at *
  simp only [List.length_drop, length_offsetsFrom, List.length_append] at hk ⊢
  rw [hlen, offsetsFrom_append, offsetsFrom_append,
    List.drop_append_of_le_length (by rw [length_offsetsFrom]; omega),
    List.drop_append_of_le_length (by rw [length_offsetsFrom]; omega)]
  congr 1
  apply List.take_left'
  rw [List.length_drop, length_offsetsFrom]
  omega

/-- The entry of the ring that splits the events. -/
theorem window_getElem (n : Nat) {front back : List (List UInt8)} (hne : back ≠ []) {k : Nat}
    (hk : k + back.length = (window n (offsetsFrom base (front ++ back))).length)
    (hlt : k < (window n (offsetsFrom base (front ++ back))).length) :
    (window n (offsetsFrom base (front ++ back)))[k] = base + front.flatten.length := by
  obtain ⟨c, cs, rfl⟩ := List.exists_cons_of_ne_nil hne
  unfold window at *
  simp only [List.length_drop, length_offsetsFrom, List.length_append, List.length_cons] at hk
  simp only [List.getElem_drop, length_offsetsFrom, List.length_append, List.length_cons]
  simp only [offsetsFrom_append, offsetsFrom]
  rw [List.getElem_append_right (by rw [length_offsetsFrom]; omega)]
  simp only [length_offsetsFrom]
  have hidx : front.length + (cs.length + 1) - (n - 1) + k - front.length = 0 := by omega
  simp only [hidx, List.getElem_cons_zero]

/-- Sorted events with a region after them may be split before any event that
is earlier than all the region, and at the start. -/
theorem split_sorted {pre region : List (List UInt8)} (hpre : ClockSorted pre) {q : Nat}
    (hq : q = 0 ∨ ∃ hlt : q < (pre ++ region).length,
      ∀ c ∈ region, clockOf (pre ++ region)[q] < clockOf c) :
    ClockSorted ((pre ++ region).take q) ∧
      ∀ a ∈ (pre ++ region).take q, ∀ c ∈ (pre ++ region).drop q, clockOf a ≤ clockOf c := by
  rcases hq with rfl | ⟨hlt, hearlier⟩
  · simp [ClockSorted]
  have hqpre : q < pre.length := by
    by_contra hge
    rw [List.getElem_append_right (by omega)] at hearlier
    exact lt_irrefl _ (hearlier _ (List.getElem_mem _))
  rw [List.getElem_append_left hqpre] at hearlier
  rw [List.take_append_of_le_length hqpre.le, List.drop_append_of_le_length hqpre.le]
  have hsplit := hpre
  unfold ClockSorted at hsplit
  rw [← List.take_append_drop q pre, List.pairwise_append] at hsplit
  obtain ⟨hfront, -, hcross⟩ := hsplit
  refine ⟨hfront, fun a ha c hc => ?_⟩
  rcases List.mem_append.mp hc with hc | hc
  · exact hcross a ha c hc
  · have hmid : clockOf a ≤ clockOf pre[q] :=
      hcross a ha _ (List.mem_drop_iff_getElem.mpr ⟨0, by omega, by simp⟩)
    exact hmid.trans (hearlier c hc).le

variable {qsort : Qsort} (hqs : qsort.Sorts) (junk : Mem)

include hqs

/-- The plan once the destination is known. -/
theorem executeSortPlan_at {front back : List (List UInt8)} {bad0 : Int} {k m : Nat}
    (hev : ∀ c ∈ front ++ back, IsEvent c) (hclk : ∀ c ∈ front ++ back, clockOf c < 2 ^ 63)
    (hlaid : Laid buf base (front ++ back)) (hne : back ≠ [])
    (hring : RingHolds r (window r.size (offsetsFrom base (front ++ back))))
    (hk : k + back.length = (window r.size (offsetsFrom base (front ++ back))).length)
    (hfront : ClockSorted front)
    (hcross : ∀ a ∈ front, ∀ c ∈ back, clockOf a ≤ clockOf c)
    (hmin : findMinClock buf bad0 (base + (front ++ back).flatten.length) = .ok m)
    (hdest : findDestination buf r
      (if m < (evAt buf bad0).clock.toNat then m else (evAt buf bad0).clock.toNat) =
        .ok (r.at k)) :
    ∃ buf' r' done', executeSortPlan qsort junk buf r bad0
        (base + (front ++ back).flatten.length) = .ok (buf', r') ∧
      done'.Perm (front ++ back) ∧ ClockSorted done' ∧ Laid buf' base done' ∧
      (∀ i, i < base ∨ base + (front ++ back).flatten.length ≤ i → buf' i = buf i) ∧
      RingHolds r' (window r'.size (offsetsFrom base done')) ∧ r'.size = r.size := by
  have hevBack : ∀ c ∈ back, IsEvent c := fun c hc => hev c (by simp [hc])
  have hend : base + ((front ++ back).flatten.length : Int) =
      base + front.flatten.length + back.flatten.length := by
    rw [List.flatten_append, List.length_append]
    push_cast
    ring
  have hpos : 0 < back.flatten.length :=
    lt_of_lt_of_le (List.length_pos_iff.mpr hne) (length_le_flatten hevBack)
  have hkl : k < (window r.size (offsetsFrom base (front ++ back))).length := by
    have := List.length_pos_iff.mpr hne
    omega
  have hfirst : r.ev (r.at k) = base + front.flatten.length := by
    rw [hring.ev k hkl, window_getElem r.size hne hk hkl]
  have hslice : buf.slice (base + front.flatten.length)
      (base + ((front ++ back).flatten.length : Int) -
        (base + front.flatten.length)).toNat = back.flatten := by
    have hn : (base + ((front ++ back).flatten.length : Int) -
        (base + front.flatten.length)).toNat = back.flatten.length := by
      rw [hend]
      omega
    rw [hn]
    exact (laid_append.mp hlaid).2
  obtain ⟨back', hsort, hperm, hsorted⟩ :=
    sortBuf_spec hqs junk hevBack fun c hc => hclk c (by simp [hc])
  have hlen : back'.flatten.length = back.flatten.length := hperm.flatten.length_eq
  set buf' := buf.patch (base + front.flatten.length) back'.flatten with hbuf'
  have hlaid' : Laid buf' base (front ++ back') := by
    refine laid_append.mpr ⟨?_, Mem.slice_patch_same _ _ _⟩
    unfold Laid
    rw [Mem.slice_patch_disjoint _ _ _ _ _ (Or.inl le_rfl)]
    exact (laid_append.mp hlaid).1
  have hend' : base + ((front ++ back).flatten.length : Int) =
      base + (front ++ back').flatten.length := by
    rw [hend, List.flatten_append, List.length_append, hlen]
    push_cast
    ring
  have hperm' : (front ++ back').Perm (front ++ back) := hperm.append_left front
  obtain ⟨r', hrebuild, hcheck, hholds, hsize⟩ :=
    rebuildRing_spec (fun c hc => hevBack c (hperm.mem_iff.mp hc)) hring
      (by rw [hperm.length_eq]; exact hk) hlaid' hsorted
  rw [window_rearranged r.size hperm hk, ← hsize] at hholds
  refine ⟨buf', r', front ++ back', ?_, hperm', ?_, hlaid', fun i hi => ?_, hholds, hsize⟩
  · unfold executeSortPlan
    simp only [hmin, hdest, hfirst, bind, Except.bind]
    rw [if_neg (by rw [hend]; omega), if_neg (by rw [hend]; omega)]
    simp only [hslice, hsort]
    rw [← hbuf', hend', hrebuild]
    simp only [hcheck]
    rfl
  · unfold ClockSorted
    rw [List.pairwise_append]
    exact ⟨hfront, hsorted, fun a ha c hc => hcross a ha c (hperm.mem_iff.mp hc)⟩
  · apply Mem.patch_outside
    rw [hlen]
    omega

/-- A sort plan fails, or leaves all the events read so far in clock order. -/
theorem executeSortPlan_spec {pre region : List (List UInt8)}
    (hev : ∀ c ∈ pre ++ region, IsEvent c) (hclk : ∀ c ∈ pre ++ region, clockOf c < 2 ^ 63)
    (hlaid : Laid buf base (pre ++ region)) (hne : region ≠ []) (hpre : ClockSorted pre)
    (hring : RingHolds r (window r.size (offsetsFrom base (pre ++ region)))) :
    (∃ msg, executeSortPlan qsort junk buf r (base + pre.flatten.length)
        (base + (pre ++ region).flatten.length) = .error (.fail msg)) ∨
    ∃ buf' r' done', executeSortPlan qsort junk buf r (base + pre.flatten.length)
        (base + (pre ++ region).flatten.length) = .ok (buf', r') ∧
      done'.Perm (pre ++ region) ∧ ClockSorted done' ∧ Laid buf' base done' ∧
      (∀ i, i < base ∨ base + (pre ++ region).flatten.length ≤ i → buf' i = buf i) ∧
      RingHolds r' (window r'.size (offsetsFrom base done')) ∧ r'.size = r.size := by
  set done := pre ++ region with hdone
  set bad0 := base + (pre.flatten.length : Int) with hbad0
  have hevRegion : ∀ c ∈ region, IsEvent c := fun c hc => hev c (by simp [hdone, hc])
  have hend : base + (done.flatten.length : Int) = bad0 + region.flatten.length := by
    rw [hbad0, hdone, List.flatten_append, List.length_append]
    push_cast
    ring
  obtain ⟨m, hmin, hle, hall⟩ := minClockLoop_spec hevRegion (laid_append.mp hlaid).2
    (region.flatten.length + 1) (evAt buf bad0).clock.toNat
    (by have := length_le_flatten hevRegion; omega)
  have hmin' : findMinClock buf bad0 (base + done.flatten.length) = .ok m := by
    have hfuel : (bad0 + (region.flatten.length : Int) - bad0).toNat =
        region.flatten.length := by omega
    unfold findMinClock
    rw [hend, hfuel]
    exact hmin
  set clock0 := if m < (evAt buf bad0).clock.toNat then m else (evAt buf bad0).clock.toNat
    with hclock0
  have hearlier : ∀ c ∈ region, clock0 ≤ clockOf c := by
    intro c hc
    have := hall c hc
    rw [hclock0]
    split <;> omega
  have hdonePos : 0 < done.length := by
    have := List.length_pos_iff.mpr hne
    rw [hdone, List.length_append]
    omega
  -- Both ways to find a destination split the events read so far
  have hplan : ∀ k q, k + (done.length - q) = (window r.size (offsetsFrom base done)).length →
      q < done.length →
      (q = 0 ∨ ∃ hlt : q < done.length, ∀ c ∈ region, clockOf done[q] < clockOf c) →
      findDestination buf r clock0 = .ok (r.at k) →
      ∃ buf' r' done', executeSortPlan qsort junk buf r bad0
          (base + done.flatten.length) = .ok (buf', r') ∧
        done'.Perm done ∧ ClockSorted done' ∧ Laid buf' base done' ∧
        (∀ i, i < base ∨ base + done.flatten.length ≤ i → buf' i = buf i) ∧
        RingHolds r' (window r'.size (offsetsFrom base done')) ∧ r'.size = r.size := by
    intro k q hk hlt hq hdest
    obtain ⟨hfront, hcross⟩ := split_sorted hpre hq
    have hsplit : done.take q ++ done.drop q = done := List.take_append_drop q done
    have := @executeSortPlan_at buf r base qsort hqs junk (done.take q) (done.drop q) bad0 k m
    rw [hsplit] at this
    refine this hev hclk hlaid ?_ hring (by simpa using hk) hfront hcross hmin' hdest
    intro hnil
    have := List.length_drop (l := done) (i := q)
    rw [hnil, List.length_nil] at this
    omega
  have hlw := length_window r.size (offsetsFrom base done)
  rw [length_offsetsFrom] at hlw
  rcases findDestination_spec buf clock0 hring with
    ⟨k, hk, hdest, hclkk⟩ | ⟨hroom, hdest⟩ | ⟨msg, hfail⟩
  · right
    have hq : done.length - (r.size - 1) + k < done.length := by omega
    refine hplan k (done.length - (r.size - 1) + k) (by omega) hq
      (Or.inr ⟨hq, fun c hc => lt_of_lt_of_le ?_ (hearlier c hc)⟩) hdest
    rw [← clockAt_getElem hev hlaid hq]
    simpa [window] using hclkk
  · right
    exact hplan 0 0 (by omega) hdonePos (Or.inl rfl) hdest
  · left
    refine ⟨msg, ?_⟩
    unfold executeSortPlan
    simp only [hmin', bind, Except.bind]
    rw [← hclock0, hfail]

end Execute

end Ovni
