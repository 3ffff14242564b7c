import Mathlib.Data.List.Chain
import Ovni.Runtime.RoundTrip

/-!
# The order of the flush events

When the clock of each event is read right before the call that emits it, the
stream comes out sorted and the flush events alternate, unless a jumbo event
fills the buffer up to the point that the start of its own flush does not fit
behind it.  Then the flush events of the second flush land between those of the
first one.
-/

namespace Ovni

open Ovni.Lib

/-- `true` for the start of a flush and `false` for its end. -/
def Record.mark? : Record → Option Bool
  | .user _ => none
  | .opened _ => some true
  | .closed _ => some false

/-- The clock in the header of a record. -/
def Record.clock (r : Record) : Nat := (headEv r.bytes).clock.toNat

/-- The flush events of the runtime alternate, starting with a start. -/
structure FlushesAlternate (recs : List Record) : Prop where
  chain : (recs.filterMap Record.mark?).IsChain (· ≠ ·)
  first : (recs.filterMap Record.mark?).head? ≠ some false

theorem Record.clock_opened (t : UInt64) : (Record.opened t).clock = t.toNat := by
  unfold Record.clock Record.bytes
  rw [normalBytes_clock (isJumbo_of_flags_zero rfl)]
  rfl

theorem Record.clock_closed (t : UInt64) : (Record.closed t).clock = t.toNat := by
  unfold Record.clock Record.bytes
  rw [normalBytes_clock (isJumbo_of_flags_zero rfl)]
  rfl

/-! ## Records in order -/

/-- The records are sorted, none is later than the next read of the clock, and
every flush that was opened is closed. -/
structure InOrder (clk : Nat → UInt64) (recs : List Record) (k : Nat) : Prop where
  sorted : recs.Pairwise fun a b => a.clock ≤ b.clock
  past : ∀ r ∈ recs, r.clock ≤ (clk k).toNat
  alternate : FlushesAlternate recs
  closed : (recs.filterMap Record.mark?).getLast? ≠ some true

section Order

variable {clk : Nat → UInt64} {recs new own : List Record} {k₀ k k' : Nat} {nested : Bool}

theorem InOrder.append (hmono : ∀ i j, i ≤ j → (clk i).toNat ≤ (clk j).toNat)
    (h : InOrder clk recs k₀) (hk : k₀ ≤ k')
    (hsorted : new.Pairwise fun a b => a.clock ≤ b.clock)
    (hlo : ∀ r ∈ new, (clk k₀).toNat ≤ r.clock) (hhi : ∀ r ∈ new, r.clock ≤ (clk k').toNat)
    (halt : FlushesAlternate new) (hclosed : (new.filterMap Record.mark?).getLast? ≠ some true) :
    InOrder clk (recs ++ new) k' := by
  have hstart : ∀ x ∈ (recs.filterMap Record.mark?).getLast?,
      ∀ y ∈ (new.filterMap Record.mark?).head?, x ≠ y := by
    intro x hx y hy hxy
    have hx1 : x ≠ true := fun hx1 => h.closed (by rw [← hx1]; exact hx)
    have hy1 : y ≠ false := fun hy1 => halt.first (by rw [← hy1]; exact hy)
    simp only [ne_eq, Bool.not_eq_true, Bool.not_eq_false] at hx1 hy1
    simp [hx1, hy1] at hxy
  constructor
  · rw [List.pairwise_append]
    exact ⟨h.sorted, hsorted, fun a ha b hb => (h.past a ha).trans (hlo b hb)⟩
  · rw [List.forall_mem_append]
    exact ⟨fun r hr => (h.past r hr).trans (hmono _ _ hk), hhi⟩
  · constructor
    · rw [List.filterMap_append, List.isChain_append]
      exact ⟨h.alternate.chain, halt.chain, hstart⟩
    · rw [List.filterMap_append]
      cases hm : recs.filterMap Record.mark? with
      | nil => simpa using halt.first
      | cons x xs =>
          have := h.alternate.first
          rw [hm] at this
          simpa using this
  · rw [List.filterMap_append]
    cases hm : new.filterMap Record.mark? with
    | nil => simpa using h.closed
    | cons x xs =>
        rw [hm] at hclosed
        rw [List.getLast?_append_of_ne_nil _ (by simp)]
        exact hclosed

/-- The own records of a call: none, or one event with the clock just read. -/
inductive OwnAt (clk : Nat → UInt64) (k₀ : Nat) : List Record → Nat → Prop where
  | none : OwnAt clk k₀ [] k₀
  | event {bytes : List UInt8} (clock : (Record.user bytes).clock = (clk k₀).toNat) :
      OwnAt clk k₀ [.user bytes] (k₀ + 1)

theorem InOrder.ownEvent (hmono : ∀ i j, i ≤ j → (clk i).toNat ≤ (clk j).toNat)
    (h : InOrder clk recs k₀) (hown : OwnAt clk k₀ own k) : InOrder clk (recs ++ own) k := by
  cases hown with
  | none => simpa using h
  | event hclock =>
      have hnext := hmono k₀ (k₀ + 1) (by omega)
      refine h.append hmono (by omega) (by simp) ?_ ?_ ⟨?_, ?_⟩ ?_
      · simp [hclock]
      · simpa [hclock] using hnext
      · simp [List.filterMap_cons, Record.mark?]
      · simp [List.filterMap_cons, Record.mark?]
      · simp [List.filterMap_cons, Record.mark?]

/-- One flush after everything else. -/
theorem InOrder.flush (hmono : ∀ i j, i ≤ j → (clk i).toNat ≤ (clk j).toNat)
    (h : InOrder clk recs k) :
    InOrder clk (recs ++ [.opened (clk k), .closed (clk (k + 1))]) (k + 2) := by
  have h01 := hmono k (k + 1) (by omega)
  have h12 := hmono (k + 1) (k + 2) (by omega)
  refine h.append hmono (by omega) ?_ ?_ ?_ ⟨?_, ?_⟩ ?_
  · simpa [Record.clock_opened, Record.clock_closed] using h01
  · simpa [Record.clock_opened, Record.clock_closed] using h01
  · simpa [Record.clock_opened, Record.clock_closed] using ⟨h01.trans h12, h12⟩
  · simp [Record.mark?]
  · simp [Record.mark?]
  · simp [Record.mark?]

/-- A call whose flushes are not nested keeps the order. -/
theorem InOrder.inserted (hmono : ∀ i j, i ≤ j → (clk i).toNat ≤ (clk j).toNat)
    (h : InOrder clk recs k₀) (hown : OwnAt clk k₀ own k)
    (hins : Inserted clk k own new k' false) : InOrder clk (recs ++ new) k' := by
  have hrecs := h.ownEvent hmono hown
  cases hins with
  | plain => exact hrecs
  | once =>
      rw [← List.append_assoc]
      exact hrecs.flush hmono
  | twice =>
      have hboth := (hrecs.flush hmono).flush hmono
      rw [List.append_assoc, List.append_assoc] at hboth
      exact hboth

/-- Nested flushes do not alternate, whatever came before. -/
theorem Inserted.not_alternate (hown : OwnAt clk k₀ own k)
    (hins : Inserted clk k own new k' true) : ¬ FlushesAlternate (recs ++ new) := by
  have hmarks : own.filterMap Record.mark? = [] := by
    cases hown with
    | none => rfl
    | event hclock => rfl
  rintro ⟨hchain, -⟩
  cases hins with
  | nested =>
      rw [List.filterMap_append, List.filterMap_append, hmarks, List.isChain_append] at hchain
      exact absurd hchain.2.1 (by simp [Record.mark?])

theorem FlushesAlternate.of_append (h : FlushesAlternate (recs ++ new)) :
    FlushesAlternate recs := by
  have hchain := h.chain
  have hfirst := h.first
  rw [List.filterMap_append] at hchain hfirst
  rw [List.isChain_append] at hchain
  refine ⟨hchain.1, fun hhead => hfirst ?_⟩
  rw [List.head?_append, hhead]
  rfl

end Order

/-! ## Timed calls -/

/-- The call with the clock of its event set. -/
def Call.setClock (t : UInt64) : Call → Call
  | .emit ev => .emit (ovniEvSetClock ev t)
  | .jumboEmit ev buf => .jumboEmit (ovniEvSetClock ev t) buf
  | .flush => .flush

/-- A call by a user that reads the clock of the event right before. -/
def runTimed (clk : Nat → UInt64) (st : Rthread) (c : Call) : Runtime :=
  match c with
  | .flush => runCall clk st .flush
  | c =>
      let (t, st) := ovniClockNow clk st
      runCall clk st (c.setClock t)

/-- One timed call after another. -/
def runTimedCalls (clk : Nat → UInt64) (st : Rthread) (calls : List Call) : Runtime :=
  calls.foldlM (runTimed clk) st

/-- The records of a thread after some timed calls: they are in order exactly
as long as no large jumbo event came after the first call. -/
structure Timed (clk : Nat → UInt64) (st : Rthread) (calls : List Call)
    (recs : List Record) : Prop where
  holds : Holds st recs
  events : ∀ r ∈ recs, IsEvent r.bytes
  start : st.evlen = 0 ↔ calls = []
  used : st.evlen ≠ 0 → 12 ≤ st.evlen
  emitted : ∃ ts, ts.length = calls.length ∧ recs.filterMap Record.userBytes? =
    (List.zipWith Call.setClock ts calls).flatMap Call.emitted
  ordered : (∀ c ∈ calls.tail, ¬ c.BigJumbo) → InOrder clk recs st.reads
  broken : ¬ (∀ c ∈ calls.tail, ¬ c.BigJumbo) → ¬ FlushesAlternate recs

theorem ovniThreadInit_timed (clk : Nat → UInt64) (evbuf : Mem) :
    Timed clk (ovniThreadInit evbuf) [] [] := by
  have h := ovniThreadInit_wrote evbuf
  refine ⟨h.holds, h.events, by simp [ovniThreadInit, writeStreamHeader, flushEvbuf], h.used,
    ⟨[], rfl, rfl⟩, fun _ => ?_, by simp⟩
  exact ⟨by simp, by simp, ⟨by simp, by simp⟩, by simp⟩

section Run

variable {clk : Nat → UInt64} {st : Rthread} {calls : List Call} {recs : List Record}

/-- One call that was made with `k₀` reads of the clock and started with those
of `st`. -/
theorem Timed.of_after (hmono : ∀ i j, i ≤ j → (clk i).toNat ≤ (clk j).toNat)
    {st₀ st' : Rthread} (st : Rthread) {c : Call} {t : UInt64} (h : Timed clk st₀ calls recs)
    (hlen : st.evlen = st₀.evlen)
    (hown : OwnAt clk st₀.reads (c.setClock t).records st.reads)
    (hafter : After clk st recs (c.setClock t) st') :
    ∃ recs', Timed clk st' (calls ++ [c]) recs' := by
  obtain ⟨new, nested, hh, hins, hnested⟩ := hafter.records
  have hused := hafter.used
  have hbig : (c.setClock t).BigJumbo ↔ c.BigJumbo := by cases c <;> rfl
  have htail : (∀ a ∈ (calls ++ [c]).tail, ¬ a.BigJumbo) ↔
      (∀ a ∈ calls.tail, ¬ a.BigJumbo) ∧ nested = false := by
    rw [← Bool.not_eq_true, hnested, hbig, hlen, Ne, h.start]
    cases calls with
    | nil => simp
    | cons a rest => simp [or_imp, forall_and]
  refine ⟨recs ++ new, hh, ?_, ?_, fun _ => hused, ?_, fun hgood => ?_, fun hbad => ?_⟩
  · rw [List.forall_mem_append]
    exact ⟨h.events, hins.isEvent hafter.events⟩
  · simp only [List.append_eq_nil_iff, List.cons_ne_nil, and_false, iff_false]
    omega
  · obtain ⟨ts, hts, hbytes⟩ := h.emitted
    refine ⟨ts ++ [t], by simp [hts], ?_⟩
    rw [List.filterMap_append, hbytes, hins.userBytes, Call.records_userBytes,
      List.zipWith_append hts, List.flatMap_append]
    simp
  · obtain ⟨hbefore, hflat⟩ := htail.1 hgood
    rw [hflat] at hins
    exact (h.ordered hbefore).inserted hmono hown hins
  · rw [htail, not_and_or] at hbad
    rcases hbad with hbefore | hnest
    · exact fun halt => h.broken hbefore halt.of_append
    · rw [Bool.not_eq_false] at hnest
      rw [hnest] at hins
      exact hins.not_alternate hown

theorem Timed.call (hmono : ∀ i j, i ≤ j → (clk i).toNat ≤ (clk j).toNat)
    (h : Timed clk st calls recs) {c : Call} (hc : c.Unflagged) :
    Returns (fun st' => ∃ recs', Timed clk st' (calls ++ [c]) recs') (runTimed clk st c) := by
  have hread : Holds { st with reads := st.reads + 1 } recs :=
    ⟨h.holds.ready, h.holds.procReady, h.holds.room, h.holds.content⟩
  cases c with
  | flush =>
      apply (runCall_after clk h.holds h.used hc).imp
      intro st' hafter
      exact Timed.of_after hmono st (t := 0) h rfl .none hafter
  | emit ev =>
      have hj : (ovniEvSetClock ev (clk st.reads)).isJumbo = false := hc
      refine (runCall_after clk hread h.used (c := .emit (ovniEvSetClock ev (clk st.reads)))
        hj).imp fun st' hafter => ?_
      refine Timed.of_after hmono { st with reads := st.reads + 1 } (c := .emit ev)
        (t := clk st.reads) h rfl (.event ?_) hafter
      unfold Record.clock Record.bytes
      rw [normalBytes_clock hj]
      rfl
  | jumboEmit ev buf =>
      refine (runCall_after clk hread h.used
        (c := .jumboEmit (ovniEvSetClock ev (clk st.reads)) buf) trivial).imp
        fun st' hafter => ?_
      refine Timed.of_after hmono { st with reads := st.reads + 1 } (c := .jumboEmit ev buf)
        (t := clk st.reads) h rfl (.event ?_) hafter
      unfold Record.clock Record.bytes
      rw [jumboBytes_clock]
      rfl

theorem Timed.run (hmono : ∀ i j, i ≤ j → (clk i).toNat ≤ (clk j).toNat)
    {before : List Call} (h : Timed clk st before recs) (calls : List Call)
    (hcalls : ∀ c ∈ calls, c.Unflagged) :
    Returns (fun st' => ∃ recs', Timed clk st' (before ++ calls) recs')
      (runTimedCalls clk st calls) := by
  induction calls generalizing st before recs with
  | nil => exact ⟨recs, by simpa using h⟩
  | cons c rest ih =>
      unfold runTimedCalls
      rw [List.foldlM_cons]
      apply (h.call hmono (hcalls c (by simp))).bind
      intro st' hst'
      obtain ⟨recs', ht⟩ := hst'
      have := ih ht fun c' hc' => hcalls c' (by simp [hc'])
      rwa [List.append_assoc] at this

theorem runTimed_ok (h : Timed clk st calls recs) {c : Call} (hc : c.Accepted) :
    ∃ st', runTimed clk st c = .ok st' := by
  have hread : Holds { st with reads := st.reads + 1 } recs :=
    ⟨h.holds.ready, h.holds.procReady, h.holds.room, h.holds.content⟩
  cases c with
  | flush => exact runCall_ok clk h.holds h.used hc
  | emit ev =>
      exact runCall_ok clk hread h.used (c := .emit (ovniEvSetClock ev (clk st.reads))) hc
  | jumboEmit ev buf =>
      exact runCall_ok clk hread h.used
        (c := .jumboEmit (ovniEvSetClock ev (clk st.reads)) buf) hc

theorem runTimedCalls_ok (hmono : ∀ i j, i ≤ j → (clk i).toNat ≤ (clk j).toNat)
    {before : List Call} (h : Timed clk st before recs) (calls : List Call)
    (hcalls : ∀ c ∈ calls, c.Unflagged ∧ c.Accepted) :
    ∃ st', runTimedCalls clk st calls = .ok st' := by
  induction calls generalizing st before recs with
  | nil => exact ⟨st, rfl⟩
  | cons c rest ih =>
      obtain ⟨hu, ha⟩ := hcalls c (by simp)
      obtain ⟨st', hok⟩ := runTimed_ok h ha
      have hstep := h.call hmono hu
      rw [hok] at hstep
      obtain ⟨recs', ht⟩ := hstep
      obtain ⟨st'', hrest⟩ := ih ht fun c' hc' => hcalls c' (by simp [hc'])
      refine ⟨st'', ?_⟩
      unfold runTimedCalls at hrest ⊢
      rw [List.foldlM_cons, hok]
      exact hrest

end Run

/-! ## The file -/

theorem chunkAt_clock {m : Mem} {off : Int} (h : IsEvent (chunkAt m off)) :
    (headEv (chunkAt m off)).clock = (evAt m off).clock := by
  have hlen : (chunkAt m off).length = (ovniEvSize (evAt m off)).toNat := by simp [chunkAt]
  have hslice : (Mem.patch (fun _ => 0) 0 (chunkAt m off)).slice 0 (chunkAt m off).length =
      m.slice off (chunkAt m off).length := by
    rw [slice_headEv, hlen]
    rfl
  exact (evAt_congr hslice h.length_ge).2.2.2.2.1

/-- The stream file after timed calls that end with a flush. -/
theorem runTimed_file {clk : Nat → UInt64}
    (hmono : ∀ i j, i ≤ j → (clk i).toNat ≤ (clk j).toNat) (evbuf beyond : Mem)
    {calls : List Call} (hcalls : ∀ c ∈ calls, c.Unflagged) {st : Rthread}
    (hrun : runTimedCalls clk (ovniThreadInit evbuf) (calls ++ [.flush]) = .ok st) :
    ∃ (s : Stream) (offs : List Int) (recs : List Record) (mid : Rthread),
      loadObs st.file beyond = .ok s ∧ s.Events offs ∧
      offs.map (chunkAt s.buf) = recs.map Record.bytes ∧
      offs.map (fun off => (evAt s.buf off).clock.toNat) = recs.map Record.clock ∧
      Timed clk mid calls recs := by
  have hbefore := (ovniThreadInit_timed clk evbuf).run hmono calls hcalls
  unfold runTimedCalls at hrun hbefore
  rw [List.foldlM_append] at hrun
  cases hmid : calls.foldlM (runTimed clk) (ovniThreadInit evbuf) with
  | error fault =>
      rw [hmid] at hrun
      cases hrun
  | ok mid =>
      rw [hmid] at hrun hbefore
      obtain ⟨recs, ht⟩ := hbefore
      have hlast : (ovniFlush clk mid >>= pure) = .ok st := hrun
      rw [bind_pure] at hlast
      obtain ⟨st', hok, -, hfile⟩ := ovniFlush_ok clk ht.holds
      rw [hlast] at hok
      cases hok
      obtain ⟨s, offs, hload, hevents, hchunks⟩ := stream_of_chunks
        (recs.map Record.bytes) beyond (by simpa using ht.events)
      refine ⟨s, offs, recs, mid, by rw [hfile]; exact hload, hevents, hchunks, ?_,
        by simpa using ht⟩
      have hclocks : (offs.map (chunkAt s.buf)).map (fun bs => (headEv bs).clock.toNat) =
          recs.map Record.clock := by
        rw [hchunks, List.map_map]
        rfl
      rw [← hclocks, List.map_map]
      apply List.map_congr_left
      intro off hoff
      have hchunk : IsEvent (chunkAt s.buf off) := by
        have hmem : chunkAt s.buf off ∈ recs.map Record.bytes := by
          rw [← hchunks]
          exact List.mem_map_of_mem hoff
        obtain ⟨r, hr, hbytes⟩ := List.mem_map.mp hmem
        rw [← hbytes]
        exact ht.events r hr
      simp only [Function.comp_apply, chunkAt_clock hchunk]

/-- The stream is sorted and its flush events alternate exactly when no jumbo
event of 2^21 - 28 or more bytes was emitted after the first call. -/
theorem flush_order_iff (clk : Nat → UInt64)
    (hmono : ∀ i j, i ≤ j → (clk i).toNat ≤ (clk j).toNat) (evbuf beyond : Mem)
    (calls : List Call) (hcalls : ∀ c ∈ calls, c.Unflagged) (st : Rthread)
    (hrun : runTimedCalls clk (ovniThreadInit evbuf) (calls ++ [.flush]) = .ok st) :
    ∃ (s : Stream) (offs : List Int) (recs : List Record),
      loadObs st.file beyond = .ok s ∧ s.Events offs ∧
      offs.map (chunkAt s.buf) = recs.map Record.bytes ∧
      (∃ ts, ts.length = calls.length ∧ recs.filterMap Record.userBytes? =
        (List.zipWith Call.setClock ts calls).flatMap Call.emitted) ∧
      ((offs.Pairwise fun a b =>
          (evAt s.buf a).clock.toNat ≤ (evAt s.buf b).clock.toNat) ∧ FlushesAlternate recs ↔
        ∀ c ∈ calls.tail, ¬ c.BigJumbo) := by
  obtain ⟨s, offs, recs, mid, hload, hevents, hchunks, hclocks, ht⟩ :=
    runTimed_file hmono evbuf beyond hcalls hrun
  refine ⟨s, offs, recs, hload, hevents, hchunks, ht.emitted, ?_, fun hgood => ?_⟩
  · rintro ⟨-, halt⟩
    by_contra hbad
    exact ht.broken hbad halt
  · have hord := ht.ordered hgood
    have hsorted : (recs.map Record.clock).Pairwise (· ≤ ·) :=
      List.pairwise_map.mpr hord.sorted
    rw [← hclocks, List.pairwise_map] at hsorted
    exact ⟨hsorted, hord.alternate⟩

theorem tickClock_mono : ∀ i j, i ≤ j → (tickClock i).toNat ≤ (tickClock j).toNat := by
  intro i j hij
  have htick : ∀ k, (tickClock k).toNat = min k (2 ^ 64 - 1) := by
    intro k
    unfold tickClock
    rw [UInt64.toNat_ofNat']
    omega
  rw [htick, htick]
  omega

theorem flush_order_iff_sample : ∃ (st : Rthread) (s : Stream) (offs : List Int),
    runTimedCalls tickClock (ovniThreadInit fun _ => 0) (sampleCalls ++ [.flush]) = .ok st ∧
    loadObs st.file (fun _ => 0) = .ok s ∧ s.Events offs ∧
    offs.Pairwise fun a b => (evAt s.buf a).clock.toNat ≤ (evAt s.buf b).clock.toNat := by
  have hplain : ∀ c ∈ sampleCalls, c.Unflagged := by
    simp only [sampleCalls, List.forall_mem_cons, Call.Unflagged]
    exact ⟨isJumbo_of_flags_zero rfl, trivial, trivial, by simp⟩
  have heval : (runTimedCalls tickClock (ovniThreadInit fun _ => 0)
      (sampleCalls ++ [.flush])).isOk = true := by decide +kernel
  cases hrun : runTimedCalls tickClock (ovniThreadInit fun _ => 0)
      (sampleCalls ++ [.flush]) with
  | error fault =>
      rw [hrun] at heval
      cases heval
  | ok st =>
      obtain ⟨s, offs, recs, hload, hevents, -, -, hiff⟩ := flush_order_iff tickClock
        tickClock_mono (fun _ => 0) (fun _ => 0) sampleCalls hplain st hrun
      refine ⟨st, s, offs, rfl, hload, hevents, (hiff.2 ?_).1⟩
      simp [sampleCalls, Call.BigJumbo, ovniMaxEvBuf]

/-! ## Nested flushes -/

/-- A normal event and then the largest jumbo event that the runtime accepts. -/
def nestedCalls : List Call :=
  [.emit (ovniEvSetMcv OvniEv.zero 0x4f 0x48 0x78),
    .jumboEmit (ovniEvSetMcv OvniEv.zero 0x56 0x59 0x63) (List.replicate (2 ^ 21 - 17) 0)]

/-- The jumbo event triggers a flush whose events do not fit behind it. -/
theorem flush_order_nested :
    ∃ (st : Rthread) (s : Stream) (offs : List Int) (recs : List Record),
      runTimedCalls tickClock (ovniThreadInit fun _ => 0) (nestedCalls ++ [.flush]) = .ok st ∧
      loadObs st.file (fun _ => 0) = .ok s ∧ s.Events offs ∧
      offs.map (chunkAt s.buf) = recs.map Record.bytes ∧
      (∃ ts, ts.length = nestedCalls.length ∧ recs.filterMap Record.userBytes? =
        (List.zipWith Call.setClock ts nestedCalls).flatMap Call.emitted) ∧
      ¬ FlushesAlternate recs := by
  have hcalls : ∀ c ∈ nestedCalls ++ [.flush], c.Unflagged ∧ c.Accepted := by
    simp only [nestedCalls, List.forall_mem_append, List.forall_mem_cons, Call.Unflagged,
      Call.Accepted, List.length_replicate, ovniMaxEvBuf]
    exact ⟨⟨⟨isJumbo_of_flags_zero rfl, isJumbo_of_flags_zero rfl⟩,
      ⟨trivial, isJumbo_of_flags_zero rfl, ovniPayloadSize_of_flags_zero rfl, by omega⟩,
        by simp⟩,
      ⟨trivial, trivial⟩, by simp⟩
  have hbig : ¬ ∀ c ∈ nestedCalls.tail, ¬ c.BigJumbo := by
    simp only [nestedCalls, List.tail_cons, List.forall_mem_cons, Call.BigJumbo,
      List.length_replicate, ovniMaxEvBuf]
    exact fun hsmall => hsmall.1 (by omega)
  obtain ⟨st, hrun⟩ := runTimedCalls_ok tickClock_mono
    (ovniThreadInit_timed tickClock fun _ => 0) _ hcalls
  obtain ⟨s, offs, recs, mid, hload, hevents, hchunks, -, ht⟩ := runTimed_file tickClock_mono
    (fun _ => 0) (fun _ => 0) (fun c hc => (hcalls c (by simp [hc])).1) hrun
  exact ⟨st, s, offs, recs, hrun, hload, hevents, hchunks, ht.emitted, ht.broken hbig⟩

end Ovni
