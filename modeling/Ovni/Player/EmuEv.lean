import Mathlib.Data.List.Chain
import Ovni.Player.Model

/-!
# The reused emulation event

`emu_ev` writes over the event of the previous delivery.  It leaves `is_jumbo`
alone when a normal event has a payload, and clears it when the payload size is
zero, which for a jumbo event happens at one value of its size field.
-/

namespace Ovni

open Ovni.Lib Ovni.Heap

/-! ## One delivery -/

/-- The fields describe the event delivered and nothing else. -/
structure Faithful (d : Delivery) : Prop where
  m : d.ev.m = d.oev.model
  c : d.ev.c = d.oev.category
  v : d.ev.v = d.oev.value
  rclock : d.ev.rclock = toInt64 d.oev.clock.toNat
  payloadSize : d.ev.payloadSize = toSize (ovniPayloadSize d.oev)
  hasPayload : d.ev.hasPayload = true ↔ 0 < d.ev.payloadSize
  isJumbo : d.ev.isJumbo = true ↔ d.oev.isJumbo = true
  accepted : expectJumbo d.ev = .ok () ↔ d.oev.isJumbo = true

/-- The jumbo events whose payload size is zero as an `int`. -/
def WrappedJumbo (ev : OvniEv) : Prop := ev.isJumbo = true ∧ ev.jumboSize = 2 ^ 32 - 4

/-- A normal event with a payload. -/
def PlainPayload (ev : OvniEv) : Prop := ev.isJumbo = false ∧ ev.flags &&& 0x0f ≠ 0

theorem toSize_payload_jumbo {ev : OvniEv} (h : ev.isJumbo = true) :
    toSize (ovniPayloadSize ev) = 0 ↔ ev.jumboSize = 2 ^ 32 - 4 := by
  have hlt := ev.jumboSize_lt
  simp only [ovniPayloadSize, h, if_true, getJumboPayloadSize]
  rw [toInt32_of_turn (by omega) (by omega)]
  unfold toSize
  push_cast
  split_ifs <;> omega

theorem toSize_payload_normal {ev : OvniEv} (h : ev.isJumbo = false) :
    toSize (ovniPayloadSize ev) = 0 ↔ ev.flags &&& 0x0f = 0 := by
  have hn := flags_nibble_lt ev.flags
  have hzero : (ev.flags &&& 0x0f).toNat = 0 ↔ ev.flags &&& 0x0f = 0 := by
    rw [← UInt8.toNat_inj]
    rfl
  simp only [ovniPayloadSize, h, Bool.false_eq_true, if_false]
  rw [← hzero]
  unfold toSize
  split_ifs <;> omega

theorem expectJumbo_ok (ev : EmuEv) : expectJumbo ev = .ok () ↔ ev.isJumbo = true := by
  unfold expectJumbo
  cases ev.isJumbo <;> simp

theorem emuEv_isJumbo (ev : EmuEv) (oev : OvniEv) (sclock dclock : Int) :
    (emuEv ev oev sclock dclock).isJumbo =
      (decide (toSize (ovniPayloadSize oev) ≠ 0) && (oev.isJumbo || ev.isJumbo)) := by
  unfold emuEv
  by_cases h : 0 < toSize (ovniPayloadSize oev)
  · cases hj : oev.isJumbo <;> simp [h, h.ne']
  · have h0 : toSize (ovniPayloadSize oev) = 0 := by omega
    simp [h0]

/-- The delivery is faithful exactly when the event is not a wrapped jumbo and
no stale mark is left under a normal payload. -/
theorem emuEv_faithful_iff {d : Delivery} {ev : EmuEv} {sclock dclock : Int}
    (hev : d.ev = emuEv ev d.oev sclock dclock) :
    Faithful d ↔ ¬ WrappedJumbo d.oev ∧ ¬ (ev.isJumbo = true ∧ PlainPayload d.oev) := by
  have hmark : (d.ev.isJumbo = true ↔ d.oev.isJumbo = true) ↔
      ¬ WrappedJumbo d.oev ∧ ¬ (ev.isJumbo = true ∧ PlainPayload d.oev) := by
    rw [hev, emuEv_isJumbo]
    cases hj : d.oev.isJumbo with
    | true => simp [WrappedJumbo, PlainPayload, hj, toSize_payload_jumbo hj]
    | false =>
        cases ev.isJumbo <;> simp [WrappedJumbo, PlainPayload, hj, toSize_payload_normal hj]
  rw [← hmark]
  constructor
  · exact fun h => h.isJumbo
  · intro h
    refine ⟨?_, ?_, ?_, ?_, ?_, ?_, h, by rw [expectJumbo_ok]; exact h⟩
    all_goals
      rw [hev]
      unfold emuEv
      by_cases hp : 0 < toSize (ovniPayloadSize d.oev) <;> simp [hp]

/-! ## Runs -/

theorem stepStream_ev {p p' : Player} {i : Nat}
    (h : stepStream p i = .ok p' ∨ stepStream p i = .done p') : p'.ev = p.ev := by
  rcases h with h | h
  · obtain ⟨s, heap, -, -, rfl⟩ := stepStream_ok h
    rfl
  · obtain ⟨-, rfl⟩ | ⟨s, -, rfl⟩ := stepStream_done h
    · rfl
    · rfl

theorem loadStreams_ev {is : List Nat} {p p' : Player} (h : loadStreams p is = .ok p') :
    p'.ev = p.ev := by
  induction is generalizing p with
  | nil =>
      cases h
      rfl
  | cons i rest ih =>
      simp only [loadStreams] at h
      have hset : (if p.unsorted = true then
          p.setStream i (streamAllowUnsorted (p.trace.stream i)) else p).ev = p.ev := by
        split <;> rfl
      split at h
      · rename_i hs
        rw [ih h, stepStream_ev (.inl hs), hset]
      · rename_i hs
        rw [ih h, stepStream_ev (.inr hs), hset]
      · cases h

theorem playerInit_ev {trace : Trace} {unsorted : Bool} {p : Player}
    (h : playerInit trace unsorted = .ok p) : p.ev = EmuEv.zero := by
  unfold playerInit at h
  simp only [bind, Except.bind, pure, Except.pure, throw, throwThe, MonadExceptOf.throw] at h
  split at h
  · cases h
  · rename_i q hq
    split at h
    · cases h
    · cases h
      exact loadStreams_ev hq

/-- A delivery fills in the event of the state before. -/
theorem playerStep_ev {p p' : Player} {d : Delivery} (h : playerStep p = .ok p')
    (hd : p'.delivery? = some d) :
    d.ev = p'.ev ∧ ∃ sclock dclock, d.ev = emuEv p.ev d.oev sclock dclock := by
  have hnext : ∀ {q : Player}, q.ev = p.ev → deliverNext q = .ok p' →
      d.ev = p'.ev ∧ ∃ sclock dclock, d.ev = emuEv p.ev d.oev sclock dclock := by
    intro q hev hq
    obtain ⟨i, heap, off, -, hcur, -, rfl⟩ := deliverNext_ok hq
    simp only [Player.delivery?, Player.delivered, hcur, bind, Option.bind, pure,
      Option.some.injEq] at hd
    rw [← hd]
    exact ⟨rfl, _, _, by rw [hev]⟩
  unfold playerStep at h
  split at h
  · exact hnext rfl h
  · split at h
    · cases h
    · rename_i hs
      exact hnext (stepStream_ev (.inl hs)) h
    · rename_i hs
      exact hnext (stepStream_ev (.inr hs)) h

/-- The event of the player is the one last delivered. -/
theorem PlayerRun.ev_eq {p₀ p : Player} {ds : List Delivery} (h : PlayerRun p₀ ds p) :
    p.ev = (ds.getLast?.map (·.ev)).getD p₀.ev := by
  cases h with
  | start => rfl
  | step before run out => simp [(playerStep_ev run out).1]

/-- Every delivery of a run is faithful exactly when no jumbo event of the run
has a size field of 2^32 - 4 and no normal event with payload comes right after
a jumbo event. -/
theorem emu_ev_faithful_iff (trace : Trace) (unsorted : Bool) (p₀ p : Player)
    (ds : List Delivery) (hinit : playerInit trace unsorted = .ok p₀)
    (hrun : PlayerRun p₀ ds p) :
    (∀ d ∈ ds, Faithful d) ↔
      (∀ d ∈ ds, ¬ WrappedJumbo d.oev) ∧
      ds.IsChain fun a b => ¬ (a.oev.isJumbo = true ∧ PlainPayload b.oev) := by
  induction hrun with
  | start => simp
  | step before run out ih =>
      rename_i ds q p' d
      obtain ⟨-, sclock, dclock, hev⟩ := playerStep_ev run out
      have hlast := before.ev_eq
      rw [playerInit_ev hinit] at hlast
      -- The stale mark is the one of the last delivery, which was faithful
      have hstale : (∀ a ∈ ds, Faithful a) →
          (q.ev.isJumbo = true ↔ ∃ a, ds.getLast? = some a ∧ a.oev.isJumbo = true) := by
        intro hfaith
        obtain hn | ⟨a, ha⟩ := Option.eq_none_or_eq_some ds.getLast?
        · simp [hlast, hn, EmuEv.zero]
        · have hmark := (hfaith a (List.mem_of_getLast? ha)).isJumbo
          simpa [hlast, ha] using hmark
      simp only [List.forall_mem_append, List.forall_mem_singleton, List.isChain_append,
        List.isChain_singleton, true_and, List.head?_cons, Option.mem_def,
        Option.some.injEq, forall_eq', emuEv_faithful_iff hev]
      constructor
      · rintro ⟨hall, hwrap, hplain⟩
        obtain ⟨hw, hc⟩ := ih.1 hall
        refine ⟨⟨hw, hwrap⟩, hc, fun a ha hstep => hplain ⟨?_, hstep.2⟩⟩
        exact (hstale hall).2 ⟨a, ha, hstep.1⟩
      · rintro ⟨⟨hw, hwrap⟩, hc, hnext⟩
        have hall := ih.2 ⟨hw, hc⟩
        refine ⟨hall, hwrap, fun hstep => ?_⟩
        obtain ⟨a, ha, hj⟩ := (hstale hall).1 hstep.1
        exact hnext a ha ⟨hj, hstep.2⟩

/-- A stream with a jumbo task type event and a normal event of the same name
with a payload of four bytes. -/
def staleJumboFile : List UInt8 :=
  ovniStreamMagic ++ [1, 0, 0, 0] ++
    ([0x10, 0x56, 0x59, 0x63] ++ leBytes 8 100 ++ leBytes 4 5 ++ [7, 0, 0, 0, 0]) ++
    ([0x03, 0x56, 0x59, 0x63] ++ leBytes 8 101 ++ [7, 0, 0, 0])

/-- The trace of that stream alone. -/
def staleJumboTrace : Trace where
  nstreams := 1
  stream := fun _ => Stream.fresh (Mem.patch (fun _ => 0) 0 staleJumboFile) 45

/-- The two deliveries of a run over `staleJumboTrace`. -/
theorem staleJumbo_run : ∃ p₀ p ds, playerInit staleJumboTrace false = .ok p₀ ∧
    PlayerRun p₀ ds p ∧
    ∃ d ∈ ds, d.oev.isJumbo = false ∧ d.ev.isJumbo = true := by
  have heval : ((playTrace 3 staleJumboTrace false).any fun r =>
      r.2.1.any fun d => !d.oev.isJumbo && d.ev.isJumbo) = true := by decide +kernel
  obtain ⟨⟨p₀, ds, p, pend⟩, hplay, hsome⟩ := (Option.any_eq_true _ _).mp heval
  obtain ⟨hinit, hrun, -⟩ := playTrace_run hplay
  obtain ⟨d, hd, hmark⟩ := List.any_eq_true.mp hsome
  simp only [Bool.and_eq_true, Bool.not_eq_true'] at hmark
  exact ⟨p₀, p, ds, hinit, hrun, d, hd, hmark⟩

/-- The second event of the stream is not a jumbo event, and the check of the
jumbo handlers accepts it. -/
theorem emu_ev_stale_jumbo :
    loadObs staleJumboFile (fun _ => 0) = .ok (staleJumboTrace.stream 0) ∧
    ∃ p₀ p ds, playerInit staleJumboTrace false = .ok p₀ ∧ PlayerRun p₀ ds p ∧
      ∃ d ∈ ds, d.oev.isJumbo = false ∧ expectJumbo d.ev = .ok () ∧ ¬ Faithful d := by
  refine ⟨rfl, ?_⟩
  obtain ⟨p₀, p, ds, hinit, hrun, d, hd, hplain, hmark⟩ := staleJumbo_run
  refine ⟨p₀, p, ds, hinit, hrun, d, hd, hplain, by rw [expectJumbo_ok]; exact hmark, ?_⟩
  intro hfaith
  have := hfaith.isJumbo.1 hmark
  simp [hplain] at this

/-- On the same run the condition of the theorem fails as well. -/
theorem emu_ev_faithful_iff_stale : ∃ p₀ p ds, playerInit staleJumboTrace false = .ok p₀ ∧
    PlayerRun p₀ ds p ∧ ¬ ((∀ d ∈ ds, ¬ WrappedJumbo d.oev) ∧
      ds.IsChain fun a b => ¬ (a.oev.isJumbo = true ∧ PlainPayload b.oev)) := by
  obtain ⟨p₀, p, ds, hinit, hrun, d, hd, hplain, hmark⟩ := staleJumbo_run
  refine ⟨p₀, p, ds, hinit, hrun, fun hcond => ?_⟩
  have hfaith := (emu_ev_faithful_iff staleJumboTrace false p₀ p ds hinit hrun).2 hcond d hd
  have := hfaith.isJumbo.1 hmark
  simp [hplain] at this

end Ovni
