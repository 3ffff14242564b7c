import Mathlib.Data.List.Induction
import Ovni.Lib.Except
import Ovni.Mux.Network
import Ovni.System.Model

/-!
# What the operations on threads and CPUs do

Each operation writes some of the channels of the system.  These refuse a second
write while they are dirty and show their last value otherwise, so a write that
is ignored as a duplicate leaves the value that was to be written.
-/

namespace Ovni

open Ovni.Lib

/-! ## The threads of a CPU -/

/-- The element of a list with only one. -/
def sole {α : Type} : List α → Option α
  | [a] => some a
  | _ => none

theorem sole_eq {α : Type} (l : List α) : (if l.length = 1 then l.getLast? else none) = sole l := by
  match l with
  | [] => rfl
  | [a] => rfl
  | a :: b :: l => simp [sole]

section Scan

variable {θ : Type} (state : θ → ThreadState)

/-- The threads of a list in state RUNNING. -/
def runningIn (threads : List θ) : List θ := threads.filter fun t => state t = .running

/-- The threads of a list in an active state. -/
def activeIn (threads : List θ) : List θ := threads.filter fun t => (state t).isActive

theorem cpuScan_eq (threads : List θ) :
    cpuScan state threads =
      { running := (runningIn state threads).length
        active := (activeIn state threads).length
        thRunning := (runningIn state threads).getLast?
        thActive := (activeIn state threads).getLast? } := by
  induction threads using List.reverseRecOn with
  | nil => rfl
  | append_singleton threads t ih =>
      unfold cpuScan at ih ⊢
      rw [List.foldl_append, ih]
      cases hstate : state t <;>
        simp [runningIn, activeIn, List.filter_append, hstate, ThreadState.isActive]

end Scan

/-! ## Writes of the system's channels -/

section

variable {θ γ π ℓ ξ μ ν τ : Type} [DecidableEq θ] [DecidableEq γ] [DecidableEq ξ]

/-- The channels of threads and CPUs. -/
def EmuChan.IsSys : EmuChan θ γ ξ → Prop
  | .thread _ _ => True
  | .cpu _ _ => True
  | .model _ => False

/-- The channels of the system hold one value, are written once in a propagation, and
show their last value while they are clean and another one when they are dirty. -/
structure SysBay {κ : Type} (b : Bay (EmuChan θ γ ξ) κ) : Prop where
  type : ∀ c : EmuChan θ γ ξ, c.IsSys → (b.chan c).type = .single
  once : ∀ c : EmuChan θ γ ξ, c.IsSys → (b.chan c).dirtyWrite = false
  distinct : ∀ c : EmuChan θ γ ξ, c.IsSys → (b.chan c).allowDup = false
  flushed : ∀ c : EmuChan θ γ ξ, (b.chan c).isDirty = false → (b.chan c).lastValue = b.read c
  changed : ∀ c : EmuChan θ γ ξ, c.IsSys → (b.chan c).isDirty = true →
    (b.chan c).lastValue ≠ b.read c

variable {κ : Type} {b b' : Bay (EmuChan θ γ ξ) κ}

omit [DecidableEq θ] [DecidableEq γ] [DecidableEq ξ] in
/-- A write that keeps the properties of the channel. -/
theorem SysBay.touch [DecidableEq (EmuChan θ γ ξ)] (h : SysBay b) {c : EmuChan θ γ ξ}
    {chan : Chan} (hlike : Chan.Like (b.chan c) chan)
    (hnew : c.IsSys → (b.chan c).lastValue ≠ chanRead chan) : SysBay (b.touch c chan) := by
  refine ⟨fun x hx => ?_, fun x hx => ?_, fun x hx => ?_, fun x hx => ?_, fun x hx hd => ?_⟩
  · by_cases hxc : x = c
    · rw [hxc, Bay.touch_chan_self]
      exact hlike.type.trans (h.type c (hxc ▸ hx))
    · rw [Bay.touch_chan_of_ne _ hxc]
      exact h.type x hx
  · by_cases hxc : x = c
    · rw [hxc, Bay.touch_chan_self]
      exact hlike.dirtyWrite.trans (h.once c (hxc ▸ hx))
    · rw [Bay.touch_chan_of_ne _ hxc]
      exact h.once x hx
  · by_cases hxc : x = c
    · rw [hxc, Bay.touch_chan_self]
      exact hlike.allowDup.trans (h.distinct c (hxc ▸ hx))
    · rw [Bay.touch_chan_of_ne _ hxc]
      exact h.distinct x hx
  · have hxc : x ≠ c := by
      rintro rfl
      rw [Bay.touch_chan_self] at hx
      cases hx
    rw [Bay.touch_chan_of_ne _ hxc] at hx ⊢
    rw [Bay.touch_read_of_ne _ hxc]
    exact h.flushed x hx
  · by_cases hxc : x = c
    · rw [hxc, Bay.touch_chan_self, Bay.touch_read_self, hlike.lastValue]
      exact hnew (hxc ▸ hx)
    · rw [Bay.touch_chan_of_ne _ hxc] at hd ⊢
      rw [Bay.touch_read_of_ne _ hxc]
      exact h.changed x hx hd

/-- A channel of the system is only written with `chan_set`. -/
theorem SysBay.op (h : SysBay b) {op : ChanOp (EmuChan θ γ ξ)} (hrun : op.run b = .ok b') :
    SysBay b' := by
  by_cases hsys : op.chan.IsSys
  · cases op with
    | set c v =>
        obtain ⟨htype, -, ⟨rfl, -⟩ | ⟨rfl, hnew⟩⟩ := Bay.chanSet_ok hrun
        · exact h
        · refine h.touch ⟨rfl, rfl, rfl, rfl, rfl⟩ fun hc => ?_
          rw [h.distinct c hc] at hnew
          simpa [chanRead, htype] using hnew
    | push c v =>
        obtain ⟨htype, -⟩ := Bay.guarded_ok hrun
        rw [h.type c hsys] at htype
        cases htype
    | pop c v =>
        obtain ⟨htype, -⟩ := Bay.guarded_ok hrun
        rw [h.type c hsys] at htype
        cases htype
  · rcases op.run_ok hrun with rfl | ⟨chan, hlike, rfl⟩
    · exact h
    · exact h.touch hlike fun hc => absurd hc hsys

theorem SysBay.writeAll {ops : List (ChanOp (EmuChan θ γ ξ))} (h : SysBay b)
    (hrun : Ovni.writeAll ops b = .ok b') : SysBay b' := by
  induction ops generalizing b with
  | nil =>
      rw [Ovni.writeAll] at hrun
      rw [← Except.ok.inj hrun]
      exact h
  | cons op ops ih =>
      rw [Ovni.writeAll] at hrun
      obtain ⟨b1, hop, hrest⟩ := bind_ok hrun
      exact ih (h.op hop) hrest

/-- A channel of the system shows what was written to it. -/
theorem SysBay.chanSet (h : SysBay b) {c : EmuChan θ γ ξ} (hc : c.IsSys) {v : Value}
    (hrun : b.chanSet c v = .ok b') : b'.read = Function.update b.read c v := by
  obtain ⟨-, hdirty, hres⟩ := Bay.chanSet_ok hrun
  rcases hres with ⟨rfl, -, -, hlast⟩ | ⟨rfl, -⟩
  · have hclean : (b'.chan c).isDirty = false := by
      by_contra hd
      have := hdirty (by simpa using hd)
      rw [h.once c hc] at this
      cases this
    rw [← hlast, h.flushed c hclean, Function.update_eq_self]
  · funext x
    by_cases hxc : x = c
    · rw [hxc, Bay.touch_read_self, Function.update_self]
      simp [chanRead, h.type c hc]
    · rw [Bay.touch_read_of_ne _ hxc, Function.update_of_ne hxc]

/-! ## Operations -/

variable {e e' e'' : Emu θ γ ξ μ ν τ}

/-- The value of a channel. -/
def Emu.read (e : Emu θ γ ξ μ ν τ) (c : EmuChan θ γ ξ) : Value := e.world.bay.read c

/-- An operation only writes channels of the system. -/
structure Emu.Effect (e e' : Emu θ γ ξ μ ν τ) : Prop where
  ops : ∃ ops : List (ChanOp (EmuChan θ γ ξ)), (∀ op ∈ ops, op.chan.IsSys) ∧
    writeAll ops e.world.bay = .ok e'.world.bay
  mod : e'.world.mod = e.world.mod

theorem writeAll_append {χ κ : Type} [DecidableEq χ] {ops ops' : List (ChanOp χ)}
    {b b' : Bay χ κ} (h : writeAll ops b = .ok b') :
    writeAll (ops ++ ops') b = writeAll ops' b' := by
  induction ops generalizing b with
  | nil =>
      rw [writeAll] at h
      rw [List.nil_append, Except.ok.inj h]
  | cons op ops ih =>
      rw [writeAll] at h
      obtain ⟨b1, hop, hrest⟩ := bind_ok h
      rw [List.cons_append, writeAll, hop]
      exact ih hrest

theorem Emu.Effect.refl : Emu.Effect e e := ⟨⟨[], by simp, rfl⟩, rfl⟩

theorem Emu.Effect.trans (h : Emu.Effect e e') (h' : Emu.Effect e' e'') :
    Emu.Effect e e'' := by
  obtain ⟨ops, hops, hrun⟩ := h.ops
  obtain ⟨ops', hops', hrun'⟩ := h'.ops
  refine ⟨⟨ops ++ ops', fun op hop => ?_, (writeAll_append hrun).trans hrun'⟩,
    h'.mod.trans h.mod⟩
  exact (List.mem_append.mp hop).elim (hops op) (hops' op)

theorem Emu.Effect.sysBay (h : Emu.Effect e e') (hb : SysBay e.world.bay) :
    SysBay e'.world.bay := by
  obtain ⟨ops, -, hrun⟩ := h.ops
  exact hb.writeAll hrun

/-- A write of a channel of the system. -/
theorem Emu.chanSet_ok (hb : SysBay e.world.bay) {c : EmuChan θ γ ξ} {v : Value}
    (hrun : e.chanSet c v = .ok e') (hc : c.IsSys) :
    Emu.Effect e e' ∧ e'.th = e.th ∧ e'.cpu = e.cpu ∧
      e'.read = Function.update e.read c v := by
  obtain ⟨w, hw, hrun⟩ := bind_ok hrun
  obtain ⟨b, hset, hw⟩ := bind_ok hw
  rw [← Except.ok.inj hrun, ← Except.ok.inj hw]
  refine ⟨⟨⟨[.set c v], by simpa [ChanOp.chan] using hc, ?_⟩, rfl⟩, rfl, rfl, hb.chanSet hc hset⟩
  simp only [writeAll, ChanOp.run]
  rw [hset]
  rfl

variable (sys : System θ γ π ℓ) {t : θ} {c : γ}

theorem threadSetState_ok {state : ThreadState} (hb : SysBay e.world.bay)
    (hrun : threadSetState sys e t state = .ok e') :
    Emu.Effect e e' ∧ (e.th t).cpu ≠ none ∧
      e'.th = Function.update e.th t
        { e.th t with state, isRunning := state = .running, isActive := state.isActive } ∧
      e'.cpu = e.cpu ∧
      e'.read = Function.update
        (Function.update e.read (.thread t .state) (.int64 state.toInt)) (.thread t .tid)
        (if state.isActive then .int64 (sys.tid t) else .null) := by
  obtain ⟨hcpu, hrun⟩ := guard_ok hrun
  obtain ⟨e1, h1, hrun⟩ := bind_ok hrun
  obtain ⟨heff1, hth1, hcpu1, hread1⟩ := Emu.chanSet_ok (e := e.setTh t _) hb h1 trivial
  obtain ⟨heff2, hth2, hcpu2, hread2⟩ := Emu.chanSet_ok (heff1.sysBay hb) hrun trivial
  have heff1' : Emu.Effect e e1 := ⟨heff1.ops, heff1.mod⟩
  refine ⟨heff1'.trans heff2, hcpu, hth2.trans hth1, hcpu2.trans hcpu1, ?_⟩
  rw [hread2, hread1]
  rfl

theorem threadSetCpu_ok (hb : SysBay e.world.bay) (hrun : threadSetCpu sys e t c = .ok e') :
    Emu.Effect e e' ∧ (e.th t).cpu = none ∧
      e'.th = Function.update e.th t { e.th t with cpu := some c } ∧ e'.cpu = e.cpu ∧
      e'.read = Function.update e.read (.thread t .cpu) (.int64 (sys.cpuGindex c)) := by
  obtain ⟨hcpu, hrun⟩ := guard_ok hrun
  obtain ⟨heff, hth, hcpu1, hread⟩ := Emu.chanSet_ok (e := e.setTh t _) hb hrun trivial
  exact ⟨⟨heff.ops, heff.mod⟩, by simpa using hcpu, hth, hcpu1, hread⟩

theorem threadUnsetCpu_ok (hb : SysBay e.world.bay) (hrun : threadUnsetCpu e t = .ok e') :
    Emu.Effect e e' ∧ e'.th = Function.update e.th t { e.th t with cpu := none } ∧
      e'.cpu = e.cpu ∧ e'.read = Function.update e.read (.thread t .cpu) .null := by
  obtain ⟨hcpu, hrun⟩ := guard_ok hrun
  obtain ⟨heff, hth, hcpu1, hread⟩ := Emu.chanSet_ok (e := e.setTh t _) hb hrun trivial
  exact ⟨⟨heff.ops, heff.mod⟩, hth, hcpu1, hread⟩

theorem threadMigrateCpu_ok (hb : SysBay e.world.bay)
    (hrun : threadMigrateCpu sys e t c = .ok e') :
    Emu.Effect e e' ∧ e'.th = Function.update e.th t { e.th t with cpu := some c } ∧
      e'.cpu = e.cpu ∧
      e'.read = Function.update e.read (.thread t .cpu) (.int64 (sys.cpuGindex c)) := by
  obtain ⟨hcpu, hrun⟩ := guard_ok hrun
  obtain ⟨heff, hth, hcpu1, hread⟩ := Emu.chanSet_ok (e := e.setTh t _) hb hrun trivial
  exact ⟨⟨heff.ops, heff.mod⟩, hth, hcpu1, hread⟩

/-- What a channel of a CPU shows for its threads. -/
def cpuValue (state : θ → ThreadState) (threads : List θ) : CpuChan → Value
  | .nrun => .int64 (runningIn state threads).length
  | .pid => threadValue (fun t => sys.pid (sys.proc t)) (sole (runningIn state threads))
  | .tid => threadValue sys.tid (sole (runningIn state threads))
  | .thrun => threadValue (fun t => sys.gindex t) (sole (runningIn state threads))
  | .thact => threadValue (fun t => sys.gindex t) (sole (activeIn state threads))

/-- The fields of a CPU computed from its threads. -/
def cpuOfThreads (state : θ → ThreadState) (threads : List θ) : Cpu θ :=
  { nthreads := threads.length
    nthRunning := (runningIn state threads).length
    nthActive := (activeIn state threads).length
    threads
    thRunning := sole (runningIn state threads)
    thActive := sole (activeIn state threads)
    updated := true }

theorem cpuUpdate_ok (hb : SysBay e.world.bay) (hrun : cpuUpdate sys e c = .ok e')
    (hlen : (e.cpu c).nthreads = (e.cpu c).threads.length) :
    Emu.Effect e e' ∧
      (sys.isVirtual c = false →
        (runningIn (fun t => (e.th t).state) (e.cpu c).threads).length ≤ 1) ∧
      e'.th = e.th ∧
      e'.cpu = Function.update e.cpu c
        (cpuOfThreads (fun t => (e.th t).state) (e.cpu c).threads) ∧
      (∀ k, e'.read (.cpu c k) =
        cpuValue sys (fun t => (e.th t).state) (e.cpu c).threads k) ∧
      ∀ x, (∀ k, x ≠ .cpu c k) → e'.read x = e.read x := by
  let state := fun t => (e.th t).state
  let threads := (e.cpu c).threads
  unfold cpuUpdate at hrun
  simp only [cpuScan_eq, sole_eq] at hrun
  obtain ⟨hphys, hrun⟩ := guard_ok hrun
  obtain ⟨e1, h1, hrun⟩ := bind_ok hrun
  obtain ⟨e2, h2, hrun⟩ := bind_ok hrun
  obtain ⟨e3, h3, hrun⟩ := bind_ok hrun
  obtain ⟨e4, h4, hrun⟩ := bind_ok hrun
  obtain ⟨heff1, hth1, hcpu1, hread1⟩ := Emu.chanSet_ok (e := (e.setCpu c _).setCpu c _)
    hb h1 trivial
  have hb1 := heff1.sysBay hb
  obtain ⟨heff2, hth2, hcpu2, hread2⟩ := Emu.chanSet_ok hb1 h2 trivial
  have hb2 := heff2.sysBay hb1
  obtain ⟨heff3, hth3, hcpu3, hread3⟩ := Emu.chanSet_ok hb2 h3 trivial
  have hb3 := heff3.sysBay hb2
  obtain ⟨heff4, hth4, hcpu4, hread4⟩ := Emu.chanSet_ok (e := e3.setCpu c _) hb3 h4 trivial
  obtain ⟨heff5, hth5, hcpu5, hread5⟩ := Emu.chanSet_ok (heff4.sysBay hb3) hrun trivial
  have heff : Emu.Effect e e' := by
    have h01 : Emu.Effect e e1 := ⟨heff1.ops, heff1.mod⟩
    have h34 : Emu.Effect e3 e4 := ⟨heff4.ops, heff4.mod⟩
    exact ((h01.trans (heff2.trans heff3)).trans h34).trans heff5
  have hread : e'.read = Function.update (Function.update (Function.update (Function.update
      (Function.update e.read (.cpu c .tid) (cpuValue sys state threads .tid))
      (.cpu c .pid) (cpuValue sys state threads .pid))
      (.cpu c .thrun) (cpuValue sys state threads .thrun))
      (.cpu c .nrun) (cpuValue sys state threads .nrun))
      (.cpu c .thact) (cpuValue sys state threads .thact) := by
    rw [hread5, hread4]
    show Function.update (Function.update e3.read _ _) _ _ = _
    rw [hread3, hread2, hread1]
    rfl
  refine ⟨heff, fun hvirt => ?_, ?_, ?_, fun k => ?_, fun x hx => ?_⟩
  · by_contra hlt
    exact hphys ⟨by omega, hvirt⟩
  · rw [hth5, hth4]
    exact hth3.trans (hth2.trans hth1)
  · rw [hcpu5, hcpu4]
    show Function.update e3.cpu c _ = _
    rw [hcpu3, hcpu2, hcpu1]
    simp only [Emu.setCpu, Function.update_self, Function.update_idem, cpuOfThreads, hlen]
  · show e'.read (.cpu c k) = cpuValue sys state threads k
    rw [hread]
    cases k <;> simp
  · rw [hread]
    rw [Function.update_of_ne (hx _), Function.update_of_ne (hx _), Function.update_of_ne (hx _),
      Function.update_of_ne (hx _), Function.update_of_ne (hx _)]

end

end Ovni
