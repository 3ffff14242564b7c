import Ovni.Mux.Propagate

/-!
# Networks of muxes

A bay with nothing but muxes, whose inputs and select channels may be outputs of
other muxes.  The single pass of a propagation gives every output the value of a
direct evaluation when the paths from the written channels to an output that feeds
another mux all have the same length.  Otherwise an output may be written again
after its consumers were called, and they keep the old value.
-/

namespace Ovni

open Ovni.Lib

section Network

variable {χ μ : Type} [DecidableEq χ] [DecidableEq μ]

/-- A bay with only muxes. -/
def muxNet (mux : μ → Mux χ) : Net χ μ Empty Unit := { mux, other := fun k => nomatch k }

/-- The bay before any mux is connected. -/
def muxWorld (chan : χ → Chan) : MuxWorld χ μ Empty Unit :=
  { bay := Bay.init chan, mod := { selected := fun _ => 0, other := () } }

/-- Each output belongs to one mux, and the select functions only see the value of
the select channel. -/
structure MuxNetwork (mux : μ → Mux χ) (ms : List μ) : Prop where
  nodup : ms.Nodup
  pure : ∀ m ∈ ms, ∀ read v, selectInput (mux m) read v = selectInput (mux m) (fun _ => .null) v
  distinct : ∀ m ∈ ms, ∀ m' ∈ ms, (mux m').output = (mux m).output → m' = m

/-- No mux feeds itself, directly or through others. -/
def Acyclic (mux : μ → Mux χ) (ms : List μ) : Prop :=
  ∃ rank : χ → Nat, ∀ m ∈ ms, ∀ c, (mux m).HasPort c → rank c < rank (mux m).output

/-- The channel is the select channel or an input of some mux. -/
def Feeds (mux : μ → Mux χ) (ms : List μ) (c : χ) : Prop := ∃ m ∈ ms, (mux m).HasPort c

/-- The channels that can become dirty when those of `start` are. -/
inductive Reaches (mux : μ → Mux χ) (ms : List μ) (start : List χ) : χ → Prop where
  | written {c : χ} (h : c ∈ start) : Reaches mux ms start c
  | output {m : μ} {c : χ} (hm : m ∈ ms) (hport : (mux m).HasPort c)
      (hc : Reaches mux ms start c) : Reaches mux ms start (mux m).output

/-- All paths from the written channels to an output that feeds another mux have
the same length. -/
def Balanced (mux : μ → Mux χ) (ms : List μ) (start : List χ) : Prop :=
  ∃ lev : χ → Nat, (∀ c ∈ start, lev c = 0) ∧
    ∀ m ∈ ms, Feeds mux ms (mux m).output →
      ∀ c, (mux m).HasPort c → Reaches mux ms start c → lev (mux m).output = lev c + 1

/-- The output is the input chosen by the select function, or the default. -/
def Evaluated (mux : μ → Mux χ) (w : MuxWorld χ μ Empty Unit) (m : μ) : Prop :=
  ∃ choice, selectInput (mux m) w.bay.read (w.bay.read (mux m).select) = .ok choice ∧
    (∀ i, choice = some i → ∃ c, (mux m).input i = some c) ∧
    w.bay.read (mux m).output = (mux m).choose w.bay.read choice

/-- Some writes, one after the other. -/
def writeAll {κ : Type} : List (ChanOp χ) → Bay χ κ → Except EmuFault (Bay χ κ)
  | [], b => .ok b
  | op :: ops, b => do writeAll ops (← op.run b)

/-- The runs of a network: the muxes are connected and then, again and again, some
source channels are written and the bay propagates.  A run lists the channels that
were dirty at the start of each propagation and those that were ever dirty. -/
inductive NetRun (mux : μ → Mux χ) (ms : List μ) :
    List (List χ) → (χ → Prop) → MuxWorld χ μ Empty Unit → Prop where
  | connect {chan : χ → Chan} {w : MuxWorld χ μ Empty Unit}
      (hclean : ∀ c, (chan c).isDirty = false)
      (hrun : connectMuxes (muxNet mux) ms (muxWorld chan) = .ok w) :
      NetRun mux ms [] (fun _ => False) w
  | step {starts : List (List χ)} {ever : χ → Prop} {w w1 w' : MuxWorld χ μ Empty Unit}
      {ops : List (ChanOp χ)} {b : Bay χ (Cb μ Empty)} {fuel : Nat}
      (hw : NetRun mux ms starts ever w)
      (hsource : ∀ op ∈ ops, ∀ m ∈ ms, op.chan ≠ (mux m).output)
      (hops : writeAll ops w.bay = .ok b)
      (hdirty : propagateList (muxNet mux).call .dirty fuel 0
        (World.setState { w with bay := b } .propagating) = .ok w1)
      (hrun : bayPropagate (muxNet mux).call fuel { w with bay := b } = .ok w') :
      NetRun mux ms (b.dirty :: starts) (fun c => ever c ∨ c ∈ w1.bay.dirty) w'

variable {mux : μ → Mux χ} {ms : List μ}

omit [DecidableEq μ] in
theorem writeAll_ok {κ : Type} (src : χ → Prop) {ops : List (ChanOp χ)} {b b' : Bay χ κ}
    (hd : b.DirtyOk) (hsrc : ∀ op ∈ ops, src op.chan) (h : writeAll ops b = .ok b') :
    Bay.Written src b b' := by
  induction ops generalizing b with
  | nil =>
      rw [writeAll] at h
      rw [← Except.ok.inj h]
      exact Bay.Written.refl hd
  | cons op ops ih =>
      rw [writeAll] at h
      obtain ⟨b1, hop, h⟩ := Lib.bind_ok h
      have hfirst := Bay.Written.op hd (hsrc op List.mem_cons_self) hop
      exact hfirst.trans
        (ih hfirst.dirtyOk (fun op' hop' => hsrc op' (List.mem_cons_of_mem op hop')) h)

omit [DecidableEq χ] [DecidableEq μ] in
theorem muxWorld_unwired {chan : χ → Chan} (hclean : ∀ c, (chan c).isDirty = false) :
    Unwired (muxWorld (μ := μ) chan) :=
  ⟨rfl, rfl, hclean, fun _ _ => List.nodup_nil, fun _ => ⟨rfl, fun _ _ => List.not_mem_nil⟩,
    fun _ _ => ⟨rfl, fun _ _ => List.not_mem_nil⟩⟩

omit [DecidableEq χ] [DecidableEq μ] in
/-- The levels of a balanced network. -/
theorem MuxNetwork.layers (hnet : MuxNetwork mux ms)
    (hloop : ∀ m ∈ ms, ¬ (mux m).HasPort (mux m).output) {start : List χ} {lev : χ → Nat}
    (hlev : ∀ m ∈ ms, Feeds mux ms (mux m).output →
      ∀ c, (mux m).HasPort c → Reaches mux ms start c → lev (mux m).output = lev c + 1) :
    Layers (muxNet mux) ms (· ∈ ms) (Feeds mux ms) (Reaches mux ms start) lev
      (fun _ => False) where
  on _ hm := hm
  pure := hnet.pure
  alone := hnet.distinct
  loopless := hloop
  port m _ hm hport := ⟨m, hm, hport⟩
  back m hm _ hport _ := ⟨m, hm, hport⟩
  reached _ hm _ hport hc := .output hm hport hc
  level m hm c hport hc hrel := hlev m hm hrel c hport hc
  apart _ h := h.elim
  other k := nomatch k

/-- A run keeps the bay at rest while its propagations are balanced. -/
theorem NetRun.quiet (hnet : MuxNetwork mux ms) {starts : List (List χ)} {ever : χ → Prop}
    {w : MuxWorld χ μ Empty Unit} (h : NetRun mux ms starts ever w)
    (hbal : ∀ start ∈ starts, Balanced mux ms start) :
    Quiet (muxNet mux) ms (· ∈ ms) ever w ∧ ∀ m ∈ ms, ¬ (mux m).HasPort (mux m).output := by
  induction h with
  | connect hclean hrun =>
      have hconn := connectMuxes_ok (muxWorld_unwired hclean).connected
        (by simpa using hnet.nodup) hrun
      rw [List.nil_append] at hconn
      exact ⟨⟨hconn.wired, hconn.ready, hconn.nodirty, hconn.clean, fun _ _ he => he.elim⟩,
        hconn.loopless⟩
  | step hw hsource hops hdirty hrun ih =>
      obtain ⟨hquiet, hloop⟩ := ih fun start hs => hbal start (List.mem_cons_of_mem _ hs)
      obtain ⟨lev, hzero, hlev⟩ := hbal _ List.mem_cons_self
      have hwritten := writeAll_ok (fun c => ∀ m ∈ ms, c ≠ (mux m).output)
        hquiet.dirtyOk hsource hops
      obtain ⟨w1, hdirty', hquiet', -⟩ := hquiet.propagate (hnet.layers hloop hlev) hwritten
        (fun m hm hsrc => hsrc m hm rfl) (fun c hc _ => ⟨.written hc, hzero c hc⟩) hrun
      obtain rfl := Except.ok.inj (hdirty.symm.trans hdirty')
      exact ⟨hquiet', hloop⟩

/-- In a run whose propagations are all balanced, every mux whose select channel was
ever dirty has its output evaluated. -/
theorem mux_network_evaluated (hnet : MuxNetwork mux ms) {starts : List (List χ)}
    {ever : χ → Prop} {w : MuxWorld χ μ Empty Unit} (h : NetRun mux ms starts ever w)
    (hbal : ∀ start ∈ starts, Balanced mux ms start) (m : μ) (hm : m ∈ ms)
    (hever : ever (mux m).select) : Evaluated mux w m := by
  obtain ⟨hselected, hcopied⟩ := (h.quiet hnet hbal).1.settled m hm hever
  exact ⟨w.choice m, hselected.choice, fun i hi => (hselected.enabled i hi).2, hcopied⟩

end Network

/-! ## Chains -/

/-- A chain: the output of each mux is the only input of the next one. -/
def chainMux (m : Nat) : Mux Nat :=
  { select := 2 * m + 1, output := 2 * m + 2, inputs := [some (2 * m)], selectFunc := none,
    def_ := .null }

theorem chainMux_hasPort (m c : Nat) : (chainMux m).HasPort c ↔ c = 2 * m + 1 ∨ c = 2 * m := by
  unfold Mux.HasPort Mux.input chainMux
  constructor
  · rintro (hc | ⟨i, hi⟩)
    · exact Or.inl hc
    · cases i with
      | zero => exact Or.inr (by simpa using hi.symm)
      | succ i => simp at hi
  · rintro (hc | hc)
    · exact Or.inl hc
    · exact Or.inr ⟨0, by simp [hc]⟩

theorem chainMux_network {ms : List Nat} (hnodup : ms.Nodup) : MuxNetwork chainMux ms :=
  ⟨hnodup, fun _ _ _ _ => rfl, fun m _ m' _ heq => by simp only [chainMux] at heq; omega⟩

theorem chainMux_acyclic (ms : List Nat) : Acyclic chainMux ms := by
  refine ⟨id, fun m _ c hc => ?_⟩
  rw [chainMux_hasPort] at hc
  simp only [chainMux, id_eq]
  omega

/-- A chain of `n` muxes, connected. -/
def chainWorld (n : Nat) : MuxWorld Nat Nat Empty Unit :=
  okOr (muxWorld fun _ => chanInit .single)
    (connectMuxes (muxNet chainMux) (List.range n) (muxWorld fun _ => chanInit .single))

/-- The chain after some writes. -/
def chainWritten (n : Nat) (ops : List (ChanOp Nat)) : MuxWorld Nat Nat Empty Unit :=
  { chainWorld n with bay := okOr (chainWorld n).bay (writeAll ops (chainWorld n).bay) }

/-- The chain after the writes and a propagation. -/
def chainAfter (n : Nat) (ops : List (ChanOp Nat)) : MuxWorld Nat Nat Empty Unit :=
  okOr (chainWorld n) (bayPropagate (muxNet chainMux).call 20 (chainWritten n ops))

/-- The channels that were dirty in that propagation. -/
def chainDirty (n : Nat) (ops : List (ChanOp Nat)) : MuxWorld Nat Nat Empty Unit :=
  okOr (chainWorld n) (propagateList (muxNet chainMux).call .dirty 20 0
    ((chainWritten n ops).setState .propagating))

theorem chain_run (n : Nat) (ops : List (ChanOp Nat))
    (hsource : ∀ op ∈ ops, ∀ m ∈ List.range n, op.chan ≠ (chainMux m).output)
    (hconnect : (connectMuxes (muxNet chainMux) (List.range n)
      (muxWorld fun _ => chanInit .single)).isOk = true)
    (hops : (writeAll ops (chainWorld n).bay).isOk = true)
    (hdirty : (propagateList (muxNet chainMux).call .dirty 20 0
      ((chainWritten n ops).setState .propagating)).isOk = true)
    (hrun : (bayPropagate (muxNet chainMux).call 20 (chainWritten n ops)).isOk = true) :
    NetRun chainMux (List.range n) [(chainWritten n ops).bay.dirty]
      (fun c => False ∨ c ∈ (chainDirty n ops).bay.dirty) (chainAfter n ops) :=
  .step (.connect (fun _ => rfl) (eq_okOr _ hconnect)) hsource (eq_okOr _ hops)
    (eq_okOr _ hdirty) (eq_okOr _ hrun)

/-- Select the only input of each mux from the last one on, and then write the
first input. -/
def chainOps (n : Nat) : List (ChanOp Nat) :=
  ((List.range n).reverse.map fun m => .set (2 * m + 1) (.int64 0)) ++ [.set 0 (.int64 7)]

/-- Two muxes in a chain are balanced. -/
theorem mux_network_evaluated_chain :
    Evaluated chainMux (chainAfter 2 (chainOps 2)) 0 ∧
      Evaluated chainMux (chainAfter 2 (chainOps 2)) 1 := by
  have hrun : NetRun chainMux (List.range 2) _ _ (chainAfter 2 (chainOps 2)) :=
    chain_run 2 (chainOps 2) (by decide +kernel) (by decide +kernel) (by decide +kernel)
      (by decide +kernel) (by decide +kernel)
  have hstart : (chainWritten 2 (chainOps 2)).bay.dirty = [3, 1, 0] := by decide +kernel
  have hdirty : (chainDirty 2 (chainOps 2)).bay.dirty = [3, 1, 0, 4, 2] := by decide +kernel
  have hbal : ∀ start ∈ [(chainWritten 2 (chainOps 2)).bay.dirty],
      Balanced chainMux (List.range 2) start := by
    intro start hs
    rw [List.mem_singleton.mp hs, hstart]
    refine ⟨fun c => if c = 2 then 1 else 0, by decide, fun m hm hfeeds c hc _ => ?_⟩
    obtain ⟨m', hm', hport⟩ := hfeeds
    rw [chainMux_hasPort] at hc hport
    simp only [List.mem_range] at hm hm'
    simp only [chainMux] at hport
    obtain rfl : m = 0 := by omega
    rcases hc with rfl | rfl
    · rfl
    · rfl
  refine ⟨mux_network_evaluated (chainMux_network (by decide)) hrun hbal 0 (by decide) ?_,
    mux_network_evaluated (chainMux_network (by decide)) hrun hbal 1 (by decide) ?_⟩
  · rw [hdirty]
    decide
  · rw [hdirty]
    decide

/-- With three muxes in a chain the output of the second one is written again after
it was visited, and the third keeps the old value. -/
theorem bay_propagate_stale :
    Acyclic chainMux (List.range 3) ∧ MuxNetwork chainMux (List.range 3) ∧
      ∃ starts ever, NetRun chainMux (List.range 3) starts ever (chainAfter 3 (chainOps 3)) ∧
        ever (chainMux 2).select ∧ ¬ Evaluated chainMux (chainAfter 3 (chainOps 3)) 2 := by
  have hdirty : 5 ∈ (chainDirty 3 (chainOps 3)).bay.dirty := by decide +kernel
  refine ⟨chainMux_acyclic _, chainMux_network (by decide), _, _,
    chain_run 3 (chainOps 3) (by decide +kernel) (by decide +kernel) (by decide +kernel)
      (by decide +kernel) (by decide +kernel), Or.inr hdirty, ?_⟩
  have hsel : (chainAfter 3 (chainOps 3)).bay.read 5 = .int64 0 := by decide +kernel
  have hin : (chainAfter 3 (chainOps 3)).bay.read 4 = .int64 7 := by decide +kernel
  have hout : (chainAfter 3 (chainOps 3)).bay.read 6 = .null := by decide +kernel
  rintro ⟨choice, hchoice, -, hval⟩
  simp only [chainMux] at hchoice hval
  rw [hsel] at hchoice
  obtain rfl : some 0 = choice := Except.ok.inj hchoice
  simp only [Mux.choose, Mux.input, hout] at hval
  simp [hin] at hval

end Ovni
