import PldSynth.Proofs.Network.Consistency
import PldSynth.Proofs.Network.Rehosting

/-!
# Which takeovers fail

In a network in order every handle that an edit follows was handed out, and every connection that it
moves has one driver. So the edits that a takeover is made of do not fail, and neither does the check
at its end. What is left are two reasons to stop (`Blocked`): a buffer meets a node that has a buffer
already, or a register meets a pin that can be driven but has no input.
-/

namespace PldSynth.Network

open Attempt List
open PldSynth.NodeKind (isNamed isRegister isSequential)

variable {K : NodeKind → Bool} {g g' g1 : Network} {n m t cell : NodeId} {c d o out slot : ConnId}
  {cs : List ConnId} {source : Node} {g2 : Network} {l : List ConnId} {s : Takeover}

/-! ## Pin nodes and consumers -/

theorem exists_handOver (hc : g.isSink c) (hlen : (g.refsOf c).length ≤ 1) :
    ∃ g', handOver out g c = .ok g' := by
  rcases Option.isSome_iff_exists.mp (isSome_of_isSink hc) with ⟨y, hy⟩
  have hdir : y.direction.isInput := by simpa [isSink, directionOf?_def, hy] using hc
  rw [refsOf_of_conn? hy] at hlen
  simp only [handOver, bind_eq_ok, conn_eq_ok]
  exact ⟨_, y, hy, by simp [hdir, hlen]; rfl⟩

/-- All consumers can be handed over. -/
theorem exists_foldlM_handOver (hl : ∀ c ∈ l, g.isSink c ∧ (g.refsOf c).length ≤ 1)
    (hout : out ∉ l) : ∃ g', l.foldlM (handOver out) g = .ok g' := by
  refine (Ends.foldlM_invariant (E := fun _ => False)
    (I := fun s : Network => ∀ c ∈ l, s.isSink c ∧ (s.refsOf c).length ≤ 1)
    (fun s c hc hs => ?_) hl).exists_ok
  have hne : ∀ x ∈ l, x ≠ out := fun x hx h => hout (h ▸ hx)
  have hstep : ∃ s', handOver out s c = .ok s' := exists_handOver (hs c hc).1 (hs c hc).2
  rcases hstep with ⟨s', h'⟩
  have hr := rewires_handOver (hne c hc) h'
  refine .inl ⟨s', h', fun x hx => ?_⟩
  -- a consumer is as it was, or was handed over
  rcases hs x hx with ⟨hxs, hxl⟩
  rw [isSink_congr hr.directionOf?, hr.refsOf (.inl (isSome_of_isSink hxs)), if_neg (hne x hx)]
  refine ⟨hxs, ?_⟩
  split
  · exact Nat.le_refl 1
  · exact hxl

/-- A pin node can be put behind any output whose consumers have no second driver. -/
theorem exists_putPinNode_of_consumers (ho : g.isOutput o) (hn : g.ownerOf? o = some n)
    (hnode : (g.node? n).isSome) (hcons : ∀ c ∈ g.refsOf o, g.isSink c ∧ (g.refsOf c).length ≤ 1) :
    ∃ r, g.putPinNode o = .ok r := by
  rcases Option.isSome_iff_exists.mp (isSome_of_isOutput ho) with ⟨y, hy⟩
  have howner : y.owner = n := by simpa [ownerOf?_def, hy] using hn
  rcases Option.isSome_iff_exists.mp hnode with ⟨source, hsource⟩
  have hdir : y.direction.isOutput := by
    simp only [isOutput, directionOf?_def, hy, Option.map_some, beq_iff_eq, Option.some.injEq] at ho
    rw [ho]
    rfl
  rw [refsOf_of_conn? hy] at hcons
  -- the consumers are old connections, which the new pin node leaves alone
  have hrun : ∃ g1, y.refs.foldlM (handOver g.putOut)
      ((g.withPinNode (g.pinNodeNameFor source).1 (g.pinNodeNameFor source).2.pinNodeNames).setRefs
        o []) = .ok g1 := by
    apply exists_foldlM_handOver
    · intro c hc
      rcases hcons c hc with ⟨hs, hlen⟩
      have hput := ne_put (isSome_of_isSink hs)
      have hsame : (((g.withPinNode (g.pinNodeNameFor source).1
          (g.pinNodeNameFor source).2.pinNodeNames).setRefs o []).conn? c) = g.conn? c := by
        simp [setRefs, ne_of_isSink hs ho, conn?_withPinNode, hput]
      rw [isSink, directionOf?_def, refsOf_def, hsame]
      exact ⟨hs, hlen⟩
    · intro hout
      exact (ne_put (isSome_of_isSink (hcons _ hout).1)).1 rfl
  rcases hrun with ⟨g1, h1⟩
  refine ⟨(g.nextNode, g1.wire g.putIn o), ?_⟩
  simp only [putPinNode, bind_eq_ok, conn_eq_ok]
  refine ⟨y, hy, ?_⟩
  rw [if_pos hdir]
  simp only [bind_eq_ok, pure_eq_ok, node_eq_ok]
  refine ⟨source, howner ▸ hsource, g1, ?_, ?_⟩
  · rw [pinNodeNameFor_eq]
    exact h1
  · rw [pinNodeNameFor_eq]
    exact congrArg (fun c => (g.nextNode, g1.wire c o)) (nextConn_attach _ _)

theorem exists_putPinNode (hg : g.Sound) (ho : g.isOutput o) (hn : o ∈ g.connsOf n) :
    ∃ r, g.putPinNode o = .ok r := by
  apply exists_putPinNode_of_consumers ho (hg.owner hn) (isSome_of_mem_connsOf hn)
  intro c hc
  have hs := hg.sink_of_output hc ho
  exact ⟨hs, hg.sole hs⟩

/-! ## The list of equations and the check -/

/-- The list of equations can be made anew. -/
theorem exists_rebuildTop (hg : g.Sound) : ∃ g', g.rebuildTop = .ok g' ∧ g'.Sound := by
  have hrun := Ends.foldlM_invariant (E := fun _ => False) (l := g.pinNodes.filter g.isUnread) (f := retire)
    (I := fun s : Network => s.Sound ∧ ∀ n, (s.node? n).isSome = (g.node? n).isSome)
    (fun s n hn hs => ?_) ⟨hg, fun _ => rfl⟩
  · rcases hrun.exists_result with ⟨g1, h1, hsound, -⟩
    refine ⟨_, ?_, (alike_setTop (g1.equationOwners.flatMap g1.wiredSinks)).sound hsound⟩
    rw [rebuildTop, h1]
    rfl
  have hn : (s.node? n).isSome := by
    rw [hs.2]
    exact isSome_of_kindOf? (hg.pinNode_kind (mem_filter.mp hn).1)
  rcases exists_retire hs.1.mirror (fun c hc => hs.1.conn_isSome hc) hn with ⟨s', h'⟩
  have hr := applies_retire hs.1.mirror h'
  exact .inl ⟨s', h', hs.1.retired hr, fun m => hr.node?_isSome.trans (hs.2 m)⟩

/-- A network in order passes the check. -/
theorem Sound.checkAll (hg : g.Sound) : g.checkAll = .ok () := by
  apply forM_eq_ok.mpr
  intro n hn
  rw [mem_append, mem_append] at hn
  rcases hn with (hn | hn) | hn
  · exact hg.checkNode (isSome_of_kindOf? (hg.pin_kind hn))
  · exact hg.checkNode (isSome_of_kindOf? (hg.pinNode_kind hn))
  · exact hg.checkNode (hg.cell_isSome hn)

/-! ## The node that takes over -/

theorem exists_liveOutput? (hg : g.Owned) (hn : (g.node? n).isSome) : ∃ r, g.liveOutput? n = .ok r := by
  refine exists_bind (output?_eq_ok.mpr ⟨hn, rfl⟩) ?_
  cases ho : (g.connsOf n).find? g.isOutput with
  | none => exact ⟨_, rfl⟩
  | some o =>
    have hsome := hg.conn_isSome (mem_of_find?_eq_some ho)
    exact exists_bind (fanOut_eq_ok.mpr ⟨hsome, rfl⟩) ⟨_, rfl⟩

/-- The owners can be looked up. -/
theorem exists_ownersOfKind (hg : g.Sound) {p : NodeKind → Bool} (hcs : ∀ c ∈ cs, ∃ n, c ∈ g.connsOf n) :
    ∃ ns, g.ownersOfKind p cs = .ok ns := by
  have hrun : ∃ owners, (cs.mapM fun c => do
      let n ← g.owner c
      return (n, ← g.nodeKind n)) = .ok owners := by
    apply exists_mapM
    intro c hc
    rcases hcs c hc with ⟨n, hn⟩
    rcases Option.isSome_iff_exists.mp (isSome_of_mem_connsOf hn) with ⟨y, hy⟩
    have hk : g.kindOf? n = some y.kind := by
      rw [kindOf?_def, hy]
      rfl
    exact exists_bind (owner_eq_ok.mpr (hg.owner hn))
      (exists_bind (nodeKind_eq_ok.mpr hk) ⟨_, rfl⟩)
  rcases hrun with ⟨owners, hrun⟩
  exact exists_bind hrun ⟨_, rfl⟩

theorem exists_existingTarget? (hg : g.Sound) (ho : (g.conn? o).isSome) :
    ∃ r, g.existingTarget? o = .ok r := by
  rcases Option.isSome_iff_exists.mp ho with ⟨y, hy⟩
  refine exists_bind (conn_eq_ok.mpr hy) ?_
  have hl : ∀ c ∈ y.refs, ∃ n, c ∈ g.connsOf n := by
    intro c hc
    rw [← refsOf_of_conn? hy] at hc
    exact hg.listed (hg.mirror hc)
  rcases exists_ownersOfKind hg hl with
    ⟨ns, hns⟩
  refine exists_bind hns ?_
  split <;> exact ⟨_, rfl⟩

/-- The node to take over is found or put in. -/
theorem exists_takeoverTarget (hg : g.Sound) (ho : g.isOutput o) (hn : o ∈ g.connsOf n) :
    (∃ t, g.existingTarget? o = .ok (some t) ∧ g.takeoverTarget o = .ok (t, g)) ∨
      ∃ r, g.existingTarget? o = .ok none ∧ g.putPinNode o = .ok r ∧ g.takeoverTarget o = .ok r := by
  rcases exists_existingTarget? hg (isSome_of_isOutput ho) with ⟨t, ht⟩
  unfold takeoverTarget
  rw [ht]
  cases t with
  | some t => exact .inl ⟨t, rfl, rfl⟩
  | none =>
    rcases exists_putPinNode hg ho hn with ⟨r, hr⟩
    exact .inr ⟨r, rfl, hr, hr⟩

/-! ## One cell -/

/-- Why the cell `n` is not taken over: it is a buffer, and the node to take it over has a buffer
already, or it is a register, and that node is a pin that took over nothing and has a bidirectional
connection in place of an input. -/
inductive Blocked (g : Network) (n : NodeId) : NetworkError → Prop
  | secondBuffer {o : ConnId} {t : NodeId} {name : String} (hn : g.kindOf? n = some .triState)
    (ho : g.liveOutput? n = .ok (some o)) (ht : g.existingTarget? o = .ok (some t))
    (hb : (g.absorbedOf t).buffer = true) (hname : g.nodeNameOf? t = some name) :
    Blocked g n (.secondBuffer name)
  | bidirectional {o c : ConnId} {t : NodeId} {name : String}
    (hn : g.hasKind isRegister n = true) (ho : g.liveOutput? n = .ok (some o))
    (ht : g.existingTarget? o = .ok (some t)) (ha : g.absorbedOf t = .nothing) (hk : t ∈ g.pins)
    (hc : c ∈ g.connsOf t) (hd : g.directionOf? c = some .bidirectional)
    (hname : g.nodeNameOf? t = some name) : Blocked g n (.miscount name (.targetInputs 0))

theorem soleInput_of_singleton (hn : (g.node? n).isSome)
    (h : (g.connsOf n).filter g.isInput = [c]) : g.soleInput n = .ok c := by
  unfold soleInput
  rw [inputs_eq_ok.mpr ⟨hn, h⟩]
  rfl

theorem soleInput_of_nil {name : String} (hn : g.nodeNameOf? n = some name)
    (h : (g.connsOf n).filter g.isInput = []) :
    g.soleInput n = .error (.miscount name (.targetInputs 0)) := by
  have hsome : (g.node? n).isSome := by
    rw [nodeNameOf?, Option.map_eq_some_iff] at hn
    rcases hn with ⟨y, hy, -⟩
    rw [hy]
    rfl
  unfold soleInput
  rw [inputs_eq_ok.mpr ⟨hsome, h⟩]
  rw [nodeName_eq_ok.mpr hn]
  rfl

theorem exists_nodeNameOf? (h : (g.node? n).isSome) : ∃ name, g.nodeNameOf? n = some name := by
  rcases Option.isSome_iff_exists.mp h with ⟨y, hy⟩
  exact ⟨y.name, by rw [nodeNameOf?, hy]; rfl⟩

/-- A connection that can be driven but is no input is bidirectional. -/
theorem bidirectional_of_isSink (hs : g.isSink c) (hin : g.isInput c = false) :
    g.directionOf? c = some .bidirectional := by
  rw [isSink] at hs
  rw [isInput] at hin
  cases hd : g.directionOf? c with
  | none => simp [hd] at hs
  | some dir =>
    cases dir with
    | input => simp [hd] at hin
    | output => simp [hd, Direction.isInput] at hs
    | bidirectional => rfl

/-- Only a pin has a bidirectional connection, among pins and pin nodes. -/
theorem Tidy.mem_pins_of_bidirectional (hg : g.Tidy K) (hc : c ∈ g.connsOf n)
    (hn : g.hasKind isNamed n) (hd : g.directionOf? c = some .bidirectional) : n ∈ g.pins := by
  refine (mem_append.mp (hg.mem_of_isNamed hc hn)).resolve_right fun hp => ?_
  have hk := hg.pinNode_kind hp
  have hreg := hg.regular (hasKind_of hk (by simp [isNamed]))
  rcases hreg.plain (by simp [hk]) hc with h | h
  · simp [isInput, hd] at h
  · simp [isOutput, hd] at h

theorem PutsPinNode.node_isSome (h : PutsPinNode o source g g') : (g'.node? g.nextNode).isSome :=
  isSome_of_kindOf? (k := .pinNode) (by simp [h.kindOf?])

theorem PutsPinNode.soleInput (h : PutsPinNode o source g g') : g'.soleInput g.nextNode = .ok g.putIn :=
  soleInput_of_singleton h.node_isSome h.inputs

theorem exists_putTarget (hg : g.Sound) (ho : g.isOutput o) (hn : o ∈ g.connsOf n) :
    ∃ r, g.putTarget o = .ok r := by
  rcases exists_putPinNode hg ho hn with ⟨⟨t, g1⟩, h1⟩
  rcases puts_putPinNode hg.toWired h1 with ⟨-, source, -, -, ht, hputs⟩
  subst ht
  exact exists_bind h1 (exists_bind hputs.soleInput ⟨_, rfl⟩)

/-- A place for the register is found, or the only node for it is a pin without an input. -/
theorem ends_registerTarget (hg : g.Poised K) (ho : g.isOutput o) (hn : o ∈ g.connsOf n)
    (hlive : g.liveOutput? n = .ok (some o)) (hk : g.hasKind isRegister n) :
    Ends (Blocked g n) (fun _ => True) (g.registerTarget o) := by
  unfold registerTarget
  rcases exists_takeoverTarget hg.toSound ho hn with ⟨t, htarget, hrun⟩ | ⟨⟨t, g1⟩, -, hput, hrun⟩
  · rcases seat_existingTarget? hg.toSound ho htarget with ⟨slot, hseat⟩
    rcases Option.isSome_iff_exists.mp (isSome_of_mem_connsOf hseat.mem) with ⟨x, hx⟩
    have habs : g.absorbedOf t = x.absorbed := by simp [absorbedOf, hx]
    simp only [hrun, node_eq_ok.mpr hx, ok_bind]
    split
    · exact .of_exists (exists_putTarget hg.toSound ho hn)
    rename_i hreg
    split
    · -- the slot reads the output, so it is found
      apply Ends.of_exists
      have hfind : ∃ c, (x.conns.find? fun c => (g.refsOf c).contains o) = some c := by
        rw [← Option.isSome_iff_exists, find?_isSome]
        exact ⟨slot, connsOf_of_node? hx ▸ hseat.mem, by simp [hseat.refs]⟩
      rcases hfind with ⟨c, hc⟩
      rw [hc]
      have hmem : c ∈ g.connsOf t := by
        rw [connsOf_of_node? hx]
        exact mem_of_find?_eq_some hc
      rcases Option.isSome_iff_exists.mp (hg.conn_isSome hmem) with ⟨y, hy⟩
      refine exists_bind (conn_eq_ok.mpr hy)
        (exists_bind (fanOut_eq_ok.mpr ⟨isSome_of_isOutput ho, rfl⟩) ?_)
      split
      · exact exists_putTarget hg.toSound ho hn
      · exact ⟨_, rfl⟩
    · rename_i hbuf
      have hnothing : g.absorbedOf t = .nothing := by
        rw [habs, ← Absorbed.isNothing_iff]
        simp [Absorbed.isNothing, hreg, hbuf]
      have hsole : ∀ e ∈ g.connsOf t, g.isSink e → e = slot := fun e he hes =>
        hg.undivided hseat.named hnothing he hseat.mem hes hseat.sink
      cases hin : g.isInput slot with
      | true =>
        have hone : (g.connsOf t).filter g.isInput = [slot] :=
          filter_of_sole (hg.nodup_conns t) hseat.mem hin fun e he hei =>
            hsole e he (isSink_of_isInput hei)
        rw [soleInput_of_singleton (isSome_of_mem_connsOf hseat.mem) hone]
        exact .ok trivial
      | false =>
        have hnone : (g.connsOf t).filter g.isInput = [] := by
          rw [filter_eq_nil_iff]
          intro e he hei
          rw [hsole e he (isSink_of_isInput hei), hin] at hei
          cases hei
        have hdir := bidirectional_of_isSink hseat.sink hin
        rcases exists_nodeNameOf? (isSome_of_mem_connsOf hseat.mem) with ⟨name, hname⟩
        rw [soleInput_of_nil hname hnone]
        exact .error (.bidirectional hk hlive htarget hnothing (hg.mem_pins_of_bidirectional hseat.mem
          hseat.named hdir) hseat.mem hdir hname)
  · apply Ends.of_exists
    rcases puts_putPinNode hg.toWired hput with ⟨-, source, -, -, ht, hputs⟩
    subst ht
    rcases Option.isSome_iff_exists.mp hputs.node_isSome with ⟨x, hx⟩
    have habs : x.absorbed = .nothing := by
      have hnew := hputs.absorbedOf (m := g.nextNode)
      simpa [absorbedOf, hx] using hnew
    have hreg : ¬ x.absorbed.register := by
      rw [habs]
      exact Bool.false_ne_true
    have hbuf : ¬ x.absorbed.buffer := by
      rw [habs]
      exact Bool.false_ne_true
    simp only [hrun, ok_bind]
    refine exists_bind (node_eq_ok.mpr hx) ?_
    rw [if_neg hreg, if_neg hbuf]
    exact exists_bind hputs.soleInput ⟨_, rfl⟩

/-- A register is taken over unless it is blocked. -/
theorem ends_takeOverRegister (hg : g.Poised K) (hk : g.hasKind isRegister n) :
    Ends (Blocked g n) (fun _ => True) (g.takeOverRegister n) := by
  rcases exists_liveOutput? hg.toOwned (isSome_of_hasKind hk) with ⟨o?, hlive⟩
  unfold takeOverRegister
  rw [hlive, ok_bind]
  cases o? with
  | none => exact .ok trivial
  | some o =>
    rcases liveOutput?_eq_ok hlive with ⟨hmem, hout, -⟩
    rcases ends_registerTarget hg hout hmem hlive hk with ⟨⟨⟨t, slot⟩, g1⟩, hrun, -⟩ | ⟨e, hrun, he⟩
    · apply Ends.of_exists
      rcases seats_registerTarget hg.toSound hg.undivided hout hrun with ⟨hseats, -⟩
      have hg1 := hseats.sound hg.toSound hout ⟨n, hmem⟩
      have hseat := hseats.seat hg.toSound hout
      have hcell1 := hseats.hasKind_cell (hasKind_isSequential_of_isRegister hk)
      rcases hseat.exists_register hcell1 (hseats.mem_connsOf hmem) (hseats.isOutput hout) hg1 with
        ⟨g2, cs, g3, g4, g5, hd, hcs, hr, hmoves, hretire, -⟩
      exact exists_bind hrun (exists_bind hd (exists_bind hcs
        (exists_bind hr (exists_bind hmoves (exists_bind hretire ⟨_, rfl⟩)))))
    · simp only [hrun]
      exact .error he

/-- A node that has taken over nothing takes over a buffer. -/
theorem exists_takeOverBuffer (hg : g.Poised K) (hk : g.kindOf? n = some .triState)
    (hlive : g.liveOutput? n = .ok (some o)) (hrun : g.takeoverTarget o = .ok (t, g1))
    (hnothing : g1.absorbedOf t = .nothing) : ∃ r, g.takeOverBuffer n = .ok r := by
  rcases liveOutput?_eq_ok hlive with ⟨hmem, hout, -⟩
  rcases seats_takeoverTarget hg.toSound hout hrun with ⟨slot, hseats⟩
  have hg1 := hseats.poised hg hout ⟨n, hmem⟩
  have hseat := hseats.seat hg.toSound hout
  have hcell : g.hasKind isSequential n := hasKind_of hk rfl
  have hcell1 := hseats.hasKind_cell hcell
  have hk1 : g1.kindOf? n = some .triState :=
    (hseats.evolves.kind (isSome_of_kindOf? hk)).trans hk
  rcases Option.isSome_iff_exists.mp (isSome_of_mem_connsOf hseat.mem) with ⟨x, hx⟩
  have hbuf : ¬ x.absorbed.buffer := by
    have habs : x.absorbed = .nothing := by simpa [absorbedOf, hx] using hnothing
    rw [habs]
    exact Bool.false_ne_true
  -- the target has taken over nothing, so it reads the output only
  have hsinks : g1.sinks t = .ok [slot] :=
    sinks_eq_ok.mpr ⟨isSome_of_mem_connsOf hseat.mem, filter_of_sole (hg1.nodup_conns t)
      hseat.mem hseat.sink fun e he hes =>
        hg1.undivided hseat.named hnothing he hseat.mem hes hseat.sink⟩
  rcases Option.isSome_iff_exists.mp (hg1.conn_isSome hseat.mem) with ⟨y, hy⟩
  have hdriven : y.refs.contains o := by
    rw [← refsOf_of_conn? hy, hseat.refs]
    simp
  rcases hseat.exists_buffer hcell1 (hseats.mem_connsOf hmem) (hseats.isOutput hout) hg1.toSound
    (hg1.data hk1) with ⟨g2, cs, g3, g4, g5, hd, hcs, hr, hmoves, hretire, -⟩
  simp only [takeOverBuffer, hlive, hrun, ok_bind, node_eq_ok.mpr hx, if_neg hbuf, hsinks,
    conn_eq_ok.mpr hy, hdriven, if_true]
  exact exists_bind hd (exists_bind hcs
    (exists_bind hr (exists_bind hmoves (exists_bind hretire ⟨_, rfl⟩))))

/-- Before any register is taken over, a buffer is taken over unless it is blocked. -/
theorem ends_takeOverBuffer (hg : g.Poised K) (hk : g.kindOf? n = some .triState)
    (hfree : ∀ t, (g.absorbedOf t).register = false) :
    Ends (Blocked g n) (fun _ => True) (g.takeOverBuffer n) := by
  rcases exists_liveOutput? hg.toOwned (isSome_of_kindOf? hk) with ⟨o?, hlive⟩
  cases o? with
  | none => exact .of_exists (exists_bind hlive ⟨_, rfl⟩)
  | some o =>
    rcases liveOutput?_eq_ok hlive with ⟨hmem, hout, -⟩
    rcases exists_takeoverTarget hg.toSound hout hmem with ⟨t, htarget, hrun⟩ | ⟨⟨t, g1⟩, -, hput, hrun⟩
    · cases hb : (g.absorbedOf t).buffer with
      | true =>
        rcases seat_existingTarget? hg.toSound hout htarget with ⟨slot, hseat⟩
        rcases Option.isSome_iff_exists.mp (isSome_of_mem_connsOf hseat.mem) with ⟨x, hx⟩
        have hbuf : x.absorbed.buffer := by simpa [absorbedOf, hx] using hb
        have hname : g.nodeNameOf? t = some x.name := by
          rw [nodeNameOf?, hx]
          rfl
        simp only [takeOverBuffer, hlive, hrun, ok_bind, node_eq_ok.mpr hx, hbuf, if_true,
          nodeName_eq_ok.mpr hname]
        exact .error (.secondBuffer hk hlive htarget hb hname)
      | false =>
        refine .of_exists (exists_takeOverBuffer hg hk hlive hrun ?_)
        rw [← Absorbed.isNothing_iff]
        simp [Absorbed.isNothing, hfree, hb]
    · rcases puts_putPinNode hg.toWired hput with ⟨-, source, -, -, ht, hputs⟩
      subst ht
      refine .of_exists (exists_takeOverBuffer hg hk hlive hrun ?_)
      rw [hputs.absorbedOf]
      simp [absorbedOf]

/-! ## The whole run -/

/-- The run of takeovers over `g` comes to the cell `n` in the network `h`. -/
inductive Visits (g : Network) (n : NodeId) : Network → Prop
  | buffer {pre post : List NodeId} {s : Bool × Network}
    (hl : g.cells.filter (g.hasKind (· = .triState)) = pre ++ n :: post)
    (hrun : pre.foldlM (takeOverWith takeOverBuffer) (false, g) = .ok s) : Visits g n s.2
  | register {pre post : List NodeId} {s s' : Bool × Network}
    (hb : (g.cells.filter (g.hasKind (· = .triState))).foldlM (takeOverWith takeOverBuffer) (false, g) =
      .ok s)
    (hl : s.2.cells.filter (s.2.hasKind isRegister) = pre ++ n :: post)
    (hrun : pre.foldlM (takeOverWith takeOverRegister) s = .ok s') : Visits g n s'.2

/-- What every takeover keeps holds wherever the run comes to. -/
theorem Visits.keeps {P : Network → Prop} {h : Network} (hv : Visits g n h) (hg : g.Poised K) (hP : P g)
    (keeps : ∀ {u h g1 g2 h'}, h.Poised K → P h → TakesOver u h g1 g2 h' → P h') : h.Poised K ∧ P h := by
  have hbuffers : ∀ {l : List NodeId} {s : Bool × Network},
      (∀ m ∈ l, m ∈ g.cells.filter (g.hasKind (· = .triState))) →
      l.foldlM (takeOverWith takeOverBuffer) (false, g) = .ok s → s.2.Poised K ∧ P s.2 := by
    intro l s hl hrun
    rcases takeOverAll_keeps (s := (false, g)) hg hP
      (fun m hm => (mem_filter.mp (hl m hm)).2)
      (fun hp hk => takesOver_buffer hp (kindOf?_of_hasKind hk)) (fun _ hP _ _ => hP)
      (fun hp hP _ ht => keeps hp hP ht) hrun with ⟨hs, -, hPs⟩
    exact ⟨hs, hPs⟩
  cases hv with
  | buffer hl hrun => exact hbuffers (fun m hm => hl ▸ mem_append_left _ hm) hrun
  | register hb hl hrun =>
    rcases hbuffers (fun _ hm => hm) hb with ⟨hs, hPs⟩
    rcases takeOverAll_keeps hs hPs
      (fun m hm => (mem_filter.mp (hl ▸ mem_append_left _ hm)).2) takesOver_register
      (fun _ hP _ _ => hP) (fun hp hP _ ht => keeps hp hP ht) hrun with ⟨hs', -, hPs'⟩
    exact ⟨hs', hPs'⟩

/-- Bringing the list of equations up to date and the check that follows do not fail. -/
theorem ends_takeOverWith {f : Network → NodeId → Attempt (Bool × Network)} {s : Bool × Network}
    {E : NetworkError → Prop} (hf : Ends E (fun _ => True) (f s.2 n))
    (sound : ∀ {r}, f s.2 n = .ok r → r.2.Sound) : Ends E (fun _ => True) (takeOverWith f s n) := by
  unfold takeOverWith
  rcases hf with ⟨⟨merged, g'⟩, hr, -⟩ | ⟨e, he, hE⟩
  · simp only [hr, ok_bind]
    cases merged with
    | false => exact .ok trivial
    | true =>
      rcases exists_rebuildTop (sound hr) with ⟨g'', hg'', hsound⟩
      exact .of_exists (exists_bind hg'' (exists_bind hsound.checkAll ⟨_, rfl⟩))
  · simp only [he]
    exact .error hE

/-- What the nodes have taken over after one more takeover. -/
theorem TakesOver.absorbedOf (h : TakesOver s g g1 g2 g') (hg : g.Poised K) : g'.absorbedOf m =
      if m = s.target then (g.absorbedOf m).union s.mark else g.absorbedOf m := by
  rw [(h.retires hg).absorbedOf, h.applies.absorbedOf, h.seats.absorbedOf]

/-- A node that has taken over nothing afterwards is not the target, and had taken over nothing. -/
theorem TakesOver.ne_target (h : TakesOver s g g1 g2 g') (hg : g.Poised K)
    (hm : g'.absorbedOf m = .nothing) : m ≠ s.target ∧ g.absorbedOf m = .nothing := by
  rw [h.absorbedOf hg] at hm
  split at hm
  · exact absurd hm (Absorbed.union_ne_nothing _ h.mark)
  · rename_i hne
    exact ⟨hne, hm⟩

/-- Taking over buffers marks no node with a register. -/
theorem TakesOver.register_buffer (h : TakesOver s g g1 g2 g') (hg : g.Poised K)
    (hk : g.kindOf? s.cell = some .triState) : (g'.absorbedOf m).register = (g.absorbedOf m).register := by
  rw [h.absorbedOf hg]
  split
  · cases h.role with
    | register hreg =>
      rw [hasKind, hk] at hreg
      cases hreg
    | buffer _ _ hs =>
      rw [hs]
      exact Bool.or_false _
  · rfl

/-- While only buffers are taken over, no node is marked with a register. -/
theorem takeOverBuffers_spec {l : List NodeId} {s : Bool × Network} (hg : g.Poised K)
    (hfree : ∀ t, (g.absorbedOf t).register = false) (hl : ∀ n ∈ l, g.hasKind (· = .triState) n)
    (hrun : l.foldlM (takeOverWith takeOverBuffer) (false, g) = .ok s) :
    s.2.Poised K ∧ Evolves g s.2 ∧ ∀ t, (s.2.absorbedOf t).register = false := by
  refine takeOverAll_keeps (P := fun _ (h : Network) => ∀ t, (h.absorbedOf t).register = false)
    (s := (false, g)) hg hfree hl (fun hp hk => takesOver_buffer hp (kindOf?_of_hasKind hk))
    (fun _ hP _ _ => hP) ?_ hrun
  intro pre u h g1 g2 h' hp hP hk ht t
  rw [ht.register_buffer hp (kindOf?_of_hasKind hk)]
  exact hP t

/-- The run over the buffers stops at a blocked one only. -/
theorem ends_takeOverBuffers (hg : g.Poised K) (hfree : ∀ t, (g.absorbedOf t).register = false) :
    Ends (fun e => ∃ n h, Visits g n h ∧ Blocked h n e) (fun _ => True)
      ((g.cells.filter (g.hasKind (· = .triState))).foldlM (takeOverWith takeOverBuffer) (false, g)) := by
  apply Ends.foldlM
  intro pre n post s heq hrun
  have hall : ∀ m ∈ pre ++ n :: post, g.hasKind (· = .triState) m := by
    intro m hm
    rw [← heq] at hm
    exact (mem_filter.mp hm).2
  rcases takeOverBuffers_spec hg hfree (fun m hm => hall m (mem_append_left _ hm)) hrun with
    ⟨hs, he, hnone⟩
  have hn := hall n (by simp)
  have hk : s.2.kindOf? n = some .triState :=
    kindOf?_of_hasKind (he.keeps_kind hn)
  apply ends_takeOverWith
  · exact (ends_takeOverBuffer hs hk hnone).mono (fun _ hb => ⟨n, s.2, .buffer heq hrun, hb⟩) fun _ h => h
  · intro r hr
    rcases takeOverBuffer_spec hs.toSound (hasKind_of hk rfl) (hs.data hk) hr with
      ⟨rfl, -⟩ | ⟨o, t, slot, g1, -, -, -, -, -, happ⟩
    · exact hs.toSound
    · exact happ.sound

/-- So does the run over the registers. -/
theorem ends_takeOverRegisters {s : Bool × Network} (hg : s.2.Poised K)
    (hb : (g.cells.filter (g.hasKind (· = .triState))).foldlM (takeOverWith takeOverBuffer) (false, g) =
      .ok s) : Ends (fun e => ∃ n h, Visits g n h ∧ Blocked h n e) (fun _ => True)
      ((s.2.cells.filter (s.2.hasKind isRegister)).foldlM (takeOverWith takeOverRegister) s) := by
  apply Ends.foldlM
  intro pre n post s' heq hrun
  have hall : ∀ m ∈ pre ++ n :: post, s.2.hasKind isRegister m := by
    intro m hm
    rw [← heq] at hm
    exact (mem_filter.mp hm).2
  rcases takeOverAll_keeps (P := fun _ _ => True) hg trivial
    (fun m hm => hall m (mem_append_left _ hm)) takesOver_register (fun _ _ _ _ => trivial)
    (fun _ _ _ _ => trivial) hrun with ⟨hs', he, -⟩
  have hn := hall n (by simp)
  have hk := he.keeps_kind hn
  apply ends_takeOverWith
  · exact (ends_takeOverRegister hs' hk).mono (fun _ hb' => ⟨n, s'.2, .register hb heq hrun, hb'⟩) fun _ h => h
  · intro r hr
    rcases takeOverRegister_spec hs'.toSound hs'.undivided (hasKind_isSequential_of_isRegister hk) hr with
      ⟨rfl, -⟩ | ⟨o, t, slot, g1, -, -, -, -, happ⟩
    · exact hs'.toSound
    · exact happ.sound

/-- The run ends well unless it comes to a cell that is blocked. -/
theorem ends_collapse (hg : g.Poised K) (hfree : ∀ t, (g.absorbedOf t).register = false) :
    Ends (fun e => ∃ n h, Visits g n h ∧ Blocked h n e) (fun _ => True) g.collapse := by
  unfold collapse
  rcases ends_takeOverBuffers hg hfree with ⟨s, hs, -⟩ | ⟨e, he, hblocked⟩
  · rcases takeOverBuffers_spec hg hfree (fun n hn => (mem_filter.mp hn).2) hs with ⟨hpoised, -⟩
    simp only [hs, ok_bind]
    exact ends_takeOverRegisters hpoised hs
  · simp only [he]
    exact .error hblocked

end PldSynth.Network
