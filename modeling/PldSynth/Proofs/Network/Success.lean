import PldSynth.Proofs.Network.Coverage
import PldSynth.Proofs.Network.Handles
import PldSynth.Proofs.Network.Layers

/-!
# When the first two passes succeed

In a network in order nothing can go wrong while ports become pins and shared outputs get names
(`exists_branch`), circles or not. The pass after it removes pin nodes that only forward a signal, which
cannot fail either, because every pin node has exactly one input. So what is left to fail for are the
controls of latches: the pass fails at one that is in use (`ends_simplify`), and it succeeds exactly if each
of them reads a constant 0 (`exists_simplify_iff`).
-/

namespace PldSynth.Network

open Attempt List
open PldSynth.NodeKind (isNamed)

variable {K : NodeKind → Bool} {g g' : Network} {n m a b : NodeId}
  {c d o p x input output kept : ConnId} {w : Walk} {rest : List Stop} {item : Stop}
  {control : LatchControl} {name : String} {s : Bool × Network}

/-! ## Port pins -/

theorem exists_exposePort (hg : g.Sound) (hp : p ∈ g.connsOf n) : ∃ g', g.exposePort p = .ok g' := by
  rcases Option.isSome_iff_exists.mp (hg.conn_isSome hp) with ⟨y, hy⟩
  have hgrow := grows_addPin (g := g) y.name
  have howner : (g.addPin y.name).2.ownerOf? p = some n :=
    (hg.addPin y.name).owner (by rwa [hgrow.connsOf])
  have hn : ((g.addPin y.name).2.node? n).isSome := isSome_of_mem_connsOf (by rwa [hgrow.connsOf])
  have hpin : ((g.addPin y.name).2.node? (g.addPin y.name).1).isSome := by
    rw [fst_addPin, hgrow.node?, if_pos rfl]
    rfl
  exact exists_bind (conn_eq_ok.mpr hy) (exists_reparent howner hn hpin)

/-- While ports are exposed, those that are left still stand on the node of the module. -/
theorem exists_exposePorts (hg : g.Sound) : ∃ g', g.exposePorts = .ok g' := by
  rcases Option.isSome_iff_exists.mp (isSome_of_kindOf? hg.design_kind) with ⟨y, hy⟩
  refine exists_bind (node_eq_ok.mpr hy) ?_
  rw [← connsOf_of_node? hy]
  refine exists_foldlM fun pre p post t hl ht => ?_
  rcases foldlM_exposePort (fun hs => hs) (fun _ _ hx => hx.sound) hg hl ht
    with ⟨hsound, hdesign⟩
  have hnd := hg.nodup_conns designId
  rw [hl] at hnd
  have hnot : p ∉ pre := fun hm => (disjoint_of_nodup_append hnd) hm mem_cons_self
  exact exists_exposePort hsound (n := designId) (by simp [hdesign, hl, hnot])

/-! ## The walk -/

theorem exists_enter (hn : (w.net.node? n).isSome) : ∃ r, w.enter n = .ok r := by
  rcases Option.isSome_iff_exists.mp hn with ⟨y, hy⟩
  have hk : w.net.nodeKind n = .ok y.kind := nodeKind_eq_ok.mpr (by simp [kindOf?_def, hy])
  refine exists_bind hk ?_
  split
  · exact ⟨_, rfl⟩
  · exact exists_bind (sinks_eq_ok.mpr ⟨hn, rfl⟩) ⟨_, rfl⟩

theorem exists_nameIfShared (k : NodeKind) (count : Nat) (hg : w.net.Sound)
    (ho : w.net.isOutput o) (hn : o ∈ w.net.connsOf n) : ∃ w', w.nameIfShared o k count = .ok w' := by
  unfold Walk.nameIfShared
  split
  · rcases exists_putPinNode hg ho hn with ⟨r, hr⟩
    exact exists_bind hr ⟨_, rfl⟩
  · exact ⟨_, rfl⟩

/-- The walk can follow an input. -/
theorem exists_follow (hg : w.net.Sound) (hs : w.net.isSink c) : ∃ r, w.follow c = .ok r := by
  rcases Option.isSome_iff_exists.mp (isSome_of_isSink hs) with ⟨y, hy⟩
  refine exists_bind (conn_eq_ok.mpr hy) ?_
  rw [← refsOf_of_conn? hy]
  rcases hg.eq_nil_or_singleton hs with hnil | ⟨o, ho⟩
  · rw [hnil]
    exact ⟨_, rfl⟩
  · have hmem : o ∈ w.net.refsOf c := by simp [ho]
    have hout := hg.output_of_sink hmem hs
    rcases hg.listed (hg.mirror hmem) with ⟨m, hm⟩
    rcases exists_conn_of_isOutput hout with ⟨x, hx, hdir⟩
    obtain rfl : x.owner = m := by simpa [ownerOf?_def, hx] using hg.owner hm
    rcases Option.isSome_iff_exists.mp (isSome_of_mem_connsOf hm) with ⟨z, hz⟩
    have hk : w.net.nodeKind x.owner = .ok z.kind := nodeKind_eq_ok.mpr (by simp [kindOf?_def, hz])
    rcases exists_nameIfShared z.kind x.refs.length hg hout hm with ⟨w', hw'⟩
    simp only [ho, conn_eq_ok.mpr hx, hdir, hk, hw', ok_bind, if_true]
    exact ⟨_, rfl⟩

theorem Walks.exists_step (h : Walks K g w (item :: rest)) : ∃ r, w.step item = .ok r := by
  cases item with
  | node n => exact exists_enter (h.nodes mem_cons_self).isSome
  | input c =>
    rcases h.inputs mem_cons_self with ⟨n, -, hs, -⟩
    exact exists_follow h.tidy.toSound hs

theorem exists_nameSharedOutputs (hg : g.Tidy K) (hpinNodes : g.pinNodes = []) :
    ∃ w, g.nameSharedOutputs = .ok w := by
  refine exists_drain (fun {w item rest} h => ?_) (walks_roots hg hpinNodes)
  rcases h.exists_step with ⟨⟨w', more⟩, hstep⟩
  refine ⟨w', more, hstep, ?_⟩
  cases item with
  | node n => exact h.enter hstep
  | input c => exact h.follow hg.toOwned hstep

/-- Ports can be exposed and shared outputs named, circles or not. -/
theorem exists_branch (hg : g.Raw K) (hpinNodes : g.pinNodes = []) : ∃ r, g.branch = .ok r := by
  rcases exists_exposePorts hg.toSound with ⟨g1, h1⟩
  have hP := exposePorts_invariant (P := fun _ s => s.Raw K ∧ s.pinNodes = []) (fun hs => hs.1.toSound)
    (fun hs _ hx => ⟨hx.raw hs.1, hx.pinNodes.trans hs.2⟩) ⟨hg, hpinNodes⟩ h1
  rcases exists_nameSharedOutputs hP.1.toTidy hP.2 with ⟨w, hw⟩
  have hsound : w.net.Sound := (walks_nameSharedOutputs hP.1.toTidy hP.2 hw).tidy.toSound
  rcases exists_rebuildTop hsound with ⟨g2, h2, hsound2⟩
  rcases Option.isSome_iff_exists.mp (isSome_of_kindOf? hg.design_kind) with ⟨y, hy⟩
  refine exists_bind (node_eq_ok.mpr hy) (exists_bind h1 (exists_bind hw ?_))
  exact exists_bind h2 (exists_bind hsound2.checkAll ⟨_, rfl⟩)

/-! ## Forwarding pin nodes -/

/-- Every pin node has a connection that can be driven. -/
def PinNodesFed (g : Network) : Prop :=
  ∀ n ∈ g.pinNodes, ∃ c ∈ g.connsOf n, g.isSink c = true

/-- The connection belongs to a node that was handed out. -/
def Placed (g : Network) (c : ConnId) : Prop :=
  ∃ n, g.ownerOf? c = some n ∧ (g.node? n).isSome

theorem placed_of_mem (hg : g.Owned) (hc : c ∈ g.connsOf n) : g.Placed c :=
  ⟨n, hg.owner hc, isSome_of_mem_connsOf hc⟩

theorem Sound.closed_placed (hg : g.Sound) : g.Closed g.Placed where
  owner hc := hc
  conns hc := placed_of_mem hg.toOwned hc
  refs hd := (hg.listed (hg.mirror hd)).elim fun _ hm => placed_of_mem hg.toOwned hm

/-- A pin node has exactly one input. -/
theorem Raw.inputs_pinNode (hg : g.Raw K) (hk : g.kindOf? b = some .pinNode) (hc : c ∈ g.connsOf b)
    (hs : g.isSink c) : (g.connsOf b).filter g.isInput = [c] := by
  have hnamed : g.hasKind isNamed b := hasKind_of hk rfl
  refine filter_of_sole (hg.nodup_conns b) hc ?_ fun y hy hin =>
    hg.single hnamed hy hc (isSink_of_isInput hin) hs
  by_contra hin
  have hpin := hg.mem_pins_of_bidirectional hc hnamed (bidirectional_of_isSink hs (by simpa using hin))
  cases hk.symm.trans (hg.pin_kind hpin)

/-- A pin node that forwards a signal can be fused. -/
theorem exists_fuse (hg : g.Raw K) (hf : Forwarded g input output a b) (hk : kept ∈ g.connsOf b)
    (hks : g.isSink kept) : ∃ g', g.fuse input = .ok g' := by
  rcases Option.isSome_iff_exists.mp (hg.conn_isSome hf.mem) with ⟨y, hy⟩
  have howner : y.owner = a := by simpa [ownerOf?_def, hy] using hg.owner hf.mem
  have hhead : y.refs.head? = some output := by rw [← refsOf_of_conn? hy, hf.refs]; rfl
  have hinputs := hg.inputs_pinNode hf.kind hk hks
  have hki : g.isInput kept := (mem_filter.mp (hinputs ▸ mem_singleton_self kept)).2
  have hb := isSome_of_mem_connsOf hk
  have ha := isSome_of_mem_connsOf hf.mem
  -- the input of the pin node takes the place of `input`
  rcases exists_detach hg.mirror (hg.owner hf.mem) ha with ⟨g1, h1⟩
  have hd := applies_detach hg.mirror hg.owner h1
  have hal := alike_renameConn (g := g1) (c := kept) y.name
  have hsome : ∀ {m}, (g.node? m).isSome → ((g1.renameConn kept y.name).node? m).isSome := by
    intro m hm
    rw [← isSome_kindOf?, hal.kindOf?, hd.kindOf?, isSome_kindOf?]
    exact hm
  have hkept : kept ∈ (g1.renameConn kept y.name).connsOf b := by
    rw [hal.connsOf, connsOf_detached hd]
    simp [hk, hf.kept_ne hg hk]
  rcases exists_reparent ((hal.sound (hg.toSound.detached hd)).owner hkept) (hsome hb) (hsome ha)
    with ⟨g2, h2⟩
  have hm := movesInput_reparent hg hf hk (by simp [connNameOf?, hy]) h1 h2
  -- then the consumers follow and the pin node goes
  rcases exists_close hm.sound (hm.mem_output hg hf hki) (hm.isOutput hg hf) hf.ne (hm.inUse hg hf)
    (hm.evolves.node_isSome ha) with ⟨g3, h3, hb3, hretire⟩
  rcases Option.isSome_iff_exists.mp hb3 with ⟨z, hz⟩
  rcases hretire z.absorbed with ⟨g4, h4⟩
  refine ⟨g4, ?_⟩
  unfold fuse
  simp only [conn_eq_ok.mpr hy, hhead, owner_eq_ok.mpr (hg.owner hf.mem_output),
    inputs_eq_ok.mpr ⟨hb, hinputs⟩, howner, h1, h2, h3, node_eq_ok.mpr hz, h4, ok_bind]

/-- A connection stays with a node that was handed out. -/
theorem Fuses.placed (h : Fuses input output kept a b g g') (hf : Forwarded g input output a b)
    (hc : g.Placed c) : g'.Placed c := by
  rcases hc with ⟨n, ho, hn⟩
  refine ⟨if c = kept then a else n, ?_, h.evolves.node_isSome ?_⟩
  · rw [h.ownerOf? (isSome_of_ownerOf? ho), ho]
    rfl
  · split
    · exact isSome_of_mem_connsOf hf.mem
    · exact hn

/-! ### Pin nodes that can be driven -/

/-- A pin node that stays keeps its connections, unless it takes the place of another one. -/
theorem Trims.pinNode_cases (ht : Trims g g') (hg : g.Raw K) (hn : n ∈ g'.pinNodes) :
    n ∈ g.pinNodes ∧ (g'.connsOf n = g.connsOf n ∨ ∃ input output kept b,
      Forwarded g input output n b ∧ Fuses input output kept n b g g') := by
  have hkind : ∀ {m k}, n ∈ g.pinNodes → g.kindOf? m = some k → k ≠ .pinNode → n ≠ m := by
    rintro m k hn hm hne rfl
    cases hm.symm.trans (hg.pinNode_kind hn)
    exact hne rfl
  cases ht with
  | @fuse input output kept a b hw hf =>
    rw [hf.pinNodes, mem_filter, decide_eq_true_eq] at hn
    refine ⟨hn.1, ?_⟩
    by_cases hna : n = a
    · subst hna
      exact .inr ⟨input, output, kept, b, hw, hf⟩
    · exact .inl (hf.connsOf hna hn.2)
  | drop hc _ hi hd =>
    have hn' : n ∈ g.pinNodes := (mem_filter.mp (hd.pinNodes ▸ hn)).1
    refine ⟨hn', .inl ?_⟩
    rw [connsOf_detached hd, hg.filter_conns_of_ne hc (hkind hn' hi.latch nofun)]
  | retire hk _ hr =>
    have hn' : n ∈ g.pinNodes := (mem_filter.mp (hr.pinNodes ▸ hn)).1
    refine ⟨hn', .inl ?_⟩
    rw [connsOf_retired hr, if_neg (hkind hn' hk nofun)]
  | rebuild hr =>
    have hret := retires_rebuildTop hg.toTidy hr
    exact ⟨hret.pinNodes.subset hn, .inl (hret.connsOf (.inr (.inr (.inr hn))))⟩

theorem Trims.pinNodesFed (ht : Trims g g') (hg : g.Raw K) (hfed : g.PinNodesFed) : g'.PinNodesFed := by
  have he := ht.evolves hg.toTidy
  intro n hn
  rcases ht.pinNode_cases hg hn with ⟨hn0, hconns | ⟨input, output, kept, b, -, hf⟩⟩
  · rcases hfed n hn0 with ⟨c, hc, hs⟩
    exact ⟨c, hconns ▸ hc, he.keeps_sink hs⟩
  · exact ⟨kept, hf.kept_mem_target, he.keeps_sink (isSink_of_isInput hf.kept_isInput)⟩

/-! ### Sweeps -/

/-- What the passes that remove pin nodes and latch controls start from and keep. -/
structure Trimmable (K : NodeKind → Bool) (g : Network) : Prop extends Raw K g where
  anchored : g.Anchored
  read : g.PinNodesRead
  fed : g.PinNodesFed

theorem Trims.trimmable (ht : Trims g g') (hg : g.Trimmable K) : g'.Trimmable K where
  toRaw := ht.raw hg.toRaw
  anchored := ht.anchored hg.toRaw hg.anchored
  read := ht.pinNodesRead hg.toRaw hg.read
  fed := ht.pinNodesFed hg.toRaw hg.fed

theorem placed_fuseIfForwarded {s s' : Nat × Network} (hg : s.2.Trimmable K)
    (hrun : fuseIfForwarded s x = .ok s') (hc : s.2.Placed c) : s'.2.Placed c := by
  rcases fuseIfForwarded_cases hrun with ⟨-, rfl⟩ | ⟨htrue, hfuse, -⟩
  · exact hc
  · rcases forwarded_isForwarded hg.toSound htrue with ⟨output, a, b, hf⟩
    rcases fuses_fuse hg.toRaw hg.anchored.selfless hf hfuse with ⟨kept, hfuses⟩
    exact hfuses.placed hf hc

theorem exists_fuseIfForwarded {s : Nat × Network} (hg : s.2.Trimmable K) (hc : s.2.Placed c) :
    ∃ s', fuseIfForwarded s c = .ok s' := by
  rcases (follows_isForwarded hg.toSound.closed_placed hc).exists_ok with ⟨answer, hanswer⟩
  refine exists_bind hanswer ?_
  split
  · rename_i htrue
    rcases forwarded_isForwarded hg.toSound (htrue ▸ hanswer) with ⟨output, a, b, hf⟩
    rcases hg.fed b (hg.mem_pinNodes_of_kind hf.mem_output hf.kind) with ⟨kept, hk, hks⟩
    rcases exists_fuse hg.toRaw hf hk hks with ⟨g', hg'⟩
    exact exists_bind hg' ⟨_, rfl⟩
  · exact ⟨_, rfl⟩

/-- A sweep comes to its end: what it has still to visit belongs to a node. -/
theorem exists_sweep (hg : g.Trimmable K) (htop : g.Collected) : ∃ r, g.sweep = .ok r := by
  have hreached : ∀ {l : List ConnId} {t : Nat × Network}, l.foldlM fuseIfForwarded (0, g) = .ok t →
      t.2.Trimmable K ∧ ∀ c, g.Placed c → t.2.Placed c := by
    intro l t ht
    refine foldlM_invariant (P := fun t : Nat × Network => t.2.Trimmable K ∧
      ∀ c, g.Placed c → t.2.Placed c) ?_ ⟨hg, fun c hc => hc⟩ ht
    rintro s x s' - ⟨hs, hplaced⟩ hstep
    constructor
    · exact fuseIfForwarded_keeps
        (fun h => ⟨h.toRaw, h.anchored.selfless⟩) (fun h ht => ht.trimmable h) hs hstep
    · exact fun c hc => placed_fuseIfForwarded hs hstep (hplaced c hc)
  have hloop : ∃ t, g.top.foldlM fuseIfForwarded (0, g) = .ok t := by
    refine exists_foldlM fun pre c post t hl ht => ?_
    rcases hreached ht with ⟨hs, hplaced⟩
    have hc : c ∈ g.top := by simp [hl]
    rw [htop, mem_flatMap] at hc
    rcases hc with ⟨n, -, hc⟩
    exact exists_fuseIfForwarded hs (hplaced c (placed_of_mem hg.toOwned (mem_filter.mp hc).1))
  rcases hloop with ⟨t, ht⟩
  rcases exists_rebuildTop (hreached ht).1.toSound with ⟨g', hg', -⟩
  exact exists_bind ht (exists_bind hg' ⟨_, rfl⟩)

/-- The sweeps come to an end. -/
theorem exists_sweepAll (bound : Nat) (hg : g.Trimmable K) (htop : g.Collected) :
    ∃ r, sweepAll bound g = .ok r := by
  induction bound generalizing g with
  | zero => exact ⟨_, rfl⟩
  | succ bound ih =>
    rcases exists_sweep hg htop with ⟨⟨count, g1⟩, hr⟩
    have hg1 : g1.Trimmable K := sweep_keeps
      (fun h => ⟨h.toRaw, h.anchored.selfless⟩) (fun h ht => ht.trimmable h) hg hr
    have htop1 : g1.Collected := by
      simp only [sweep, bind_eq_ok, pure_eq_ok] at hr
      rcases hr with ⟨s, -, g', htop', heq⟩
      cases heq
      exact collected_rebuildTop htop'
    rcases ih hg1 htop1 with ⟨r', hr'⟩
    refine exists_bind hr ?_
    dsimp only
    split
    · exact ⟨_, rfl⟩
    · exact exists_bind hr' ⟨_, rfl⟩

/-! ## Latch controls -/

/-- Every asynchronous control of a latch reads a constant 0. -/
def ControlsIdle (g : Network) : Prop :=
  ∀ ⦃n c⦄ ⦃control : LatchControl⦄, g.kindOf? n = some .latch → c ∈ g.connsOf n → g.isInput c = true →
    g.connNameOf? c = some control.port → g.IdleControl n c

/-- What a connection that stays reads afterwards: the same as before, or a pin or pin node in place of
a pin node. -/
theorem Trims.refsOf_cases (ht : Trims g g') (hg : g.Raw K) (hx : g.isSink x) (hmem : x ∈ g'.connsOf m) :
    g'.refsOf x = g.refsOf x ∨
      (∃ p b, g.refsOf x = [p] ∧ p ∈ g.connsOf b ∧ g.kindOf? b = some .pinNode) ∧
        ∃ p' a, g'.refsOf x = [p'] ∧ p' ∈ g'.connsOf a ∧ g'.hasKind isNamed a := by
  have he := ht.evolves hg.toTidy
  -- a driver that is left is the one that was there
  have hsub : (∀ d ∈ g'.refsOf x, d ∈ g.refsOf x) → g'.refsOf x = g.refsOf x := by
    intro hsub
    rcases (ht.raw hg).driven hmem (he.keeps_sink hx) with ⟨d, hd⟩
    rw [hd, hg.refsOf_eq_singleton hx (hsub d (by simp [hd]))]
  cases ht with
  | @fuse input output kept a b hw hf =>
    rcases hf.refsOf with ⟨out, hout, hrefs⟩
    by_cases hread : x ∈ g.refsOf output
    · right
      have hne : x ≠ input := by
        rintro rfl
        exact hf.input_not_mem m hmem
      refine ⟨⟨output, b, hg.refsOf_eq_singleton hx (hg.mirror hread), hw.mem_output, hw.kind⟩,
        out, a, ?_, (hout ⟨x, hread, hne⟩).1, ?_⟩
      · rw [hrefs hx hmem, if_pos hread]
      · exact hf.named_target hw
    · left
      rw [hrefs hx hmem, if_neg hread]
  | @drop n c hc hs hi hd =>
    refine .inl (hsub fun d hmem' => ?_)
    rw [refsOf_detached hd] at hmem'
    split at hmem'
    · cases hmem'
    · exact (mem_filter.mp hmem').1
  | @retire n hk hun hr =>
    refine .inl (hsub fun d hmem' => ?_)
    rw [refsOf_retired hr] at hmem'
    split at hmem'
    · cases hmem'
    · exact (mem_filter.mp hmem').1
  | rebuild hr => exact .inl (hsub fun d hd' => ((retires_rebuildTop hg.toTidy hr).refsOf x).subset hd')

/-- An output that is read stays where it is, unless it belongs to a pin node. -/
theorem Trims.mem_output (ht : Trims g g') (hg : g.Trimmable K) (hd : d ∈ g.connsOf m)
    (hout : g.isOutput d) (hm : g.kindOf? m ≠ some .pinNode) (hread : g.refsOf d ≠ []) :
    d ∈ g'.connsOf m := by
  cases ht with
  | @fuse input output kept a b hw hf =>
    by_cases hma : m = a
    · subst hma
      refine hf.mem_target hd ?_
      rintro rfl
      exact ne_of_isSink hw.isSink hout rfl
    · have hmb : m ≠ b := by
        rintro rfl
        exact hm hw.kind
      rw [hf.connsOf hma hmb]
      exact hd
  | drop hc hs hi hdet =>
    rw [connsOf_detached hdet, mem_filter, decide_eq_true_eq]
    exact ⟨hd, (ne_of_isSink hs hout).symm⟩
  | retire hk hun hr =>
    rw [connsOf_retired hr, if_neg]
    · exact hd
    · rintro rfl
      exact hread (hun hd hout)
  | rebuild hr =>
    rw [hg.read.rebuildTop hg.toTidy] at hr
    cases hr
    exact hd

/-- An edit that makes no latch and leaves the wires of constants to what stays of the latches alone. -/
theorem ControlsIdle.step (hidle : g.ControlsIdle) (hg : g.Owned) (he : Evolves g g')
    (only : ∀ {n c}, g'.kindOf? n = some .latch → c ∈ g'.connsOf n → (g.node? n).isSome)
    (driver : ∀ {n c d m}, c ∈ g'.connsOf n → g.isSink c → g.refsOf c = [d] → d ∈ g.connsOf m →
      g.kindOf? m = some .constant → g'.refsOf c = [d] ∧ d ∈ g'.connsOf m) : g'.ControlsIdle := by
  intro n c control hk hc hin hname
  have hn := only hk hc
  have hk0 := (he.kind hn).symm.trans hk
  have hnamed : g.hasKind isNamed n = false := by simp [hasKind, hk0, isNamed]
  have hc0 := he.shrinks hn hnamed hc
  have hcs := hg.conn_isSome hc0
  have hin0 := (isInput_congr (he.direction hcs)).symm.trans hin
  rcases (hidle hk0 hc0 hin0 ((he.connName hn hnamed hcs hc).symm.trans hname)).driver with
    ⟨d, m, hd, hm, hkm, hzero⟩
  rcases driver hc (isSink_of_isInput hin0) hd hm hkm with ⟨hd', hm'⟩
  have hms := isSome_of_kindOf? hkm
  exact ⟨hk, ⟨control, hname⟩, d, m, hd', hm', (he.kind hms).trans hkm, (he.constant hms).trans hzero⟩

/-- Where inputs are kept, a control that is idle afterwards was idle before. -/
theorem KeepsInputs.controlsIdle (h : KeepsInputs g g') (he : Evolves g g') (hidle : g'.ControlsIdle) :
    g.ControlsIdle := by
  intro n c control hk hc hin hname
  have hs := isSink_of_isInput hin
  have hn := isSome_of_kindOf? hk
  have hnamed : g.hasKind isNamed n = false := by simp [hasKind, hk, isNamed]
  rcases h.kept (hasKind_of hk rfl) hc hs with hc' | ⟨-, hi⟩
  · refine h.idle he hn hs hc' (@hidle n c control ((he.kind hn).trans hk) hc' ?_ ?_)
    · exact (isInput_congr (he.direction (isSome_of_isSink hs))).trans hin
    · exact (he.connName hn hnamed (isSome_of_isSink hs) hc').trans hname
  · exact hi

/-- A connection that reads a constant goes on to do so as long as it is there. -/
theorem Trims.constant_wire (ht : Trims g g') (hg : g.Trimmable K) (hc : c ∈ g'.connsOf n)
    (hsink : g.isSink c) (hd : g.refsOf c = [d]) (hm : d ∈ g.connsOf m)
    (hkm : g.kindOf? m = some .constant) : g'.refsOf c = [d] ∧ d ∈ g'.connsOf m := by
  have hdc : d ∈ g.refsOf c := by simp [hd]
  rcases ht.refsOf_cases hg.toRaw hsink hc with hrefs | ⟨⟨p, b, hp, hb, hkb⟩, -⟩
  · refine ⟨hrefs.trans hd, ht.mem_output hg hm (hg.output_of_sink hdc hsink) ?_
      (ne_nil_of_mem (hg.mirror hdc))⟩
    rw [hkm]
    nofun
  · -- a constant is no pin node
    rw [hd, singleton_inj] at hp
    subst hp
    rw [hg.eq_of_mem hb hm, hkm] at hkb
    cases hkb

/-- An input of a latch can be dropped unless it is a control in use. -/
theorem exists_dropControl (hg : s.2.Trimmable K) (hc : c ∈ s.2.connsOf n)
    (hidle : ∀ control : LatchControl, s.2.connNameOf? c = some control.port → s.2.IdleControl n c) :
    ∃ s', dropControl n s c = .ok s' := by
  rcases Option.isSome_iff_exists.mp (hg.conn_isSome hc) with ⟨y, hy⟩
  refine exists_bind (conn_eq_ok.mpr hy) ?_
  split
  · exact ⟨_, rfl⟩
  rename_i control hcontrol
  have hname : s.2.connNameOf? c = some control.port := by
    rw [← LatchControl.ofPort?_eq_some hcontrol]
    simp [connNameOf?, hy]
  rcases (hidle control hname).driver with ⟨d, m, hd, hm, hkm, hzero⟩
  rcases Option.isSome_iff_exists.mp (isSome_of_mem_connsOf hm) with ⟨z, hz⟩
  have hconst : z.kind = .constant ∧ z.constant = some 0 := by
    constructor
    · simpa [kindOf?_def, hz] using hkm
    · simpa [constantOf?, hz] using hzero
  rcases exists_detach hg.mirror (hg.owner hc) (isSome_of_mem_connsOf hc) with ⟨g1, h1⟩
  have happ := applies_detach hg.mirror hg.owner h1
  have hsound := hg.toSound.detached happ
  have hd1 : (g1.conn? d).isSome := happ.conn?_isSome ▸ hg.conn_isSome hm
  have hm1 : (g1.node? m).isSome := happ.node?_isSome ▸ isSome_of_mem_connsOf hm
  have hhead : y.refs.head? = some d := by rw [← refsOf_of_conn? hy, hd]; rfl
  simp only [hhead, owner_eq_ok.mpr (hg.owner hm), node_eq_ok.mpr hz, hconst, h1,
    fanOut_eq_ok.mpr ⟨hd1, rfl⟩, ok_bind, decide_true, Bool.and_self, if_true]
  split
  · rcases exists_retire hsound.mirror (fun x hx => hsound.conn_isSome hx) hm1 with ⟨g2, h2⟩
    exact exists_bind h2 ⟨_, rfl⟩
  · exact ⟨_, rfl⟩

/-- The error names a latch and an asynchronous control of it that something other than a constant 0
drives. -/
inductive ControlInUse (g : Network) : NetworkError → Prop
  | intro {n : NodeId} {c d : ConnId} {control : LatchControl} {name : String}
    (latch : g.kindOf? n = some .latch) (named : g.nodeNameOf? n = some name) (mem : c ∈ g.connsOf n)
    (input : g.isInput c = true) (port : g.connNameOf? c = some control.port) (wired : d ∈ g.refsOf c)
    (used : ∀ m, d ∈ g.connsOf m → g.kindOf? m = some .constant → g.constantOf? m ≠ some 0) :
    ControlInUse g (.latchControl name control)

theorem Raw.controlInUse (hg : g.Raw K) (hk : g.kindOf? n = some .latch)
    (hnode : g.nodeNameOf? n = some name) (hc : c ∈ g.connsOf n) (hin : g.isInput c)
    (hname : g.connNameOf? c = some control.port) (hused : ¬ g.IdleControl n c) :
    ControlInUse g (.latchControl name control) := by
  rcases hg.driven hc (isSink_of_isInput hin) with ⟨d, hd⟩
  exact ⟨hk, hnode, hc, hin, hname, by simp [hd], fun m hm hkm hzero =>
    hused ⟨hk, ⟨control, hname⟩, d, m, hd, hm, hkm, hzero⟩⟩

/-- Where a control is in use not all of them are idle. -/
theorem ControlInUse.not_controlsIdle {e : NetworkError} (he : g.ControlInUse e) : ¬ g.ControlsIdle := by
  rintro hidle
  rcases he with ⟨hk, -, hc, hin, hname, hwired, hused⟩
  rcases (hidle hk hc hin hname).driver with ⟨d, m, hd, hm, hkm, hzero⟩
  rw [hd, mem_singleton] at hwired
  exact hused m (hwired ▸ hm) hkm hzero

/-- A control that reads a constant 0 goes on to do so as long as it is there. -/
theorem IdleControl.trims (hi : g.IdleControl n c) (ht : Trims g g') (hg : g.Trimmable K)
    (hc : c ∈ g'.connsOf n) : g'.IdleControl n c := by
  have he := ht.evolves hg.toTidy
  have hk := hi.latch
  have hn := isSome_of_kindOf? hk
  have hnamed : g.hasKind isNamed n = false := by simp [hasKind, hk, isNamed]
  have hc0 := he.shrinks hn hnamed hc
  rcases hi.control with ⟨control, hname⟩
  rcases hi.driver with ⟨d, m, hd, hm, hkm, hzero⟩
  have hms := isSome_of_kindOf? hkm
  have hdc : d ∈ g.refsOf c := by simp [hd]
  -- a constant has nothing but outputs
  have hsilent := (hg.regular (hasKind_of hkm (by simp))).silent hkm hm
  have hout : g.isOutput d := by
    rw [isSink_eq_not_isOutput (hg.conn_isSome hm)] at hsilent
    simpa using hsilent
  have hsink := hg.sink_of_output (hg.mirror hdc) hout
  rcases ht.constant_wire hg hc hsink hd hm hkm with ⟨hd', hm'⟩
  exact ⟨(he.kind hn).trans hk, ⟨control, (he.connName hn hnamed (hg.conn_isSome hc0) hc).trans hname⟩,
    d, m, hd', hm', (he.kind hms).trans hkm, (he.constant hms).trans hzero⟩

/-- `s` comes from `g`, and the controls that were idle and are still there are idle. -/
structure Relieves (K : NodeKind → Bool) (g s : Network) : Prop extends Trimmable K s where
  evolves : Evolves g s
  kind : ∀ n, s.kindOf? n = g.kindOf? n
  idle : ∀ {n c}, g.IdleControl n c → c ∈ s.connsOf n → s.IdleControl n c

namespace Relieves

variable {s s' : Network}

theorem refl (hg : g.Trimmable K) : Relieves K g g :=
  ⟨hg, .refl g, fun _ => rfl, fun hi _ => hi⟩

theorem selfless (hs : Relieves K g s) : s.Raw K ∧ s.Selfless :=
  ⟨hs.toRaw, hs.anchored.selfless⟩

theorem trims (hs : Relieves K g s) (ht : Trims s s') : Relieves K g s' where
  toTrimmable := ht.trimmable hs.toTrimmable
  evolves := hs.evolves.trans (ht.evolves hs.toTidy)
  kind n := (ht.kindOf? hs.toTidy).trans (hs.kind n)
  idle {n c} hi hc := by
    have hk : s.kindOf? n = some .latch := (hs.kind n).trans hi.latch
    have hnamed : s.hasKind isNamed n = false := by simp [hasKind, hk, isNamed]
    have hc0 := (ht.evolves hs.toTidy).shrinks (isSome_of_kindOf? hk) hnamed hc
    exact (hs.idle hi hc0).trims ht hs.toTrimmable hc

/-- A control that is in use was in use before. -/
theorem controlInUse (hs : Relieves K g s) (hg : g.Raw K) (hk : s.kindOf? n = some .latch)
    (hnode : s.nodeNameOf? n = some name) (hc : c ∈ s.connsOf n) (hin : s.isInput c)
    (hname : s.connNameOf? c = some control.port) (hused : ¬ s.IdleControl n c) :
    ControlInUse g (.latchControl name control) := by
  have hk0 := (hs.kind n).symm.trans hk
  have hn := isSome_of_kindOf? hk0
  have hnamed : g.hasKind isNamed n = false := by simp [hasKind, hk0, isNamed]
  have hc0 := hs.evolves.shrinks hn hnamed hc
  have hcs := hg.conn_isSome hc0
  exact hg.controlInUse hk0 ((hs.evolves.name hn).symm.trans hnode) hc0
    ((isInput_congr (hs.evolves.direction hcs)).symm.trans hin)
    ((hs.evolves.connName hn hnamed hcs hc).symm.trans hname) fun hi => hused (hs.idle hi hc)

end Relieves

/-- Dropping an input of a latch fails if it is a control that does not read a constant 0. -/
theorem dropControl_of_used (hs : s.2.Raw K) (hk : s.2.kindOf? n = some .latch)
    (hnode : s.2.nodeNameOf? n = some name) (hc : c ∈ s.2.connsOf n) (hin : s.2.isInput c)
    (hname : s.2.connNameOf? c = some control.port) (hused : ¬ s.2.IdleControl n c) :
    dropControl n s c = .error (.latchControl name control) := by
  rcases Option.isSome_iff_exists.mp (hs.conn_isSome hc) with ⟨y, hy⟩
  rcases hs.driven hc (isSink_of_isInput hin) with ⟨d, hd⟩
  rcases hs.listed (hs.mirror (by simp [hd] : d ∈ s.2.refsOf c)) with ⟨m, hm⟩
  rcases Option.isSome_iff_exists.mp (isSome_of_mem_connsOf hm) with ⟨z, hz⟩
  have hcontrol : LatchControl.ofPort? y.name = some control := by
    have hport : y.name = control.port := by simpa [connNameOf?, hy] using hname
    rw [hport, LatchControl.ofPort?_port]
  have hhead : y.refs.head? = some d := by
    rw [← refsOf_of_conn? hy, hd]
    rfl
  have hdriver : (decide (z.kind = .constant) && decide (z.constant = some 0)) = false := by
    rw [← Bool.not_eq_true, Bool.and_eq_true, decide_eq_true_eq]
    rintro ⟨hkind, hconstant⟩
    refine hused ⟨hk, ⟨control, hname⟩, d, m, hd, hm, ?_, ?_⟩
    · simpa [kindOf?_def, hz] using hkind
    · simpa [constantOf?, hz] using hconstant
  simp only [dropControl, conn_eq_ok.mpr hy, hcontrol, hhead, owner_eq_ok.mpr (hs.owner hm),
    node_eq_ok.mpr hz, hdriver, nodeName_eq_ok.mpr hnode, ok_bind]
  rfl

theorem ends_dropControl (hs : Relieves K g s.2) (hg : g.Raw K)
    (hk : s.2.kindOf? n = some .latch) (hc : c ∈ s.2.connsOf n) (hin : s.2.isInput c) :
    Ends (ControlInUse g) (fun _ => True) (dropControl n s c) := by
  by_cases hidle : ∀ control : LatchControl, s.2.connNameOf? c = some control.port → s.2.IdleControl n c
  · rcases exists_dropControl hs.toTrimmable hc hidle with ⟨s', hs'⟩
    exact .inl ⟨s', hs', trivial⟩
  · push Not at hidle
    rcases hidle with ⟨control, hname, hused⟩
    rcases exists_nodeNameOf? (isSome_of_mem_connsOf hc) with ⟨name, hnode⟩
    rw [dropControl_of_used hs.toRaw hk hnode hc hin hname hused]
    exact .error (hs.controlInUse hg hk hnode hc hin hname hused)

theorem ends_dropControls (hs : Relieves K g s.2) (hg : g.Raw K) (hk : s.2.kindOf? n = some .latch) :
    Ends (ControlInUse g) (fun _ => True) (dropControls s n) := by
  rw [dropControls, inputs_eq_ok.mpr ⟨isSome_of_kindOf? hk, rfl⟩]
  refine .foldlM fun pre c post t hl ht => ?_
  have hc : c ∈ (s.2.connsOf n).filter s.2.isInput := by simp [hl]
  rcases mem_filter.mp hc with ⟨hc, hin⟩
  rcases foldlM_dropControl Relieves.selfless Relieves.trims hs hk hl ht
    with ⟨hst, he, hleft, -⟩
  refine ends_dropControl hst hg ((hst.kind n).trans ((hs.kind n).symm.trans hk))
    (hleft c mem_cons_self) ?_
  rw [isInput_congr (he.direction (hs.conn_isSome hc))]
  exact hin

theorem ends_dropLatchControls {s : Network} (hs : Relieves K g s) (hg : g.Raw K) :
    Ends (ControlInUse g) (fun _ => True) s.dropLatchControls := by
  refine .foldlM fun pre n post t hl ht => ?_
  have hlatch : ∀ m ∈ pre ++ n :: post, g.kindOf? m = some .latch := by
    intro m hm
    rcases hasKind_iff.mp (mem_filter.mp (hl ▸ hm)).2 with ⟨k, hk, hp⟩
    rw [← hs.kind, hk, of_decide_eq_true hp]
  have hinv := foldlM_invariant (P := fun t : Bool × Network => Relieves K g t.2) ?_ hs ht
  · exact ends_dropControls hinv hg ((hinv.kind n).trans (hlatch n (by simp)))
  · intro u m u' hm hu hstep
    exact (dropControls_keeps Relieves.selfless Relieves.trims hu
      ((hu.kind m).trans (hlatch m (mem_append_left _ hm))) hstep).1

/-- The pass fails at nothing but a control in use. -/
theorem ends_simplify (hg : g.Trimmable K) (htop : g.Collected) :
    Ends (ControlInUse g) (fun _ => True) g.simplify := by
  rcases exists_sweepAll (g.livePinNodes + 1) hg htop with ⟨s1, h1⟩
  have hs1 := sweepAll_keeps Relieves.selfless Relieves.trims (.refl hg) h1
  rw [simplify, h1, ok_bind]
  rcases ends_dropLatchControls hs1 hg.toRaw with ⟨s2, h2, -⟩ | ⟨e, h2, he⟩
  · have hs2 := (dropLatchControls_keeps Relieves.selfless Relieves.trims hs1 h2).1
    rcases exists_rebuildTop hs2.toSound with ⟨g3, h3, hsound⟩
    simp only [trimLatches, h2, h3, hsound.checkAll, ok_bind]
    exact .ok trivial
  · simp only [trimLatches, h2]
    exact .error he

theorem Trims.keepsInputs (ht : Trims g g') (hg : g.Raw K) : KeepsInputs g g' := by
  cases ht with
  | fuse hw hf => exact hf.keepsInputs hw
  | drop hc _ hi hd => exact keepsInputs_detached hd hg.toSound hc hi
  | retire hk hun hr =>
    exact (retires_retired hr hg.toTidy hk ⟨nofun, nofun, rfl⟩ hun).keepsInputs hg.toSound
  | rebuild hr => exact (retires_rebuildTop hg.toTidy hr).keepsInputs hg.toSound

/-- The pass that removes forwarding pin nodes and latch controls succeeds exactly if every control of a
latch reads a constant 0. -/
theorem exists_simplify_iff (hg : g.Trimmable K) (htop : g.Collected) :
    (∃ r, g.simplify = .ok r) ↔ g.ControlsIdle := by
  constructor
  · rintro ⟨r, hrun⟩
    simp only [simplify, trimLatches, bind_eq_ok, pure_eq_ok] at hrun
    rcases hrun with ⟨s1, h1, s2, h2, -⟩
    -- the inputs of a latch go only if they are idle
    have hkeeps : ∀ {s s' : Network}, (s.Trimmable K ∧ Evolves g s ∧ KeepsInputs g s) → Trims s s' →
        s'.Trimmable K ∧ Evolves g s' ∧ KeepsInputs g s' := by
      rintro s s' ⟨hs, he, hi⟩ ht
      have he' := ht.evolves hs.toTidy
      exact ⟨ht.trimmable hs, he.trans he', hi.trans he (ht.keepsInputs hs.toRaw) he'⟩
    have hself : ∀ {s : Network}, (s.Trimmable K ∧ Evolves g s ∧ KeepsInputs g s) →
        s.Raw K ∧ s.Selfless := fun hs => ⟨hs.1.toRaw, hs.1.anchored.selfless⟩
    have hP1 := sweepAll_keeps hself hkeeps ⟨hg, .refl g, .refl g⟩ h1
    rcases dropLatchControls_keeps hself hkeeps hP1 h2 with ⟨hP2, he2, hnone⟩
    intro n c control hk hc hin hname
    have hs := isSink_of_isInput hin
    have hn := isSome_of_kindOf? hk
    have hseq : g.hasKind NodeKind.isSequential n := hasKind_of hk rfl
    have hnamed : g.hasKind isNamed n = false := by simp [hasKind, hk, isNamed]
    rcases hP2.2.2.kept hseq hc hs with hc2 | ⟨-, hidle⟩
    · -- no control is left, so this one cannot be there
      have he := hP2.2.1
      have hk1 : s1.2.kindOf? n = some .latch := (hP1.2.1.kind hn).trans hk
      have hc1 := he2.shrinks (hP1.2.1.node_isSome hn) ((hP1.2.1.hasKind hn _).trans hnamed) hc2
      have hcell : n ∈ s1.2.cells := hP1.1.mem_cells_of_isCell hc1 (hasKind_of hk1 rfl)
      refine absurd ?_ (hnone n hcell hk1 hc2 ?_ control)
      · rw [he.connName hn hnamed (isSome_of_isSink hs) hc2]
        exact hname
      · rw [isInput_congr (he.direction (isSome_of_isSink hs))]
        exact hin
    · exact hidle
  · intro hidle
    rcases ends_simplify hg htop with ⟨r, hr, -⟩ | ⟨e, -, he⟩
    · exact ⟨r, hr⟩
    · exact absurd hidle he.not_controlsIdle

end PldSynth.Network
