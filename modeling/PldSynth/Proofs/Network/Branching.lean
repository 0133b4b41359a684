import PldSynth.Proofs.Network.Success

/-!
# What naming shared signals leaves

The walk from the pins, the registers and the buffers sees every connection that one of them depends on
(`Upstream`). When it is over, an output without a name that drives such a connection drives nothing else
(`Walks.sole_of_upstream`). Each pin node that it made stands behind an output that drove several
connections, and drives these in the same order (`Relays`).

So a second walk finds nothing to do, and the whole pass leaves such a network as it is
(`Unbranched.branch`). None of this asks whether gates drive each other in a circle.
-/

namespace PldSynth.Network

open Attempt List

variable {K : NodeKind → Bool} {g g' h : Network} {n m : NodeId} {c d o x : ConnId} {w w' : Walk}
  {more : List Stop} {l : List ConnId} {source : Node} {y : Stop}

/-! ## What the outside depends on -/

/-- A pin, a register or a buffer depends on the connection: it can be driven, and it stands on such a
node or on a node that drives a connection of this kind. -/
inductive Upstream (g : Network) : ConnId → Prop
  | root {n : NodeId} {c : ConnId} (hn : n ∈ g.walkRoots) (hc : c ∈ g.connsOf n)
    (hs : g.isSink c = true) : Upstream g c
  | behind {n : NodeId} {c o x : ConnId} (hx : Upstream g x) (ho : o ∈ g.refsOf x) (hon : o ∈ g.connsOf n)
    (hc : c ∈ g.connsOf n) (hs : g.isSink c = true) : Upstream g c

theorem Upstream.isSink (hc : g.Upstream c) : g.isSink c := by
  cases hc with
  | root _ _ hs => exact hs
  | behind _ _ _ _ hs => exact hs

theorem upstream_setTop (hc : g.Upstream c) : { g with top := l }.Upstream c := by
  induction hc with
  | root hn hc hs => exact .root hn hc hs
  | behind _ ho hon hc hs ih => exact .behind ih ho hon hc hs

section Shares

variable {source : Node} (hs : Shares o n source g g') (hg : g.Sound)
include hs hg

theorem Shares.walkRoots : g'.walkRoots = g.walkRoots := by
  rw [Network.walkRoots, hs.puts.pins, hs.puts.cells]
  congr 1
  apply filter_congr
  intro m hm
  exact hs.puts.evolves.hasKind (hg.cell_isSome hm) _

/-- A consumer of the output reads the new pin node. -/
theorem Shares.refsOf_consumer (hx : x ∈ g.refsOf o) : g'.refsOf x = [g.putOut] := by
  rw [hs.puts.refsOf_sink hg hs.isOutput (hg.sink_of_output hx hs.isOutput), if_pos hx]

/-- What depends on a consumer of the output depends on the input of the new pin node. -/
theorem Shares.upstream_putIn (hx : x ∈ g.refsOf o) (hup : g'.Upstream x) : g'.Upstream g.putIn := by
  have hnew : g'.connsOf g.nextNode = [g.putOut, g.putIn] := by
    rw [hs.puts.connsOf, if_pos rfl]
  refine .behind (n := g.nextNode) (o := g.putOut) hup ?_ ?_ ?_ ?_
  · rw [hs.refsOf_consumer hg hx]
    exact mem_singleton_self _
  · simp [hnew]
  · simp [hnew]
  · simp [hs.puts.isSink, putOut_ne_putIn.symm]

/-- The pin node that is put in lies on the way from where the output is read to the output. -/
theorem Upstream.shares (hc : g.Upstream c) : g'.Upstream c := by
  have hold : ∀ {m c}, c ∈ g.connsOf m → c ∈ g'.connsOf m := by
    intro m c hc
    rwa [hs.puts.connsOf_of_isSome (isSome_of_mem_connsOf hc)]
  induction hc with
  | root hn hc hsink => exact .root ((hs.walkRoots hg).symm ▸ hn) (hold hc) (hs.puts.isSink_old hsink)
  | @behind m c e x hx he hem hc hsink ih =>
    by_cases hxo : x ∈ g.refsOf o
    · have heo : e = o := by
        rw [hg.refsOf_consumer hs.isOutput hxo] at he
        exact mem_singleton.mp he
      subst heo
      refine .behind (hs.upstream_putIn hg hxo ih) ?_ (hold hem) (hold hc) (hs.puts.isSink_old hsink)
      rw [hs.puts.refsOf_putIn hg hs.isOutput]
      exact mem_singleton_self _
    · refine .behind ih ?_ (hold hem) (hold hc) (hs.puts.isSink_old hsink)
      rwa [hs.puts.refsOf_sink hg hs.isOutput hx.isSink, if_neg hxo]

end Shares

/-! ## The pin nodes that were made -/

/-- The pin node `n` of `g'` stands behind an output without a name, drives what this output drove in `g`,
in the same order, and is all that the output drives. -/
structure Relays (g g' : Network) (n : NodeId) (out inp o : ConnId) (m : NodeId) : Prop where
  conns : g'.connsOf n = [out, inp]
  out_isOutput : g'.isOutput out = true
  inp_isInput : g'.isInput inp = true
  upstream : g'.Upstream inp
  driver : g'.refsOf inp = [o]
  mem : o ∈ g'.connsOf m
  isOutput : g'.isOutput o = true
  unnamed : g'.hasKind NodeKind.isUnnamed m = true
  sole : g'.refsOf o = [inp]
  consumers : g'.refsOf out = g.refsOf o
  several : 2 ≤ (g.refsOf o).length

/-- What the walk has made of `g` so far: every output drives what it drove or one pin node only, unless it
is that of a pin node, and every pin node relays an output. -/
structure Relayed (g g' : Network) : Prop where
  sound : g'.Sound
  outputs : ∀ {n o}, o ∈ g'.connsOf n → g'.isOutput o = true → g'.kindOf? n ≠ some .pinNode →
    g'.refsOf o = g.refsOf o ∨ (g'.refsOf o).length = 1
  pinNodes : ∀ {n}, g'.kindOf? n = some .pinNode → ∃ out inp o m, Relays g g' n out inp o m

/-- A pin node that relays goes on to do so when another one is put in. -/
theorem Relays.shares {out inp : ConnId} {a : NodeId} (hr : Relays g h a out inp d m)
    (hs : Shares o n source h g') (hh : h.Sound) (ha : h.kindOf? a = some .pinNode) :
    Relays g g' a out inp d m := by
  have hmem : out ∈ h.connsOf a ∧ inp ∈ h.connsOf a := by simp [hr.conns]
  have hold : ∀ {e x}, x ∈ h.connsOf e → g'.connsOf e = h.connsOf e := fun hx =>
    hs.puts.connsOf_of_isSome (isSome_of_mem_connsOf hx)
  have hout : ∀ {x}, h.isOutput x → g'.isOutput x := fun hx =>
    hs.puts.evolves.keeps_output hx
  -- the output behind which the new pin node is put drives several connections, and it bears no name
  have hdo : d ≠ o := by
    rintro rfl
    have hshared := hs.shared
    rw [hr.sole] at hshared
    exact absurd hshared (by simp)
  have hao : out ≠ o := by
    rintro rfl
    have hk := hs.kind
    rw [← hh.eq_of_mem hmem.1 hs.mem, ha] at hk
    have hnamed := hs.given.2
    rw [← Option.some.inj hk] at hnamed
    cases hnamed
  have hinp : inp ∉ h.refsOf o := by
    intro hx
    have hsame := (hh.refsOf_consumer hs.isOutput hx).symm.trans hr.driver
    exact hdo (singleton_inj.mp hsame).symm
  exact {
    conns := (hold hmem.1).trans hr.conns
    out_isOutput := hout hr.out_isOutput
    inp_isInput := (isInput_congr (hs.puts.evolves.direction (hh.conn_isSome hmem.2))).trans hr.inp_isInput
    upstream := hr.upstream.shares hs hh
    driver := by rw [hs.puts.refsOf_sink hh hs.isOutput hr.upstream.isSink, if_neg hinp, hr.driver]
    mem := (hold hr.mem).symm ▸ hr.mem
    isOutput := hout hr.isOutput
    unnamed := (hs.puts.evolves.hasKind (isSome_of_mem_connsOf hr.mem) _).trans hr.unnamed
    sole := by rw [hs.refsOf_output hh hr.isOutput, if_neg hdo, hr.sole]
    consumers := by rw [hs.refsOf_output hh hr.out_isOutput, if_neg hao, hr.consumers]
    several := hr.several }

/-- The walk puts a pin node behind an output that a connection reads on which the outside depends. -/
theorem Relayed.shares (hr : Relayed g h) (hs : Shares o n source h g')
    (hx : x ∈ h.refsOf o) (hup : h.Upstream x) : Relayed g g' where
  sound := hs.sound hr.sound
  outputs {e d} hd hout hk := by
    have he : e ≠ h.nextNode := by
      rintro rfl
      rw [hs.puts.kindOf?, if_pos rfl] at hk
      exact hk rfl
    rw [hs.puts.connsOf, if_neg he] at hd
    rw [hs.puts.kindOf?, if_neg he] at hk
    rw [hs.puts.evolves.isOutput (hr.sound.conn_isSome hd)] at hout
    rw [hs.refsOf_output hr.sound hout]
    split
    · exact .inr rfl
    · exact hr.outputs hd hout hk
  pinNodes {e} he := by
    by_cases hen : e = h.nextNode
    · subst hen
      have hk : h.kindOf? n ≠ some .pinNode := by
        intro hk
        have hnamed := hs.given.2
        rw [Option.mem_unique hs.kind hk] at hnamed
        cases hnamed
      -- an output that drives several connections has kept its consumers so far
      have hkept : h.refsOf o = g.refsOf o := by
        refine (hr.outputs hs.mem hs.isOutput hk).resolve_right ?_
        have := hs.shared
        omega
      have hos := isSome_of_isOutput hs.isOutput
      refine ⟨h.putOut, h.putIn, o, n, ?_⟩
      exact {
        conns := by rw [hs.puts.connsOf, if_pos rfl]
        out_isOutput := by simp [hs.puts.isOutput]
        inp_isInput := by simp [Network.isInput, hs.puts.directionOf?, putOut_ne_putIn.symm]
        upstream := hs.upstream_putIn hr.sound hx (hup.shares hs hr.sound)
        driver := hs.puts.refsOf_putIn hr.sound hs.isOutput
        mem := by
          rw [hs.puts.connsOf_of_isSome (isSome_of_mem_connsOf hs.mem)]
          exact hs.mem
        isOutput := (hs.puts.evolves.isOutput hos).trans hs.isOutput
        unnamed := by
          rw [hs.puts.evolves.hasKind (isSome_of_mem_connsOf hs.mem)]
          exact hasKind_of hs.kind hs.unnamed
        sole := by rw [hs.refsOf_output hr.sound hs.isOutput, if_pos rfl]
        consumers := by rw [hs.puts.refsOf hos hr.sound.mirror, if_pos rfl, hkept]
        several := hkept ▸ hs.shared }
    · rw [hs.puts.kindOf?, if_neg hen] at he
      rcases hr.pinNodes he with ⟨out, inp, d, m, hrelays⟩
      exact ⟨out, inp, d, m, hrelays.shares hs hr.sound he⟩

/-- Then something reads every pin node. -/
theorem Relayed.pinNodesRead (hr : Relayed g h) : h.PinNodesRead := by
  intro n hn
  rcases hr.pinNodes (hr.sound.pinNode_kind hn) with ⟨out, inp, o, m, hrelays⟩
  have hne : h.refsOf out ≠ [] := by
    rw [hrelays.consumers]
    refine ne_nil_of_length_pos ?_
    have := hrelays.several
    omega
  rcases exists_mem_of_ne_nil _ hne with ⟨c, hc⟩
  refine ⟨c, out, hr.sound.sink_of_output hc hrelays.out_isOutput,
    hr.sound.refsOf_consumer hrelays.out_isOutput hc, ?_⟩
  simp [hrelays.conns]

/-! ## The walk -/

/-- An item of the walk is one that the outside depends on. -/
def Stop.Upstream (g : Network) : Stop → Prop
  | .node n => (g.node? n).isSome ∧ ∀ c ∈ g.connsOf n, g.isSink c = true → g.Upstream c
  | .input c => g.Upstream c

theorem upstream_walkRoots (hg : g.Owned) (hy : y ∈ g.walkRoots.map .node) : y.Upstream g := by
  rcases mem_map.mp hy with ⟨n, hn, rfl⟩
  refine ⟨?_, fun c hc hs => .root hn hc hs⟩
  rcases mem_append.mp hn with hn | hn
  · exact isSome_of_kindOf? (hg.pin_kind hn)
  · exact hg.cell_isSome (mem_filter.mp hn).1

/-- What comes up when a node is entered. -/
theorem upstream_enter (hn : (Stop.node n).Upstream w.net) (hrun : w.enter n = .ok (w', more)) :
    ∀ y ∈ more, y.Upstream w.net := by
  rcases enter_cases hrun with ⟨-, rfl, -⟩ | ⟨-, -, rfl⟩
  · exact nofun
  · intro y hy
    rcases mem_map.mp hy with ⟨c, hc, rfl⟩
    rcases mem_filter.mp hc with ⟨hc, hs⟩
    exact hn.2 c hc hs

/-- The owner of a driver of such a connection. -/
theorem Upstream.node_driver (hc : g.Upstream c) (ho : o ∈ g.refsOf c) (hon : o ∈ g.connsOf n) :
    (Stop.node n).Upstream g :=
  ⟨isSome_of_mem_connsOf hon, fun _ hx hs => .behind hc ho hon hx hs⟩

theorem Stop.Upstream.shares (hy : y.Upstream g)
    (hs : Shares o n source g g') (hg : g.Sound) : y.Upstream g' := by
  cases y with
  | node m =>
    refine ⟨hs.puts.evolves.node_isSome hy.1, fun c hc hsink => ?_⟩
    rw [hs.puts.connsOf_of_isSome hy.1] at hc
    rw [hs.puts.evolves.isSink (hg.conn_isSome hc)] at hsink
    exact (hy.2 c hc hsink).shares hs hg
  | input c => exact Network.Upstream.shares hs hg hy

/-- The walk relays every output that it names. -/
theorem relayed_nameSharedOutputs (hg : Relayed g h) (hrun : h.nameSharedOutputs = .ok w) :
    Relayed g w.net := by
  refine Attempt.drain_invariant (P := fun w => Relayed g w.net) (I := fun w y => y.Upstream w.net) ?_ hg
    (fun y hy => upstream_walkRoots hg.sound.toOwned hy) hrun
  intro w y w' more hw hy hstep
  cases y with
  | node n =>
    rcases enter_spec hstep with ⟨hnet, -⟩
    rw [hnet]
    exact ⟨hw, upstream_enter hy hstep, fun _ hy => hy⟩
  | input c =>
    rcases follow_spec hw.sound hstep with ⟨-, rfl, rfl⟩ | ⟨o, n, k, ho, hon, hk, hname, rfl⟩
    · exact ⟨hw, nofun, fun _ hy => hy⟩
    · have hoc : o ∈ w.net.refsOf c := by simp [ho]
      have hout := hw.sound.output_of_sink hoc (Network.Upstream.isSink hy)
      have hmore : ∀ y ∈ (if k.isNamed then [] else [Stop.node n]), y.Upstream w.net := by
        intro y hmem
        split at hmem
        · cases hmem
        · rw [mem_singleton.mp hmem]
          exact Network.Upstream.node_driver hy hoc hon
      rcases shares_nameIfShared hout hw.sound hon hk hname with ⟨rfl, -⟩ | ⟨-, source, hs⟩
      · exact ⟨hw, hmore, fun _ hy => hy⟩
      · exact ⟨hw.shares hs (hw.sound.mirror hoc) hy, fun y hmem => (hmore y hmem).shares hs hw.sound,
          fun _ hy => hy.shares hs hw.sound⟩

/-- When nothing waits any more, the node of a connection on which the outside depends was entered or is a
pin node. -/
theorem Walks.entered_of_upstream (hw : Walks K g w []) (hc : w.net.Upstream c)
    (hcn : c ∈ w.net.connsOf n) : w.entered.isNew n = false ∨ w.net.kindOf? n = some .pinNode := by
  have hroot : ∀ {m x}, x ∈ w.net.connsOf m →
      w.net.hasKind (fun k => k.isSequential || k = .pin) m → w.entered.isNew m = false :=
    fun hx hk => (hw.roots hx hk).resolve_right not_mem_nil
  induction hc generalizing n with
  | @root m c hm hc _ =>
    obtain rfl := hw.tidy.eq_of_mem hcn hc
    refine .inl (hroot hc ?_)
    rcases mem_append.mp hm with hm | hm
    · exact hasKind_of (hw.tidy.pin_kind hm) (by simp)
    · rcases hasKind_iff.mp (mem_filter.mp hm).2 with ⟨k, hk, hseq⟩
      exact hasKind_of hk (by simp [hseq])
  | @behind m c o x hx ho hom hc _ ih =>
    obtain rfl := hw.tidy.eq_of_mem hcn hc
    -- the connection that the node drives was followed to the node
    rcases hw.tidy.listed ho with ⟨a, hxa⟩
    have hfollowed := (hw.covered (ih hxa) hxa hx.isSink).resolve_left not_mem_nil
    rcases Option.isSome_iff_exists.mp (isSome_kindOf?.trans (isSome_of_mem_connsOf hom)) with ⟨k, hk⟩
    by_cases hunnamed : k.isUnnamed = true
    · have hentered := (hfollowed ho hom (hasKind_of hk hunnamed)).2
      exact .inl (hentered.resolve_right not_mem_nil)
    · by_cases hpinNode : k = .pinNode
      · exact .inr (hpinNode ▸ hk)
      · refine .inl (hroot hom (hasKind_iff.mpr ⟨k, hk, ?_⟩))
        cases k with
        | pinNode => exact absurd rfl hpinNode
        | flipFlop | latch | triState | pin => rfl
        | _ => exact absurd rfl hunnamed

/-- Then an output without a name drives one such connection and nothing else. -/
theorem Walks.sole_of_upstream (hw : Walks K g w []) (hc : w.net.Upstream c) (ho : o ∈ w.net.refsOf c)
    (hom : o ∈ w.net.connsOf m) (hm : w.net.hasKind NodeKind.isUnnamed m) : w.net.refsOf o = [c] := by
  rcases hw.tidy.listed ho with ⟨n, hcn⟩
  have hfollowed := (hw.covered (hw.entered_of_upstream hc hcn) hcn hc.isSink).resolve_left not_mem_nil
  have hlen := (hfollowed ho hom hm).1
  have hmem := hw.tidy.mirror ho
  match hrefs : w.net.refsOf o, hmem, hlen with
  | [x], hmem, _ => rw [mem_singleton.mp hmem]

/-! ## A second run -/

/-- An output without a name drives at most one connection on which the outside depends, and then nothing
else. -/
def Unbranched (g : Network) : Prop :=
  ∀ ⦃c o m⦄, g.Upstream c → o ∈ g.refsOf c → o ∈ g.connsOf m →
    g.hasKind NodeKind.isUnnamed m = true → g.refsOf o = [c]

/-- In such a network a step of the walk puts in nothing. -/
theorem Unbranched.step (hg : g.Unbranched) (hs : g.Sound) (hw : w.net = g)
    (hy : y.Upstream g) : ∃ w' more, w.step y = .ok (w', more) ∧ w'.net = g ∧ w'.added = w.added ∧
      ∀ z ∈ more, z.Upstream g := by
  subst hw
  cases y with
  | node n =>
    rcases exists_enter hy.1 with ⟨⟨w', more⟩, hrun⟩
    refine ⟨w', more, hrun, (enter_spec hrun).1, ?_, upstream_enter hy hrun⟩
    rcases enter_cases hrun with ⟨rfl, -⟩ | ⟨-, rfl, -⟩ <;> rfl
  | input c =>
    have hsink := Network.Upstream.isSink hy
    rcases exists_follow hs hsink with ⟨⟨w', more⟩, hrun⟩
    refine ⟨w', more, hrun, ?_⟩
    rcases follow_spec hs hrun with ⟨-, rfl, rfl⟩ | ⟨o, n, k, ho, hon, hk, hname, rfl⟩
    · exact ⟨rfl, rfl, nofun⟩
    · have hoc : o ∈ w.net.refsOf c := by simp [ho]
      rcases shares_nameIfShared (hs.output_of_sink hoc hsink) hs hon hk hname with
        ⟨rfl, -⟩ | ⟨-, source, hshares⟩
      · refine ⟨rfl, rfl, fun z hz => ?_⟩
        split at hz
        · cases hz
        · rw [mem_singleton.mp hz]
          exact Network.Upstream.node_driver hy hoc hon
      · -- a shared output would drive several connections
        have hsole := hg hy hoc hon (hasKind_of hshares.kind hshares.unnamed)
        have hshared := hshares.shared
        rw [hsole] at hshared
        exact absurd hshared (by simp)

/-- Where no signal is shared the walk changes nothing. -/
theorem Unbranched.nameSharedOutputs (hg : g.Unbranched) (hs : g.Sound) :
    ∃ w, g.nameSharedOutputs = .ok w ∧ w.net = g ∧ w.added = 0 := by
  have hroots : ∀ y ∈ g.walkRoots.map Stop.node, y.Upstream g := fun y hy => upstream_walkRoots hs.toOwned hy
  obtain ⟨w, hrun⟩ : ∃ w, g.nameSharedOutputs = .ok w := by
    refine exists_drain (P := fun w items => w.net = g ∧ ∀ y ∈ items, y.Upstream g) ?_
      ⟨rfl, hroots⟩
    rintro w y rest ⟨hnet, hitems⟩
    rcases hg.step hs hnet (hitems y mem_cons_self) with ⟨w', more, hstep, hnet', -, hmore⟩
    refine ⟨w', more, hstep, hnet', fun z hz => ?_⟩
    rcases mem_append.mp hz with hz | hz
    · exact hmore z hz
    · exact hitems z (mem_cons_of_mem _ hz)
  refine ⟨w, hrun, ?_⟩
  refine Attempt.drain_invariant (P := fun w => w.net = g ∧ w.added = 0) (I := fun _ y => y.Upstream g) ?_
    ⟨rfl, rfl⟩ hroots hrun
  rintro w y w' more ⟨hnet, hadded⟩ hy hrun
  rcases hg.step hs hnet hy with ⟨w'', more', hstep, hnet', hadded', hmore⟩
  cases hstep.symm.trans hrun
  exact ⟨⟨hnet', hadded'.trans hadded⟩, hmore, fun _ hz => hz⟩

/-- A network whose ports stand on pins and whose shared signals have names stays as it is. -/
theorem Unbranched.branch (hg : g.Unbranched) (ht : g.Tidy K) (hdesign : g.connsOf designId = [])
    (hread : g.PinNodesRead) (htop : g.Collected) : g.branch = .ok (false, g) := by
  rcases hg.nameSharedOutputs ht.toSound with ⟨w, hrun, hnet, hadded⟩
  rcases Option.isSome_iff_exists.mp (isSome_of_kindOf? ht.design_kind) with ⟨y, hy⟩
  have hports : y.conns = [] := (connsOf_of_node? hy).symm.trans hdesign
  have hexposed : g.exposePorts = .ok g := by
    rw [exposePorts, node_eq_ok.mpr hy, ok_bind, hports]
    rfl
  have hrebuilt : g.rebuildTop = .ok g := by
    rw [hread.rebuildTop ht, ← htop]
  simp only [Network.branch, node_eq_ok.mpr hy, hexposed, hrun, hnet, hrebuilt, ht.toSound.checkAll,
    hports, hadded, ok_bind]
  rfl

/-! ## The whole pass -/

/-- What the pass leaves of a network without pins and pin nodes. -/
structure BranchedOut (g g' : Network) : Prop extends Pinned g g', Relayed g g' where
  unbranched : g'.Unbranched
  collected : g'.Collected
  again : g'.branch = .ok (false, g')

theorem Pinned.setTop (h : Pinned g g') : Pinned g { g' with top := l } :=
  ⟨h.design, h.pins⟩

theorem Relayed.setTop (h : Relayed g g') : Relayed g { g' with top := l } where
  sound := (alike_setTop l).sound h.sound
  outputs := h.outputs
  pinNodes hn := by
    rcases h.pinNodes hn with ⟨out, inp, o, m, hr⟩
    exact ⟨out, inp, o, m, hr.conns, hr.out_isOutput, hr.inp_isInput, upstream_setTop hr.upstream, hr.driver,
      hr.mem, hr.isOutput, hr.unnamed, hr.sole, hr.consumers, hr.several⟩

/-- The whole pass. -/
theorem branchedOut_branch {r : Bool × Network} (hg : g.Raw K) (hpins : g.pins = [])
    (hnone : ∀ n, g.kindOf? n ≠ some .pinNode) (hrun : g.branch = .ok r) : BranchedOut g r.2 := by
  have hpinNodes : g.pinNodes = [] :=
    eq_nil_iff_forall_not_mem.mpr fun n hn => hnone n (hg.pinNode_kind hn)
  simp only [branch, bind_eq_ok, pure_eq_ok] at hrun
  rcases hrun with ⟨_, -, g1, h1, w, hw, g2, h2, -, -, rfl⟩
  have hports := onPins_exposePorts hg hpins h1
  have hnone1 : ∀ n, g1.kindOf? n ≠ some .pinNode :=
    exposePorts_invariant (P := fun _ s => s.Sound ∧ ∀ n, s.kindOf? n ≠ some .pinNode) (fun hs => hs.1)
      (fun hs _ hx => ⟨hx.sound, fun n => by
        rw [hx.kindOf?]
        split
        · simp
        · exact hs.2 n⟩) ⟨hg.toSound, hnone⟩ h1 |>.2
  have hstart : Relayed g g1 :=
    ⟨hports.raw.toSound, fun _ _ _ => .inl (hports.refsOf _), fun hn => absurd hn (hnone1 _)⟩
  have hwalks := walks_nameSharedOutputs hports.raw.toTidy (hports.pinNodes.trans hpinNodes) hw
  have hrelayed := relayed_nameSharedOutputs hstart hw
  have hpinned : Pinned g w.net :=
    nameSharedOutputs_invariant hports.raw.toSound hports.pinned
      (fun hs hP hshares => hP.shares hs hshares) hw
  -- something reads every pin node, so only the list of equations changes
  have hread := hrelayed.pinNodesRead
  rw [hread.rebuildTop hwalks.tidy] at h2
  cases h2
  have hunbranched : { w.net with top := w.net.equationOwners.flatMap w.net.wiredSinks }.Unbranched := by
    intro c o m hc ho hom hm
    have hup := upstream_setTop (l := w.net.top) hc
    exact hwalks.sole_of_upstream hup ho hom hm
  refine ⟨hpinned.setTop, hrelayed.setTop, hunbranched, rfl, ?_⟩
  exact hunbranched.branch ((alike_setTop _).tidy hwalks.tidy) hpinned.design hread rfl

end PldSynth.Network
