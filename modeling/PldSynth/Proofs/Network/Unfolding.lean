import PldSynth.Proofs.Network.Copies

/-!
# Giving a consumer its own copy of the logic

A consumer of a pin node may read a copy of the logic behind the pin node instead. `Inlines` says what
the network looks like afterwards, and `Unfolds` what follows for its values: an output and its copy
have the same value, if the copy of a constant has the value of the constant. The map `origin` from
the connections of the new network to those of the old one says what each is a copy of.
-/

namespace PldSynth

open Attempt List

/-- The kinds of nodes that logic consists of: gates, inverters and constants. -/
def NodeKind.isLogic (k : NodeKind) : Bool :=
  k.isCombinational || k = .constant

theorem NodeKind.spec_of_isLogic {k : NodeKind} (h : k.isLogic) :
    k.isNamed = false ∧ k.isSequential = false ∧ k.isCell := by
  cases k <;> first | exact ⟨rfl, rfl, rfl⟩ | cases h

namespace Network

variable {K : NodeKind → Bool} {g g' g'' g1 g2 : Network} {n m pn : NodeId} {v v' : ConnId → Bool}
  {c c' d o x root root' out consumer : ConnId}
  {cone : Cone} {copies : List (NodeId × NodeId)} {p : NodeId × NodeId} {q : ConnId × ConnId}

theorem isLogic_of_isCombinational (h : g.hasKind NodeKind.isCombinational n) :
    g.hasKind NodeKind.isLogic n := by
  rcases hasKind_iff.mp h with ⟨k, hk, hp⟩
  exact hasKind_of hk (by simp [NodeKind.isLogic, hp])

/-! ## Networks with copies -/

/-- `g'` is `g` after logic was copied and unread logic was taken out of use; `origin` leads from a
copy to what it is a copy of. All values are kept. -/
structure Unfolds (K : NodeKind → Bool) (origin : ConnId → ConnId) (g g' : Network) : Prop where
  tidy : g'.Tidy K
  fresh : g.Fresh K → g'.Fresh K
  evolves : Evolves g g'
  preserves : ∀ {v}, g.Settled v → Preserves v (v ∘ origin) g g'
  old : ∀ {c}, (g.conn? c).isSome → origin c = c
  literal : ∀ {n c}, c ∈ g'.connsOf n → ∃ m, origin c ∈ g.connsOf m ∧
    g'.kindOf? n = g.kindOf? m ∧ g'.constantOf? n = g.constantOf? m
  connsOf : ∀ {n}, (g.node? n).isSome → g'.InUse n → g'.connsOf n = g.connsOf n
  absorbedOf : ∀ {n}, (g.node? n).isSome → g'.absorbedOf n = g.absorbedOf n
  undriven : ∀ {n c}, c ∈ g'.connsOf n → g.isSink c = true → g.refsOf c = [] → g'.refsOf c = []
  pins : g'.pins = g.pins
  pinNodes : g'.pinNodes.Sublist g.pinNodes
  sequential : ∀ {n}, g.hasKind NodeKind.isSequential n = true → (n ∈ g'.cells ↔ n ∈ g.cells)
  logic : ∀ {n}, g.node? n = none → g'.hasKind NodeKind.isSequential n = false

/-- Whether all drivers have a value does not depend on the values that are given. -/
theorem Settled.change (hg : g.Sound) (h : g.Settled v) (v' : ConnId → Bool) : g.Settled v' := by
  intro c d hs hd
  obtain ⟨b, hb⟩ := h hs hd
  exact exists_computes hg v' (hb.acc hg.toOwned) (hg.output_of_sink hd hs)
    (hg.listed (hg.mirror hd))

namespace Unfolds

variable {origin origin' : ConnId → ConnId}

theorem refl (hg : g.Tidy K) : Unfolds K id g g where
  tidy := hg
  fresh := id
  evolves := .refl g
  preserves hset := .refl hset
  old _ := rfl
  literal {n _} hc := ⟨n, hc, rfl, rfl⟩
  connsOf _ _ := rfl
  absorbedOf _ := rfl
  undriven _ _ hr := hr
  pins := rfl
  pinNodes := .refl _
  sequential _ := .rfl
  logic hn := by simp [hasKind, kindOf?_def, hn]

theorem settled (h : Unfolds K origin g g') (hset : g.Settled v) : g'.Settled v :=
  (h.preserves hset).settled.change h.tidy.toSound v

/-- Copies of copies. -/
theorem trans (h : Unfolds K origin g g') (h' : Unfolds K origin' g' g'') :
    Unfolds K (origin ∘ origin') g g'' where
  tidy := h'.tidy
  fresh hg := h'.fresh (h.fresh hg)
  evolves := h.evolves.trans h'.evolves
  preserves hset :=
    (h.preserves hset).trans (h'.preserves (h.preserves hset).settled) h.evolves h'.evolves
  old hc := by rw [Function.comp, h'.old (h.evolves.conn_isSome hc), h.old hc]
  literal hc := by
    obtain ⟨m, hm, hk, hl⟩ := h'.literal hc
    obtain ⟨m', hm', hk', hl'⟩ := h.literal hm
    exact ⟨m', hm', hk.trans hk', hl.trans hl'⟩
  connsOf hn hu := by
    have hn' := h.evolves.node_isSome hn
    rw [h'.connsOf hn' hu, h.connsOf hn (h'.evolves.inUse hn' hu)]
  absorbedOf hn := (h'.absorbedOf (h.evolves.node_isSome hn)).trans (h.absorbedOf hn)
  undriven {n c} hc hs hr := by
    have hs' := isSome_of_isSink hs
    obtain ⟨m, hm⟩ := h'.evolves.attached (h.evolves.conn_isSome hs') hc
    exact h'.undriven hc ((h.evolves.isSink hs').trans hs) (h.undriven hm hs hr)
  pins := h'.pins.trans h.pins
  pinNodes := h'.pinNodes.trans h.pinNodes
  sequential {n} hn := by
    have hs := isSome_of_hasKind hn
    rw [h'.sequential ((h.evolves.hasKind hs _).trans hn), h.sequential hn]
  logic {n} hn := by
    by_cases hs : (g'.node? n).isSome
    · exact (h'.evolves.hasKind hs _).trans (h.logic hn)
    · exact h'.logic (Option.not_isSome_iff_eq_none.mp hs)

end Unfolds

/-! ## One consumer -/

/-- `g'` is `g` with copies of nodes that read what the nodes themselves read, or copies of it, where
`consumer` now reads `root'` in place of what it read. -/
structure Splices (copies : List (NodeId × NodeId)) (root root' consumer : ConnId)
    (g g1 g' : Network) : Prop where
  copied : Copies copies g g1
  rewires : ∃ f, Rewires f g1 g'
  sound : g'.Sound
  moved : g'.refsOf consumer = [root']
  other : ∀ {x}, g.isSink x = true → x ≠ consumer → g'.refsOf x = g.refsOf x
  empty : ∀ q ∈ twinPairs copies g g1, g.isSink q.1 = true → g.refsOf q.1 = [] → g'.refsOf q.2 = []
  echoed : ∀ q ∈ twinPairs copies g g1, g.isSink q.1 = true → ∀ d, g.refsOf q.1 = [d] →
    ∃ d', Echoes copies g g1 d d' ∧ g'.refsOf q.2 = [d']
  root_echo : Echoes copies g g1 root root'

/-- The copies are wired like the nodes themselves, and `root'` is `root` or its copy. -/
structure Inlines (copies : List (NodeId × NodeId)) (root root' consumer : ConnId)
    (g g1 g' : Network) : Prop extends Splices copies root root' consumer g g1 g' where
  wired : ∀ q ∈ twinPairs copies g g1, g.isSink q.1 = true → ∀ d, g.refsOf q.1 = [d] →
    ∃ d', Image (twinPairs copies g g1) d d' ∧ g'.refsOf q.2 = [d']
  root_copy : Image (twinPairs copies g g1) root root'

/-- The logic behind an output can be copied. -/
theorem exists_copyCone (hg : g.Sound)
    (hcell : ∀ n ∈ cone.inner, g.hasKind NodeKind.isCell n) (hsep : Apart pn cone.inner g)
    (hroot : root ∈ g.connsOf m) (hout : g.isOutput root) :
    ∃ r copies g1, g.copyCone cone root pn consumer = .ok r ∧ Copies copies g g1 ∧
      copies.map Prod.fst = cone.inner ∧ WiresTwins copies (twinPairs copies g g1) g g1 r.2 ∧
      Echoes copies g g1 root r.1 := by
  obtain ⟨⟨copies, g1⟩, hcopy, hc, hkeys⟩ := exists_copies hg hcell
  obtain ⟨g2, hwire, hw⟩ := exists_wiresTwins hg hc (hkeys.symm ▸ hsep) consumer
  obtain ⟨f, hf⟩ := hw.rewires
  have hown : g2.ownerOf? root = some m := by
    rw [hf.ownerOf?, ownerOf?_def, hc.conn? (hg.conn_isSome hroot)]
    exact hg.owner hroot
  simp only [copyCone, hcopy, hwire, owner_eq_ok.mpr hown, ok_bind]
  split
  · rename_i hlook
    exact ⟨(root, g2), copies, g1, rfl, hc, hkeys, hw, .inr ⟨rfl, hg.toOwned.uncopied hroot hlook⟩⟩
  · rename_i copy hlook
    have hmem : (m, copy) ∈ copies := by
      obtain ⟨l, l', hl, -⟩ := lookup_eq_some_iff.mp hlook
      simp [hl]
    obtain ⟨o, ho, hecho⟩ := hc.exists_output hf hmem hroot hout
    exact ⟨(o, g2), copies, g1, bind_eq_ok.mpr ⟨_, ho, rfl⟩, hc, hkeys, hw, hecho⟩

section Redraw

variable (hg : g.Sound) (hout : g.isOutput out) (hcons : consumer ∈ g.refsOf out)
  (ho : g.isOutput o)
include hg hout hcons ho

/-- A consumer of `out` may read the output `o` instead: no other driven connection changes. -/
theorem refsOf_redraw (hx : g.isSink x) :
    ((g.cut consumer out).wire consumer o).refsOf x = if x = consumer then [o] else g.refsOf x := by
  have hs := hg.sink_of_output hcons hout
  have hne := ne_of_isSink hs hout
  have hcut := rewires_cut hne (g := g)
  have hfree : (g.cut consumer out).refsOf consumer = [] := by
    rw [refsOf_cut_sink hne hout hs, hg.refsOf_consumer hout hcons]
    simp
  rw [refsOf_wire_sink ((isSink_congr hcut.directionOf?).trans hs)
    ((isOutput_congr hcut.directionOf?).trans ho) hfree ((isSink_congr hcut.directionOf?).trans hx)]
  split
  · rfl
  · rename_i hxc
    rw [refsOf_cut_sink hne hout hx, if_neg hxc]

theorem rewires_redraw : ∃ f, Rewires f g ((g.cut consumer out).wire consumer o) := by
  have hs := hg.sink_of_output hcons hout
  exact ⟨_, (rewires_cut (ne_of_isSink hs hout)).trans (rewires_wire (ne_of_isSink hs ho))⟩

theorem sound_redraw (hl : ∃ n, o ∈ g.connsOf n) : ((g.cut consumer out).wire consumer o).Sound := by
  have hs := hg.sink_of_output hcons hout
  have hne := ne_of_isSink hs hout
  have hcut := rewires_cut hne (g := g)
  apply (hg.cut hne).wire
  · exact (isSink_congr hcut.directionOf?).trans hs
  · exact (isOutput_congr hcut.directionOf?).trans ho
  · rw [refsOf_cut_sink hne hout hs, hg.refsOf_consumer hout hcons]
    simp
  · simpa only [hcut.connsOf] using hg.listed (hg.mirror hcons)
  · simpa only [hcut.connsOf] using hl

end Redraw

/-- A consumer can be given a copy of the logic. -/
theorem exists_splices (hg : g.Sound)
    (hcell : ∀ n ∈ cone.inner, g.hasKind NodeKind.isCell n) (hsep : Apart pn cone.inner g)
    (hroot : root ∈ g.connsOf m) (hroot_out : g.isOutput root) (hout : g.isOutput out)
    (hl : out ∈ g.connsOf pn) (hcons : consumer ∈ g.refsOf out) :
    ∃ g' copies g1 root', inlineInto cone root pn out g consumer = .ok g' ∧
      copies.map Prod.fst = cone.inner ∧ Splices copies root root' consumer g g1 g' := by
  have hs := hg.sink_of_output hcons hout
  have hrefs := hg.refsOf_consumer hout hcons
  obtain ⟨e, he⟩ := hg.listed (hg.mirror hcons)
  -- the consumer is not part of the logic, which does not read the pin node
  have hnot : e ∉ cone.inner := by
    intro hmem
    exact hsep e hmem consumer he hs out (by simp [hrefs]) (hg.owner hl)
  obtain ⟨⟨root', g2⟩, copies, g1, hcopy, hc, hkeys, hw, hrc⟩ :=
    exists_copyCone hg hcell hsep hroot hroot_out
  have hrun : inlineInto cone root pn out g consumer =
      .ok ((g2.cut consumer out).wire consumer root') := by
    rw [inlineInto, owner_eq_ok.mpr (hg.owner he), ok_bind, if_neg (by simpa using hnot)]
    exact bind_eq_ok.mpr ⟨_, hcopy, rfl⟩
  obtain ⟨f, hf⟩ := hw.rewires
  -- with the copies in place, the consumer still reads the pin node
  have hout2 : g2.isOutput out :=
    (isOutput_congr (hw.directionOf?_old hc (isSome_of_isOutput hout))).trans hout
  have hcons2 : consumer ∈ g2.refsOf out := hw.sound.mirror (by simp [hw.refsOf_old hc hs, hrefs])
  have hsink2 : ∀ {x}, g.isSink x → g2.isSink x := fun hx =>
    (isSink_congr (hw.directionOf?_old hc (isSome_of_isSink hx))).trans hx
  obtain ⟨hrout, hrl⟩ := echoes_spec hc hf hroot_out ⟨m, hroot⟩ hrc
  obtain ⟨f', hf'⟩ := rewires_redraw hw.sound hout2 hcons2 hrout
  have htwin : ∀ q ∈ twinPairs copies g g1, g.isSink q.1 →
      ((g2.cut consumer out).wire consumer root').refsOf q.2 = g2.refsOf q.2 := by
    intro q hq hqs
    rw [refsOf_redraw hw.sound hout2 hcons2 hrout ((hw.isSink_twin hc hq).trans hqs), if_neg]
    rintro rfl
    exact hc.not_twin (isSome_of_isSink hs) (mem_map.mpr ⟨q, hq, rfl⟩)
  refine ⟨_, copies, g1, root', hrun, hkeys, hc, ⟨_, hf.trans hf'⟩, sound_redraw hw.sound hout2 hcons2 hrout hrl,
    ?_, ?_, ?_, ?_, hrc⟩
  · rw [refsOf_redraw hw.sound hout2 hcons2 hrout (hsink2 hs), if_pos rfl]
  · intro x hx hxc
    rw [refsOf_redraw hw.sound hout2 hcons2 hrout (hsink2 hx), if_neg hxc, hw.refsOf_old hc hx]
  · intro q hq hqs hnil
    rw [htwin q hq hqs]
    exact hw.empty q hq hqs hnil
  · intro q hq hqs d hd
    rw [htwin q hq hqs]
    exact hw.wired q hq hqs d hd

/-- Copies of nodes with one output at most are wired like the nodes. -/
theorem Splices.inlines (h : Splices copies root root' consumer g g1 g') (hg : g.Sound)
    (hlone : ∀ p ∈ copies, g.LoneAt p.1) (hroot_out : g.isOutput root) :
    Inlines copies root root' consumer g g1 g' where
  toSplices := h
  wired q hq hs d hd := by
    obtain ⟨d', hecho, hd'⟩ := h.echoed q hq hs d hd
    have hout := hg.output_of_sink (d := d) (by simp [hd]) hs
    exact ⟨d', hecho.image h.copied hlone hout, hd'⟩
  root_copy := h.root_echo.image h.copied hlone hroot_out

/-- A map that leads every twin to the connection it is a twin of. -/
theorem Copies.exists_origin (h : Copies copies g g1) :
    ∃ origin : ConnId → ConnId, (∀ {c}, (g.conn? c).isSome → origin c = c) ∧
      ∀ q ∈ twinPairs copies g g1, origin q.2 = q.1 := by
  classical
  refine ⟨fun c => if hc : ∃ q ∈ twinPairs copies g g1, q.2 = c then hc.choose.1 else c,
    fun {c} hc => ?_, fun q hq => ?_⟩
  · exact dif_neg fun ⟨q, hq, heq⟩ => h.not_twin hc (mem_map.mpr ⟨q, hq, heq⟩)
  · have hex : ∃ q' ∈ twinPairs copies g g1, q'.2 = q.2 := ⟨q, hq, rfl⟩
    exact (dif_pos hex).trans
      (congrArg Prod.fst (h.eq_of_twins hex.choose_spec.1 hq hex.choose_spec.2))

/-- `o'` has the value of `o`: it is `o` itself, a copy of it, or what the consumer reads in place of
the pin node. -/
def TakesValue (twins : List (ConnId × ConnId)) (out root' : ConnId) (g : Network) (o o' : ConnId) :
    Prop :=
  (o' = o ∧ ∃ n, o ∈ g.connsOf n) ∧ g.isOutput o = true ∨
    (o, o') ∈ twins ∧ g.isOutput o = true ∨ o = out ∧ o' = root'

namespace Splices

variable {copies : List (NodeId × NodeId)}

section Views

variable (h : Splices copies root root' consumer g g1 g')
include h

theorem node?_old (hn : (g.node? n).isSome) : g'.node? n = g.node? n := by
  obtain ⟨f, hf⟩ := h.rewires
  rw [hf.node?, h.copied.node? hn]
  simp

theorem direction_old (hc : (g.conn? c).isSome) : g'.directionOf? c = g.directionOf? c := by
  obtain ⟨f, hf⟩ := h.rewires
  rw [hf.directionOf?, directionOf?_def, h.copied.conn? hc, ← directionOf?_def]

theorem connsOf_old (hn : (g.node? n).isSome) : g'.connsOf n = g.connsOf n := by
  rw [connsOf_def, h.node?_old hn, ← connsOf_def]

theorem kindOf?_old (hn : (g.node? n).isSome) : g'.kindOf? n = g.kindOf? n := by
  rw [kindOf?_def, h.node?_old hn, ← kindOf?_def]

theorem connsOf_copy : g'.connsOf p.2 = g1.connsOf p.2 := by
  obtain ⟨f, hf⟩ := h.rewires
  exact hf.connsOf

theorem kindOf?_copy (hp : p ∈ copies) : g'.kindOf? p.2 = g.kindOf? p.1 := by
  obtain ⟨f, hf⟩ := h.rewires
  rw [hf.kindOf?, h.copied.kind p hp]

theorem constantOf?_copy (hp : p ∈ copies) : g'.constantOf? p.2 = g.constantOf? p.1 := by
  obtain ⟨f, hf⟩ := h.rewires
  rw [hf.constantOf?, h.copied.constant p hp]

theorem direction_twin (hq : q ∈ twinPairs copies g g1) : g'.directionOf? q.2 = g.directionOf? q.1 := by
  obtain ⟨f, hf⟩ := h.rewires
  obtain ⟨p, -, -, -, ht⟩ := h.copied.mem_twinPairs hq
  rw [hf.directionOf?, ht.direction]

/-- The connections of a node and of its copy stand in the same order. -/
theorem twins_copy (hp : p ∈ copies) :
    List.Forall₂ (fun c c' => (c, c') ∈ twinPairs copies g g1) (g.connsOf p.1)
      (g'.connsOf p.2) := by
  rw [h.connsOf_copy]
  have htw := h.copied.twins p hp
  rw [forall₂_iff_zip] at htw ⊢
  exact ⟨htw.1, fun hz => mem_flatMap.mpr ⟨p, hp, hz⟩⟩

/-- Every connection of a copied node has a twin. -/
theorem exists_twin (hp : p ∈ copies) (hc : c ∈ g.connsOf p.1) :
    ∃ c' ∈ g'.connsOf p.2, (c, c') ∈ twinPairs copies g g1 := by
  have htwins := h.twins_copy hp
  obtain ⟨i, hlt, rfl⟩ := getElem_of_mem hc
  have hlt' : i < (g'.connsOf p.2).length := htwins.length_eq ▸ hlt
  exact ⟨_, getElem_mem hlt', htwins.get hlt hlt'⟩

/-- A connection on a list was there before, at the same node, or is a twin. -/
theorem mem_connsOf (hc : c ∈ g'.connsOf n) : c ∈ g.connsOf n ∧ (g.node? n).isSome ∨
    ∃ p ∈ copies, p.2 = n ∧ ∃ x, (x, c) ∈ (g.connsOf p.1).zip (g1.connsOf p.2) := by
  by_cases hn : (g.node? n).isSome
  · exact .inl ⟨h.connsOf_old hn ▸ hc, hn⟩
  · right
    obtain ⟨f, hf⟩ := h.rewires
    have hs : (g1.node? n).isSome := by
      rw [← Edit.Applies.node?_isSome hf]
      exact isSome_of_mem_connsOf hc
    obtain ⟨p, hp, rfl⟩ := mem_map.mp ((h.copied.onlyNodes hs).resolve_left hn)
    have hz := h.copied.map_snd_zip_twins hp
    rw [h.connsOf_copy, ← hz, mem_map] at hc
    obtain ⟨q, hq, rfl⟩ := hc
    exact ⟨p, hp, rfl, q.1, hq⟩

theorem cells : g'.cells = g.cells ++ copies.map Prod.snd := by
  obtain ⟨f, hf⟩ := h.rewires
  exact hf.cells.trans h.copied.cells

theorem pins : g'.pins = g.pins := by
  obtain ⟨f, hf⟩ := h.rewires
  exact hf.pins.trans h.copied.pins

theorem pinNodes : g'.pinNodes = g.pinNodes := by
  obtain ⟨f, hf⟩ := h.rewires
  exact hf.pinNodes.trans h.copied.pinNodes

theorem not_copy (hn : n ∈ copies.map Prod.snd) : g.node? n = none := by
  obtain ⟨p, hp, rfl⟩ := mem_map.mp hn
  exact h.copied.new p hp

theorem new_node (hn : ¬ (g.node? n).isSome) : (∃ p ∈ copies, p.2 = n) ∨ g'.node? n = none := by
  obtain ⟨f, hf⟩ := h.rewires
  by_cases hs : (g'.node? n).isSome
  · rw [Edit.Applies.node?_isSome hf] at hs
    exact .inl (mem_map.mp ((h.copied.onlyNodes hs).resolve_left hn))
  · exact .inr (Option.not_isSome_iff_eq_none.mp hs)

theorem undriven (hwas : g.refsOf consumer = [out]) (hs : g.isSink c) (hnil : g.refsOf c = []) : g'.refsOf c = [] := by
  have hne : c ≠ consumer := by
    rintro rfl
    simp [hwas] at hnil
  rw [h.other hs hne, hnil]

/-- Nothing was moved: what was on a list is still on the list of the same node. -/
theorem evolves : Evolves g g' where
  kind hn := h.kindOf?_old hn
  name hn := by rw [nodeNameOf?, h.node?_old hn, ← nodeNameOf?]
  constant hn := by rw [constantOf?, h.node?_old hn, ← constantOf?]
  direction hc := h.direction_old hc
  attached {n c} hc hm := by
    rcases h.mem_connsOf hm with ⟨hm, -⟩ | ⟨p, hp, -, x, hz⟩
    · exact ⟨n, hm⟩
    · obtain ⟨-, -, -, -, ht⟩ := h.copied.mem_twinPairs (mem_flatMap.mpr ⟨p, hp, hz⟩)
      simp [ht.new] at hc
  inUse {n} hn hu := by
    rw [InUse, h.cells, h.pins, h.pinNodes, mem_append] at hu
    rcases hu with hu | (hu | hu) | hu | hu
    · exact .inl hu
    · exact .inr (.inl hu)
    · exact absurd hn (by simp [h.not_copy hu])
    · exact .inr (.inr (.inl hu))
    · exact .inr (.inr (.inr hu))
  shrinks hn _ hc := h.connsOf_old hn ▸ hc
  connName _ _ hc _ := by
    obtain ⟨f, hf⟩ := h.rewires
    rw [hf.connNameOf?, connNameOf?, h.copied.conn? hc, connNameOf?]
  names := by
    obtain ⟨f, hf⟩ := h.rewires
    exact Nat.le_of_eq (hf.names.trans h.copied.names).symm

/-- A copy has the shape of its node. -/
theorem regularAt_copy (hg : g.Sound) (hp : p ∈ copies) (hreg : g.RegularAt p.1) : g'.RegularAt p.2 := by
  -- each connection of the copy comes with the one it copies
  have htwin : ∀ {c}, c ∈ g'.connsOf p.2 → ∃ x, (x, c) ∈ (g.connsOf p.1).zip (g1.connsOf p.2) ∧
      x ∈ g.connsOf p.1 ∧ g'.directionOf? c = g.directionOf? x := by
    intro c hc
    rw [h.connsOf_copy, ← h.copied.map_snd_zip_twins hp, mem_map] at hc
    obtain ⟨q, hq, rfl⟩ := hc
    exact ⟨q.1, hq, (of_mem_zip hq).1, h.direction_twin (mem_flatMap.mpr ⟨p, hp, hq⟩)⟩
  refine ⟨?_, fun hk c hc => ?_, fun hk c hc => ?_⟩
  · intro o o' ho ho' hout hout'
    obtain ⟨x, hz, hx, hdir⟩ := htwin ho
    obtain ⟨x', hz', hx', hdir'⟩ := htwin ho'
    have hnd : (((g.connsOf p.1).zip (g1.connsOf p.2)).map Prod.fst).Nodup := by
      rw [map_fst_zip]
      · exact hg.nodup_conns p.1
      · exact Nat.le_of_eq (h.copied.twins p hp).length_eq
    rw [isOutput, hdir] at hout
    rw [isOutput, hdir'] at hout'
    exact congrArg Prod.snd (inj_on_of_nodup_map hnd hz hz' (hreg.lone hx hx' hout hout'))
  · obtain ⟨x, -, hx, hdir⟩ := htwin hc
    rw [isInput, isOutput, hdir, ← isOutput]
    exact hreg.plain (h.kindOf?_copy hp ▸ hk) hx
  · obtain ⟨x, -, hx, hdir⟩ := htwin hc
    rw [isSink, hdir]
    exact hreg.silent (h.kindOf?_copy hp ▸ hk) hx

theorem tidy (htidy : g.Tidy K) : g'.Tidy K := by
  refine ⟨h.sound, fun {n} hk => ?_⟩
  by_cases hn : (g.node? n).isSome
  · rw [hasKind, h.kindOf?_old hn] at hk
    refine (htidy.regular hk).shrink (h.kindOf?_old hn) (fun hc => h.connsOf_old hn ▸ hc) fun hc => ?_
    exact h.direction_old (htidy.conn_isSome hc)
  · rcases h.new_node hn with ⟨p, hp, rfl⟩ | hnone
    · rw [hasKind, h.kindOf?_copy hp] at hk
      exact h.regularAt_copy htidy.toSound hp (htidy.regular hk)
    · simp [hasKind, kindOf?_def, hnone] at hk

/-- What is read afterwards: a connection that was there reads what it read, the consumer reads
`root'`, and a copy follows its node. -/
theorem read_cases (hg : g.Sound) (hc : c ∈ g'.connsOf n) (hs : g'.isSink c) (hd : d ∈ g'.refsOf c) :
    (c ∈ g.connsOf n ∧ c ≠ consumer ∧ g.isSink c ∧ d ∈ g.refsOf c) ∨
    (c ∈ g.connsOf n ∧ c = consumer ∧ d = root') ∨
    ∃ p ∈ copies, p.2 = n ∧ ∃ y d0, y ∈ g.connsOf p.1 ∧ g.isSink y ∧ d0 ∈ g.refsOf y ∧
      Echoes copies g g1 d0 d := by
  rcases h.mem_connsOf hc with ⟨hc, -⟩ | ⟨p, hp, rfl, y, hz⟩
  · by_cases hcons : c = consumer
    · subst hcons
      rw [h.moved, mem_singleton] at hd
      exact .inr (.inl ⟨hc, rfl, hd⟩)
    · rw [h.evolves.isSink (hg.conn_isSome hc)] at hs
      rw [h.other hs hcons] at hd
      exact .inl ⟨hc, hcons, hs, hd⟩
  · have hq : (y, c) ∈ twinPairs copies g g1 := mem_flatMap.mpr ⟨p, hp, hz⟩
    have hys : g.isSink y := by rwa [isSink, h.direction_twin hq] at hs
    right; right
    refine ⟨p, hp, rfl, y, ?_⟩
    rcases hg.eq_nil_or_singleton hys with hnil | ⟨d0, hd0⟩
    · rw [h.empty _ hq hys hnil] at hd
      cases hd
    · obtain ⟨d', hecho, hrefs⟩ := h.echoed _ hq hys d0 hd0
      rw [hrefs, mem_singleton] at hd
      subst hd
      exact ⟨d0, (of_mem_zip hz).1, hys, by simp [hd0], hecho⟩

end Views

end Splices

namespace Inlines

variable {copies : List (NodeId × NodeId)} {origin : ConnId → ConnId}

section Values

variable (h : Inlines copies root root' consumer g g1 g') (hg : g.Sound)
  (hrep : g.Repeats root out) (hwas : g.refsOf consumer = [out]) (hsink : g.isSink consumer)
include h hg hwas hsink

/-- What a connection reads afterwards has the value of what it read before. -/
theorem answers_old (hs : g.isSink c) (hd : g.refsOf c = [d]) :
    ∃ d', g'.refsOf c = [d'] ∧ TakesValue (twinPairs copies g g1) out root' g d d' := by
  by_cases hc : c = consumer
  · subst hc
    rw [hwas] at hd
    obtain rfl : out = d := by simpa using hd
    exact ⟨root', h.moved, .inr (.inr ⟨rfl, rfl⟩)⟩
  · have hmem : d ∈ g.refsOf c := by simp [hd]
    exact ⟨d, (h.other hs hc).trans hd,
      .inl ⟨⟨rfl, hg.listed (hg.mirror hmem)⟩, hg.output_of_sink hmem hs⟩⟩

omit hwas hsink in
theorem answers_twin (out : ConnId) (hq : q ∈ twinPairs copies g g1)
    (hs : g.isSink q.1) (hd : g.refsOf q.1 = [d]) :
    ∃ d', g'.refsOf q.2 = [d'] ∧ TakesValue (twinPairs copies g g1) out root' g d d' := by
  have hmem : d ∈ g.refsOf q.1 := by simp [hd]
  have hout := hg.output_of_sink hmem hs
  obtain ⟨d', hd', hrefs⟩ := h.wired q hq hs d hd
  refine ⟨d', hrefs, ?_⟩
  rcases hd' with hd' | ⟨rfl, -⟩
  · exact .inr (.inl ⟨hd', hout⟩)
  · exact .inl ⟨⟨rfl, hg.listed (hg.mirror hmem)⟩, hout⟩

include hrep in
/-- A copy has the same logic behind it. -/
theorem takesValue_matches (hlogic : ∀ p ∈ copies, g.hasKind NodeKind.isNamed p.1 = false)
    (hold : ∀ {c}, (g.conn? c).isSome → origin c = c)
    (hnew : ∀ q ∈ twinPairs copies g g1, origin q.2 = q.1) {o' : ConnId}
    (ho : TakesValue (twinPairs copies g g1) out root' g o o') :
    g.Matches g' v (v ∘ origin) (TakesValue (twinPairs copies g g1) out root' g) o o' := by
  rcases ho with ⟨⟨rfl, m, hm⟩, hout⟩ | ⟨ht, hout⟩ | ⟨rfl, rfl⟩
  · -- a node that was there
    have hs := isSome_of_mem_connsOf hm
    have ha : g'.absorbedOf m = g.absorbedOf m := by
      rw [absorbedOf, h.node?_old hs, ← absorbedOf]
    apply Matches.frame hm (h.kindOf?_old hs) ha (h.connsOf_old hs) _ _ _
    · intro c hc
      have hdir := h.direction_old (hg.conn_isSome hc)
      apply Corresponds.of_sole hg.toWired (isSink_congr hdir)
      · exact fun hcs hnil => h.undriven hwas hcs hnil
      · intro d hcs hd
        obtain ⟨d', hd', htakes⟩ := h.answers_old hg hwas hsink hcs hd
        exact ⟨d', hd', .inl htakes⟩
    · rw [isOutput_congr (h.direction_old (hg.conn_isSome hm))]
      exact hout
    · exact congrArg v (hold (hg.conn_isSome hm))
  · -- a copy
    obtain ⟨p, hp, hpo, hpo', -⟩ := h.copied.mem_twinPairs ht
    have hk := h.kindOf?_copy hp
    have hder : g'.isDerived p.2 = g.isDerived p.1 := by
      have hnamed := hlogic p hp
      have hnamed' : g'.hasKind NodeKind.isNamed p.2 = false := by
        rwa [hasKind, hk, ← hasKind]
      rw [isDerived, isDerived, hnamed, hnamed', hasKind, hk, ← hasKind]
      simp
    have hv : (v ∘ origin) o' = v o := congrArg v (hnew _ ht)
    apply Matches.of_corresponds hpo hk hder _ _ _ hv
    · apply (h.twins_copy hp).imp
      intro c c' hcc
      have hcs : g'.isSink c' = g.isSink c := by
        rw [isSink, h.direction_twin hcc, ← isSink]
      apply Corresponds.of_sole hg.toWired hcs
      · exact fun hcs hnil => h.empty _ hcc hcs hnil
      · intro d hcs hd
        obtain ⟨d', hd', htakes⟩ := h.answers_twin hg out hcc hcs hd
        exact ⟨d', hd', .inl htakes⟩
    · rwa [h.connsOf_copy]
    · rw [isOutput, h.direction_twin ht, ← isOutput]
      exact hout
  · -- the consumer skips the pin node
    obtain ⟨m, hder, hnamed, hom, -, hdrv⟩ := hrep
    have hmem : root ∈ g.driversAt m := by simp [hdrv]
    obtain ⟨hrout, hrl⟩ := hg.driver_spec hmem
    refine .passed hder hnamed hom hdrv ?_
    rcases h.root_copy with hr | ⟨rfl, -⟩
    · exact .inr (.inl ⟨hr, hrout⟩)
    · exact .inl ⟨⟨rfl, hrl⟩, hrout⟩

include hrep in
/-- Copies have the values of what they are copies of. -/
theorem preserves (hlogic : ∀ p ∈ copies, g.hasKind NodeKind.isNamed p.1 = false)
    (hold : ∀ {c}, (g.conn? c).isSome → origin c = c)
    (hnew : ∀ q ∈ twinPairs copies g g1, origin q.2 = q.1) (hset : g.Settled v) :
    Preserves v (v ∘ origin) g g' := by
  have hm : ∀ {o o'}, TakesValue (twinPairs copies g g1) out root' g o o' →
      g.Matches g' v (v ∘ origin) (TakesValue (twinPairs copies g g1) out root' g) o o' :=
    h.takesValue_matches hg hrep hwas hsink hlogic hold hnew
  apply Preserves.of_matches hg.toOwned h.sound.toOwned hset hm
  · intro c d n hs hd _
    obtain ⟨d', hd', htakes⟩ := h.answers_old hg hwas hsink hs hd
    exact ⟨h.evolves.keeps_sink hs, d', hd', .inl htakes⟩
  · intro c' d' hs hd
    obtain ⟨n, hn⟩ := h.sound.listed hd
    rcases h.mem_connsOf hn with ⟨hc, -⟩ | ⟨p, hp, -, x, hz⟩
    · -- the connection was there
      have hs0 : g.isSink c' := by rwa [h.evolves.isSink (hg.conn_isSome hc)] at hs
      rcases hg.eq_nil_or_singleton hs0 with hnil | ⟨d, hd0⟩
      · rw [h.undriven hwas hs0 hnil] at hd
        cases hd
      · obtain ⟨d'', hd'', htakes⟩ := h.answers_old hg hwas hsink hs0 hd0
        rw [hd'', mem_singleton] at hd
        exact ⟨c', d, hs0, by simp [hd0], .inl (hd ▸ htakes)⟩
    · have hq : (x, c') ∈ twinPairs copies g g1 := mem_flatMap.mpr ⟨p, hp, hz⟩
      have hs0 : g.isSink x := by
        rwa [isSink, h.direction_twin hq, ← isSink] at hs
      rcases hg.eq_nil_or_singleton hs0 with hnil | ⟨d, hd0⟩
      · rw [h.empty _ hq hs0 hnil] at hd
        cases hd
      · obtain ⟨d'', hd'', htakes⟩ := h.answers_twin hg out hq hs0 hd0
        rw [hd'', mem_singleton] at hd
        exact ⟨x, d, hs0, by simp [hd0], .inl (hd ▸ htakes)⟩
  · intro n c d hk hu hc hs hd
    obtain ⟨d', hd', htakes⟩ := h.answers_old hg hwas hsink hs hd
    refine ⟨c, ?_, h.evolves.keeps_sink hs, d', hd', fun b hb => ?_⟩
    · rwa [h.connsOf_old (isSome_of_mem_connsOf hc)]
    · exact hb.follow hg.toOwned h.sound.toOwned hm htakes

include hrep in
/-- Nothing was taken over by a copy, and a copy reads wherever its node does. -/
theorem fresh (hfresh : g.Fresh K) (hlogic : ∀ p ∈ copies, g.hasKind NodeKind.isNamed p.1 = false) : g'.Fresh K where
  toTidy := h.tidy hfresh.toTidy
  unmerged n := by
    by_cases hn : (g.node? n).isSome
    · rw [absorbedOf, h.node?_old hn, ← absorbedOf]
      exact hfresh.unmerged n
    · rcases h.new_node hn with ⟨p, hp, rfl⟩ | hnone
      · obtain ⟨f, hf⟩ := h.rewires
        exact hf.absorbedOf.trans (h.copied.absorbed p hp)
      · rw [absorbedOf, hnone]
        rfl
  single {n c c'} hk hc hc' hs hs' := by
    by_cases hn : (g.node? n).isSome
    · rw [h.connsOf_old hn] at hc hc'
      rw [h.evolves.isSink (hg.conn_isSome hc)] at hs
      rw [h.evolves.isSink (hg.conn_isSome hc')] at hs'
      rw [h.evolves.hasKind hn] at hk
      exact hfresh.single hk hc hc' hs hs'
    · rcases h.new_node hn with ⟨p, hp, rfl⟩ | hnone
      · rw [hasKind, h.kindOf?_copy hp, ← hasKind, hlogic p hp] at hk
        cases hk
      · simp [connsOf_def, hnone] at hc
  driven {n c} hc hs := by
    rcases h.mem_connsOf hc with ⟨hc, -⟩ | ⟨p, hp, -, x, hz⟩
    · rw [h.evolves.isSink (hg.conn_isSome hc)] at hs
      obtain ⟨d, hd⟩ := hfresh.driven hc hs
      obtain ⟨d', hd', -⟩ := h.answers_old hg hwas hsink hs hd
      exact ⟨d', hd'⟩
    · -- a copy reads where its node does
      have hq : (x, c) ∈ twinPairs copies g g1 := mem_flatMap.mpr ⟨p, hp, hz⟩
      rw [isSink, h.direction_twin hq, ← isSink] at hs
      obtain ⟨d, hd⟩ := hfresh.driven (of_mem_zip hz).1 hs
      obtain ⟨d', hd', -⟩ := h.answers_twin hg out hq hs hd
      exact ⟨d', hd'⟩
  settled v := by
    obtain ⟨origin, hold, hnew⟩ := h.copied.exists_origin
    have hp := h.preserves hg hrep hwas hsink hlogic hold hnew (hfresh.settled v)
    exact hp.settled.change h.sound v

include hrep in
/-- A copy for one consumer unfolds the network. -/
theorem unfolds (htidy : g.Tidy K)
    (hlogic : ∀ p ∈ copies, g.hasKind NodeKind.isLogic p.1) : ∃ origin, Unfolds K origin g g' := by
  obtain ⟨origin, hold, hnew⟩ := h.copied.exists_origin
  have hnamed : ∀ p ∈ copies, g.hasKind NodeKind.isNamed p.1 = false := by
    intro p hp
    obtain ⟨k, hk, hl⟩ := hasKind_iff.mp (hlogic p hp)
    rw [hasKind, hk, Option.any_some]
    exact (NodeKind.spec_of_isLogic hl).1
  refine ⟨origin, h.tidy htidy, fun hf => h.fresh hg hrep hwas hsink hf hnamed, h.evolves,
    fun hset => h.preserves hg hrep hwas hsink hnamed hold hnew hset, hold, fun {n c} hc => ?_,
    fun hn _ => h.connsOf_old hn, fun {n} hn => ?_, fun _ hs hr => h.undriven hwas hs hr, h.pins,
    ?_, fun {n} hn => ?_, fun {n} hn => ?_⟩
  · rcases h.mem_connsOf hc with ⟨hc, hn⟩ | ⟨p, hp, rfl, x, hz⟩
    · refine ⟨n, ?_, h.kindOf?_old hn, h.evolves.constant hn⟩
      rwa [hold (hg.conn_isSome hc)]
    · refine ⟨p.1, ?_, h.kindOf?_copy hp, h.constantOf?_copy hp⟩
      rw [hnew (x, c) (mem_flatMap.mpr ⟨p, hp, hz⟩)]
      exact (of_mem_zip hz).1
  · rw [absorbedOf, h.node?_old hn, ← absorbedOf]
  · rw [h.pinNodes]
  · rw [h.cells, mem_append, or_iff_left]
    intro hmem
    have := isSome_of_hasKind hn
    simp [h.not_copy hmem] at this
  · rcases h.new_node (n := n) (by simp [hn]) with ⟨p, hp, rfl⟩ | hnone
    · obtain ⟨k, hk, hl⟩ := hasKind_iff.mp (hlogic p hp)
      rw [hasKind, h.kindOf?_copy hp, hk, Option.any_some]
      exact (NodeKind.spec_of_isLogic hl).2.1
    · rw [hasKind, kindOf?_def, hnone]
      rfl

end Values

end Inlines

end Network

end PldSynth
