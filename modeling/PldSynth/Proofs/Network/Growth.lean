import PldSynth.Proofs.Network.Sound

/-!
# Growing a network in order

A new connection has no wires and a new node has no connections, so both keep a network in order.
-/

namespace PldSynth.Network

open List

variable {g g' : Network} {n m : NodeId} {c x : ConnId}

/-! ## Fresh handles -/

theorem refsOf_nextConn : g.refsOf g.nextConn = [] := by
  simp [refsOf_def]

theorem connsOf_nextNode : g.connsOf g.nextNode = [] := by
  simp [connsOf_def]

theorem ne_nextConn (h : (g.conn? c).isSome) : c ≠ g.nextConn := by
  rintro rfl
  simp at h

theorem ne_nextNode (h : (g.node? n).isSome) : n ≠ g.nextNode := by
  rintro rfl
  simp at h

/-! ## A new connection -/

section Attach

variable (s : String) (dir : Direction)

theorem connsOf_attach (hn : (g.node? n).isSome) :
    (g.attach n s dir).2.connsOf m = g.connsOf m ++ if m = n then [g.nextConn] else [] := by
  rw [connsOf_def, node?_attach, connsOf_def]
  split
  · rename_i hm
    subst hm
    obtain ⟨y, hy⟩ := Option.isSome_iff_exists.mp hn
    simp [hy]
  · simp

theorem refsOf_attach : (g.attach n s dir).2.refsOf x = g.refsOf x := by
  rw [refsOf_def, conn?_attach]
  split
  · rename_i hx
    simp [hx, refsOf_nextConn]
  · rfl

theorem directionOf?_attach :
    (g.attach n s dir).2.directionOf? x = if x = g.nextConn then some dir else g.directionOf? x := by
  rw [directionOf?_def, conn?_attach]
  split <;> rfl

theorem ownerOf?_attach :
    (g.attach n s dir).2.ownerOf? x = if x = g.nextConn then some n else g.ownerOf? x := by
  rw [ownerOf?_def, conn?_attach]
  split <;> rfl

theorem kindOf?_attach : (g.attach n s dir).2.kindOf? m = g.kindOf? m := by
  rw [kindOf?_def, node?_attach, kindOf?_def]
  split
  · simp [Function.comp_def]
  · rfl

theorem absorbedOf_attach : (g.attach n s dir).2.absorbedOf m = g.absorbedOf m := by
  rw [absorbedOf, node?_attach, absorbedOf]
  split
  · simp [Function.comp_def]
  · rfl

theorem constantOf?_attach : (g.attach n s dir).2.constantOf? m = g.constantOf? m := by
  rw [constantOf?, node?_attach, constantOf?]
  split
  · cases g.node? m <;> rfl
  · rfl

theorem nodeNameOf?_attach : (g.attach n s dir).2.nodeNameOf? m = g.nodeNameOf? m := by
  rw [nodeNameOf?, node?_attach, nodeNameOf?]
  split
  · simp [Function.comp_def]
  · rfl

theorem node_isSome_attach : ((g.attach n s dir).2.node? m).isSome = (g.node? m).isSome := by
  rw [node?_attach]
  split <;> simp

theorem conn_isSome_attach (hx : (g.conn? x).isSome) : ((g.attach n s dir).2.conn? x).isSome := by
  rwa [conn?_attach, if_neg (ne_nextConn hx)]

theorem Housed.attach (hg : g.Housed) (hn : (g.node? n).isSome) : (g.attach n s dir).2.Housed := by
  intro m x hx
  rw [connsOf_attach s dir hn, mem_append] at hx
  rw [ownerOf?_attach]
  rcases hx with hx | hx
  · rw [if_neg (ne_nextConn (isSome_of_ownerOf? (hg hx)))]
    exact hg hx
  · split at hx
    · rename_i hm
      rw [if_pos (mem_singleton.mp hx), hm]
    · cases hx

theorem nodup_attach (hg : g.Housed) (hnd : ∀ m, (g.connsOf m).Nodup) (hn : (g.node? n).isSome)
    (m : NodeId) : ((g.attach n s dir).2.connsOf m).Nodup := by
  rw [connsOf_attach s dir hn]
  split
  · refine nodup_append.mpr ⟨hnd m, nodup_singleton _, ?_⟩
    intro a ha b hb
    rw [mem_singleton.mp hb]
    exact ne_nextConn (isSome_of_ownerOf? (hg ha))
  · rw [append_nil]
    exact hnd m

/-- A new connection stands where it belongs. -/
theorem Owned.attach (hg : g.Owned) (hn : (g.node? n).isSome) (hu : g.InUse n) :
    (g.attach n s dir).2.Owned where
  owner := Housed.attach s dir hg.owner hn
  nodup_conns := nodup_attach s dir hg.owner hg.nodup_conns hn
  inUse {m x} hx := by
    rw [connsOf_attach s dir hn, mem_append] at hx
    rcases hx with hx | hx
    · exact hg.inUse hx
    · split at hx
      · rename_i hm
        exact hm ▸ hu
      · simp at hx
  design_kind := by rw [kindOf?_attach]; exact hg.design_kind
  cell_kind hm := by rw [kindOf?_attach]; exact hg.cell_kind hm
  pin_kind hm := by rw [kindOf?_attach]; exact hg.pin_kind hm
  pinNode_kind hm := by rw [kindOf?_attach]; exact hg.pinNode_kind hm
  nodup_cells := hg.nodup_cells
  nodup_pins := hg.nodup_pins
  nodup_pinNodes := hg.nodup_pinNodes

theorem isSink_attach (hx : (g.conn? x).isSome) : (g.attach n s dir).2.isSink x = g.isSink x := by
  apply isSink_congr
  rw [directionOf?_attach, if_neg (ne_nextConn hx)]

theorem isOutput_attach (hx : (g.conn? x).isSome) : (g.attach n s dir).2.isOutput x = g.isOutput x := by
  apply isOutput_congr
  rw [directionOf?_attach, if_neg (ne_nextConn hx)]

/-- A new connection has no wires, so the wires stay in order. -/
theorem Sound.attach (hg : g.Sound) (hn : (g.node? n).isSome) (hu : g.InUse n) :
    (g.attach n s dir).2.Sound where
  toOwned := hg.toOwned.attach s dir hn hu
  mirror h := by
    rw [refsOf_attach] at h ⊢
    exact hg.mirror h
  nodup_refs c := by rw [refsOf_attach]; exact hg.nodup_refs c
  output_of_sink h hs := by
    rw [refsOf_attach] at h
    rw [isSink_attach s dir (isSome_of_mem_refsOf h)] at hs
    rw [isOutput_attach s dir (hg.ref_isSome h)]
    exact hg.output_of_sink h hs
  sink_of_output h ho := by
    rw [refsOf_attach] at h
    rw [isOutput_attach s dir (isSome_of_mem_refsOf h)] at ho
    rw [isSink_attach s dir (hg.ref_isSome h)]
    exact hg.sink_of_output h ho
  sole {c} hs := by
    rw [refsOf_attach]
    by_cases hc : (g.conn? c).isSome
    · exact hg.sole (isSink_attach s dir hc ▸ hs)
    · simp [refsOf_def, Option.not_isSome_iff_eq_none.mp hc]
  listed h := by
    rw [refsOf_attach] at h
    obtain ⟨m, hm⟩ := hg.listed h
    exact ⟨m, by rw [connsOf_attach s dir hn]; exact mem_append_left _ hm⟩

end Attach

/-! ## A new node -/

/-- `g'` is `g` with one more node of the kind `k`, which owns nothing. -/
structure Grows (s : String) (k : NodeKind) (g g' : Network) : Prop where
  node? : ∀ m, g'.node? m = if m = g.nextNode then some { name := s, kind := k } else g.node? m
  conn? : ∀ x, g'.conn? x = g.conn? x
  names : g'.pinNodeNames = g.pinNodeNames

namespace Grows

variable {s : String} {k : NodeKind}

variable (h : Grows s k g g')
include h

theorem connsOf : g'.connsOf m = g.connsOf m := by
  rw [connsOf_def, h.node?]
  split
  · rename_i hm
    simp [hm, connsOf_nextNode]
  · rfl

theorem kindOf? : g'.kindOf? m = if m = g.nextNode then some k else g.kindOf? m := by
  rw [kindOf?_def, h.node?]
  split <;> rfl

theorem absorbedOf : g'.absorbedOf m = g.absorbedOf m := by
  rw [Network.absorbedOf, Network.absorbedOf, h.node?]
  split
  · rename_i hm
    simp [hm]
  · rfl

theorem constantOf? : g'.constantOf? m = g.constantOf? m := by
  rw [Network.constantOf?, Network.constantOf?, h.node?]
  split
  · rename_i hm
    simp [hm]
  · rfl

theorem nodeNameOf? : g'.nodeNameOf? m = if m = g.nextNode then some s else g.nodeNameOf? m := by
  rw [Network.nodeNameOf?, h.node?]
  split <;> rfl

theorem refsOf : g'.refsOf x = g.refsOf x := by
  rw [refsOf_def, refsOf_def, h.conn?]

theorem directionOf? : g'.directionOf? x = g.directionOf? x := by
  rw [directionOf?_def, directionOf?_def, h.conn?]

theorem ownerOf? : g'.ownerOf? x = g.ownerOf? x := by
  rw [ownerOf?_def, ownerOf?_def, h.conn?]

theorem node_isSome (hm : (g.node? m).isSome) : (g'.node? m).isSome := by
  rwa [h.node?, if_neg (ne_nextNode hm)]

theorem kindOf?_of_isSome (hm : (g.node? m).isSome) : g'.kindOf? m = g.kindOf? m := by
  rw [h.kindOf?, if_neg (ne_nextNode hm)]

theorem wired (hg : g.Wired) : g'.Wired := by
  apply hg.shrink (fun x => h.directionOf?)
  · intro x
    rw [h.refsOf]
  · intro a b hb
    rw [h.refsOf] at hb ⊢
    exact hg.mirror hb
  · intro a b hb
    rw [h.refsOf] at hb
    simpa only [h.connsOf] using hg.listed hb

/-- The network stays in order if the new node is put at the end of the list for its kind. -/
theorem sound (hg : g.Sound) (hcells : ∀ m, m ∈ g'.cells ↔ m ∈ g.cells ∨ m = g.nextNode ∧ k.isCell)
    (hpins : ∀ m, m ∈ g'.pins ↔ m ∈ g.pins ∨ m = g.nextNode ∧ k = .pin)
    (hpinNodes : ∀ m, m ∈ g'.pinNodes ↔ m ∈ g.pinNodes ∨ m = g.nextNode ∧ k = .pinNode)
    (hnd : g'.cells.Nodup ∧ g'.pins.Nodup ∧ g'.pinNodes.Nodup) : g'.Sound where
  owner hc := by
    rw [h.connsOf] at hc
    rw [h.ownerOf?]
    exact hg.owner hc
  nodup_conns m := by rw [h.connsOf]; exact hg.nodup_conns m
  inUse {m x} hc := by
    rw [h.connsOf] at hc
    rw [InUse, hcells, hpins, hpinNodes]
    rcases hg.inUse hc with hu | hu | hu | hu <;> simp [hu]
  design_kind := by
    rw [h.kindOf?_of_isSome (isSome_of_kindOf? hg.design_kind)]
    exact hg.design_kind
  cell_kind {m} hm := by
    rcases (hcells m).mp hm with hm | ⟨rfl, hk⟩
    · rw [h.kindOf?_of_isSome (hg.cell_isSome hm)]
      exact hg.cell_kind hm
    · exact ⟨k, by simp [h.kindOf?], hk⟩
  pin_kind {m} hm := by
    rcases (hpins m).mp hm with hm | ⟨rfl, hk⟩
    · rw [h.kindOf?_of_isSome (isSome_of_kindOf? (hg.pin_kind hm))]
      exact hg.pin_kind hm
    · simp [h.kindOf?, hk]
  pinNode_kind {m} hm := by
    rcases (hpinNodes m).mp hm with hm | ⟨rfl, hk⟩
    · rw [h.kindOf?_of_isSome (isSome_of_kindOf? (hg.pinNode_kind hm))]
      exact hg.pinNode_kind hm
    · simp [h.kindOf?, hk]
  nodup_cells := hnd.1
  nodup_pins := hnd.2.1
  nodup_pinNodes := hnd.2.2
  toWired := h.wired hg.toWired

end Grows

theorem nodup_append_nextNode {l : List NodeId} (hl : l.Nodup)
    (hs : ∀ m ∈ l, (g.node? m).isSome) : (l ++ [g.nextNode]).Nodup := by
  refine nodup_append.mpr ⟨hl, nodup_singleton _, ?_⟩
  intro a ha b hb
  rw [mem_singleton.mp hb]
  exact ne_nextNode (hs a ha)

theorem grows_addNode (s : String) (k : NodeKind) : Grows s k g (g.addNode s k).2 :=
  ⟨fun _ => node?_addNode s k, fun _ => rfl, rfl⟩

theorem grows_addPin (s : String) : Grows s .pin g (g.addPin s).2 :=
  ⟨fun _ => node?_addPin s, fun _ => rfl, rfl⟩

theorem grows_addCell (s : String) (k : NodeKind) : Grows s k g (g.addCell s k).2 :=
  ⟨fun _ => node?_addCell s k, fun _ => rfl, rfl⟩

theorem Sound.addPin (hg : g.Sound) (s : String) : (g.addPin s).2.Sound := by
  apply (grows_addPin s).sound hg
  · simp [NodeKind.isCell, NodeKind.isCombinational, NodeKind.isSequential]
  · simp
  · simp
  · refine ⟨hg.nodup_cells, nodup_append_nextNode hg.nodup_pins ?_, hg.nodup_pinNodes⟩
    intro m hm
    exact isSome_of_kindOf? (hg.pin_kind hm)

theorem Sound.addCell (hg : g.Sound) (s : String) {k : NodeKind} (hk : k.isCell) :
    (g.addCell s k).2.Sound := by
  have hpin : k ≠ .pin := by rintro rfl; exact absurd hk (by decide)
  have hpinNode : k ≠ .pinNode := by rintro rfl; exact absurd hk (by decide)
  apply (grows_addCell s k).sound hg
  · simp [hk]
  · simp [hpin]
  · simp [hpinNode]
  · refine ⟨nodup_append_nextNode hg.nodup_cells ?_, hg.nodup_pins, hg.nodup_pinNodes⟩
    intro m hm
    exact hg.cell_isSome hm

end PldSynth.Network
