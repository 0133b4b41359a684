import PldSynth.Proofs.Network.Consumers

/-!
# How a network evolves

A pass only ever adds handles. What it knows of a handle that was there before stays: the kind, the
name and the value of a node, the direction of a connection. A connection that was dropped and a node that was
taken out of use do not come back, and only pins and pin nodes receive connections. `Evolves` says so
and holds along any run of edits.

`Alike` is for edits that change nothing but names and marks.
-/

namespace PldSynth.Network

open PldSynth.NodeKind (isNamed)
open List

variable {g g' g'' : Network} {n m t : NodeId} {c x o out : ConnId}

/-- `g'` comes after `g`: old handles keep what they are, and nothing that was dropped comes back. -/
structure Evolves (g g' : Network) : Prop where
  kind : ∀ {n}, (g.node? n).isSome → g'.kindOf? n = g.kindOf? n
  name : ∀ {n}, (g.node? n).isSome → g'.nodeNameOf? n = g.nodeNameOf? n
  constant : ∀ {n}, (g.node? n).isSome → g'.constantOf? n = g.constantOf? n
  direction : ∀ {c}, (g.conn? c).isSome → g'.directionOf? c = g.directionOf? c
  attached : ∀ {n c}, (g.conn? c).isSome → c ∈ g'.connsOf n → ∃ m, c ∈ g.connsOf m
  inUse : ∀ {n}, (g.node? n).isSome → g'.InUse n → g.InUse n
  shrinks : ∀ {n c}, (g.node? n).isSome → g.hasKind isNamed n = false →
    c ∈ g'.connsOf n → c ∈ g.connsOf n
  connName : ∀ {n c}, (g.node? n).isSome → g.hasKind isNamed n = false →
    (g.conn? c).isSome → c ∈ g'.connsOf n → g'.connNameOf? c = g.connNameOf? c
  names : g.pinNodeNames ≤ g'.pinNodeNames

theorem isSome_kindOf? : (g.kindOf? n).isSome = (g.node? n).isSome := by
  simp [kindOf?_def]

theorem isSome_directionOf? : (g.directionOf? c).isSome = (g.conn? c).isSome := by
  simp [directionOf?_def]

namespace Evolves

theorem node_isSome (h : Evolves g g') (hn : (g.node? n).isSome) : (g'.node? n).isSome := by
  rw [← isSome_kindOf?, h.kind hn, isSome_kindOf?]
  exact hn

theorem conn_isSome (h : Evolves g g') (hc : (g.conn? c).isSome) : (g'.conn? c).isSome := by
  rw [← isSome_directionOf?, h.direction hc, isSome_directionOf?]
  exact hc

theorem isSink (h : Evolves g g') (hc : (g.conn? c).isSome) : g'.isSink c = g.isSink c :=
  isSink_congr (h.direction hc)

theorem isOutput (h : Evolves g g') (hc : (g.conn? c).isSome) : g'.isOutput c = g.isOutput c :=
  isOutput_congr (h.direction hc)

theorem hasKind (h : Evolves g g') (hn : (g.node? n).isSome) (p : NodeKind → Bool) :
    g'.hasKind p n = g.hasKind p n := by
  rw [Network.hasKind, h.kind hn, Network.hasKind]

theorem keeps_sink (h : Evolves g g') (hs : g.isSink c) : g'.isSink c :=
  (h.isSink (isSome_of_isSink hs)).trans hs

theorem keeps_output (h : Evolves g g') (ho : g.isOutput c) : g'.isOutput c :=
  (h.isOutput (isSome_of_isOutput ho)).trans ho

theorem keeps_kind {p : NodeKind → Bool} (h : Evolves g g') (hn : g.hasKind p n) : g'.hasKind p n :=
  (h.hasKind (isSome_of_hasKind hn) p).trans hn

theorem refl (g : Network) : Evolves g g where
  kind _ := rfl
  name _ := rfl
  constant _ := rfl
  direction _ := rfl
  attached _ hc := ⟨_, hc⟩
  inUse _ hn := hn
  shrinks _ _ hc := hc
  connName _ _ _ _ := rfl
  names := Nat.le_refl _

theorem trans (h : Evolves g g') (h' : Evolves g' g'') : Evolves g g'' where
  kind hn := (h'.kind (h.node_isSome hn)).trans (h.kind hn)
  name hn := (h'.name (h.node_isSome hn)).trans (h.name hn)
  constant hn := (h'.constant (h.node_isSome hn)).trans (h.constant hn)
  direction hc := (h'.direction (h.conn_isSome hc)).trans (h.direction hc)
  attached hc hm := by
    obtain ⟨m, hm⟩ := h'.attached (h.conn_isSome hc) hm
    exact h.attached hc hm
  inUse hn hu := h.inUse hn (h'.inUse (h.node_isSome hn) hu)
  shrinks hn hk hc :=
    h.shrinks hn hk (h'.shrinks (h.node_isSome hn) ((h.hasKind hn _).trans hk) hc)
  connName hn hk hc hm := by
    have hn' := h.node_isSome hn
    have hk' := (h.hasKind hn _).trans hk
    rw [h'.connName hn' hk' (h.conn_isSome hc) hm, h.connName hn hk hc (h'.shrinks hn' hk' hm)]
  names := Nat.le_trans h.names h'.names

end Evolves

/-! ## Edits without new handles -/

theorem Edit.Applies.inUse {e : Edit} (h : e.Applies g g') (hk : e.keep n) : g'.InUse n ↔ g.InUse n := by
  simp [InUse, h.cells, h.pins, h.pinNodes, hk]

/-- An edit that moves connections to pins and pin nodes only. -/
theorem Edit.Applies.evolves {e : Edit} (h : e.Applies g g') (hconns : ∀ {n c}, c ∈ g'.connsOf n →
      c ∈ g.connsOf n ∨ g.hasKind isNamed n ∧ ∃ m, c ∈ g.connsOf m) : Evolves g g' where
  kind _ := h.kindOf?
  name _ := h.nodeNameOf?
  constant _ := h.constantOf?
  direction _ := h.directionOf?
  attached {n c} _ hc := by
    rcases hconns hc with hc | ⟨_, hc⟩
    · exact ⟨n, hc⟩
    · exact hc
  inUse _ hu := by
    simp only [InUse, h.cells, h.pins, h.pinNodes, mem_filter] at hu ⊢
    rcases hu with hu | hu | hu | hu <;> simp [hu]
  shrinks {n c} _ hk hc := by
    rcases hconns hc with hc | ⟨hk', _⟩
    · exact hc
    · simp [hk] at hk'
  connName _ _ _ _ := h.connNameOf?
  names := Nat.le_of_eq h.names.symm

theorem Rewires.evolves {f : ConnId → List ConnId → List ConnId} (h : Rewires f g g') : Evolves g g' :=
  Edit.Applies.evolves h fun hc => .inl (h.connsOf ▸ hc)

theorem evolves_detached (h : (detached c).Applies g g') : Evolves g g' := by
  apply h.evolves
  intro n x hx
  rw [connsOf_detached h] at hx
  exact .inl (mem_filter.mp hx).1

theorem evolves_retired {cs : List ConnId} (h : (retired n cs).Applies g g') : Evolves g g' := by
  apply h.evolves
  intro m x hx
  rw [connsOf_retired h] at hx
  split at hx
  · simp at hx
  · exact .inl hx

/-- A connection that is given to a pin or pin node stood on a list before. -/
theorem evolves_reparented (h : (reparented c t).Applies g g')
    (ht : g.hasKind isNamed t) (hc : ∃ n, c ∈ g.connsOf n) : Evolves g g' := by
  have hs : (g.node? t).isSome := by
    obtain ⟨k, hk, _⟩ := hasKind_iff.mp ht
    exact isSome_of_kindOf? hk
  apply h.evolves
  intro m x hx
  rw [connsOf_reparented h hs, mem_append] at hx
  rcases hx with hx | hx
  · exact .inl (mem_filter.mp hx).1
  · split at hx
    · rename_i hm
      exact .inr ⟨hm ▸ ht, mem_singleton.mp hx ▸ hc⟩
    · simp at hx

/-! ## Edits with new handles -/

/-- A new connection on a pin or pin node. -/
theorem evolves_attach (s : String) (dir : Direction) (hn : (g.node? n).isSome)
    (hk : g.hasKind isNamed n) : Evolves g (g.attach n s dir).2 where
  kind _ := kindOf?_attach s dir
  name _ := nodeNameOf?_attach s dir
  constant _ := constantOf?_attach s dir
  direction hc := by rw [directionOf?_attach, if_neg (ne_nextConn hc)]
  attached {m c} hc hm := by
    rw [connsOf_attach s dir hn, mem_append] at hm
    rcases hm with hm | hm
    · exact ⟨m, hm⟩
    · split at hm
      · exact absurd (mem_singleton.mp hm) (ne_nextConn hc)
      · simp at hm
  inUse _ hu := hu
  shrinks {m c} _ hk' hc := by
    have hm : m ≠ n := by
      rintro rfl
      simp [hk] at hk'
    simpa [connsOf_attach s dir hn, hm] using hc
  connName _ _ hc _ := by rw [connNameOf?, conn?_attach, if_neg (ne_nextConn hc), connNameOf?]
  names := Nat.le_refl _

theorem Grows.evolves {s : String} {k : NodeKind} (h : Grows s k g g')
    (hu : ∀ m, g'.InUse m → g.InUse m ∨ m = g.nextNode) : Evolves g g' where
  kind hn := h.kindOf?_of_isSome hn
  name hn := by rw [h.nodeNameOf?, if_neg (ne_nextNode hn)]
  constant _ := h.constantOf?
  direction _ := h.directionOf?
  attached _ hm := ⟨_, h.connsOf ▸ hm⟩
  inUse {n} hn hm := (hu n hm).resolve_right (ne_nextNode hn)
  shrinks _ _ hc := h.connsOf ▸ hc
  connName _ _ _ _ := by rw [connNameOf?, h.conn?, connNameOf?]
  names := Nat.le_of_eq h.names.symm

theorem pinNodeNames_le_pinNodeNameFor (source : Node) :
    g.pinNodeNames ≤ (g.pinNodeNameFor source).2.pinNodeNames := by
  unfold pinNodeNameFor
  split
  · exact Nat.le_refl _
  · exact Nat.le_succ _

/-- A pin node that is put in. -/
theorem PutsPinNode.evolves {source : Node} (h : PutsPinNode o source g g') : Evolves g g' where
  kind hn := by rw [h.kindOf?, if_neg (ne_nextNode hn)]
  name hn := by rw [h.nodeNameOf?, if_neg (ne_nextNode hn)]
  constant _ := h.constantOf?
  direction hc := by
    have hne := ne_put hc
    rw [h.directionOf?, if_neg hne.1, if_neg hne.2]
  attached {m c} hc hm := by
    rw [h.connsOf] at hm
    split at hm
    · have hne := ne_put hc
      simp [hne] at hm
    · exact ⟨m, hm⟩
  inUse {m} hm hu := by
    rw [InUse, h.cells, h.pins, h.pinNodes, mem_append, mem_singleton] at hu
    rcases hu with hu | hu | hu | hu | hu
    · exact .inl hu
    · exact .inr (.inl hu)
    · exact .inr (.inr (.inl hu))
    · exact .inr (.inr (.inr hu))
    · exact absurd hu (ne_nextNode hm)
  shrinks {m c} hm _ hc := by rwa [h.connsOf, if_neg (ne_nextNode hm)] at hc
  connName _ _ hc _ := h.connNameOf? hc
  names := h.names ▸ pinNodeNames_le_pinNodeNameFor source

theorem Supplies.evolves {g1 : Network} (h : Supplies t out g g1)
    (hk : g.hasKind isNamed t) : Evolves g g1 := by
  cases h with
  | had => exact .refl g
  | made _ ht _ => exact evolves_attach _ _ ht hk

theorem MovesConsumers.evolves (h : MovesConsumers t o g g')
    (hk : g.hasKind isNamed t) : Evolves g g' := by
  cases h with
  | idle _ hr => exact hr.evolves
  | moves out g1 hs hr => exact (hs.evolves hk).trans hr.evolves

/-! ## Nodes of a regular shape -/

/-- The node has one output at most. -/
def LoneAt (g : Network) (n : NodeId) : Prop :=
  ∀ ⦃o o'⦄, o ∈ g.connsOf n → o' ∈ g.connsOf n → g.isOutput o = true → g.isOutput o' = true → o = o'

/-- No connection of the node is bidirectional. -/
def PlainAt (g : Network) (n : NodeId) : Prop :=
  ∀ ⦃c⦄, c ∈ g.connsOf n → g.isInput c = true ∨ g.isOutput c = true

/-- The node has one output at most and, unless it is a pin, no bidirectional connection. A constant
has nothing but outputs. -/
structure RegularAt (g : Network) (n : NodeId) : Prop where
  lone : g.LoneAt n
  plain : g.kindOf? n ≠ some .pin → g.PlainAt n
  silent : g.kindOf? n = some .constant → ∀ ⦃c⦄, c ∈ g.connsOf n → g.isSink c = false

/-- The network is in order, and so are the connections of its pins, pin nodes and constants and of
the cells of the kinds in `K`. -/
structure Tidy (K : NodeKind → Bool) (g : Network) : Prop extends Sound g where
  regular : ∀ {n}, g.hasKind (fun k => K k || k.isNamed || k = .constant) n = true → g.RegularAt n

theorem LoneAt.shrink (h : g.LoneAt n) (hsub : ∀ {c}, c ∈ g'.connsOf n → c ∈ g.connsOf n)
    (hdir : ∀ {c}, c ∈ g.connsOf n → g'.directionOf? c = g.directionOf? c) : g'.LoneAt n := by
  intro o o' ho ho' hout hout'
  have ho := hsub ho
  have ho' := hsub ho'
  rw [isOutput_congr (hdir ho)] at hout
  rw [isOutput_congr (hdir ho')] at hout'
  exact h ho ho' hout hout'

theorem PlainAt.shrink (h : g.PlainAt n) (hsub : ∀ {c}, c ∈ g'.connsOf n → c ∈ g.connsOf n)
    (hdir : ∀ {c}, c ∈ g.connsOf n → g'.directionOf? c = g.directionOf? c) : g'.PlainAt n := by
  intro c hc
  have hc := hsub hc
  rw [isInput_congr (hdir hc), isOutput_congr (hdir hc)]
  exact h hc

theorem RegularAt.shrink (h : g.RegularAt n) (hk : g'.kindOf? n = g.kindOf? n)
    (hsub : ∀ {c}, c ∈ g'.connsOf n → c ∈ g.connsOf n)
    (hdir : ∀ {c}, c ∈ g.connsOf n → g'.directionOf? c = g.directionOf? c) : g'.RegularAt n :=
  ⟨h.lone.shrink hsub hdir, fun hpin => (h.plain (hk ▸ hpin)).shrink hsub hdir, fun hc _ hmem =>
    (isSink_congr (hdir (hsub hmem))).trans (h.silent (hk ▸ hc) (hsub hmem))⟩

/-- A step keeps the shape of the nodes if every node either gets no connection or is of regular
shape afterwards. -/
theorem Tidy.of_nodes {K : NodeKind → Bool} (hg : g.Tidy K) (hs : g'.Sound)
    (hdir : ∀ {c}, (g.conn? c).isSome → g'.directionOf? c = g.directionOf? c)
    (h : ∀ n, (g'.kindOf? n = g.kindOf? n ∧ ∀ c ∈ g'.connsOf n, c ∈ g.connsOf n) ∨
      g'.RegularAt n) : g'.Tidy K where
  toSound := hs
  regular {n} hk := by
    rcases h n with ⟨hkind, hsub⟩ | hreg
    · have hreg := hg.regular (by rwa [hasKind, ← hkind])
      exact hreg.shrink hkind (hsub _) fun hc => hdir (hg.conn_isSome hc)
    · exact hreg

/-! ## Edits of names and marks -/

/-- `g'` is `g` up to the names of nodes and connections and up to the marks of what was taken
over. -/
structure Alike (g g' : Network) : Prop where
  kindOf? : ∀ n, g'.kindOf? n = g.kindOf? n
  constantOf? : ∀ n, g'.constantOf? n = g.constantOf? n
  connsOf : ∀ n, g'.connsOf n = g.connsOf n
  directionOf? : ∀ c, g'.directionOf? c = g.directionOf? c
  ownerOf? : ∀ c, g'.ownerOf? c = g.ownerOf? c
  refsOf : ∀ c, g'.refsOf c = g.refsOf c
  cells : g'.cells = g.cells
  pins : g'.pins = g.pins
  pinNodes : g'.pinNodes = g.pinNodes
  names : g'.pinNodeNames = g.pinNodeNames

namespace Alike

theorem refl (g : Network) : Alike g g :=
  ⟨fun _ => rfl, fun _ => rfl, fun _ => rfl, fun _ => rfl, fun _ => rfl, fun _ => rfl, rfl, rfl, rfl,
    rfl⟩

theorem trans (h : Alike g g') (h' : Alike g' g'') : Alike g g'' where
  kindOf? n := (h'.kindOf? n).trans (h.kindOf? n)
  constantOf? n := (h'.constantOf? n).trans (h.constantOf? n)
  connsOf n := (h'.connsOf n).trans (h.connsOf n)
  directionOf? c := (h'.directionOf? c).trans (h.directionOf? c)
  ownerOf? c := (h'.ownerOf? c).trans (h.ownerOf? c)
  refsOf c := (h'.refsOf c).trans (h.refsOf c)
  cells := h'.cells.trans h.cells
  pins := h'.pins.trans h.pins
  pinNodes := h'.pinNodes.trans h.pinNodes
  names := h'.names.trans h.names

theorem inUse (h : Alike g g') : g'.InUse n ↔ g.InUse n := by
  rw [InUse, InUse, h.cells, h.pins, h.pinNodes]

theorem isSink (h : Alike g g') (c : ConnId) : g'.isSink c = g.isSink c :=
  isSink_congr (h.directionOf? c)

theorem isOutput (h : Alike g g') (c : ConnId) : g'.isOutput c = g.isOutput c :=
  isOutput_congr (h.directionOf? c)

theorem sound (h : Alike g g') (hg : g.Sound) : g'.Sound :=
  hg.congr h.kindOf? h.connsOf h.directionOf? h.ownerOf? h.refsOf h.cells h.pins h.pinNodes

/-- A network that is alike comes after if the names that count are kept. -/
theorem evolves (h : Alike g g') (hname : ∀ n, g'.nodeNameOf? n = g.nodeNameOf? n)
    (hconn : ∀ {n c}, g.hasKind isNamed n = false → c ∈ g.connsOf n →
      g'.connNameOf? c = g.connNameOf? c) : Evolves g g' where
  kind _ := h.kindOf? _
  name _ := hname _
  constant _ := h.constantOf? _
  direction _ := h.directionOf? _
  attached _ hc := ⟨_, h.connsOf _ ▸ hc⟩
  inUse _ hu := by
    rw [InUse, h.cells, h.pins, h.pinNodes] at hu
    exact hu
  shrinks _ _ hc := h.connsOf _ ▸ hc
  connName _ hk _ hc := hconn hk (h.connsOf _ ▸ hc)
  names := Nat.le_of_eq h.names.symm

end Alike

/-- A change of the name of a connection. -/
theorem alike_modifyConn {f : Conn → Conn}
    (hf : ∀ y, (f y).owner = y.owner ∧ (f y).direction = y.direction ∧ (f y).refs = y.refs) :
    Alike g (g.modifyConn c f) where
  kindOf? _ := rfl
  constantOf? _ := rfl
  connsOf _ := rfl
  directionOf? d := by
    rw [directionOf?_def, conn?_modifyConn, directionOf?_def]
    split
    · cases g.conn? d <;> simp [hf]
    · rfl
  ownerOf? d := by
    rw [ownerOf?_def, conn?_modifyConn, ownerOf?_def]
    split
    · cases g.conn? d <;> simp [hf]
    · rfl
  refsOf d := by
    rw [refsOf_def, conn?_modifyConn, refsOf_def]
    split
    · cases g.conn? d <;> simp [hf]
    · rfl
  cells := rfl
  pins := rfl
  pinNodes := rfl
  names := rfl

/-- A change of the name of a node or of its mark. -/
theorem alike_modifyNode {f : Node → Node}
    (hf : ∀ y, (f y).kind = y.kind ∧ (f y).constant = y.constant ∧ (f y).conns = y.conns) :
    Alike g (g.modifyNode n f) where
  kindOf? m := by
    rw [kindOf?_def, node?_modifyNode, kindOf?_def]
    split
    · cases g.node? m <;> simp [hf]
    · rfl
  constantOf? m := by
    rw [constantOf?, node?_modifyNode, constantOf?]
    split
    · cases g.node? m <;> simp [hf]
    · rfl
  connsOf m := by
    rw [connsOf_def, node?_modifyNode, connsOf_def]
    split
    · cases g.node? m <;> simp [hf]
    · rfl
  directionOf? _ := rfl
  ownerOf? _ := rfl
  refsOf _ := rfl
  cells := rfl
  pins := rfl
  pinNodes := rfl
  names := rfl

theorem alike_renameConn (s : String) : Alike g (g.renameConn c s) :=
  alike_modifyConn fun _ => ⟨rfl, rfl, rfl⟩

theorem connNameOf?_renameConn_of_ne (s : String) (h : x ≠ c) :
    (g.renameConn c s).connNameOf? x = g.connNameOf? x := by
  rw [connNameOf?, renameConn, conn?_modifyConn, if_neg h, connNameOf?]

theorem connNameOf?_renameConn_self (s : String) (h : (g.conn? c).isSome) :
    (g.renameConn c s).connNameOf? c = some s := by
  obtain ⟨y, hy⟩ := Option.isSome_iff_exists.mp h
  rw [connNameOf?, renameConn, conn?_modifyConn, if_pos rfl, hy]
  rfl

theorem alike_renameNode (s : String) : Alike g (g.renameNode n s) :=
  alike_modifyNode fun _ => ⟨rfl, rfl, rfl⟩

theorem nodeNameOf?_absorb (a : Absorbed) : (g.absorb n a).nodeNameOf? m = g.nodeNameOf? m := by
  rw [nodeNameOf?, absorb, node?_modifyNode, nodeNameOf?]
  split
  · cases g.node? m <;> rfl
  · rfl

theorem absorbedOf_absorb (a : Absorbed) (hn : (g.node? n).isSome) :
    (g.absorb n a).absorbedOf m = if m = n then (g.absorbedOf m).union a else g.absorbedOf m := by
  rw [absorbedOf, absorb, node?_modifyNode, absorbedOf]
  split
  · rename_i hm
    subst hm
    obtain ⟨y, hy⟩ := Option.isSome_iff_exists.mp hn
    simp [hy]
  · rfl

theorem alike_absorb (a : Absorbed) : Alike g (g.absorb n a) :=
  alike_modifyNode fun _ => ⟨rfl, rfl, rfl⟩

/-- `g'` is `g` up to the names of nodes and connections. -/
structure Relabels (g g' : Network) : Prop where
  alike : Alike g g'
  absorbedOf : ∀ n, g'.absorbedOf n = g.absorbedOf n
  top : g'.top = g.top

theorem Relabels.refl (g : Network) : Relabels g g :=
  ⟨.refl g, fun _ => rfl, rfl⟩

theorem Relabels.trans (h : Relabels g g') (h' : Relabels g' g'') : Relabels g g'' :=
  ⟨h.alike.trans h'.alike, fun n => (h'.absorbedOf n).trans (h.absorbedOf n), h'.top.trans h.top⟩

theorem relabels_renameNode (s : String) : Relabels g (g.renameNode n s) where
  alike := alike_renameNode s
  absorbedOf m := by
    rw [Network.absorbedOf, renameNode, node?_modifyNode, Network.absorbedOf]
    split
    · cases g.node? m <;> rfl
    · rfl
  top := rfl

theorem relabels_renameConn (s : String) : Relabels g (g.renameConn c s) :=
  ⟨alike_renameConn s, fun _ => rfl, rfl⟩

end PldSynth.Network
