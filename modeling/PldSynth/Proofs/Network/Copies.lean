import PldSynth.Network.Budget
import PldSynth.Proofs.Network.Retirement

/-!
# Copies of nodes

The copy of a node is a new cell of the same kind with new connections that face as the old ones do
(`Twin`). All records that were there stay as they are. `Copies` says so for a list of nodes, and
`Copies.wired` what the wires of the copies are afterwards: a copied connection reads the copy of its
driver if the driver was copied, and the driver itself if it was not.
-/

namespace PldSynth.Network

open Attempt List

variable {g g' g1 g2 : Network} {n m : NodeId} {c c' d x : ConnId} {e : NodeId} {y : Node}
  {cs : List ConnId} {p : NodeId × NodeId} {q' : ConnId × ConnId} {copies : List (NodeId × NodeId)}
  {f : ConnId → List ConnId → List ConnId}

/-! ## The connections of one copy -/

/-- `c'` is a new connection without wires that faces as `c` does. -/
structure Twin (g g' : Network) (c c' : ConnId) : Prop where
  old : (g.conn? c).isSome
  new : g.conn? c' = none
  direction : g'.directionOf? c' = g.directionOf? c
  unwired : g'.refsOf c' = []

/-- `g'` is `g` with the new connections `new` at the node `m`, twins of `cs`. -/
structure CopiesConns (m : NodeId) (cs new : List ConnId) (g g' : Network) : Prop where
  sound : g'.Sound
  conn? : ∀ {c}, (g.conn? c).isSome → g'.conn? c = g.conn? c
  node? : ∀ {n}, n ≠ m → g'.node? n = g.node? n
  self : g'.node? m = (g.node? m).map fun y => { y with conns := y.conns ++ new }
  twins : List.Forall₂ (Twin g g') cs new
  only : ∀ {c}, (g'.conn? c).isSome → (g.conn? c).isSome ∨ c ∈ new
  cells : g'.cells = g.cells
  pins : g'.pins = g.pins
  pinNodes : g'.pinNodes = g.pinNodes
  names : g'.pinNodeNames = g.pinNodeNames

theorem Twin.later (h : Twin g g1 c c') (hc : g'.conn? c' = g1.conn? c') : Twin g g' c c' where
  old := h.old
  new := h.new
  direction := by rw [directionOf?_def, hc, ← directionOf?_def, h.direction]
  unwired := by rw [refsOf_def, hc, ← refsOf_def, h.unwired]

theorem Twin.isSome (h : Twin g g' c c') : (g'.conn? c').isSome := by
  rw [← isSome_directionOf?, h.direction, isSome_directionOf?]
  exact h.old

theorem Twin.earlier (h : Twin g1 g' c c') (hold : (g.conn? c).isSome)
    (hc : ∀ {c}, (g.conn? c).isSome → g1.conn? c = g.conn? c) : Twin g g' c c' where
  old := hold
  new := by
    by_contra hne
    have hs := Option.isSome_iff_ne_none.mpr hne
    have hnew := h.new
    rw [hc hs] at hnew
    exact hne hnew
  direction := by rw [h.direction, directionOf?_def, hc hold, ← directionOf?_def]
  unwired := h.unwired

/-- Twins in a network that has all connections of `g` are new for `g` too. -/
theorem twins_earlier {new : List ConnId} (h : List.Forall₂ (Twin g1 g') cs new)
    (hcs : ∀ c ∈ cs, (g.conn? c).isSome) (hc : ∀ {c}, (g.conn? c).isSome → g1.conn? c = g.conn? c) :
    List.Forall₂ (Twin g g') cs new := by
  rw [forall₂_iff_zip] at h ⊢
  exact ⟨h.1, fun hz => (h.2 hz).earlier (hcs _ (of_mem_zip hz).1) hc⟩

/-- Connections can be copied one after the other. -/
theorem exists_copiesConns (hg : g.Sound) (hm : (g.node? m).isSome) (hu : g.InUse m)
    (hcs : ∀ c ∈ cs, (g.conn? c).isSome) :
    ∃ g' new, cs.foldlM (copyConn m) g = .ok g' ∧ CopiesConns m cs new g g' := by
  induction cs generalizing g with
  | nil =>
    exact ⟨g, [], rfl, hg, fun _ => rfl, fun _ => rfl, by simp, .nil, fun hc => .inl hc, rfl, rfl, rfl, rfl⟩
  | cons c cs ih =>
    have hc : (g.conn? c).isSome := hcs c mem_cons_self
    obtain ⟨y, hy⟩ := Option.isSome_iff_exists.mp hc
    -- the copy is attached first and the rest of the list comes after it
    have hold : ∀ {x}, (g.conn? x).isSome →
        (g.attach m y.name y.direction).2.conn? x = g.conn? x := fun hx => by
      rw [conn?_attach, if_neg (ne_nextConn hx)]
    have hm1 : ((g.attach m y.name y.direction).2.node? m).isSome := by
      simpa using hm
    have hnew : Twin g (g.attach m y.name y.direction).2 c g.nextConn := by
      refine ⟨hc, conn?_nextConn, ?_, by rw [refsOf_attach, refsOf_nextConn]⟩
      rw [directionOf?_attach, if_pos rfl, directionOf?_def, hy]
      rfl
    have hcs1 : ∀ x ∈ cs, ((g.attach m y.name y.direction).2.conn? x).isSome := fun x hx => by
      have hx := hcs x (mem_cons_of_mem c hx)
      rwa [hold hx]
    obtain ⟨g', new, hrest, hrec⟩ := ih (hg.attach _ _ hm hu) hm1 hu hcs1
    have hrun : (c :: cs).foldlM (copyConn m) g = .ok g' :=
      foldlM_cons_eq_ok.mpr ⟨_, bind_eq_ok.mpr ⟨y, conn_eq_ok.mpr hy, rfl⟩, hrest⟩
    refine ⟨g', g.nextConn :: new, hrun, hrec.sound, fun {x} hx => ?_, fun {n} hn => ?_, ?_, .cons ?_ ?_,
      fun {x} hx => ?_, hrec.cells, hrec.pins, hrec.pinNodes, hrec.names⟩
    · rw [hrec.conn? (by rwa [hold hx]), hold hx]
    · rw [hrec.node? hn, node?_attach, if_neg hn]
    · rw [hrec.self, node?_attach]
      simp [Function.comp_def]
    · exact hnew.later (hrec.conn? hnew.isSome)
    · exact twins_earlier hrec.twins (fun x hx => hcs x (mem_cons_of_mem c hx)) hold
    · rcases hrec.only hx with hx | hx
      · rw [conn?_attach] at hx
        split at hx
        · rename_i hxn
          exact .inr (hxn ▸ mem_cons_self)
        · exact .inl hx
      · exact .inr (mem_cons_of_mem _ hx)

/-! ## One copy -/

/-- `g'` is `g` with the new cell `m`, a copy of `n`. -/
structure CopiesNode (n m : NodeId) (g g' : Network) : Prop where
  sound : g'.Sound
  conn? : ∀ {c}, (g.conn? c).isSome → g'.conn? c = g.conn? c
  node? : ∀ {e}, e ≠ m → g'.node? e = g.node? e
  new : g.node? m = none
  kind : g'.kindOf? m = g.kindOf? n
  constant : g'.constantOf? m = g.constantOf? n
  absorbed : g'.absorbedOf m = .nothing
  twins : List.Forall₂ (Twin g g') (g.connsOf n) (g'.connsOf m)
  onlyConns : ∀ {c}, (g'.conn? c).isSome → (g.conn? c).isSome ∨ c ∈ g'.connsOf m
  cells : g'.cells = g.cells ++ [m]
  pins : g'.pins = g.pins
  pinNodes : g'.pinNodes = g.pinNodes
  names : g'.pinNodeNames = g.pinNodeNames

theorem CopiesNode.ne (h : CopiesNode n m g g') (he : (g.node? e).isSome) : e ≠ m := by
  rintro rfl
  simp [h.new] at he

/-- The cell that a copy starts from: its node with no connections yet. -/
def addCopy (g : Network) (y : Node) : Network :=
  (g.addCell y.name y.kind).2.modifyNode g.nextNode fun z => { z with constant := y.constant }

theorem node?_addCopy : (g.addCopy y).node? e = if e = g.nextNode then
    some { name := y.name, kind := y.kind, constant := y.constant } else g.node? e := by
  rw [addCopy, node?_modifyNode, node?_addCell]
  split
  · rfl
  · rfl

theorem isSome_addCopy : ((g.addCopy y).node? g.nextNode).isSome := by
  rw [node?_addCopy, if_pos rfl]
  rfl

theorem inUse_addCopy : (g.addCopy y).InUse g.nextNode :=
  .inr (.inl (mem_append_right _ mem_cons_self))

theorem Sound.addCopy (hg : g.Sound) (hcell : y.kind.isCell) : (g.addCopy y).Sound := by
  have hgrow := grows_addCell (g := g) y.name y.kind
  apply (hg.addCell y.name hcell).congr
  · intro e
    rw [kindOf?_def, node?_addCopy, hgrow.kindOf?]
    split <;> rfl
  · intro e
    rw [connsOf_def, node?_addCopy, hgrow.connsOf, connsOf_def]
    split
    · rename_i he
      simp [he]
    · rfl
  all_goals intros; rfl

/-- A cell can be copied. -/
theorem exists_copiesNode (hg : g.Sound) (hcell : g.hasKind NodeKind.isCell n) :
    ∃ r, g.copyNode n = .ok r ∧ CopiesNode n r.1 g r.2 := by
  obtain ⟨y, hy⟩ := Option.isSome_iff_exists.mp (isSome_of_hasKind hcell)
  have hkind : y.kind.isCell := by
    obtain ⟨k, hk, hcell⟩ := hasKind_iff.mp hcell
    rw [kindOf?_def, hy] at hk
    exact Option.some.inj hk ▸ hcell
  have hconns : g.connsOf n = y.conns := connsOf_of_node? hy
  have hcs : ∀ c ∈ y.conns, (g.conn? c).isSome := fun c hc => hg.conn_isSome (hconns ▸ hc)
  obtain ⟨g', new, hloop, hcopy⟩ :=
    exists_copiesConns (hg.addCopy hkind) isSome_addCopy inUse_addCopy hcs
  have hself : g'.node? g.nextNode = some
      { name := y.name, kind := y.kind, constant := y.constant, conns := new } := by
    rw [hcopy.self, node?_addCopy, if_pos rfl]
    rfl
  refine ⟨(g.nextNode, g'), bind_eq_ok.mpr ⟨y, node_eq_ok.mpr hy, bind_eq_ok.mpr ⟨g', hloop, rfl⟩⟩, ?_⟩
  exact {
    sound := hcopy.sound
    conn? := hcopy.conn?
    node? := fun he => by rw [hcopy.node? he, node?_addCopy, if_neg he]
    new := node?_nextNode
    kind := by rw [kindOf?_def, hself, kindOf?_def, hy]; rfl
    constant := by rw [constantOf?, hself, constantOf?, hy]; rfl
    absorbed := by rw [absorbedOf, hself]; rfl
    twins := by
      rw [hconns, connsOf_of_node? hself]
      exact twins_earlier hcopy.twins hcs fun _ => rfl
    onlyConns := fun hc => by rw [connsOf_of_node? hself]; exact hcopy.only hc
    cells := hcopy.cells
    pins := hcopy.pins
    pinNodes := hcopy.pinNodes
    names := hcopy.names }

/-! ## Copies of several nodes -/

/-- `g'` is `g` with copies of nodes: each pair of `copies` is a node and its copy. -/
structure Copies (copies : List (NodeId × NodeId)) (g g' : Network) : Prop where
  sound : g'.Sound
  conn? : ∀ {c}, (g.conn? c).isSome → g'.conn? c = g.conn? c
  node? : ∀ {n}, (g.node? n).isSome → g'.node? n = g.node? n
  old : ∀ p ∈ copies, (g.node? p.1).isSome
  new : ∀ p ∈ copies, g.node? p.2 = none
  kind : ∀ p ∈ copies, g'.kindOf? p.2 = g.kindOf? p.1
  constant : ∀ p ∈ copies, g'.constantOf? p.2 = g.constantOf? p.1
  absorbed : ∀ p ∈ copies, g'.absorbedOf p.2 = .nothing
  twins : ∀ p ∈ copies, List.Forall₂ (Twin g g') (g.connsOf p.1) (g'.connsOf p.2)
  nodup : (copies.map Prod.snd).Nodup
  onlyConns : ∀ {c}, (g'.conn? c).isSome → (g.conn? c).isSome ∨ ∃ p ∈ copies, c ∈ g'.connsOf p.2
  onlyNodes : ∀ {n}, (g'.node? n).isSome → (g.node? n).isSome ∨ n ∈ copies.map Prod.snd
  cells : g'.cells = g.cells ++ copies.map Prod.snd
  pins : g'.pins = g.pins
  pinNodes : g'.pinNodes = g.pinNodes
  names : g'.pinNodeNames = g.pinNodeNames

namespace Copies

variable {copies : List (NodeId × NodeId)}

theorem refl (hg : g.Sound) : Copies [] g g where
  sound := hg
  conn? _ := rfl
  node? _ := rfl
  old _ hp := nomatch hp
  new _ hp := nomatch hp
  kind _ hp := nomatch hp
  constant _ hp := nomatch hp
  absorbed _ hp := nomatch hp
  twins _ hp := nomatch hp
  nodup := nodup_nil
  onlyConns hc := .inl hc
  onlyNodes hn := .inl hn
  cells := by simp
  pins := rfl
  pinNodes := rfl
  names := rfl

theorem connsOf_old (h : Copies copies g g') (hn : (g.node? n).isSome) : g'.connsOf n = g.connsOf n := by
  rw [connsOf_def, h.node? hn, ← connsOf_def]

theorem hasKind_old (h : Copies copies g g') {p : NodeKind → Bool} (hn : (g.node? n).isSome) :
    g'.hasKind p n = g.hasKind p n := by
  rw [hasKind, kindOf?_def, h.node? hn, ← kindOf?_def, ← hasKind]

theorem isSome_new (h : Copies copies g g') (hp : p ∈ copies) : (g'.node? p.2).isSome := by
  rw [← isSome_kindOf?, h.kind p hp, isSome_kindOf?]
  exact h.old p hp

/-- One more copy. -/
theorem snoc (hc : Copies copies g g1) (hg : g.Sound) (hn : (g.node? n).isSome)
    (h : CopiesNode n m g1 g') : Copies (copies ++ [(n, m)]) g g' := by
  -- the new copy has a fresh handle, so earlier copies stay as they are
  have hpne : ∀ p ∈ copies, p.2 ≠ m := fun p hp => h.ne (hc.isSome_new hp)
  have hnew : ∀ {e}, (g.node? e).isSome → e ≠ m := fun {e} he => h.ne (by rwa [hc.node? he])
  have hpconns : ∀ p ∈ copies, g'.connsOf p.2 = g1.connsOf p.2 := fun p hp => by
    rw [connsOf_def, h.node? (hpne p hp), ← connsOf_def]
  exact {
    sound := h.sound
    conn? := fun {c} hs => by rw [h.conn? (by rwa [hc.conn? hs]), hc.conn? hs]
    node? := fun {e} he => by rw [h.node? (hnew he), hc.node? he]
    old := forall_mem_snoc hc.old hn
    new := forall_mem_snoc hc.new (Option.not_isSome_iff_eq_none.mp fun hs => hnew hs rfl)
    kind := by
      refine forall_mem_snoc (fun p hp => ?_) ?_
      · rw [kindOf?_def, h.node? (hpne p hp), ← kindOf?_def, hc.kind p hp]
      · rw [h.kind, kindOf?_def, hc.node? hn, ← kindOf?_def]
    constant := by
      refine forall_mem_snoc (fun p hp => ?_) ?_
      · rw [constantOf?, h.node? (hpne p hp), ← constantOf?, hc.constant p hp]
      · rw [h.constant, constantOf?, hc.node? hn, ← constantOf?]
    absorbed := by
      refine forall_mem_snoc (fun p hp => ?_) h.absorbed
      rw [absorbedOf, h.node? (hpne p hp), ← absorbedOf, hc.absorbed p hp]
    twins := by
      refine forall_mem_snoc (fun p hp => ?_) ?_
      · rw [hpconns p hp]
        exact (hc.twins p hp).imp fun a b hab => hab.later (h.conn? hab.isSome)
      · have htw := h.twins
        rw [hc.connsOf_old hn] at htw
        exact twins_earlier htw (fun c hcn => hg.conn_isSome hcn) hc.conn?
    nodup := by
      rw [map_append]
      refine nodup_append.mpr ⟨hc.nodup, nodup_singleton _, ?_⟩
      intro a ha b hb
      obtain ⟨p, hp, rfl⟩ := mem_map.mp ha
      rw [mem_singleton.mp hb]
      exact hpne p hp
    onlyConns := fun {c} hs => by
      rcases h.onlyConns hs with hs | hs
      · rcases hc.onlyConns hs with hs | ⟨p, hp, hcp⟩
        · exact .inl hs
        · exact .inr ⟨p, mem_append_left _ hp, (hpconns p hp).symm ▸ hcp⟩
      · exact .inr ⟨(n, m), by simp, hs⟩
    onlyNodes := fun {e} he => by
      by_cases hem : e = m
      · exact .inr (by simp [hem])
      · rw [h.node? hem] at he
        rcases hc.onlyNodes he with he | he
        · exact .inl he
        · exact .inr (by rw [map_append]; exact mem_append_left _ he)
    cells := by rw [h.cells, hc.cells, map_append, append_assoc]; rfl
    pins := h.pins.trans hc.pins
    pinNodes := h.pinNodes.trans hc.pinNodes
    names := h.names.trans hc.names }

end Copies

theorem exists_copies {ns : List NodeId} (hg : g.Sound) (hns : ∀ n ∈ ns, g.hasKind NodeKind.isCell n) :
    ∃ r, g.copyNodes ns = .ok r ∧ Copies r.1 g r.2 ∧ r.1.map Prod.fst = ns := by
  refine (Ends.foldlM_inits (P := fun pre (s : List (NodeId × NodeId) × Network) =>
    Copies s.1 g s.2 ∧ s.1.map Prod.fst = pre) ?_ ⟨.refl hg, rfl⟩).exists_result
  rintro pre n post ⟨copies, g1⟩ hl ⟨hc, hkeys⟩
  have hcell : g.hasKind NodeKind.isCell n := hns n (by simp [hl])
  have hn := isSome_of_hasKind hcell
  have hcell1 : g1.hasKind NodeKind.isCell n := by rwa [hc.hasKind_old hn]
  obtain ⟨⟨copy, g2⟩, hcopy, hnode⟩ := exists_copiesNode hc.sound hcell1
  exact .inl ⟨_, bind_eq_ok.mpr ⟨_, hcopy, rfl⟩, hc.snoc hg hn hnode, by simpa using hkeys⟩

/-! ## Connections and their twins -/

/-- Every connection of a copied node with its twin. -/
def twinPairs (copies : List (NodeId × NodeId)) (g g' : Network) : List (ConnId × ConnId) :=
  copies.flatMap fun p => (g.connsOf p.1).zip (g'.connsOf p.2)

/-- What a copy reads where `d` was read: the twin of `d`, or `d` itself if it has none. -/
def Image (twins : List (ConnId × ConnId)) (d d' : ConnId) : Prop :=
  (d, d') ∈ twins ∨ d' = d ∧ d ∉ twins.map Prod.fst

namespace Copies

variable {copies : List (NodeId × NodeId)} {q : ConnId × ConnId}

theorem mem_twinPairs (h : Copies copies g g') (hq : q ∈ twinPairs copies g g') :
    ∃ p ∈ copies, q.1 ∈ g.connsOf p.1 ∧ q.2 ∈ g'.connsOf p.2 ∧ Twin g g' q.1 q.2 := by
  obtain ⟨p, hp, hz⟩ := mem_flatMap.mp hq
  obtain ⟨h1, h2⟩ := of_mem_zip hz
  exact ⟨p, hp, h1, h2, forall₂_zip (h.twins p hp) hz⟩

theorem map_snd_zip_twins (h : Copies copies g g') (hp : p ∈ copies) :
    ((g.connsOf p.1).zip (g'.connsOf p.2)).map Prod.snd = g'.connsOf p.2 := by
  rw [map_snd_zip]
  exact Nat.le_of_eq (h.twins p hp).length_eq.symm

/-- No connection is the twin of two. -/
theorem nodup_twins (h : Copies copies g g') : ((twinPairs copies g g').map Prod.snd).Nodup := by
  have heq : (twinPairs copies g g').map Prod.snd = (copies.map Prod.snd).flatMap g'.connsOf := by
    rw [twinPairs, map_flatMap, flatMap_map]
    exact flatMap_congr fun p hp => h.map_snd_zip_twins hp
  rw [heq, nodup_flatMap]
  refine ⟨fun n _ => h.sound.nodup_conns n, h.nodup.imp ?_⟩
  intro a b hab x hx hx'
  exact hab (h.sound.eq_of_mem hx hx')

theorem eq_of_twins (h : Copies copies g g')
    (hq : q ∈ twinPairs copies g g') (hq' : q' ∈ twinPairs copies g g') (heq : q.2 = q'.2) : q = q' :=
  inj_on_of_nodup_map h.nodup_twins hq hq' heq

/-- No connection has two twins, if no node was copied twice. -/
theorem eq_of_origins (h : Copies copies g g') (hg : g.Owned) (hnd : (copies.map Prod.fst).Nodup)
    (hq : q ∈ twinPairs copies g g') (hq' : q' ∈ twinPairs copies g g') (heq : q.1 = q'.1) : q = q' := by
  obtain ⟨p, hp, hz⟩ := mem_flatMap.mp hq
  obtain ⟨p', hp', hz'⟩ := mem_flatMap.mp hq'
  have hnode : p.1 = p'.1 := hg.eq_of_mem (of_mem_zip hz).1 (heq ▸ (of_mem_zip hz').1)
  obtain rfl := inj_on_of_nodup_map hnd hp hp' hnode
  have hfst : (((g.connsOf p.1).zip (g'.connsOf p.2)).map Prod.fst).Nodup := by
    rw [map_fst_zip (Nat.le_of_eq (h.twins p hp).length_eq)]
    exact hg.nodup_conns p.1
  exact inj_on_of_nodup_map hfst hz hz' heq

/-- A connection that was there is no twin. -/
theorem not_twin (h : Copies copies g g') (hc : (g.conn? c).isSome) :
    c ∉ (twinPairs copies g g').map Prod.snd := by
  intro hmem
  obtain ⟨q, hq, rfl⟩ := mem_map.mp hmem
  obtain ⟨p, -, -, -, ht⟩ := h.mem_twinPairs hq
  simp [ht.new] at hc

end Copies

/-- What a copy may read where `d` was read: an output of the copy of its node, or `d` itself if its node
was not copied. -/
def Echoes (copies : List (NodeId × NodeId)) (g g' : Network) (d d' : ConnId) : Prop :=
  (∃ p ∈ copies, d ∈ g.connsOf p.1 ∧ d' ∈ g'.connsOf p.2 ∧ g'.isOutput d' = true) ∨
    d' = d ∧ ∀ p ∈ copies, d ∉ g.connsOf p.1

/-- A node that was not copied shares no connection with those that were. -/
theorem Owned.uncopied (hg : g.Owned) (hd : d ∈ g.connsOf n)
    (hn : copies.lookup n = none) : ∀ p ∈ copies, d ∉ g.connsOf p.1 := by
  intro p hp hdp
  rw [lookup_eq_none_iff] at hn
  exact absurd (hg.eq_of_mem hd hdp) (by simpa using hn p hp)

/-- The output of a copy is the twin of the only output of the node. -/
theorem Echoes.image {d' : ConnId} (h : Echoes copies g g' d d')
    (hc : Copies copies g g') (hlone : ∀ p ∈ copies, g.LoneAt p.1) (hout : g.isOutput d) :
    Image (twinPairs copies g g') d d' := by
  rcases h with ⟨p, hp, hd, hd', hout'⟩ | ⟨rfl, hnot⟩
  · rw [← hc.map_snd_zip_twins hp, mem_map] at hd'
    obtain ⟨⟨x, _⟩, hz, rfl⟩ := hd'
    have hx : g.isOutput x := by
      rwa [isOutput, (forall₂_zip (hc.twins p hp) hz).direction] at hout'
    rw [hlone p hp hd (of_mem_zip hz).1 hout hx]
    exact .inl (mem_flatMap.mpr ⟨p, hp, hz⟩)
  · refine .inr ⟨rfl, fun hmem => ?_⟩
    obtain ⟨q, hq, rfl⟩ := mem_map.mp hmem
    obtain ⟨p, hp, hqp, -⟩ := hc.mem_twinPairs hq
    exact hnot p hp hqp

/-! ## The wires of the copies -/

/-- After the connections in `done` were wired: a twin reads the copy of what the old connection
reads, or the same; all else that can be driven is as it was. -/
structure WiresTwins (copies : List (NodeId × NodeId)) (done : List (ConnId × ConnId))
    (g g1 g2 : Network) : Prop where
  sound : g2.Sound
  rewires : ∃ f, Rewires f g1 g2
  sub : ∀ q ∈ done, q ∈ twinPairs copies g g1
  empty : ∀ q ∈ done, g.isSink q.1 = true → g.refsOf q.1 = [] → g2.refsOf q.2 = []
  wired : ∀ q ∈ done, g.isSink q.1 = true → ∀ d, g.refsOf q.1 = [d] →
    ∃ d', Echoes copies g g1 d d' ∧ g2.refsOf q.2 = [d']
  rest : ∀ x, g1.isSink x = true → x ∉ done.map Prod.snd → g2.refsOf x = g1.refsOf x

/-- None of the nodes reads the pin node `pn`. -/
def Apart (pn : NodeId) (ns : List NodeId) (g : Network) : Prop :=
  ∀ n ∈ ns, ∀ c ∈ g.connsOf n, g.isSink c = true → ∀ d ∈ g.refsOf c, g.ownerOf? d ≠ some pn

/-- What is needed for copies that have the values of their nodes: a copied node has one output at most
and does not read the pin node that goes. -/
structure Separate (pn : NodeId) (ns : List NodeId) (g : Network) : Prop where
  lone : ∀ n ∈ ns, g.LoneAt n
  apart : Apart pn ns g

section Wire

variable {copies : List (NodeId × NodeId)} {pn : NodeId} {consumer : ConnId}
  {done : List (ConnId × ConnId)} {q : ConnId × ConnId}
variable (hg : g.Sound) (hc : Copies copies g g1) (hsep : Apart pn (copies.map Prod.fst) g)
include hc

/-- The copy of a node with an output has one too. -/
theorem Copies.exists_output (hf : Rewires f g1 g2) (hp : p ∈ copies) (hd : d ∈ g.connsOf p.1)
    (hout : g.isOutput d) : ∃ d', g2.output? p.2 = .ok (some d') ∧ Echoes copies g g1 d d' := by
  have hfound : ((g2.connsOf p.2).find? g2.isOutput).isSome := by
    obtain ⟨d', hd', htwin⟩ := exists_right_of_forall₂ (hc.twins p hp) hd
    rw [find?_isSome]
    refine ⟨d', by rwa [hf.connsOf], ?_⟩
    rw [isOutput, hf.directionOf?, htwin.direction]
    exact hout
  obtain ⟨d', hfind⟩ := Option.isSome_iff_exists.mp hfound
  have hnode : (g2.node? p.2).isSome := by
    rw [Edit.Applies.node?_isSome hf]
    exact hc.isSome_new hp
  refine ⟨d', output?_eq_ok.mpr ⟨hnode, hfind⟩, ?_⟩
  rw [hf.connsOf] at hfind
  refine .inl ⟨p, hp, hd, mem_of_find?_eq_some hfind, ?_⟩
  rw [← isOutput_congr hf.directionOf?]
  exact find?_some hfind

include hg hsep in
/-- What the copy of a connection reads. There is something to read, since what is copied does not read
the pin node. -/
theorem exists_copiedSource? (hf : Rewires f g1 g2) (hq : q ∈ twinPairs copies g g1) (hs : g.isSink q.1)
    (hd : d ∈ g.refsOf q.1) :
    ∃ d', g2.copiedSource? copies pn consumer d = .ok (some d') ∧ Echoes copies g g1 d d' := by
  obtain ⟨p, hp, hq1, -, -⟩ := hc.mem_twinPairs hq
  obtain ⟨m, hm⟩ := hg.listed (hg.mirror hd)
  have hown : g2.ownerOf? d = some m := by
    rw [hf.ownerOf?, ownerOf?_def, hc.conn? (hg.conn_isSome hm)]
    exact hg.owner hm
  simp only [copiedSource?, owner_eq_ok.mpr hown, ok_bind]
  split
  · rename_i copy hlook
    have hmem : (m, copy) ∈ copies := by
      obtain ⟨l, l', hl, -⟩ := lookup_eq_some_iff.mp hlook
      simp [hl]
    exact hc.exists_output hf hmem hm (hg.output_of_sink hd hs)
  · rename_i hlook
    have hne : m ≠ pn := by
      rintro rfl
      exact hsep p.1 (mem_map.mpr ⟨p, hp, rfl⟩) q.1 hq1 hs d hd (hg.owner hm)
    rw [if_neg hne]
    exact ⟨d, rfl, .inr ⟨rfl, hg.toOwned.uncopied hm hlook⟩⟩

/-- What a copy reads is an output of some node. -/
theorem echoes_spec (hf : Rewires f g1 g2)
    (hout : g.isOutput d) (hl : ∃ n, d ∈ g.connsOf n) (h : Echoes copies g g1 d c') :
    g2.isOutput c' ∧ ∃ n, c' ∈ g2.connsOf n := by
  rcases h with ⟨p, -, -, hc', hout'⟩ | ⟨rfl, -⟩
  · refine ⟨?_, p.2, by rwa [hf.connsOf]⟩
    rw [isOutput_congr hf.directionOf?]
    exact hout'
  · obtain ⟨n, hn⟩ := hl
    have hs := isSome_of_isOutput hout
    refine ⟨?_, n, by rwa [hf.connsOf, hc.connsOf_old (isSome_of_mem_connsOf hn)]⟩
    rw [isOutput, hf.directionOf?, directionOf?_def, hc.conn? hs, ← directionOf?_def, ← isOutput]
    exact hout

theorem WiresTwins.isSink_twin (hw : WiresTwins copies done g g1 g2)
    (hq : q ∈ twinPairs copies g g1) : g2.isSink q.2 = g.isSink q.1 := by
  obtain ⟨f, hf⟩ := hw.rewires
  obtain ⟨p, -, -, -, ht⟩ := hc.mem_twinPairs hq
  rw [isSink, hf.directionOf?, ht.direction, ← isSink]

theorem WiresTwins.directionOf?_old (hw : WiresTwins copies done g g1 g2)
    (hx : (g.conn? x).isSome) : g2.directionOf? x = g.directionOf? x := by
  obtain ⟨f, hf⟩ := hw.rewires
  rw [hf.directionOf?, directionOf?_def, hc.conn? hx, ← directionOf?_def]

/-- What was there reads what it read. -/
theorem WiresTwins.refsOf_old (hw : WiresTwins copies done g g1 g2)
    (hs : g.isSink x) : g2.refsOf x = g.refsOf x := by
  have hx := isSome_of_isSink hs
  have hnot : x ∉ done.map Prod.snd := by
    intro hmem
    obtain ⟨e, he, heq⟩ := mem_map.mp hmem
    exact hc.not_twin hx (mem_map.mpr ⟨e, hw.sub e he, heq⟩)
  have hs1 : g1.isSink x := by
    rw [isSink, directionOf?_def, hc.conn? hx, ← directionOf?_def, ← isSink]
    exact hs
  rw [hw.rest x hs1 hnot, refsOf_def, hc.conn? hx, ← refsOf_def]

section Step

variable (hw : WiresTwins copies done g g1 g2) (hq : q ∈ twinPairs copies g g1)
  (hnew : q.2 ∉ done.map Prod.snd)
include hw hq hnew

/-- A twin whose turn has not come reads nothing. -/
theorem WiresTwins.refsOf_new (hs : g.isSink q.1) : g2.refsOf q.2 = [] := by
  obtain ⟨p, -, -, -, ht⟩ := hc.mem_twinPairs hq
  have hs1 : g1.isSink q.2 := by
    rw [isSink, ht.direction, ← isSink]
    exact hs
  rw [hw.rest q.2 hs1 hnew, ht.unwired]

/-- Nothing is wired if the connection is an output or reads nothing. -/
theorem WiresTwins.skip (hnil : g.isSink q.1 → g.refsOf q.1 = []) :
    WiresTwins copies (done ++ [q]) g g1 g2 where
  sound := hw.sound
  rewires := hw.rewires
  sub := forall_mem_snoc hw.sub hq
  empty := forall_mem_snoc hw.empty fun hs _ => hw.refsOf_new hc hq hnew hs
  wired := forall_mem_snoc hw.wired fun hs d hd => by
    rw [hnil hs] at hd
    cases hd
  rest x hx hnot := by
    rw [map_append, mem_append, not_or] at hnot
    exact hw.rest x hx hnot.1

include hg

/-- The twin gets a wire to `c'`, which it reads in place of what the connection reads. -/
theorem WiresTwins.wire (hs : g.isSink q.1) (hd : d ∈ g.refsOf q.1) (hecho : Echoes copies g g1 d c') :
    WiresTwins copies (done ++ [q]) g g1 (g2.wire q.2 c') := by
  obtain ⟨p, -, -, hq2, -⟩ := hc.mem_twinPairs hq
  obtain ⟨f, hf⟩ := hw.rewires
  obtain ⟨hout, hl⟩ :=
    echoes_spec hc hf (hg.output_of_sink hd hs) (hg.listed (hg.mirror hd)) hecho
  have hs2 : g2.isSink q.2 := (hw.isSink_twin hc hq).trans hs
  have hfree := hw.refsOf_new hc hq hnew hs
  have hself : (g2.wire q.2 c').refsOf q.2 = [c'] := by
    rw [refsOf_wire_sink hs2 hout hfree hs2, if_pos rfl]
  have hother : ∀ {y}, g2.isSink y → y ≠ q.2 →
      (g2.wire q.2 c').refsOf y = g2.refsOf y := by
    intro y hy hyq
    rw [refsOf_wire_sink hs2 hout hfree hy, if_neg hyq]
  -- the twins that were wired before keep their wires
  have hkeep : ∀ e ∈ done, g.isSink e.1 →
      (g2.wire q.2 c').refsOf e.2 = g2.refsOf e.2 := by
    intro e he hes
    apply hother ((hw.isSink_twin hc (hw.sub e he)).trans hes)
    exact fun heq => hnew (mem_map.mpr ⟨e, he, heq⟩)
  exact {
    sound := hw.sound.wire hs2 hout hfree ⟨p.2, by rwa [hf.connsOf]⟩ hl
    rewires := ⟨_, hf.trans (rewires_wire (ne_of_isSink hs2 hout))⟩
    sub := forall_mem_snoc hw.sub hq
    empty := by
      refine forall_mem_snoc (fun e he hes hnil => ?_) fun _ hnil => ?_
      · rw [hkeep e he hes]
        exact hw.empty e he hes hnil
      · rw [hnil] at hd
        cases hd
    wired := by
      refine forall_mem_snoc (fun e he hes d' hd' => ?_) fun _ d' hd' => ?_
      · rw [hkeep e he hes]
        exact hw.wired e he hes d' hd'
      · rw [hd', mem_singleton] at hd
        exact ⟨c', hd ▸ hecho, hself⟩
    rest := fun x hx hnot => by
      rw [map_append, mem_append, not_or] at hnot
      rw [hother ((isSink_congr hf.directionOf?).trans hx) (by simpa using hnot.2)]
      exact hw.rest x hx hnot.1 }

include hsep

/-- The next twin can be wired. -/
theorem WiresTwins.exists_step :
    ∃ g', wireCopiedConn copies pn consumer g2 q = .ok g' ∧ WiresTwins copies (done ++ [q]) g g1 g' := by
  obtain ⟨p, -, -, -, ht⟩ := hc.mem_twinPairs hq
  obtain ⟨f, hf⟩ := hw.rewires
  have hsome : (g2.conn? q.1).isSome := by
    rw [← isSome_directionOf?, hw.directionOf?_old hc ht.old, isSome_directionOf?]
    exact ht.old
  obtain ⟨y, hy⟩ := Option.isSome_iff_exists.mp hsome
  have hysink : y.direction.isInput = g.isSink q.1 := by
    rw [← isSink_congr (hw.directionOf?_old hc ht.old), isSink, directionOf?_def, hy]
    rfl
  have hyrefs : g.isSink q.1 → y.refs = g.refsOf q.1 := fun hs => by
    rw [← hw.refsOf_old hc hs, refsOf_of_conn? hy]
  simp only [wireCopiedConn, conn_eq_ok.mpr hy, ok_bind]
  split
  · rename_i hin
    have hin : g.isSink q.1 := hysink.symm.trans hin
    split
    · rename_i hnone
      refine ⟨g2, rfl, hw.skip hc hq hnew fun hs => ?_⟩
      rw [← hyrefs hs]
      exact head?_eq_none_iff.mp hnone
    · rename_i d hd
      have hmem : d ∈ g.refsOf q.1 := hyrefs hin ▸ mem_of_head? hd
      obtain ⟨d', hd', hecho⟩ := exists_copiedSource? hg hc hsep hf hq hin hmem
      exact ⟨_, bind_eq_ok.mpr ⟨_, hd', rfl⟩, hw.wire hg hc hq hnew hin hmem hecho⟩
  · rename_i hin
    exact ⟨g2, rfl, hw.skip hc hq hnew fun hs => absurd (hysink.trans hs) hin⟩

end Step

theorem nodup_snd_of_append {pre post : List (NodeId × NodeId)} (hl : copies = pre ++ p :: post) :
    ((twinPairs pre g g1 ++ (g.connsOf p.1).zip (g1.connsOf p.2)).map Prod.snd).Nodup := by
  have hnd := hc.nodup_twins
  rw [hl, twinPairs, flatMap_append, flatMap_cons, ← append_assoc, map_append] at hnd
  exact (nodup_append.mp hnd).1

/-- The connections of a node and of its copy are found while the wires are drawn. -/
theorem WiresTwins.node_conns (hw : WiresTwins copies done g g1 g2) (hp : p ∈ copies) :
    ∃ y y', g2.node p.1 = .ok y ∧ g2.node p.2 = .ok y' ∧ y.conns = g.connsOf p.1 ∧
      y'.conns = g1.connsOf p.2 := by
  obtain ⟨f, hf⟩ := hw.rewires
  have hold : (g2.node? p.1).isSome := by
    rw [Edit.Applies.node?_isSome hf, hc.node? (hc.old p hp)]
    exact hc.old p hp
  have hnew : (g2.node? p.2).isSome := by
    rw [Edit.Applies.node?_isSome hf]
    exact hc.isSome_new hp
  obtain ⟨y, hy⟩ := Option.isSome_iff_exists.mp hold
  obtain ⟨y', hy'⟩ := Option.isSome_iff_exists.mp hnew
  refine ⟨y, y', node_eq_ok.mpr hy, node_eq_ok.mpr hy', ?_, ?_⟩
  · rw [← connsOf_of_node? hy, hf.connsOf, hc.connsOf_old (hc.old p hp)]
  · rw [← connsOf_of_node? hy', hf.connsOf]

include hg hsep

/-- Connection after connection gets its wires. -/
theorem WiresTwins.exists_conns {l : List (ConnId × ConnId)} (hw : WiresTwins copies done g g1 g2)
    (hsub : ∀ q ∈ l, q ∈ twinPairs copies g g1) (hnd : ((done ++ l).map Prod.snd).Nodup) :
    ∃ g', l.foldlM (wireCopiedConn copies pn consumer) g2 = .ok g' ∧
      WiresTwins copies (done ++ l) g g1 g' := by
  refine (Ends.foldlM_inits (P := fun pre s => WiresTwins copies (done ++ pre) g g1 s) ?_
    (by rwa [append_nil])).exists_result
  intro pre q post s hl hs
  rw [← append_assoc]
  refine .inl (hs.exists_step hg hc hsep (hsub q (by simp [hl])) fun hmem => ?_)
  rw [hl, ← append_assoc, map_append] at hnd
  exact (nodup_append.mp hnd).2.2 _ hmem _ mem_cons_self rfl

/-- Copy after copy gets its wires. -/
theorem exists_wiresTwins (consumer : ConnId) :
    ∃ g2, copies.foldlM (wireCopy copies pn consumer) g1 = .ok g2 ∧
      WiresTwins copies (twinPairs copies g g1) g g1 g2 := by
  refine (Ends.foldlM_inits (P := fun pre s => WiresTwins copies (twinPairs pre g g1) g g1 s) ?_
    ⟨hc.sound, ⟨_, .refl g1⟩, nofun, nofun, nofun, fun _ _ _ => rfl⟩).exists_result
  intro pre p post s hl hs
  have hdone : twinPairs (pre ++ [p]) g g1 =
      twinPairs pre g g1 ++ (g.connsOf p.1).zip (g1.connsOf p.2) := by
    rw [twinPairs, flatMap_append, flatMap_singleton]
    rfl
  have hp : p ∈ copies := by simp [hl]
  obtain ⟨y, y', hy, hy', hold, hnew⟩ := hs.node_conns hc hp
  simp only [wireCopy, hy, hy', ok_bind, hold, hnew, hdone]
  exact .inl (hs.exists_conns hg hc hsep (fun q hq => mem_flatMap.mpr ⟨p, hp, hq⟩)
    (nodup_snd_of_append hc hl))

end Wire

end PldSynth.Network
