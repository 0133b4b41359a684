import PldSynth.Network.Forwarding
import PldSynth.Proofs.Network.LoopSearch

/-!
# Edits of networks with any wiring

A network may be wired in any way: ends of wires that do not know of each other, wires in a circle,
connections on the list of a node that does not own them, nodes in use that stand on no list. As long as
every handle that is stored was handed out, no operation follows one that was not, whatever else it finds
wrong (`Follows`), and the handles that are stored afterwards were handed out too (`Confines`).

No operation here puts a pin node in use, and connections move to no node but the one they are meant for.
-/

namespace PldSynth.Network

open Attempt List

variable {A : NodeId → Prop} {g g' g'' : Network} {n m a t : NodeId} {c d o input output : ConnId}
  {l : List ConnId} {y : Conn}

namespace HandlesInRange

theorem conn_isSome (hg : g.HandlesInRange) (h : c ∈ g.connsOf n) : (g.conn? c).isSome := by
  rcases Option.isSome_iff_exists.mp (isSome_of_mem_connsOf h) with ⟨y, hy⟩
  rw [connsOf_of_node? hy] at h
  refine conn?_isSome.mpr (hg.conns c (mem_flatMap.mpr ⟨y, ?_, h⟩))
  exact Array.mem_toList_iff.mpr (Array.mem_of_getElem? hy)

theorem owner_isSome (hg : g.HandlesInRange) (h : g.ownerOf? c = some n) : (g.node? n).isSome := by
  rw [ownerOf?_def, Option.map_eq_some_iff] at h
  rcases h with ⟨y, hy, rfl⟩
  refine node?_isSome.mpr (hg.owners y.owner (mem_map.mpr ⟨y, ?_, rfl⟩))
  exact Array.mem_toList_iff.mpr (Array.mem_of_getElem? hy)

theorem top_isSome (hg : g.HandlesInRange) (h : c ∈ g.top) : (g.conn? c).isSome :=
  conn?_isSome.mpr (hg.top c h)

theorem listed_isSome (hg : g.HandlesInRange) (h : n ∈ g.cells ++ g.pins ++ g.pinNodes) :
    (g.node? n).isSome :=
  node?_isSome.mpr (hg.lists n h)

end HandlesInRange

/-! ## What an edit may do -/

/-- The node is a pin node that owns a connection. -/
def LiveAt (g : Network) (n : NodeId) : Prop :=
  g.kindOf? n = some .pinNode ∧ g.connsOf n ≠ []

/-- `g'` comes from `g` by edits that store no handle which was not handed out. No pin node comes in use,
and no pin node outside `A` comes to own a connection. -/
structure Confines (A : NodeId → Prop) (g g' : Network) : Prop where
  inRange : g'.HandlesInRange
  node_isSome : ∀ {n}, (g.node? n).isSome → (g'.node? n).isSome
  conn_isSome : ∀ {c}, (g.conn? c).isSome → (g'.conn? c).isSome
  kind : ∀ {n}, (g.node? n).isSome → g'.kindOf? n = g.kindOf? n
  pinNodes : g'.pinNodes.Sublist g.pinNodes
  live : ∀ {n}, ¬ A n → g'.LiveAt n → g.LiveAt n

namespace Confines

theorem refl (hg : g.HandlesInRange) : Confines A g g :=
  ⟨hg, id, id, fun _ => rfl, List.Sublist.refl _, fun _ => id⟩

theorem trans (h : Confines A g g') (h' : Confines A g' g'') : Confines A g g'' where
  inRange := h'.inRange
  node_isSome hn := h'.node_isSome (h.node_isSome hn)
  conn_isSome hc := h'.conn_isSome (h.conn_isSome hc)
  kind hn := (h'.kind (h.node_isSome hn)).trans (h.kind hn)
  pinNodes := h'.pinNodes.trans h.pinNodes
  live hn hlive := h.live hn (h'.live hn hlive)

/-! ### Changing one record -/

variable (hg : g.HandlesInRange)
include hg

/-- A change of a node that stores connections which were handed out. -/
theorem modifyNode {f : Node → Node} (hkind : ∀ y, (f y).kind = y.kind)
    (hconns : ∀ y, g.node? n = some y → ∀ c ∈ (f y).conns, (g.conn? c).isSome)
    (hA : ¬ A n → ∀ y, y.conns = [] → (f y).conns = []) : Confines A g (g.modifyNode n f) := by
  have hsome : ∀ m, ((g.modifyNode n f).node? m).isSome = (g.node? m).isSome := by
    intro m
    rw [node?_modifyNode]
    split <;> simp
  have hk : ∀ m, (g.modifyNode n f).kindOf? m = g.kindOf? m := by
    intro m
    rw [kindOf?_def, node?_modifyNode, kindOf?_def]
    split
    · simp [Function.comp_def, hkind]
    · rfl
  constructor
  · -- only the changed node can store another connection
    refine .of_views (fun {m c} hc => ?_) (fun hd => hg.ref_isSome hd) (fun {c m} hm => ?_)
      (fun c hc => hg.top_isSome hc) (fun m hm => ?_)
    · rw [connsOf_def, node?_modifyNode] at hc
      split at hc
      · rename_i hmn
        subst hmn
        cases hy : g.node? m with
        | none => simp [hy] at hc
        | some y =>
          rw [hy] at hc
          exact hconns y hy c hc
      · exact hg.conn_isSome hc
    · rw [hsome]
      exact hg.owner_isSome hm
    · rw [hsome]
      exact hg.listed_isSome hm
  · intro m hm
    rwa [hsome]
  · exact id
  · exact fun _ => hk _
  · exact List.Sublist.refl _
  · rintro m hm ⟨hm', hne⟩
    refine ⟨(hk m).symm.trans hm', ?_⟩
    rw [connsOf_def, node?_modifyNode] at hne
    split at hne
    · rename_i hmn
      subst hmn
      cases hy : g.node? m with
      | none => simp [hy] at hne
      | some y =>
        rw [connsOf_of_node? hy]
        rw [hy] at hne
        exact fun hnil => hne (hA hm y hnil)
    · exact hne

/-- A change of a connection that stores handles which were handed out. -/
theorem modifyConn {f : Conn → Conn} (howner : ∀ y, g.conn? c = some y → (g.node? (f y).owner).isSome)
    (hrefs : ∀ y, g.conn? c = some y → ∀ d ∈ (f y).refs, (g.conn? d).isSome) :
    Confines A g (g.modifyConn c f) := by
  have hsome : ∀ d, ((g.modifyConn c f).conn? d).isSome = (g.conn? d).isSome := by
    intro d
    rw [conn?_modifyConn]
    split <;> simp
  constructor
  · refine .of_views (fun {m d} hd => ?_) (fun {x d} hd => ?_) (fun {x m} hm => ?_) (fun d hd => ?_)
      (fun m hm => hg.listed_isSome hm)
    · rw [hsome]
      exact hg.conn_isSome hd
    · rw [hsome]
      rw [refsOf_def, conn?_modifyConn] at hd
      split at hd
      · rename_i hx
        subst hx
        cases hy : g.conn? x with
        | none => simp [hy] at hd
        | some y =>
          rw [hy] at hd
          exact hrefs y hy d hd
      · exact hg.ref_isSome hd
    · rw [ownerOf?_def, conn?_modifyConn] at hm
      split at hm
      · rename_i hx
        subst hx
        rw [Option.map_map, Option.map_eq_some_iff] at hm
        rcases hm with ⟨y, hy, rfl⟩
        exact howner y hy
      · exact hg.owner_isSome hm
    · rw [hsome]
      exact hg.top_isSome hd
  · exact id
  · intro d hd
    rwa [hsome]
  · exact fun _ => rfl
  · exact List.Sublist.refl _
  · exact fun _ => id

/-- The wires of one connection are changed. -/
theorem modifyRefs {f : List ConnId → List ConnId}
    (hf : ∀ y, g.conn? c = some y → ∀ d ∈ f y.refs, (g.conn? d).isSome) :
    Confines A g (g.modifyConn c fun y => { y with refs := f y.refs }) :=
  modifyConn hg (fun y hy => hg.owner_isSome (by rw [ownerOf?_def, hy]; rfl)) hf

theorem setRefs (hl : ∀ d ∈ l, (g.conn? d).isSome) : Confines A g (g.setRefs c l) :=
  modifyRefs (f := fun _ => l) hg fun _ _ => hl

theorem forget : Confines A g (g.modifyConn c fun y => y.forget d) := by
  refine modifyRefs hg fun y hy x hx => ?_
  refine hg.ref_isSome (c := c) ?_
  rw [refsOf_of_conn? hy]
  exact (mem_filter.mp hx).1

theorem note (hd : (g.conn? d).isSome) : Confines A g (g.modifyConn c fun y => y.note d) := by
  refine modifyRefs (f := fun l => l ++ [d]) hg fun y hy x hx => ?_
  rcases mem_append.mp hx with hx | hx
  · refine hg.ref_isSome (c := c) ?_
    rwa [refsOf_of_conn? hy]
  · rwa [mem_singleton.mp hx]

theorem wire (hc : (g.conn? c).isSome) (hd : (g.conn? d).isSome) : Confines A g (g.wire c d) :=
  have h := note hg hd
  h.trans (note h.inRange (h.conn_isSome hc))

theorem cut : Confines A g (g.cut c d) :=
  have h := forget hg
  h.trans (forget h.inRange)

theorem renameConn (s : String) : Confines A g (g.renameConn c s) := by
  refine modifyConn hg (fun y hy => ?_) fun y hy d hd => ?_
  · exact hg.owner_isSome (by rw [ownerOf?_def, hy]; rfl)
  · exact hg.ref_isSome (by rwa [refsOf_of_conn? hy])

theorem unlist : Confines A g (g.unlist n c) := by
  refine modifyNode hg (fun _ => rfl) (fun y hy d hd => ?_) fun _ y hy => by simp [hy]
  refine hg.conn_isSome (n := n) ?_
  rw [connsOf_of_node? hy]
  exact (mem_filter.mp hd).1

theorem absorb (x : Absorbed) : Confines A g (g.absorb n x) := by
  refine modifyNode hg (fun _ => rfl) (fun y hy d hd => ?_) fun _ _ => id
  refine hg.conn_isSome (n := n) ?_
  rwa [connsOf_of_node? hy]

/-! ### New records and lists -/

/-- A new connection on a node of `A`. -/
theorem attach (hn : (g.node? n).isSome) (hA : A n) (s : String) (dir : Direction) :
    Confines A g (g.attach n s dir).2 := by
  have hconn : ∀ {d}, (g.conn? d).isSome → ((g.attach n s dir).2.conn? d).isSome :=
    conn_isSome_attach s dir
  constructor
  · refine .of_views (fun {m d} hd => ?_) (fun {x d} hd => ?_) (fun {x m} hm => ?_)
      (fun d hd => hconn (hg.top_isSome hd)) (fun m hm => ?_)
    · rw [connsOf_attach s dir hn, mem_append] at hd
      rcases hd with hd | hd
      · exact hconn (hg.conn_isSome hd)
      · split at hd
        · rw [mem_singleton.mp hd, conn?_attach, if_pos rfl]
          rfl
        · cases hd
    · rw [refsOf_attach] at hd
      exact hconn (hg.ref_isSome hd)
    · rw [node_isSome_attach]
      rw [ownerOf?_attach] at hm
      split at hm
      · exact Option.some.inj hm ▸ hn
      · exact hg.owner_isSome hm
    · rw [node_isSome_attach]
      exact hg.listed_isSome hm
  · intro m hm
    rwa [node_isSome_attach]
  · exact hconn
  · exact fun _ => kindOf?_attach s dir
  · exact List.Sublist.refl _
  · rintro m hm ⟨hm', hne⟩
    have hmn : m ≠ n := fun h => hm (h ▸ hA)
    rw [connsOf_def, node?_attach, if_neg hmn] at hne
    exact ⟨(kindOf?_attach s dir).symm.trans hm', hne⟩

/-- A new cell, which owns nothing yet. -/
theorem addCell (s : String) (k : NodeKind) : Confines A g (g.addCell s k).2 := by
  have hgrow := grows_addCell (g := g) s k
  constructor
  · refine .of_views (fun hc => hg.conn_isSome (hgrow.connsOf ▸ hc)) (fun hd => hg.ref_isSome hd)
      (fun hm => hgrow.node_isSome (hg.owner_isSome hm)) (fun c hc => hg.top_isSome hc) (fun m hm => ?_)
    by_cases hnew : m = g.nextNode
    · rw [hnew, node?_addCell, if_pos rfl]
      rfl
    · refine hgrow.node_isSome (hg.listed_isSome ?_)
      simpa [hnew] using hm
  · exact hgrow.node_isSome
  · exact id
  · exact hgrow.kindOf?_of_isSome
  · exact List.Sublist.refl _
  · rintro m - ⟨hk, hne⟩
    rw [hgrow.connsOf] at hne
    rcases exists_mem_of_ne_nil _ hne with ⟨c, hc⟩
    exact ⟨(hgrow.kindOf?_of_isSome (isSome_of_mem_connsOf hc)).symm.trans hk, hne⟩

theorem removeNode (n : NodeId) : Confines A g (g.removeNode n) := by
  refine ⟨.of_views (fun hc => hg.conn_isSome hc) (fun hd => hg.ref_isSome hd)
    (fun hm => hg.owner_isSome hm) (fun c hc => hg.top_isSome hc) (fun m hm => hg.listed_isSome ?_),
    id, id, fun _ => rfl, filter_sublist, fun _ => id⟩
  rw [Network.removeNode, ← filter_append, ← filter_append] at hm
  exact (mem_filter.mp hm).1

theorem setTop (hl : ∀ c ∈ l, (g.conn? c).isSome) : Confines A g { g with top := l } :=
  ⟨.of_views (fun hc => hg.conn_isSome hc) (fun hd => hg.ref_isSome hd) (fun hm => hg.owner_isSome hm)
    hl (fun _ hm => hg.listed_isSome hm), id, id, fun _ => rfl, List.Sublist.refl _, fun _ => id⟩

end Confines

/-! ## Questions -/

/-- The run follows no handle that was never handed out, and a result is in `P`. -/
abbrev Follows {α : Type} (P : α → Prop) (x : Attempt α) : Prop :=
  Ends (· ≠ NetworkError.unallocated) P x

/-- No wire and no list leads out of `J`, and the nodes of its connections were handed out. -/
structure Closed (J : ConnId → Prop) (g : Network) : Prop where
  owner : ∀ {c}, J c → ∃ n, g.ownerOf? c = some n ∧ (g.node? n).isSome
  conns : ∀ {n c}, c ∈ g.connsOf n → J c
  refs : ∀ {c d}, d ∈ g.refsOf c → J d

theorem owner_isSome_of_conn? (hg : g.HandlesInRange) (hy : g.conn? c = some y) :
    (g.node? y.owner).isSome :=
  hg.owner_isSome (by rw [ownerOf?_def, hy]; rfl)

theorem head_isSome (hg : g.HandlesInRange) (hy : g.conn? c = some y)
    (hd : y.refs.head? = some d) : (g.conn? d).isSome :=
  hg.ref_isSome (by rw [refsOf_of_conn? hy]; exact mem_of_mem_head? hd)

theorem HandlesInRange.closed (hg : g.HandlesInRange) : g.Closed fun c => (g.conn? c).isSome where
  owner {c} hc := by
    rcases Option.isSome_iff_exists.mp hc with ⟨y, hy⟩
    exact ⟨y.owner, by rw [ownerOf?_def, hy]; rfl, owner_isSome_of_conn? hg hy⟩
  conns := hg.conn_isSome
  refs := hg.ref_isSome

theorem Sound.closed (hg : g.Sound) : g.Closed fun c => ∃ n, c ∈ g.connsOf n where
  owner := fun ⟨n, hn⟩ => ⟨n, hg.owner hn, isSome_of_mem_connsOf hn⟩
  conns hc := ⟨_, hc⟩
  refs hd := hg.listed (hg.mirror hd)

theorem Closed.isSome {J : ConnId → Prop} (hg : g.Closed J) (hc : J c) : (g.conn? c).isSome := by
  rcases hg.owner hc with ⟨n, hn, -⟩
  rw [ownerOf?_def, Option.map_eq_some_iff] at hn
  rcases hn with ⟨y, hy, -⟩
  exact Option.isSome_of_eq_some hy

theorem Closed.owner_isSome {J : ConnId → Prop} (hg : g.Closed J) (hc : J c) (hy : g.conn? c = some y) :
    (g.node? y.owner).isSome := by
  rcases hg.owner hc with ⟨n, hn, hsome⟩
  rw [ownerOf?_def, hy] at hn
  exact Option.some.inj hn ▸ hsome

section Questions

-- a question does not fail, so it does not matter which errors are allowed for
variable {E : NetworkError → Prop} {J : ConnId → Prop} (hg : g.Closed J)

theorem follows_node (hn : (g.node? n).isSome) : Ends E (fun y => g.node? n = some y) (g.node n) := by
  rcases Option.isSome_iff_exists.mp hn with ⟨y, hy⟩
  exact .inl ⟨y, node_eq_ok.mpr hy, hy⟩

theorem follows_conn (hc : (g.conn? c).isSome) : Ends E (fun y => g.conn? c = some y) (g.conn c) := by
  rcases Option.isSome_iff_exists.mp hc with ⟨y, hy⟩
  exact .inl ⟨y, conn_eq_ok.mpr hy, hy⟩

theorem follows_nodeKind (hn : (g.node? n).isSome) :
    Ends E (fun k => g.kindOf? n = some k) (g.nodeKind n) :=
  (follows_node hn).bind fun y hy => .ok (by rw [kindOf?_def, hy]; rfl)

theorem follows_nodeName (hn : (g.node? n).isSome) : Ends E (fun _ => True) (g.nodeName n) :=
  (follows_node hn).bind fun _ _ => .ok trivial

theorem follows_fanOut (hc : (g.conn? c).isSome) : Ends E (fun _ => True) (g.fanOut c) :=
  (follows_conn hc).bind fun _ _ => .ok trivial

theorem follows_path (hg : g.HandlesInRange) (hc : (g.conn? c).isSome) :
    Ends E (fun _ => True) (g.path c) :=
  (follows_conn hc).bind fun _ hy =>
    (follows_nodeName (owner_isSome_of_conn? hg hy)).bind fun _ _ => .ok trivial

include hg

theorem follows_owner (hc : J c) :
    Ends E (fun n => g.ownerOf? c = some n ∧ (g.node? n).isSome) (g.owner c) := by
  rcases hg.owner hc with ⟨n, hn, hsome⟩
  exact .inl ⟨n, owner_eq_ok.mpr hn, hn, hsome⟩

/-- The connections of a node that pass a test. -/
theorem follows_filter (hn : (g.node? n).isSome) (p : ConnId → Bool) :
    Ends E (fun l => ∀ c ∈ l, J c) (do return (← g.node n).conns.filter p) :=
  (follows_node hn).bind fun y hy => .ok fun c hc =>
    hg.conns (by rw [connsOf_of_node? hy]; exact (mem_filter.mp hc).1)

theorem follows_inputs (hn : (g.node? n).isSome) : Ends E (fun l => ∀ c ∈ l, J c) (g.inputs n) :=
  follows_filter hg hn g.isInput

theorem follows_sinks (hn : (g.node? n).isSome) : Ends E (fun l => ∀ c ∈ l, J c) (g.sinks n) :=
  follows_filter hg hn g.isSink

/-- The first connection of a node that passes a test. -/
theorem follows_find (hn : (g.node? n).isSome) (p : ConnId → Bool) :
    Ends E (fun o => ∀ c ∈ o, J c) (do return (← g.node n).conns.find? p) :=
  (follows_node hn).bind fun y hy => .ok fun c hc =>
    hg.conns (by rw [connsOf_of_node? hy]; exact mem_of_find?_eq_some hc)

theorem follows_output? (hn : (g.node? n).isSome) : Ends E (fun o => ∀ c ∈ o, J c) (g.output? n) :=
  follows_find hg hn g.isOutput

theorem follows_source? (hn : (g.node? n).isSome) : Ends E (fun o => ∀ c ∈ o, J c) (g.source? n) :=
  follows_find hg hn g.isSource

theorem follows_driver? (hc : J c) : Ends E (fun o => ∀ d ∈ o, J d) (g.driver? c) :=
  (follows_conn (hg.isSome hc)).bind fun _ hy => .ok fun _ hd =>
    hg.refs (by rw [refsOf_of_conn? hy]; exact mem_of_mem_head? hd)

theorem follows_isAttached (hc : J c) : Ends E (fun _ => True) (g.isAttached c) :=
  (follows_conn (hg.isSome hc)).bind fun _ hy =>
    (follows_node (hg.owner_isSome hc hy)).bind fun _ _ => .ok trivial

/-- The test for forwarding follows wires only. -/
theorem follows_isForwarded (hc : J c) : Ends E (fun _ => True) (g.isForwarded c) := by
  refine (follows_isAttached hg hc).bind fun attached _ => ?_
  split
  · refine (follows_conn (hg.isSome hc)).bind fun x hx => ?_
    have howner := hg.owner_isSome hc hx
    split
    · refine (follows_nodeKind howner).bind fun k _ => ?_
      split
      · refine (follows_sinks hg howner).bind fun sinks _ => ?_
        split
        · cases hd : x.refs.head? with
          | none => exact .ok trivial
          | some output =>
            have houtput : J output := hg.refs (by rw [refsOf_of_conn? hx]; exact mem_of_head? hd)
            refine (follows_owner hg houtput).bind fun b ⟨_, hb⟩ => ?_
            exact (follows_nodeKind hb).bind fun _ _ => .ok trivial
        · exact .ok trivial
      · exact .ok trivial
    · exact .ok trivial
  · exact .ok trivial

theorem follows_driversOf {cs : List ConnId} (hcs : ∀ c ∈ cs, J c) :
    Ends E (fun l => ∀ d ∈ l, J d) (g.driversOf cs) := by
  refine (Ends.mapM fun c hc => follows_driver? hg (hcs c hc)).bind fun l hl => .ok ?_
  intro d hd
  rcases mem_filterMap.mp hd with ⟨o, ho, hod⟩
  exact hl o ho d hod

end Questions

/-! ## Wires and lists -/

section Edits

variable (hg : g.HandlesInRange)
include hg

/-- Cutting wires leaves the nodes alone. -/
theorem follows_clearRefs (hc : (g.conn? c).isSome) :
    Follows (fun g' => Confines A g g' ∧ g'.nodes = g.nodes) (g.clearRefs c) := by
  refine (follows_conn hc).bind fun y hy => ?_
  have hrefs : ∀ d ∈ y.refs, (g.conn? d).isSome := by
    intro d hd
    rw [← refsOf_of_conn? hy] at hd
    exact hg.ref_isSome hd
  rw [demand_eq_ok hrefs]
  refine .ok ?_
  refine List.foldlRecOn (motive := fun s : Network => Confines A g s ∧ s.nodes = g.nodes) _ _
    ⟨.setRefs hg nofun, rfl⟩ ?_
  rintro s ⟨hs, hnodes⟩ d -
  exact ⟨hs.trans (.forget hs.inRange), hnodes⟩

theorem follows_detach (hc : (g.conn? c).isSome) : Follows (Confines A g) (g.detach c) := by
  refine (follows_clearRefs (A := A) hg hc).bind fun g1 ⟨h1, _⟩ => ?_
  refine (follows_owner h1.inRange.closed (h1.conn_isSome hc)).bind fun old ⟨_, hold⟩ => ?_
  exact (follows_node hold).bind fun _ _ => .ok (h1.trans (.unlist h1.inRange))

/-- A connection may go over to a node of `A`. -/
theorem follows_reparent (hc : (g.conn? c).isSome) (hn : (g.node? n).isSome) (hA : A n) :
    Follows (Confines A g) (g.reparent c n) := by
  refine (follows_owner hg.closed hc).bind fun old ⟨_, hold⟩ => ?_
  refine (follows_node hold).bind fun _ _ => (follows_node hn).bind fun _ _ => .ok ?_
  have h1 : Confines A g (g.unlist old c) := .unlist hg
  have h2 : Confines A (g.unlist old c) ((g.unlist old c).modifyConn c fun x => { x with owner := n }) :=
    .modifyConn h1.inRange (fun _ _ => h1.node_isSome hn) fun y hy d hd =>
      h1.inRange.ref_isSome (by rwa [refsOf_of_conn? hy])
  have h3 := h1.trans h2
  refine h3.trans (.modifyNode h3.inRange (fun _ => rfl) (fun y hy d hd => ?_) fun hn => absurd hA hn)
  rcases mem_append.mp hd with hd | hd
  · refine h3.inRange.conn_isSome (n := n) ?_
    rwa [connsOf_of_node? hy]
  · rw [mem_singleton.mp hd]
    exact h3.conn_isSome hc

/-- A node out of use owns nothing and is on no list. -/
theorem follows_retire (hn : (g.node? n).isSome) :
    Follows (fun g' => Confines A g g' ∧ g'.connsOf n = [] ∧ n ∉ g'.pinNodes) (g.retire n) := by
  refine (follows_node hn).bind fun y hy => ?_
  have hconns : ∀ c ∈ y.conns, (g.conn? c).isSome := by
    intro c hc
    rw [← connsOf_of_node? hy] at hc
    exact hg.conn_isSome hc
  have h1 : Confines A g (g.modifyNode n fun x => { x with conns := [] }) :=
    .modifyNode hg (fun _ => rfl) (fun _ _ => nofun) fun _ _ _ => rfl
  have hempty : (g.modifyNode n fun x => { x with conns := [] }).connsOf n = [] := by
    rw [connsOf_def, node?_modifyNode, if_pos rfl, hy]
    rfl
  -- the wires go one connection after the other, and the emptied list stays
  have hloop : Follows (fun s : Network => Confines A g s ∧ s.connsOf n = [])
      (y.conns.foldlM clearRefs (g.modifyNode n fun x => { x with conns := [] })) := by
    refine Ends.foldlM_invariant (fun s c hc hs => ?_) ⟨h1, hempty⟩
    have hstep := follows_clearRefs (A := A) hs.1.inRange (hs.1.conn_isSome (hconns c hc))
    refine hstep.mono (fun _ => id) ?_
    rintro s' ⟨hs', hnodes⟩
    exact ⟨hs.1.trans hs', by rw [Network.connsOf, hnodes]; exact hs.2⟩
  refine hloop.bind fun s hs => .ok ⟨hs.1.trans (.removeNode hs.1.inRange n), hs.2, ?_⟩
  simp [removeNode]

theorem follows_rebuildTop : Follows (Confines A g) g.rebuildTop := by
  have hloop : Follows (Confines A g) ((g.pinNodes.filter g.isUnread).foldlM retire g) := by
    refine Ends.foldlM_invariant (fun s n hn hs => ?_) (.refl hg)
    have hlisted : (g.node? n).isSome :=
      hg.listed_isSome (mem_append_right _ (mem_filter.mp hn).1)
    exact (follows_retire hs.inRange (hs.node_isSome hlisted)).mono (fun _ => id) fun _ h => hs.trans h.1
  refine hloop.bind fun s hs => .ok (hs.trans (.setTop hs.inRange fun c hc => ?_))
  rcases mem_flatMap.mp hc with ⟨n, -, hcn⟩
  exact hs.inRange.conn_isSome (mem_filter.mp hcn).1

theorem follows_checkRef {x : Conn} (hc : (g.conn? c).isSome) (hd : (g.conn? d).isSome) :
    Follows (fun _ => True) (g.checkRef c x d) := by
  refine (follows_conn hd).bind fun y hy => ?_
  -- both ends are named before the check fails
  by_cases hface : x.direction.mayFace y.direction = true
  · split
    · exact .ok trivial
    · exact (follows_path hg hc).bind fun _ _ => (follows_path hg hd).bind fun _ _ => .inr ⟨_, rfl, nofun⟩
  · rw [if_neg hface]
    exact (follows_path hg hc).bind fun _ _ => (follows_path hg hd).bind fun _ _ => .inr ⟨_, rfl, nofun⟩

/-- The check of a connection follows wires only. -/
theorem follows_checkConn (hn : (g.node? n).isSome) (hc : (g.conn? c).isSome) :
    Follows (fun _ => True) (g.checkConn n c) := by
  refine (follows_conn hc).bind fun y hy => ?_
  by_cases howner : y.owner = n
  · rw [if_pos howner]
    by_cases hmany : y.direction = .input ∧ 1 < y.refs.length
    · rw [if_pos hmany]
      exact (follows_path hg hc).bind fun _ _ => .inr ⟨_, rfl, nofun⟩
    · rw [if_neg hmany]
      refine Ends.forM fun d hd => follows_checkRef hg hc ?_
      rw [← refsOf_of_conn? hy] at hd
      exact hg.ref_isSome hd
  · rw [if_neg howner]
    exact (follows_path hg hc).bind fun _ _ => (follows_nodeName hn).bind fun _ _ => .inr ⟨_, rfl, nofun⟩

theorem follows_checkAll : Follows (fun _ => True) g.checkAll := by
  refine Ends.forM fun n hn => ?_
  have hlisted : (g.node? n).isSome := by
    refine hg.listed_isSome ?_
    simp only [mem_append] at hn ⊢
    tauto
  refine (follows_node hlisted).bind fun y hy => Ends.forM fun c hc => ?_
  rw [← connsOf_of_node? hy] at hc
  exact follows_checkConn hg hlisted (hg.conn_isSome hc)

/-! ## Moving consumers -/

theorem follows_ensureOutput (hn : (g.node? n).isSome) (hA : A n) :
    Follows (fun r => Confines A g r.2 ∧ (r.2.conn? r.1).isSome) (g.ensureOutput n) := by
  refine (follows_output? hg.closed hn).bind fun o ho => ?_
  cases o with
  | none => exact .ok ⟨.attach hg hn hA _ _, by simp⟩
  | some out => exact .ok ⟨.refl hg, ho out rfl⟩

theorem follows_moveConsumer (hc : (g.conn? c).isSome) (hd : (g.conn? d).isSome) :
    Follows (Confines A g) (moveConsumer t o d g c) := by
  refine (follows_conn hc).bind fun y hy => ?_
  by_cases ht : y.owner = t
  · rw [if_pos ht]
    exact .ok (.forget hg)
  · rw [if_neg ht]
    have h1 : Confines A g (g.setRefs c [d]) := .setRefs hg (by simpa using hd)
    dsimp only
    split
    · exact .ok h1
    · exact .ok (h1.trans (.note h1.inRange (h1.conn_isSome hc)))

/-- Consumers may go over to a node of `A`. -/
theorem follows_moveConsumers (ht : (g.node? t).isSome) (hA : A t) (ho : (g.conn? o).isSome) :
    Follows (Confines A g) (g.moveConsumers t o) := by
  refine (follows_conn ho).bind fun y hy => ?_
  by_cases hdir : y.direction.isOutput = true
  · rw [if_pos hdir]
    have h1 : Confines A g (g.setRefs o []) := .setRefs hg nofun
    split
    · exact .ok h1
    · refine (follows_ensureOutput h1.inRange (h1.node_isSome ht) hA).bind fun r ⟨h2, hout⟩ => ?_
      have hr := h1.trans h2
      have hloop : Follows (Confines A r.2) (y.refs.foldlM (moveConsumer t o r.1) r.2) := by
        refine Ends.foldlM_invariant (fun s c hc hs => ?_) (.refl hr.inRange)
        have hsome : (g.conn? c).isSome := hg.ref_isSome (by rwa [refsOf_of_conn? hy])
        refine (follows_moveConsumer hs.inRange ?_ (hs.conn_isSome hout)).mono (fun _ => id)
          fun _ h => hs.trans h
        exact hs.conn_isSome (hr.conn_isSome hsome)
      exact hloop.mono (fun _ => id) fun _ h => hr.trans h
  · rw [if_neg hdir]
    exact (follows_path hg ho).bind fun _ _ => .inr ⟨_, rfl, nofun⟩

end Edits

end PldSynth.Network
