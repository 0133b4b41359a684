import PldSynth.Proofs.Netlist.Draft
import PldSynth.Proofs.Network.Progress

/-!
# What every sequence of calls keeps

The passes work on a network through fourteen calls that add nodes and connections, draw, cut and
move wires, and keep the lists. A caller may use them in any order, and may do odd things with them:
wire a connection to itself or twice, give away a connection that was taken off its node, take a node
out of use twice.

A network that was made by such calls is consistent (`Consistent`): both ends of a wire list it equally
often, a connection stands on one list at most, and every handle that is stored was handed out. Wires
may still join connections that do not face each other. That is all that the check can complain about.
-/

namespace PldSynth.Network

open Attempt List

variable {g g' : Network} {n m t : NodeId} {c d x y : ConnId}

/-! ## The calls -/

/-- One call on a network, with its arguments. -/
inductive Call
  | addNode (name : String) (kind : NodeKind)
  | addCell (name : String) (kind : NodeKind)
  | addConstant (value : Nat)
  | addPin (name : String)
  | addPinNode (name : String)
  | addConnection (n : NodeId) (name : String) (direction : Direction)
  | link (input output : ConnId)
  | unlink (a b : ConnId)
  | clearRefs (c : ConnId)
  | detach (c : ConnId)
  | reparent (c : ConnId) (n : NodeId)
  | removeCell (n : NodeId)
  | retire (n : NodeId)
  | rebuildTop
  deriving DecidableEq, Repr

namespace Call

/-- The nodes that a call is made with. -/
def nodes : Call → List NodeId
  | .addConnection n _ _ | .reparent _ n | .removeCell n | .retire n => [n]
  | _ => []

/-- The connections that a call is made with. -/
def conns : Call → List ConnId
  | .link a b | .unlink a b => [a, b]
  | .clearRefs c | .detach c | .reparent c _ => [c]
  | _ => []

/-- The network after a call. -/
def run (g : Network) : Call → Attempt Network
  | .addNode name kind => return (g.addNode name kind).2
  | .addCell name kind => return (g.addCell name kind).2
  | .addConstant value => return (g.addConstant value).2
  | .addPin name => return (g.addPin name).2
  | .addPinNode name => return (g.addPinNode name).2
  | .addConnection n name direction => return (← g.addConnection n name direction).2
  | .link input output => g.link input output
  | .unlink a b => g.unlink a b
  | .clearRefs c => g.clearRefs c
  | .detach c => g.detach c
  | .reparent c n => g.reparent c n
  | .removeCell n => return g.removeCell n
  | .retire n => g.retire n
  | .rebuildTop => g.rebuildTop

/-- Every handle that the call is made with was handed out. -/
def Allocated (g : Network) (call : Call) : Prop :=
  (∀ n ∈ call.nodes, (g.node? n).isSome) ∧ ∀ c ∈ call.conns, (g.conn? c).isSome

instance (g : Network) (call : Call) : Decidable (call.Allocated g) :=
  inferInstanceAs (Decidable (_ ∧ _))

/-- Every call of a sequence is made with handles that were handed out before it. -/
def AllAllocated : Network → List Call → Prop
  | _, [] => True
  | g, call :: calls => call.Allocated g ∧
    match call.run g with
    | .ok g' => AllAllocated g' calls
    | .error _ => True

instance decidableAllAllocated : (g : Network) → (calls : List Call) → Decidable (AllAllocated g calls)
  | _, [] => inferInstanceAs (Decidable True)
  | g, call :: calls =>
    @instDecidableAnd _ _ inferInstance <|
      match call.run g with
      | .ok g' => decidableAllAllocated g' calls
      | .error _ => isTrue trivial

end Call

/-! ## Consistency -/

/-- Both ends of a wire agree on it, connections stand where they belong, and every handle that is
stored was handed out. -/
structure Consistent (g : Network) : Prop where
  mirror : ∀ c d, (g.refsOf c).count d = (g.refsOf d).count c
  owner : g.Housed
  nodup_conns : ∀ n, (g.connsOf n).Nodup
  owner_isSome : ∀ {c n}, g.ownerOf? c = some n → (g.node? n).isSome
  top_isSome : ∀ c ∈ g.top, (g.conn? c).isSome
  listed_isSome : ∀ n ∈ g.cells ++ g.pins ++ g.pinNodes, (g.node? n).isSome
  nodup_lists : (g.cells ++ g.pins ++ g.pinNodes).Nodup

/-- The connections on the lists of all nodes, one list after another. -/
def listings (g : Network) : List ConnId :=
  g.nodes.items.toList.flatMap Node.conns

/-- Every handle that a record or a list holds was handed out. -/
structure HandlesInRange (g : Network) : Prop where
  conns : ∀ c ∈ g.listings, c.index < g.conns.size
  refs : ∀ c ∈ g.conns.items.toList.flatMap Conn.refs, c.index < g.conns.size
  top : ∀ c ∈ g.top, c.index < g.conns.size
  owners : ∀ n ∈ g.conns.items.toList.map Conn.owner, n.index < g.nodes.size
  lists : ∀ n ∈ g.cells ++ g.pins ++ g.pinNodes, n.index < g.nodes.size

/-- What a network shows decides whether its handles were handed out. -/
theorem HandlesInRange.of_views (hconns : ∀ {n c}, c ∈ g.connsOf n → (g.conn? c).isSome)
    (hrefs : ∀ {c d}, d ∈ g.refsOf c → (g.conn? d).isSome)
    (howners : ∀ {c n}, g.ownerOf? c = some n → (g.node? n).isSome)
    (htop : ∀ c ∈ g.top, (g.conn? c).isSome)
    (hlists : ∀ n ∈ g.cells ++ g.pins ++ g.pinNodes, (g.node? n).isSome) : g.HandlesInRange := by
  have hnode : ∀ {z}, z ∈ g.nodes.items.toList → ∃ n, g.node? n = some z := by
    intro z hz
    rcases getElem?_of_mem hz with ⟨i, hi⟩
    exact ⟨⟨i⟩, by rw [node?, Arena.get?, ← hi, Array.getElem?_toList]⟩
  have hconn : ∀ {z}, z ∈ g.conns.items.toList → ∃ c, g.conn? c = some z := by
    intro z hz
    rcases getElem?_of_mem hz with ⟨i, hi⟩
    exact ⟨⟨i⟩, by rw [conn?, Arena.get?, ← hi, Array.getElem?_toList]⟩
  constructor
  · intro c hc
    rcases mem_flatMap.mp hc with ⟨z, hz, hcz⟩
    rcases hnode hz with ⟨n, hn⟩
    exact conn?_isSome.mp (hconns (by rwa [connsOf_of_node? hn]))
  · intro d hd
    rcases mem_flatMap.mp hd with ⟨z, hz, hdz⟩
    rcases hconn hz with ⟨c, hc⟩
    exact conn?_isSome.mp (hrefs (by rwa [refsOf_of_conn? hc]))
  · exact fun c hc => conn?_isSome.mp (htop c hc)
  · intro n hn
    rcases mem_map.mp hn with ⟨z, hz, rfl⟩
    rcases hconn hz with ⟨c, hc⟩
    exact node?_isSome.mp (howners (by rw [ownerOf?_def, hc]; rfl))
  · exact fun n hn => node?_isSome.mp (hlists n hn)

/-- What the check may find in a consistent network: an input with several drivers, or a wire whose
ends do not face each other. -/
inductive Clash (g : Network) : NetworkError → Prop
  | drivers {c : ConnId} {x : Conn} {path : String} (conn : g.conn? c = some x)
      (input : x.direction = .input) (several : 1 < x.refs.length) (named : g.path c = .ok path) :
      Clash g (.miscount path (.drivers x.refs.length))
  | sameDirection {c d : ConnId} {x y : Conn} {path other : String} (conn : g.conn? c = some x)
      (wire : d ∈ x.refs) (far : g.conn? d = some y) (faces : x.direction.mayFace y.direction = false)
      (named : g.path c = .ok path) (farNamed : g.path d = .ok other) :
      Clash g (.mismatch path (.sameDirection other))

namespace Consistent

theorem mirrored (hg : g.Consistent) : g.Mirrored := by
  intro c d hd
  have hpos := count_pos_iff.mpr hd
  rw [hg.mirror c d] at hpos
  exact count_pos_iff.mp hpos

theorem conn_isSome (hg : g.Consistent) (hc : c ∈ g.connsOf n) : (g.conn? c).isSome :=
  isSome_of_ownerOf? (hg.owner hc)

theorem ref_isSome (hg : g.Consistent) (hd : d ∈ g.refsOf c) : (g.conn? d).isSome :=
  isSome_of_mem_refsOf (hg.mirrored hd)

theorem exists_owner (hg : g.Consistent) (hc : (g.conn? c).isSome) :
    ∃ n, g.ownerOf? c = some n ∧ (g.node? n).isSome := by
  rcases Option.isSome_iff_exists.mp hc with ⟨z, hz⟩
  have howner : g.ownerOf? c = some z.owner := by rw [ownerOf?_def, hz]; rfl
  exact ⟨z.owner, howner, hg.owner_isSome howner⟩

/-- What a network shows decides whether it is consistent. -/
theorem congr (hg : g.Consistent) (hconns : ∀ n, g'.connsOf n = g.connsOf n)
    (hrefs : ∀ c, g'.refsOf c = g.refsOf c) (howner : ∀ c, g'.ownerOf? c = g.ownerOf? c)
    (hnode : ∀ n, (g'.node? n).isSome = (g.node? n).isSome) (hcells : g'.cells = g.cells)
    (hpins : g'.pins = g.pins) (hpinNodes : g'.pinNodes = g.pinNodes) (htop : g'.top = g.top) :
    g'.Consistent where
  mirror c d := by
    rw [hrefs, hrefs]
    exact hg.mirror c d
  owner hc := by
    rw [hconns] at hc
    rw [howner]
    exact hg.owner hc
  nodup_conns n := by
    rw [hconns]
    exact hg.nodup_conns n
  owner_isSome h := by
    rw [howner] at h
    rw [hnode]
    exact hg.owner_isSome h
  top_isSome c hc := by
    rw [htop] at hc
    -- a connection was handed out exactly if it has an owner
    rcases hg.exists_owner (hg.top_isSome c hc) with ⟨n, hn, -⟩
    exact isSome_of_ownerOf? ((howner c).trans hn)
  listed_isSome n hn := by
    rw [hcells, hpins, hpinNodes] at hn
    rw [hnode]
    exact hg.listed_isSome n hn
  nodup_lists := by
    rw [hcells, hpins, hpinNodes]
    exact hg.nodup_lists

/-- A new network holds nothing but the node of the module. -/
theorem new (name : String) : (Network.new name).Consistent := by
  have hg := sound_new name
  refine ⟨fun c d => ?_, hg.owner, hg.nodup_conns, fun {c n} h => ?_, nofun, nofun, nodup_nil⟩
  · rw [refsOf_new, refsOf_new]
    rfl
  · rw [ownerOf?_def, conn?_eq_none (Nat.zero_le _)] at h
    cases h

/-! ## Calls that hand out handles -/

variable (hg : g.Consistent)
include hg

theorem addNode (s : String) (k : NodeKind) : (g.addNode s k).2.Consistent where
  __ := hg
  owner hc := hg.owner ((grows_addNode s k).connsOf ▸ hc)
  nodup_conns n := (grows_addNode (g := g) s k).connsOf ▸ hg.nodup_conns n
  owner_isSome h := (grows_addNode s k).node_isSome (hg.owner_isSome h)
  listed_isSome n hn := (grows_addNode s k).node_isSome (hg.listed_isSome n hn)

/-- A node that stands on no list may be put on one. -/
theorem enlist {cells pins pinNodes : List NodeId}
    (hperm : (cells ++ pins ++ pinNodes).Perm (n :: (g.cells ++ g.pins ++ g.pinNodes)))
    (hn : (g.node? n).isSome) (hfree : n ∉ g.cells ++ g.pins ++ g.pinNodes) :
    ({ g with cells, pins, pinNodes } : Network).Consistent where
  __ := hg
  listed_isSome m hm := by
    rcases mem_cons.mp (hperm.mem_iff.mp hm) with h | h
    · exact h ▸ hn
    · exact hg.listed_isSome m h
  nodup_lists := hperm.nodup_iff.mpr (nodup_cons.mpr ⟨hfree, hg.nodup_lists⟩)

/-- The three calls that add a node and put it at the end of one of the lists. -/
theorem addListed (s : String) (k : NodeKind) (cells pins pinNodes : List NodeId)
    (hperm : (cells ++ pins ++ pinNodes).Perm (g.nextNode :: (g.cells ++ g.pins ++ g.pinNodes))) :
    ({ (g.addNode s k).2 with cells, pins, pinNodes } : Network).Consistent := by
  refine (hg.addNode s k).enlist hperm ?_ ?_
  · rw [node?_addNode, if_pos rfl]
    rfl
  · intro hmem
    exact ne_nextNode (hg.listed_isSome g.nextNode hmem) rfl

theorem addCell (s : String) (k : NodeKind) : (g.addCell s k).2.Consistent := by
  refine hg.addListed s k (g.cells ++ [g.nextNode]) g.pins g.pinNodes ?_
  simp only [append_assoc, singleton_append]
  exact perm_middle

theorem addPin (s : String) : (g.addPin s).2.Consistent := by
  refine hg.addListed s .pin g.cells (g.pins ++ [g.nextNode]) g.pinNodes ?_
  rw [← append_assoc, append_assoc]
  exact perm_middle

theorem addPinNode (s : String) : (g.addPinNode s).2.Consistent := by
  refine hg.addListed s .pinNode g.cells g.pins (g.pinNodes ++ [g.nextNode]) ?_
  rw [← append_assoc]
  exact perm_append_singleton _ _

/-- A new connection leaves the network consistent. -/
theorem attach (hn : (g.node? n).isSome) (s : String) (dir : Direction) :
    (g.attach n s dir).2.Consistent where
  mirror c d := by
    rw [refsOf_attach, refsOf_attach]
    exact hg.mirror c d
  owner := Housed.attach s dir hg.owner hn
  nodup_conns := nodup_attach s dir hg.owner hg.nodup_conns hn
  owner_isSome hx := by
    rw [node_isSome_attach]
    rw [ownerOf?_attach] at hx
    split at hx
    · exact Option.some.inj hx ▸ hn
    · exact hg.owner_isSome hx
  top_isSome x hx := conn_isSome_attach s dir (hg.top_isSome x hx)
  listed_isSome m hm := by
    rw [node_isSome_attach]
    exact hg.listed_isSome m hm
  nodup_lists := hg.nodup_lists

/-- A constant is a cell with one connection. -/
theorem addConstant (value : Nat) : (g.addConstant value).2.Consistent := by
  have hsome : ((g.addCell "" .constant).2.node? g.nextNode).isSome := by simp
  have hconn : ∀ x, (g.addConstant value).2.conn? x =
      ((g.addCell "" .constant).2.attach g.nextNode "OUT" .output).2.conn? x := by
    intro x
    rfl
  refine ((hg.addCell "" .constant).attach hsome "OUT" .output).congr ?_ ?_ ?_ ?_ rfl rfl rfl rfl
  · intro n
    rw [connsOf_addConstant, connsOf_attach _ _ hsome, connsOf_def (g := (g.addCell _ _).2),
      node?_addCell]
    split
    · rfl
    · rw [append_nil]
      rfl
  · intro c
    rw [refsOf_def, hconn, refsOf_def]
  · intro c
    rw [ownerOf?_def, hconn, ownerOf?_def]
  · intro n
    rw [node?_addConstant, node?_attach, node?_addCell]
    split <;> rfl

/-! ## Calls that change wires -/

/-- An edit keeps a network consistent if the wires afterwards agree on both ends and every connection
that a node lists afterwards was given to that node. -/
theorem of_edit {e : Edit} (h : e.Applies g g') (htop : g'.top = g.top)
    (hmirror : ∀ c d, (g'.refsOf c).count d = (g'.refsOf d).count c) (howner : g'.Housed)
    (hnodup : ∀ n, (g'.connsOf n).Nodup)
    (hsome : ∀ {c n}, g'.ownerOf? c = some n → (g.node? n).isSome) : g'.Consistent := by
  constructor
  · exact hmirror
  · exact howner
  · exact hnodup
  · intro c n hn
    rw [h.node?_isSome]
    exact hsome hn
  · intro c hc
    rw [h.conn?_isSome]
    exact hg.top_isSome c (htop ▸ hc)
  · intro n hn
    rw [h.node?_isSome]
    rw [h.cells, h.pins, h.pinNodes, ← filter_append, ← filter_append] at hn
    exact hg.listed_isSome n (mem_filter.mp hn).1
  · rw [h.cells, h.pins, h.pinNodes, ← filter_append, ← filter_append]
    exact hg.nodup_lists.filter _

theorem of_rewires {f : ConnId → List ConnId → List ConnId} (h : Rewires f g g') (htop : g'.top = g.top)
    (hmirror : ∀ c d, (g'.refsOf c).count d = (g'.refsOf d).count c) : g'.Consistent := by
  refine hg.of_edit h htop hmirror ?_ ?_ ?_
  · intro n c hc
    rw [h.ownerOf?]
    exact hg.owner (h.connsOf ▸ hc)
  · intro n
    rw [h.connsOf]
    exact hg.nodup_conns n
  · intro c n hn
    exact hg.owner_isSome (h.ownerOf? ▸ hn)

/-- Wires may be taken away as long as it happens on both of their ends. -/
theorem mirror_of_filter {p : ConnId → ConnId → Bool}
    (hrefs : ∀ x, g'.refsOf x = (g.refsOf x).filter (p x)) (hp : ∀ x y, p x y = p y x) (c d : ConnId) :
    (g'.refsOf c).count d = (g'.refsOf d).count c := by
  have hcount : ∀ x y, (g'.refsOf x).count y = if p x y then (g.refsOf x).count y else 0 := by
    intro x y
    rw [hrefs]
    split
    · rename_i hp
      exact count_filter hp
    · rename_i hp
      rw [count_eq_zero, mem_filter]
      exact fun h => hp h.2
  rw [hcount, hcount, hp d c, hg.mirror c d]

/-- Wiring two connections keeps a consistent network. -/
theorem link (hc : (g.conn? c).isSome) (hd : (g.conn? d).isSome) :
    ∃ g', g.link c d = .ok g' ∧ g'.Consistent := by
  refine ⟨g.wire c d, ?_, ?_⟩
  · unfold Network.link
    rw [demand_eq_ok (by simp [hc, hd])]
    rfl
  · have hr : Rewires _ g (g.wire c d) := rewires_note.trans rewires_note
    -- each end gets the other one more time, also if both ends are the same
    have hrefs : ∀ x, (g.wire c d).refsOf x =
        g.refsOf x ++ (if x = c then [d] else []) ++ if x = d then [c] else [] := by
      intro x
      by_cases hx : (g.conn? x).isSome
      · rw [hr.refsOf (.inl hx)]
        split <;> split <;> simp
      · have hxc : x ≠ c := fun h => hx (h ▸ hc)
        have hxd : x ≠ d := fun h => hx (h ▸ hd)
        rw [hr.refsOf (.inr (by simp [hxc, hxd]))]
        simp [hxc, hxd]
    have hone : ∀ x y a b : ConnId,
        (if x = a then [b] else []).count y = if x = a ∧ y = b then 1 else 0 := by
      intro x y a b
      by_cases hx : x = a
      · by_cases hy : y = b
        · simp [hx, hy]
        · simp [hx, hy, Ne.symm hy]
      · simp [hx]
    refine hg.of_rewires hr rfl ?_
    intro x y
    simp only [hrefs, count_append, hone, hg.mirror x y, and_comm]
    omega

theorem unlink (hc : (g.conn? c).isSome) (hd : (g.conn? d).isSome) :
    ∃ g', g.unlink c d = .ok g' ∧ g'.Consistent := by
  refine ⟨g.cut c d, ?_, ?_⟩
  · unfold Network.unlink
    rw [demand_eq_ok (by simp [hc, hd])]
    rfl
  · have hr : Rewires _ g (g.cut c d) := rewires_forget.trans rewires_forget
    exact hg.of_rewires hr rfl (hg.mirror_of_filter (fun x => cut_eq_filter) symm_cut)

/-! ### Cutting all wires of a connection -/

end Consistent

theorem top_foldl_forget (l : List ConnId) (g : Network) :
    (l.foldl (fun g r => g.modifyConn r fun y => y.forget c) g).top = g.top := by
  induction l generalizing g with
  | nil => rfl
  | cons r l ih => exact ih _

theorem top_clearRefs (h : g.clearRefs c = .ok g') : g'.top = g.top := by
  simp only [clearRefs, bind_eq_ok, pure_eq_ok] at h
  rcases h with ⟨z, -, _, -, h⟩
  rw [← h, top_foldl_forget]
  rfl

theorem top_detach (h : g.detach c = .ok g') : g'.top = g.top := by
  simp only [detach, bind_eq_ok, pure_eq_ok] at h
  rcases h with ⟨g1, h1, _, -, _, -, h⟩
  rw [← h]
  show g1.top = g.top
  exact top_clearRefs h1

theorem top_reparent (h : g.reparent c n = .ok g') : g'.top = g.top := by
  simp only [reparent, bind_eq_ok, pure_eq_ok] at h
  rcases h with ⟨_, -, _, -, _, -, h⟩
  rw [← h]
  rfl

theorem top_retire (h : g.retire n = .ok g') : g'.top = g.top := by
  simp only [retire, bind_eq_ok, pure_eq_ok] at h
  rcases h with ⟨z, -, g1, h1, h⟩
  rw [← h]
  show g1.top = g.top
  refine foldlM_invariant (P := fun s : Network => s.top = g.top) ?_ ?_ h1
  · intro s x s' _ hs hstep
    exact (top_clearRefs hstep).trans hs
  · rfl

namespace Consistent

variable (hg : g.Consistent)
include hg

theorem clearRefs (hc : (g.conn? c).isSome) : ∃ g', g.clearRefs c = .ok g' ∧ g'.Consistent := by
  rcases exists_clearRefs hg.mirrored hc with ⟨g', h⟩
  exact ⟨g', h, hg.of_rewires (rewires_clearRefs hg.mirrored h) (top_clearRefs h)
    (hg.mirror_of_filter (clearRefs_eq_filter hg.mirrored h) fun _ _ => Bool.and_comm _ _)⟩

/-! ## Calls that move connections -/

theorem detach (hc : (g.conn? c).isSome) : ∃ g', g.detach c = .ok g' ∧ g'.Consistent := by
  rcases hg.exists_owner hc with ⟨n, ho, hn⟩
  rcases exists_detach hg.mirrored ho hn with ⟨g', h⟩
  have hd := applies_detach hg.mirrored hg.owner h
  refine ⟨g', h, hg.of_edit hd (top_detach h)
    (hg.mirror_of_filter (detached_eq_filter hd) fun _ _ => Bool.and_comm _ _) (Housed.detached hg.owner hd)
    (nodup_detached hd hg.nodup_conns) fun {x m} hx => ?_⟩
  rw [hd.ownerOf?] at hx
  exact hg.owner_isSome (Option.map_id' ▸ hx)

/-- The connection need not stand on a list before. -/
theorem reparent (hc : (g.conn? c).isSome) (ht : (g.node? t).isSome) :
    ∃ g', g.reparent c t = .ok g' ∧ g'.Consistent := by
  rcases hg.exists_owner hc with ⟨n, ho, hn⟩
  rcases exists_reparent ho hn ht with ⟨g', h⟩
  have hr := (applies_reparent hg.owner h).1
  refine ⟨g', h, hg.of_edit hr (top_reparent h) ?_ (Housed.reparented hg.owner hr hc ht)
    (nodup_reparented hr ht hg.nodup_conns) ?_⟩
  · intro x y
    rw [refsOf_reparented hr, refsOf_reparented hr]
    exact hg.mirror x y
  · intro x m hx
    rw [ownerOf?_reparented hr hc] at hx
    split at hx
    · exact Option.some.inj hx ▸ ht
    · exact hg.owner_isSome hx

/-! ## Calls that change the lists -/

theorem removeCell (n : NodeId) : (g.removeCell n).Consistent := by
  have hsub : ((g.removeCell n).cells ++ g.pins ++ g.pinNodes).Sublist
      (g.cells ++ g.pins ++ g.pinNodes) :=
    (filter_sublist.append (.refl _)).append (.refl _)
  exact { hg with
    listed_isSome := fun m hm => hg.listed_isSome m (hsub.subset hm)
    nodup_lists := hg.nodup_lists.sublist hsub }

/-- A node may be taken out of use also if it stands on no list, or was taken out of use before. -/
theorem retire (hn : (g.node? n).isSome) :
    ∃ g', g.retire n = .ok g' ∧ g'.Consistent ∧ ∀ m, (g'.node? m).isSome = (g.node? m).isSome := by
  rcases exists_retire hg.mirrored (fun c hc => hg.conn_isSome hc) hn with ⟨g', h⟩
  have hr := applies_retire hg.mirrored h
  refine ⟨g', h, hg.of_edit hr (top_retire h)
    (hg.mirror_of_filter (retired_eq_filter hr) fun _ _ => Bool.and_comm _ _) (Housed.retired hg.owner hr)
    (nodup_retired hr hg.nodup_conns) fun {x m} hx => ?_, fun m => hr.node?_isSome⟩
  rw [hr.ownerOf?] at hx
  exact hg.owner_isSome (Option.map_id' ▸ hx)

theorem foldlM_retire {l : List NodeId} (hl : ∀ n ∈ l, (g.node? n).isSome) :
    ∃ g', l.foldlM Network.retire g = .ok g' ∧ g'.Consistent := by
  induction l generalizing g with
  | nil => exact ⟨g, rfl, hg⟩
  | cons n l ih =>
    rcases hg.retire (hl n mem_cons_self) with ⟨g1, h1, hg1, hsome⟩
    have hl1 : ∀ m ∈ l, (g1.node? m).isSome := by
      intro m hm
      rw [hsome]
      exact hl m (mem_cons_of_mem n hm)
    rcases ih hg1 hl1 with ⟨g', h', hg'⟩
    exact ⟨g', foldlM_cons_eq_ok.mpr ⟨g1, h1, h'⟩, hg'⟩

theorem rebuildTop : ∃ g', g.rebuildTop = .ok g' ∧ g'.Consistent := by
  have hunread : ∀ n ∈ g.pinNodes.filter g.isUnread, (g.node? n).isSome := by
    intro n hn
    exact hg.listed_isSome n (mem_append_right _ (mem_filter.mp hn).1)
  rcases hg.foldlM_retire hunread with ⟨g1, h1, hg1⟩
  refine ⟨{ g1 with top := g1.equationOwners.flatMap g1.wiredSinks }, ?_, ?_⟩
  · rw [Network.rebuildTop, h1]
    rfl
  · -- what is collected stands on the list of a node
    refine { hg1 with top_isSome := fun c hc => ?_ }
    rcases mem_flatMap.mp hc with ⟨n, -, hcn⟩
    exact hg1.conn_isSome (mem_filter.mp hcn).1

/-! ## Sequences of calls -/

/-- A call with handles that were handed out succeeds and keeps a network consistent. -/
theorem call {call : Call} (h : call.Allocated g) : ∃ g', call.run g = .ok g' ∧ g'.Consistent := by
  cases call with
  | addNode name kind => exact ⟨_, rfl, hg.addNode name kind⟩
  | addCell name kind => exact ⟨_, rfl, hg.addCell name kind⟩
  | addConstant value => exact ⟨_, rfl, hg.addConstant value⟩
  | addPin name => exact ⟨_, rfl, hg.addPin name⟩
  | addPinNode name => exact ⟨_, rfl, hg.addPinNode name⟩
  | addConnection n name direction =>
    have hn : (g.node? n).isSome := h.1 n (by simp [Call.nodes])
    rcases Option.isSome_iff_exists.mp hn with ⟨z, hz⟩
    refine ⟨(g.attach n name direction).2, ?_, hg.attach hn name direction⟩
    simp only [Call.run, Network.addConnection, node_eq_ok.mpr hz]
    rfl
  | link a b => exact hg.link (h.2 a (by simp [Call.conns])) (h.2 b (by simp [Call.conns]))
  | unlink a b => exact hg.unlink (h.2 a (by simp [Call.conns])) (h.2 b (by simp [Call.conns]))
  | clearRefs c => exact hg.clearRefs (h.2 c (by simp [Call.conns]))
  | detach c => exact hg.detach (h.2 c (by simp [Call.conns]))
  | reparent c n => exact hg.reparent (h.2 c (by simp [Call.conns])) (h.1 n (by simp [Call.nodes]))
  | removeCell n => exact ⟨_, rfl, hg.removeCell n⟩
  | retire n =>
    rcases hg.retire (h.1 n (by simp [Call.nodes])) with ⟨g', hg', hc, -⟩
    exact ⟨g', hg', hc⟩
  | rebuildTop => exact hg.rebuildTop

theorem calls {calls : List Call} (h : Call.AllAllocated g calls) :
    ∃ g', calls.foldlM Call.run g = .ok g' ∧ g'.Consistent := by
  induction calls generalizing g with
  | nil => exact ⟨g, rfl, hg⟩
  | cons call calls ih =>
    rcases hg.call h.1 with ⟨g1, h1, hg1⟩
    have hrest := h.2
    rw [h1] at hrest
    rcases ih hg1 hrest with ⟨g', h', hg'⟩
    exact ⟨g', foldlM_cons_eq_ok.mpr ⟨g1, h1, h'⟩, hg'⟩

/-! ## What the check can find -/

theorem exists_path (hc : (g.conn? c).isSome) : ∃ s, g.path c = .ok s := by
  rcases Option.isSome_iff_exists.mp hc with ⟨z, hz⟩
  have hn : (g.node? z.owner).isSome := hg.owner_isSome (by rw [ownerOf?_def, hz]; rfl)
  rcases Option.isSome_iff_exists.mp hn with ⟨w, hw⟩
  refine ⟨w.name ++ "." ++ z.name, ?_⟩
  simp only [path, nodeName, conn_eq_ok.mpr hz, node_eq_ok.mpr hw, ok_bind]
  rfl

/-- A wire is listed at its other end, so it can only fail to face it. -/
theorem ends_checkRef {z : Conn} (hz : g.conn? c = some z) (hd : d ∈ z.refs) :
    Ends g.Clash (fun _ => True) (g.checkRef c z d) := by
  have href : d ∈ g.refsOf c := by rwa [refsOf_of_conn? hz]
  have hsome : (g.conn? d).isSome := hg.ref_isSome href
  rcases Option.isSome_iff_exists.mp hsome with ⟨w, hw⟩
  have hlists : w.refs.contains c := by
    rw [contains_iff_mem, ← refsOf_of_conn? hw]
    exact hg.mirrored href
  rcases hg.exists_path (by rw [hz]; rfl) with ⟨s, hs⟩
  rcases hg.exists_path hsome with ⟨s', hs'⟩
  unfold checkRef
  rw [conn_eq_ok.mpr hw, ok_bind]
  by_cases hface : z.direction.mayFace w.direction = true
  · rw [if_pos hface, if_pos hlists]
    exact .ok trivial
  · rw [if_neg hface, hs, hs']
    exact .error (.sameDirection hz hd hw (Bool.eq_false_iff.mpr hface) hs hs')

/-- A connection stands on its own node, so it can only have several drivers or a wire amiss. -/
theorem ends_checkConn (hc : c ∈ g.connsOf n) : Ends g.Clash (fun _ => True) (g.checkConn n c) := by
  have hsome : (g.conn? c).isSome := hg.conn_isSome hc
  rcases Option.isSome_iff_exists.mp hsome with ⟨z, hz⟩
  have howner : z.owner = n := by simpa [ownerOf?_def, hz] using hg.owner hc
  rcases hg.exists_path hsome with ⟨s, hs⟩
  unfold checkConn
  rw [conn_eq_ok.mpr hz, ok_bind, if_pos howner]
  by_cases hmany : z.direction = .input ∧ 1 < z.refs.length
  · rw [if_pos hmany, hs]
    exact .error (.drivers hz hmany.1 hmany.2 hs)
  · rw [if_neg hmany]
    exact Ends.forM fun d hd => hg.ends_checkRef hz hd

theorem ends_checkAll : Ends g.Clash (fun _ => True) g.checkAll := by
  refine Ends.forM fun n hn => ?_
  have hsome : (g.node? n).isSome := by
    apply hg.listed_isSome n
    simp only [mem_append] at hn ⊢
    tauto
  rcases Option.isSome_iff_exists.mp hsome with ⟨z, hz⟩
  unfold checkNode
  rw [node_eq_ok.mpr hz]
  refine Ends.forM fun c hc => hg.ends_checkConn ?_
  rwa [connsOf_of_node? hz]

/-! ## All records at once -/

/-- No node is listed twice. -/
theorem nodup_listings : g.listings.Nodup := by
  have hconns : ∀ i (h : i < g.nodes.items.toList.length),
      (g.nodes.items.toList[i]).conns = g.connsOf ⟨i⟩ := by
    intro i h
    have hi : i < g.nodes.items.size := by simpa using h
    simp [connsOf_def, node?, Arena.get?, hi]
  unfold listings
  rw [nodup_flatMap]
  constructor
  · intro z hz
    rcases getElem_of_mem hz with ⟨i, hi, rfl⟩
    rw [hconns]
    exact hg.nodup_conns ⟨i⟩
  · rw [pairwise_iff_getElem]
    intro i j hi hj hij
    show List.Disjoint _ _
    rw [hconns, hconns]
    intro c hc hc'
    -- the lists of two nodes share nothing, because a connection has one owner
    have hsame : (⟨i⟩ : NodeId) = ⟨j⟩ := Option.mem_unique (hg.owner hc) (hg.owner hc')
    have : i = j := congrArg NodeId.index hsame
    omega

theorem handlesInRange : g.HandlesInRange :=
  .of_views hg.conn_isSome hg.ref_isSome hg.owner_isSome hg.top_isSome hg.listed_isSome

end Consistent

/-- Calls from a new network on, each made with handles that were handed out before, succeed. In the
network that they lead to, two connections list each other equally often; no connection stands on two
lists or twice on one, and it stands on no list but that of its own node; every handle that is stored
was handed out; no node stands twice on the lists of cells, pins and pin nodes. If the check fails on
it, then for an input with several drivers or for a wire whose ends do not face each other. -/
theorem consistent_of_calls (name : String) (calls : List Call)
    (allocated : Call.AllAllocated (new name) calls) :
    ∃ g, calls.foldlM Call.run (new name) = .ok g ∧
      (∀ x y, (g.refsOf x).count y = (g.refsOf y).count x) ∧
      (g.listings.Nodup ∧ ∀ n, ∀ c ∈ g.connsOf n, g.ownerOf? c = some n) ∧
      g.HandlesInRange ∧
      (g.cells ++ g.pins ++ g.pinNodes).Nodup ∧
      ∀ e, g.checkAll = .error e → g.Clash e := by
  rcases (Consistent.new name).calls allocated with ⟨g, hrun, hg⟩
  refine ⟨g, hrun, hg.mirror, ⟨hg.nodup_listings, fun n c hc => hg.owner hc⟩, hg.handlesInRange,
    hg.nodup_lists, ?_⟩
  intro e he
  rcases hg.ends_checkAll with ⟨_, hok, -⟩ | ⟨e', he', hclash⟩
  · rw [hok] at he
    cases he
  · rw [he'] at he
    exact Except.error.inj he ▸ hclash

/-- Wires a connection to itself and twice to another one, gives away a connection that was taken off
its node, and takes a node out of use twice. -/
def oddCalls : List Call :=
  [.addCell "g" .inverter, .addConnection ⟨1⟩ "A" .input, .addConnection ⟨1⟩ "Y" .output,
    .addPin "y", .addConnection ⟨2⟩ "y" .input, .link ⟨0⟩ ⟨0⟩, .link ⟨2⟩ ⟨1⟩, .link ⟨2⟩ ⟨1⟩,
    .detach ⟨0⟩, .reparent ⟨0⟩ ⟨2⟩, .link ⟨0⟩ ⟨1⟩, .retire ⟨0⟩, .retire ⟨0⟩, .rebuildTop]

/-- After these calls the check finds an input with two drivers. -/
theorem consistent_of_oddCalls : Call.AllAllocated (new "m") oddCalls ∧
    ∃ g, oddCalls.foldlM Call.run (new "m") = .ok g ∧ (g.refsOf ⟨2⟩).count ⟨1⟩ = 2 ∧
      (g.refsOf ⟨1⟩).count ⟨2⟩ = 2 ∧ g.listings = [⟨1⟩, ⟨2⟩, ⟨0⟩] ∧
      g.Clash (.miscount "y.y" (.drivers 2)) := by
  have hall : Call.AllAllocated (new "m") oddCalls := by decide +kernel
  have hview : ((oddCalls.foldlM Call.run (new "m")).toOption.all fun g =>
      g.refsOf ⟨2⟩ = [⟨1⟩, ⟨1⟩] ∧ g.listings = [⟨1⟩, ⟨2⟩, ⟨0⟩] ∧
        g.checkAll = .error (.miscount "y.y" (.drivers 2))) = true := by decide +kernel
  rcases consistent_of_calls "m" oddCalls hall with ⟨g, hrun, hmirror, -, -, -, hcheck⟩
  rw [hrun] at hview
  rcases of_decide_eq_true hview with ⟨hrefs, hlistings, herror⟩
  have htwo : (g.refsOf ⟨2⟩).count ⟨1⟩ = 2 := by
    rw [hrefs]
    rfl
  exact ⟨hall, g, hrun, htwo, (hmirror ⟨1⟩ ⟨2⟩).trans htwo, hlistings, hcheck _ herror⟩

end PldSynth.Network
