import PldSynth.Network.PinNode
import PldSynth.Proofs.Attempt

/-!
# What a network shows after each edit

A network is known by the records behind its handles (`node?`, `conn?`) and by its three lists. This
module says what the small edits do to the records, and opens the questions of a network as
statements about them.
-/

namespace PldSynth

open Attempt

/-! ## Records -/

namespace Network

/-- The record of a node, if the handle was handed out. -/
def node? (g : Network) (n : NodeId) : Option Node :=
  g.nodes.get? n.index

/-- The record of a connection, if the handle was handed out. -/
def conn? (g : Network) (c : ConnId) : Option Conn :=
  g.conns.get? c.index

/-- What a node has taken over. -/
def absorbedOf (g : Network) (n : NodeId) : Absorbed :=
  ((g.node? n).map Node.absorbed).getD .nothing

/-- The value of a constant. -/
def constantOf? (g : Network) (n : NodeId) : Option Nat :=
  (g.node? n).bind Node.constant

/-- The name of a node. -/
def nodeNameOf? (g : Network) (n : NodeId) : Option String :=
  (g.node? n).map Node.name

/-- The name of a connection. -/
def connNameOf? (g : Network) (c : ConnId) : Option String :=
  (g.conn? c).map Conn.name

variable {g g' : Network} {n m : NodeId} {c d : ConnId} {s : String} {l : List ConnId} {p : NodeKind → Bool}
  {k : NodeKind} {x : Node} {o : Option ConnId}

theorem connsOf_def : g.connsOf n = ((g.node? n).map Node.conns).getD [] := rfl
theorem kindOf?_def : g.kindOf? n = (g.node? n).map Node.kind := rfl
theorem refsOf_def : g.refsOf c = ((g.conn? c).map Conn.refs).getD [] := rfl
theorem directionOf?_def : g.directionOf? c = (g.conn? c).map Conn.direction := rfl
theorem ownerOf?_def : g.ownerOf? c = (g.conn? c).map Conn.owner := rfl

theorem NodeId.ext_index {m n : NodeId} : m = n ↔ m.index = n.index := by
  cases m; cases n; simp

theorem ConnId.ext_index {c d : ConnId} : c = d ↔ c.index = d.index := by
  cases c; cases d; simp

/-- A handle was handed out exactly if its index is below the size of the arena. -/
theorem node?_isSome : (g.node? n).isSome ↔ n.index < g.nodes.size :=
  Arena.get?_isSome_iff _ _

theorem conn?_isSome : (g.conn? c).isSome ↔ c.index < g.conns.size :=
  Arena.get?_isSome_iff _ _

theorem isSome_of_kindOf? (h : g.kindOf? n = some k) : (g.node? n).isSome := by
  cases hn : g.node? n with
  | none => simp [kindOf?_def, hn] at h
  | some => rfl

theorem isSome_of_ownerOf? (h : g.ownerOf? c = some n) : (g.conn? c).isSome := by
  cases hc : g.conn? c with
  | none => simp [ownerOf?_def, hc] at h
  | some => rfl

theorem isSome_of_connNameOf? (h : g.connNameOf? c = some s) : (g.conn? c).isSome := by
  cases hc : g.conn? c with
  | none => simp [connNameOf?, hc] at h
  | some => rfl

theorem node?_eq_none (h : g.nodes.size ≤ n.index) : g.node? n = none := by
  rw [← Option.not_isSome_iff_eq_none, node?_isSome]
  omega

theorem conn?_eq_none (h : g.conns.size ≤ c.index) : g.conn? c = none := by
  rw [← Option.not_isSome_iff_eq_none, conn?_isSome]
  omega

/-! ## Questions -/

theorem node_eq_ok : g.node n = .ok x ↔ g.node? n = some x := by
  unfold Network.node node?
  split <;> simp_all

theorem conn_eq_ok {x : Conn} : g.conn c = .ok x ↔ g.conn? c = some x := by
  unfold Network.conn conn?
  split <;> simp_all

theorem owner_eq_ok : g.owner c = .ok n ↔ g.ownerOf? c = some n := by
  simp only [Network.owner, bind_eq_ok, pure_eq_ok, conn_eq_ok, ownerOf?_def,
    Option.map_eq_some_iff]

theorem nodeKind_eq_ok : g.nodeKind n = .ok k ↔ g.kindOf? n = some k := by
  simp only [nodeKind, bind_eq_ok, pure_eq_ok, node_eq_ok, kindOf?_def,
    Option.map_eq_some_iff]

theorem nodeName_eq_ok : g.nodeName n = .ok s ↔ g.nodeNameOf? n = some s := by
  simp only [nodeName, bind_eq_ok, pure_eq_ok, node_eq_ok, nodeNameOf?,
    Option.map_eq_some_iff]

/-- The inputs of a node that was handed out. -/
theorem inputs_eq_ok : g.inputs n = .ok l ↔ (g.node? n).isSome ∧ (g.connsOf n).filter g.isInput = l := by
  simp only [inputs, bind_eq_ok, pure_eq_ok, node_eq_ok, connsOf_def]
  cases g.node? n <;> simp

theorem sinks_eq_ok : g.sinks n = .ok l ↔ (g.node? n).isSome ∧ (g.connsOf n).filter g.isSink = l := by
  simp only [sinks, bind_eq_ok, pure_eq_ok, node_eq_ok, connsOf_def]
  cases g.node? n <;> simp

theorem output?_eq_ok : g.output? n = .ok o ↔ (g.node? n).isSome ∧ (g.connsOf n).find? g.isOutput = o := by
  simp only [output?, bind_eq_ok, pure_eq_ok, node_eq_ok, connsOf_def]
  cases g.node? n <;> simp

theorem driver?_eq_ok : g.driver? c = .ok o ↔ (g.conn? c).isSome ∧ (g.refsOf c).head? = o := by
  simp only [driver?, bind_eq_ok, pure_eq_ok, conn_eq_ok, refsOf_def]
  cases g.conn? c <;> simp

theorem fanOut_eq_ok {k : Nat} : g.fanOut c = .ok k ↔ (g.conn? c).isSome ∧ (g.refsOf c).length = k := by
  simp only [fanOut, bind_eq_ok, pure_eq_ok, conn_eq_ok, refsOf_def]
  cases g.conn? c <;> simp

theorem refsOf_of_conn? {x : Conn} (h : g.conn? c = some x) : g.refsOf c = x.refs := by
  simp [refsOf_def, h]

theorem connsOf_of_node? (h : g.node? n = some x) : g.connsOf n = x.conns := by
  simp [connsOf_def, h]

theorem hasKind_iff : g.hasKind p n ↔ ∃ k, g.kindOf? n = some k ∧ p k := by
  rw [hasKind]
  cases g.kindOf? n <;> simp

theorem hasKind_of (hk : g.kindOf? n = some k) (hp : p k) : g.hasKind p n :=
  hasKind_iff.mpr ⟨k, hk, hp⟩

theorem hasKind_congr (h : g'.kindOf? n = g.kindOf? n) : g'.hasKind p n = g.hasKind p n := by
  rw [hasKind, hasKind, h]

/-! ## Directions -/

theorem isSink_eq_not_isOutput (h : (g.conn? c).isSome) : g.isSink c = !g.isOutput c := by
  obtain ⟨x, hx⟩ := Option.isSome_iff_exists.mp h
  rw [isSink, isOutput, directionOf?_def, hx]
  cases x with
  | mk o d nm rs => cases d <;> rfl

theorem isSome_of_isSink (h : g.isSink c) : (g.conn? c).isSome := by
  rw [isSink, directionOf?_def] at h
  cases hc : g.conn? c <;> simp_all

theorem isSome_of_isOutput (h : g.isOutput c) : (g.conn? c).isSome := by
  rw [isOutput, directionOf?_def] at h
  cases hc : g.conn? c <;> simp_all

theorem exists_conn_of_isOutput (h : g.isOutput c) : ∃ x, g.conn? c = some x ∧ x.direction.isOutput := by
  rw [isOutput, beq_iff_eq, directionOf?_def, Option.map_eq_some_iff] at h
  rcases h with ⟨x, hx, hdir⟩
  exact ⟨x, hx, by rw [hdir]; rfl⟩

/-- No connection is both driven and an output. -/
theorem not_isSink_of_isOutput (h : g.isOutput c) : g.isSink c = false := by
  rw [isSink_eq_not_isOutput (isSome_of_isOutput h), h, Bool.not_true]

theorem ne_of_isSink (hs : g.isSink c) (ho : g.isOutput d) : c ≠ d := by
  rintro rfl
  simp [not_isSink_of_isOutput ho] at hs

theorem isSink_of_isInput (h : g.isInput c) : g.isSink c := by
  rw [isInput, beq_iff_eq] at h
  simp [isSink, h, Direction.isInput]

theorem isSink_congr (h : g'.directionOf? c = g.directionOf? c) : g'.isSink c = g.isSink c := by
  rw [isSink, isSink, h]

theorem isOutput_congr (h : g'.directionOf? c = g.directionOf? c) : g'.isOutput c = g.isOutput c := by
  rw [isOutput, isOutput, h]

theorem isInput_congr (h : g'.directionOf? c = g.directionOf? c) : g'.isInput c = g.isInput c := by
  rw [isInput, isInput, h]

end Network

end PldSynth
