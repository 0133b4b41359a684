import PldSynth.Arena
import PldSynth.Network.Error

/-!
# Gate networks

A network holds nodes and connections in two arenas. A node lists the connections it owns, and a
connection lists the connections it is wired to, so every wire is written down on both of its ends.
The nodes in use stand in three lists: the cells, the pins, and the pin nodes.

Nothing in the type forces the two ends of a wire to agree. A network is plain data, and agreement
is a property that operations keep (`PldSynth.Network.Wiring`) or that is checked
(`PldSynth.Network.Consistency`).

A handle that was never handed out cannot be followed: reading through it fails with
`NetworkError.unallocated`. Writing never fails, so an operation reads through every handle that it
follows before it writes.
-/

namespace PldSynth

/-- A handle of a node. -/
structure NodeId where
  index : Nat
  deriving DecidableEq, Repr, Inhabited

/-- A handle of a connection. -/
structure ConnId where
  index : Nat
  deriving DecidableEq, Repr, Inhabited

/-- The short text of a node handle. -/
def NodeId.label (n : NodeId) : String :=
  "n" ++ toString n.index

/-- The short text of a connection handle. -/
def ConnId.label (c : ConnId) : String :=
  "c" ++ toString c.index

/-- A node: a cell of the design, a pin, or a pin node. -/
structure Node where
  name : String
  kind : NodeKind
  /-- The value of a constant. -/
  constant : Option Nat := none
  /-- The connections that the node owns. -/
  conns : List ConnId := []
  /-- What a pin or pin node has taken over. -/
  absorbed : Absorbed := .nothing
  deriving DecidableEq, Repr, Inhabited

/-- A connection of a node. -/
structure Conn where
  /-- The node that the connection belongs to. -/
  owner : NodeId
  direction : Direction
  name : String
  /-- The connections at the other ends of its wires. -/
  refs : List ConnId := []
  deriving DecidableEq, Repr, Inhabited

/-- The connection after one more wire to `c`. -/
def Conn.note (x : Conn) (c : ConnId) : Conn :=
  { x with refs := x.refs ++ [c] }

/-- The connection without its wires to `c`. -/
def Conn.forget (x : Conn) (c : ConnId) : Conn :=
  { x with refs := x.refs.filter (· ≠ c) }

/-- The network of one module. -/
structure Network where
  nodes : Arena Node := {}
  conns : Arena Conn := {}
  /-- The cells in use. -/
  cells : List NodeId := []
  /-- The pins in use. -/
  pins : List NodeId := []
  /-- The pin nodes in use. -/
  pinNodes : List NodeId := []
  /-- The inputs that get an equation, as last collected. -/
  top : List ConnId := []
  /-- How many pin-node names were made up. -/
  pinNodeNames : Nat := 0
  /-- How many constant names were made up. -/
  constantNames : Nat := 0
  deriving DecidableEq, Repr, Inhabited

/-- The outcome of an operation on a network. -/
abbrev Attempt := Except NetworkError

/-- The name of the input of a pin node that was put into a wire. -/
def pinNodeInput : String := "_PIN_IN"

/-- The name of the output of a node that was put into a wire. -/
def pinNodeOutput : String := "_PIN_OUT"

namespace Network

/-- The node of the module itself. -/
def designId : NodeId := ⟨0⟩

/-- A network with nothing but the node of the module. -/
def new (name : String) : Network :=
  { nodes := ((Arena.mk #[]).alloc { name, kind := .design }).2 }

/-! ## Following handles -/

/-- The record of a node. -/
def node (g : Network) (n : NodeId) : Attempt Node :=
  match g.nodes.get? n.index with
  | some x => .ok x
  | none => .error .unallocated

/-- The record of a connection. -/
def conn (g : Network) (c : ConnId) : Attempt Conn :=
  match g.conns.get? c.index with
  | some x => .ok x
  | none => .error .unallocated

/-- Fails if one of the connections was never handed out. -/
def demand (g : Network) (cs : List ConnId) : Attempt Unit :=
  cs.forM fun c => do
    let _ ← g.conn c

/-- Changes the record of a node. -/
def modifyNode (g : Network) (n : NodeId) (f : Node → Node) : Network :=
  { g with nodes := g.nodes.modify n.index f }

/-- Changes the record of a connection. -/
def modifyConn (g : Network) (c : ConnId) (f : Conn → Conn) : Network :=
  { g with conns := g.conns.modify c.index f }

/-- Changes the record of a node that was handed out. -/
def updateNode (g : Network) (n : NodeId) (f : Node → Node) : Attempt Network := do
  let _ ← g.node n
  return g.modifyNode n f

/-- Changes the record of a connection that was handed out. -/
def updateConn (g : Network) (c : ConnId) (f : Conn → Conn) : Attempt Network := do
  let _ ← g.conn c
  return g.modifyConn c f

/-! ## Views

What a network shows to a reader who knows its handles. A handle that was never handed out shows
nothing. -/

/-- The connections that a node owns. -/
def connsOf (g : Network) (n : NodeId) : List ConnId :=
  ((g.nodes.get? n.index).map Node.conns).getD []

/-- The kind of a node. -/
def kindOf? (g : Network) (n : NodeId) : Option NodeKind :=
  (g.nodes.get? n.index).map Node.kind

/-- The connections at the other ends of the wires of a connection. -/
def refsOf (g : Network) (c : ConnId) : List ConnId :=
  ((g.conns.get? c.index).map Conn.refs).getD []

/-- The direction of a connection. -/
def directionOf? (g : Network) (c : ConnId) : Option Direction :=
  (g.conns.get? c.index).map Conn.direction

/-- The node that a connection belongs to. -/
def ownerOf? (g : Network) (c : ConnId) : Option NodeId :=
  (g.conns.get? c.index).map Conn.owner

/-- The connection is an input and nothing else. -/
def isInput (g : Network) (c : ConnId) : Bool :=
  g.directionOf? c == some .input

/-- The connection is an output and nothing else. -/
def isOutput (g : Network) (c : ConnId) : Bool :=
  g.directionOf? c == some .output

/-- The connection can be driven. -/
def isSink (g : Network) (c : ConnId) : Bool :=
  (g.directionOf? c).any Direction.isInput

/-- The connection can drive. -/
def isSource (g : Network) (c : ConnId) : Bool :=
  (g.directionOf? c).any Direction.isOutput

/-- The node is of a kind that satisfies `p`. -/
def hasKind (g : Network) (p : NodeKind → Bool) (n : NodeId) : Bool :=
  (g.kindOf? n).any p

/-! ## Questions -/

/-- The name of a node. -/
def nodeName (g : Network) (n : NodeId) : Attempt String :=
  return (← g.node n).name

/-- The kind of a node. -/
def nodeKind (g : Network) (n : NodeId) : Attempt NodeKind :=
  return (← g.node n).kind

/-- The node that a connection belongs to. -/
def owner (g : Network) (c : ConnId) : Attempt NodeId :=
  return (← g.conn c).owner

/-- The name of a connection after the name of its node. -/
def path (g : Network) (c : ConnId) : Attempt String := do
  let x ← g.conn c
  return (← g.nodeName x.owner) ++ "." ++ x.name

/-- The inputs of a node. -/
def inputs (g : Network) (n : NodeId) : Attempt (List ConnId) :=
  return (← g.node n).conns.filter g.isInput

/-- The inputs and bidirectional connections of a node. -/
def sinks (g : Network) (n : NodeId) : Attempt (List ConnId) :=
  return (← g.node n).conns.filter g.isSink

/-- The first output of a node. -/
def output? (g : Network) (n : NodeId) : Attempt (Option ConnId) :=
  return (← g.node n).conns.find? g.isOutput

/-- The first output or bidirectional connection of a node. -/
def source? (g : Network) (n : NodeId) : Attempt (Option ConnId) :=
  return (← g.node n).conns.find? g.isSource

/-- The connection that drives an input, if the input is wired. -/
def driver? (g : Network) (c : ConnId) : Attempt (Option ConnId) :=
  return (← g.conn c).refs.head?

/-- How many wires leave an output. -/
def fanOut (g : Network) (c : ConnId) : Attempt Nat :=
  return (← g.conn c).refs.length

/-- Whether the node that a connection belongs to still lists it. -/
def isAttached (g : Network) (c : ConnId) : Attempt Bool := do
  let x ← g.conn c
  return (← g.node x.owner).conns.contains c

/-- The drivers of those connections that are wired. -/
def driversOf (g : Network) (cs : List ConnId) : Attempt (List ConnId) :=
  return (← cs.mapM g.driver?).filterMap id

/-! ## Growing -/

/-- Adds a node that stands in no list yet. -/
def addNode (g : Network) (name : String) (kind : NodeKind) : NodeId × Network :=
  let (i, nodes) := g.nodes.alloc { name, kind }
  (⟨i⟩, { g with nodes })

/-- Adds a cell. -/
def addCell (g : Network) (name : String) (kind : NodeKind) : NodeId × Network :=
  let (n, g) := g.addNode name kind
  (n, { g with cells := g.cells ++ [n] })

/-- Adds a pin. -/
def addPin (g : Network) (name : String) : NodeId × Network :=
  let (n, g) := g.addNode name .pin
  (n, { g with pins := g.pins ++ [n] })

/-- Adds a pin node. -/
def addPinNode (g : Network) (name : String) : NodeId × Network :=
  let (n, g) := g.addNode name .pinNode
  (n, { g with pinNodes := g.pinNodes ++ [n] })

/-- Makes up a name for a pin node. -/
def freshPinNodeName (g : Network) : String × Network :=
  ("PN" ++ toString (g.pinNodeNames + 1), { g with pinNodeNames := g.pinNodeNames + 1 })

/-- Adds an unwired connection to a node. -/
def attach (g : Network) (n : NodeId) (name : String) (direction : Direction) :
    ConnId × Network :=
  let (i, conns) := g.conns.alloc { owner := n, direction, name }
  let c : ConnId := ⟨i⟩
  (c, modifyNode { g with conns } n fun x => { x with conns := x.conns ++ [c] })

/-- Adds an unwired connection to a node that was handed out. -/
def addConnection (g : Network) (n : NodeId) (name : String) (direction : Direction) :
    Attempt (ConnId × Network) := do
  let _ ← g.node n
  return g.attach n name direction

/-- Adds a cell of a fixed value, with its output. -/
def addConstant (g : Network) (value : Nat) : (NodeId × ConnId) × Network :=
  let n : NodeId := ⟨g.nodes.size⟩
  let (i, conns) := g.conns.alloc { owner := n, direction := .output, name := "OUT" }
  let (_, nodes) := g.nodes.alloc
    { name := "CONST" ++ toString g.constantNames, kind := .constant, constant := some value,
      conns := [⟨i⟩] }
  ((n, ⟨i⟩),
    { g with nodes, conns, cells := g.cells ++ [n], constantNames := g.constantNames + 1 })

end Network

end PldSynth
