import PldSynth.Network.Consistency
import PldSynth.Network.NodeSet
import PldSynth.Network.PinNode
import PldSynth.Worklist

/-!
# Port pins and names for shared signals

Every port of the module becomes a pin. Then every gate output with several consumers gets a pin
node, so that a shared term is written once and named elsewhere.

The shared outputs are found by a walk from the pins and the sequential cells towards the drivers,
which enters every node once.
-/

namespace PldSynth.Network

/-- Turns one port of the module into a pin of the same name. -/
def exposePort (g : Network) (port : ConnId) : Attempt Network := do
  let (pin, g) := g.addPin (← g.conn port).name
  g.reparent port pin

/-- Turns the ports of the module into pins, in order. -/
def exposePorts (g : Network) : Attempt Network := do
  (← g.node designId).conns.foldlM exposePort g

/-- One item of the walk: a node to enter, or an input to follow to its driver. -/
inductive Stop
  | node (n : NodeId)
  | input (c : ConnId)
  deriving DecidableEq, Repr

/-- The state of the walk: the network so far, the nodes entered, and the pin nodes added. -/
structure Walk where
  net : Network
  entered : NodeSet
  added : Nat
  deriving DecidableEq, Repr

namespace Walk

/-- Enters a node, unless it is a pin node or was entered before: its inputs come next. -/
def enter (w : Walk) (n : NodeId) : Attempt (Walk × List Stop) := do
  if (← w.net.nodeKind n) = .pinNode || !w.entered.isNew n then
    return (w, [])
  return ({ w with entered := w.entered.insert n }, (← w.net.sinks n).map .input)

/-- Puts a pin node behind an output if it belongs to a gate or a constant and has several
consumers. -/
def nameIfShared (w : Walk) (output : ConnId) (kind : NodeKind) (consumers : Nat) :
    Attempt Walk := do
  if !(kind.isSequential || kind.isNamed) && 1 < consumers then
    let (_, net) ← w.net.putPinNode output
    return { w with net, added := w.added + 1 }
  return w

/-- Follows an input to its driver: a shared driver gets a pin node, and its node comes next unless
it has a name. -/
def follow (w : Walk) (c : ConnId) : Attempt (Walk × List Stop) := do
  match (← w.net.conn c).refs with
  | [] => return (w, [])
  | [output] =>
    let x ← w.net.conn output
    unless x.direction.isOutput do
      throw (.mismatch (← w.net.path c) (.nonOutputDriver (← w.net.path output)))
    let kind ← w.net.nodeKind x.owner
    let w ← w.nameIfShared output kind x.refs.length
    return (w, if kind.isNamed then [] else [.node x.owner])
  | refs => throw (.miscount (← w.net.path c) (.drivers refs.length))

/-- One step of the walk. -/
def step (w : Walk) : Stop → Attempt (Walk × List Stop)
  | .node n => w.enter n
  | .input c => w.follow c

end Walk

/-- How many connections are listed on nodes, over all nodes. -/
def listedConns (g : Network) : Nat :=
  (g.nodes.items.toList.flatMap Node.conns).length

/-- Where the walk starts: the pins, then the sequential cells. -/
def walkRoots (g : Network) : List NodeId :=
  g.pins ++ g.cells.filter (g.hasKind NodeKind.isSequential)

/-- Walks from every root and gives every shared gate output a pin node. Every node is entered at
most once, brings up at most its own connections, and each of these at most one node. -/
def nameSharedOutputs (g : Network) : Attempt Walk :=
  drain Walk.step (g.walkRoots.length + 2 * g.listedConns)
    { net := g, entered := .empty g.nodes.size, added := 0 } (g.walkRoots.map .node)

/-- Turns the ports into pins and gives every shared gate output a pin node. The answer says whether
any pin or pin node was added. -/
def branch (g : Network) : Attempt (Bool × Network) := do
  let ports := (← g.node designId).conns.length
  let w ← (← g.exposePorts).nameSharedOutputs
  let g ← w.net.rebuildTop
  g.checkAll
  return (0 < ports + w.added, g)

end PldSynth.Network
