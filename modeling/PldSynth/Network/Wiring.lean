import PldSynth.Network.Basic

/-!
# Wiring

Operations that draw, cut and move wires. Each one edits both ends of every wire it touches, so
that two connections that list each other go on listing each other.
-/

namespace PldSynth.Network

/-! ## Wires -/

/-- Draws a wire between two connections. -/
def wire (g : Network) (input output : ConnId) : Network :=
  (g.modifyConn input fun x => x.note output).modifyConn output fun x => x.note input

/-- Cuts every wire between two connections. -/
def cut (g : Network) (a b : ConnId) : Network :=
  (g.modifyConn a fun x => x.forget b).modifyConn b fun x => x.forget a

/-- Replaces the wires on one end only. -/
def setRefs (g : Network) (c : ConnId) (refs : List ConnId) : Network :=
  g.modifyConn c fun x => { x with refs }

/-- Draws a wire from an output to an input. -/
def link (g : Network) (input output : ConnId) : Attempt Network := do
  g.demand [input, output]
  return g.wire input output

/-- Cuts every wire between two connections. -/
def unlink (g : Network) (a b : ConnId) : Attempt Network := do
  g.demand [a, b]
  return g.cut a b

/-- Cuts every wire of a connection. -/
def clearRefs (g : Network) (c : ConnId) : Attempt Network := do
  let x ← g.conn c
  g.demand x.refs
  return x.refs.foldl (fun g r => g.modifyConn r fun y => y.forget c) (g.setRefs c [])

/-! ## Ownership -/

/-- Takes a connection off the list of a node. -/
def unlist (g : Network) (n : NodeId) (c : ConnId) : Network :=
  g.modifyNode n fun x => { x with conns := x.conns.filter (· ≠ c) }

/-- Gives a connection to another node. Its wires stay. -/
def reparent (g : Network) (c : ConnId) (n : NodeId) : Attempt Network := do
  let old ← g.owner c
  let _ ← g.node old
  let _ ← g.node n
  let g := (g.unlist old c).modifyConn c fun x => { x with owner := n }
  return g.modifyNode n fun x => { x with conns := x.conns ++ [c] }

/-- Cuts every wire of a connection and takes it off the list of its node. -/
def detach (g : Network) (c : ConnId) : Attempt Network := do
  let g ← g.clearRefs c
  let old ← g.owner c
  let _ ← g.node old
  return g.unlist old c

/-- Renames a node. -/
def renameNode (g : Network) (n : NodeId) (name : String) : Network :=
  g.modifyNode n fun x => { x with name }

/-- Renames a connection. -/
def renameConn (g : Network) (c : ConnId) (name : String) : Network :=
  g.modifyConn c fun x => { x with name }

/-- Records that a node has taken over what `a` says, on top of what it had taken over. -/
def absorb (g : Network) (n : NodeId) (a : Absorbed) : Network :=
  g.modifyNode n fun x => { x with absorbed := x.absorbed.union a }

/-! ## Lists -/

/-- Takes a node off the list of cells. -/
def removeCell (g : Network) (n : NodeId) : Network :=
  { g with cells := g.cells.filter (· ≠ n) }

/-- Takes a node off every list. -/
def removeNode (g : Network) (n : NodeId) : Network :=
  { g with
    cells := g.cells.filter (· ≠ n)
    pins := g.pins.filter (· ≠ n)
    pinNodes := g.pinNodes.filter (· ≠ n) }

/-- Takes a node out of use: cuts the wires of its connections, drops them, and takes the node off
every list. -/
def retire (g : Network) (n : NodeId) : Attempt Network := do
  let cs := (← g.node n).conns
  let g ← cs.foldlM clearRefs (g.modifyNode n fun x => { x with conns := [] })
  return g.removeNode n

/-- The nodes whose inputs get an equation: pins, pin nodes and sequential cells. -/
def equationOwners (g : Network) : List NodeId :=
  g.pins ++ g.pinNodes ++ g.cells.filter (g.hasKind NodeKind.isSequential)

/-- The connections of a node that can be driven and are wired. -/
def wiredSinks (g : Network) (n : NodeId) : List ConnId :=
  (g.connsOf n).filter fun c => g.isSink c && !(g.refsOf c).isEmpty

/-- A pin node without a consumer: it has no output, or nothing is wired to its output. -/
def isUnread (g : Network) (n : NodeId) : Bool :=
  match (g.connsOf n).find? g.isOutput with
  | some o => (g.refsOf o).isEmpty
  | none => true

/-- Retires the pin nodes without a consumer, then collects the inputs that get an equation. -/
def rebuildTop (g : Network) : Attempt Network := do
  let g ← (g.pinNodes.filter g.isUnread).foldlM retire g
  return { g with top := g.equationOwners.flatMap g.wiredSinks }

end PldSynth.Network
