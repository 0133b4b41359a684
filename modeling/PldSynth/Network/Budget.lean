import PldSynth.Network.Consistency
import PldSynth.Network.Sharing

/-!
# The pin-node budget

A device has few places for pin nodes. Where there are more pin nodes than places, purely
combinational pin nodes are removed, the cheapest first: the logic behind such a pin node is copied
for each of its consumers, which then no longer need its name.
-/

namespace PldSynth.Network

/-! ## The logic behind an output -/

/-- The logic behind an output: the nodes that a copy consists of, in the order in which they are
reached, and the nodes at which it ends. -/
structure Cone where
  inner : List NodeId
  seen : NodeSet
  boundary : NodeSet
  deriving DecidableEq, Repr

/-- Follows one output to its node. The node ends the cone, or it belongs to it and its drivers come
next. -/
def coneStep (g : Network) (cone : Cone) (output : ConnId) : Attempt (Cone × List ConnId) := do
  let n ← g.owner output
  if (← g.nodeKind n).isBoundary then
    return ({ cone with boundary := cone.boundary.insert n }, [])
  if !cone.seen.isNew n then
    return (cone, [])
  return ({ cone with inner := cone.inner ++ [n], seen := cone.seen.insert n },
    ← g.driversOf (← g.inputs n))

/-- The logic behind an output. -/
def coneOf (g : Network) (output : ConnId) : Attempt Cone :=
  drain g.coneStep (1 + g.listedConns)
    { inner := [], seen := .empty g.nodes.size, boundary := .empty g.nodes.size } [output]

/-- Whether the logic of a pin node reads the pin node itself. -/
def isFeedback (g : Network) (pn : NodeId) : Attempt Bool := do
  (← g.driversOf (← g.sinks pn)).anyM fun d => return (← g.coneOf d).boundary.contains pn

/-! ## Cost -/

/-- Counts one output. The drivers of its node come next, unless the node is an atom or was counted
before. -/
def costStep (g : Network) (s : NodeSet × Nat) (output : ConnId) :
    Attempt ((NodeSet × Nat) × List ConnId) := do
  let n ← g.owner output
  if !s.1.isNew n || (← g.nodeKind n).isTerminal then
    return ((s.1, s.2 + 1), [])
  return ((s.1.insert n, s.2 + 1), ← g.driversOf (← g.sinks n))

/-- The number of atoms and gates in the expression behind a pin node. -/
def expressionSize (g : Network) (pn : NodeId) : Attempt Nat := do
  let drivers ← g.driversOf (← g.sinks pn)
  let s ← drain g.costStep (drivers.length + g.listedConns)
    ((NodeSet.empty g.nodes.size).insert pn, 0) drivers
  return s.2

/-- The size of the text that copies of a pin node would take: the size of its expression, once for
each consumer. -/
def copyCost (g : Network) (pn : NodeId) : Attempt Nat := do
  let size ← g.expressionSize pn
  match ← g.output? pn with
  | none => return 0
  | some o => return size * (← g.fanOut o)

/-- The cost of a pin node that may be removed: one that took over nothing and does not read
itself. -/
def offer? (g : Network) (pn : NodeId) : Attempt (Option (NodeId × Nat)) := do
  unless (← g.node pn).absorbed.isNothing do
    return none
  if ← g.isFeedback pn then
    return none
  return some (pn, ← g.copyCost pn)

/-- The first of the cheapest offers. -/
def cheapest : List (NodeId × Nat) → Option (NodeId × Nat)
  | [] => none
  | x :: rest =>
    match cheapest rest with
    | none => some x
    | some y => if y.2 < x.2 then some y else some x

/-- The pin node to remove next. -/
def nextCandidate (g : Network) : Attempt (Option NodeId) := do
  let offers := (← g.pinNodes.mapM g.offer?).filterMap id
  return (cheapest offers).map Prod.fst

/-! ## Copies -/

/-- Adds a copy of a connection to a node, without its wires. -/
def copyConn (target : NodeId) (g : Network) (c : ConnId) : Attempt Network := do
  let x ← g.conn c
  return (g.attach target x.name x.direction).2

/-- Adds a copy of a node as a cell, without the wires. -/
def copyNode (g : Network) (n : NodeId) : Attempt (NodeId × Network) := do
  let x ← g.node n
  let (copy, g) := g.addCell x.name x.kind
  let g := g.modifyNode copy fun y => { y with constant := x.constant }
  return (copy, ← x.conns.foldlM (copyConn copy) g)

/-- Copies the nodes of a list and pairs each with its copy. -/
def copyNodes (g : Network) (ns : List NodeId) : Attempt (List (NodeId × NodeId) × Network) :=
  ns.foldlM
    (fun s n => do
      let (copy, g) ← s.2.copyNode n
      return (s.1 ++ [(n, copy)], g))
    ([], g)

/-- What the copy of an input reads whose own driver is `source`: the copy of the driver if it was
copied, the consumer itself if the driver is the pin node that goes, else the same driver. -/
def copiedSource? (g : Network) (copies : List (NodeId × NodeId)) (pn : NodeId)
    (consumer source : ConnId) : Attempt (Option ConnId) := do
  let n ← g.owner source
  match copies.lookup n with
  | some copy => g.output? copy
  | none =>
    if n = pn then
      g.source? (← g.owner consumer)
    else
      return some source

/-- Wires the copy of one connection like the connection itself. -/
def wireCopiedConn (copies : List (NodeId × NodeId)) (pn : NodeId) (consumer : ConnId)
    (g : Network) (pair : ConnId × ConnId) : Attempt Network := do
  let x ← g.conn pair.1
  unless x.direction.isInput do
    return g
  match x.refs.head? with
  | none => return g
  | some source =>
    match ← g.copiedSource? copies pn consumer source with
    | some target => return g.wire pair.2 target
    | none => throw (.obstacle (.nothingToRead (← g.path pair.2)))

/-- Wires the copy of one node like the node itself. -/
def wireCopy (copies : List (NodeId × NodeId)) (pn : NodeId) (consumer : ConnId) (g : Network)
    (pair : NodeId × NodeId) : Attempt Network := do
  let old := (← g.node pair.1).conns
  let new := (← g.node pair.2).conns
  (old.zip new).foldlM (wireCopiedConn copies pn consumer) g

/-- Copies a cone for one consumer and returns the copy of its root, or the root itself if there was
nothing to copy. -/
def copyCone (g : Network) (cone : Cone) (root : ConnId) (pn : NodeId) (consumer : ConnId) :
    Attempt (ConnId × Network) := do
  let (copies, g) ← g.copyNodes cone.inner
  let g ← copies.foldlM (wireCopy copies pn consumer) g
  let n ← g.owner root
  match copies.lookup n with
  | none => return (root, g)
  | some copy =>
    match ← g.output? copy with
    | some out => return (out, g)
    | none => throw (.obstacle (.copyWithoutOutput (← g.nodeName n)))

/-! ## Removing pin nodes -/

/-- Gives one consumer of a pin node its own copy of the logic, unless the consumer belongs to that
logic. -/
def inlineInto (cone : Cone) (root : ConnId) (pn : NodeId) (out : ConnId) (g : Network)
    (consumer : ConnId) : Attempt Network := do
  if cone.inner.contains (← g.owner consumer) then
    return g
  let (copy, g) ← g.copyCone cone root pn consumer
  return (g.cut consumer out).wire consumer copy

/-- Retires a node that nothing reads. -/
def retireIfUnread (g : Network) (n : NodeId) : Attempt Network := do
  match ← g.output? n with
  | none => g.retire n
  | some o => if (← g.fanOut o) = 0 then g.retire n else return g

/-- Removes a pin node: every consumer gets its own copy of the logic, and what is then no longer
read is retired. -/
def inlinePinNode (g : Network) (pn : NodeId) : Attempt Network := do
  match ← g.inputs pn with
  | [input] =>
    match ← g.driver? input with
    | none => throw (.obstacle (.undriven (← g.nodeName pn)))
    | some root =>
      match ← g.output? pn with
      | none => throw (.obstacle (.noOutput (← g.nodeName pn)))
      | some out =>
        let cone ← g.coneOf root
        let g ← (← g.conn out).refs.foldlM (inlineInto cone root pn out) g
        let g ← g.retire pn
        cone.inner.foldlM retireIfUnread g
  | cs => throw (.miscount (← g.nodeName pn) (.combinationalInputs cs.length))

/-- Removes one pin node and checks the network. -/
def inlineRound (g : Network) (pn : NodeId) : Attempt Network := do
  let g ← g.inlinePinNode pn
  let g ← g.rebuildTop
  g.checkAll
  return g

/-- Removes pin nodes until at most `limit` are left or none can go, at most `bound` times. The
answer says whether any was removed. -/
def inlineAll (limit : Nat) : (bound : Nat) → Network → Attempt (Bool × Network)
  | 0, g => return (false, g)
  | bound + 1, g => do
    if g.pinNodes.length ≤ limit then
      return (false, g)
    match ← g.nextCandidate with
    | none => return (false, g)
    | some pn =>
      let (_, g) ← inlineAll limit bound (← g.inlineRound pn)
      return (true, g)

/-- Keeps the number of pin nodes within a limit, as far as it goes. Without a limit nothing changes.
The answer says whether any pin node was removed. -/
def expand (limit? : Option Nat) (g : Network) : Attempt (Bool × Network) :=
  match limit? with
  | none => return (false, g)
  | some limit => inlineAll limit g.pinNodes.length g

end PldSynth.Network
