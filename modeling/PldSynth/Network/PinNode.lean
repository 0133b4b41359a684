import PldSynth.Network.Wiring

/-!
# Putting a pin node into a wire, and moving consumers

Two edits that the larger passes are made of. Both take the wires of an output away on its own
side first and then repair the other ends one consumer at a time.
-/

namespace PldSynth.Network

/-- Hands one consumer over to the output `out`. The consumer must be driven from one side only. -/
def handOver (out : ConnId) (g : Network) (consumer : ConnId) : Attempt Network := do
  let x ← g.conn consumer
  unless x.direction.isInput && x.refs.length ≤ 1 do
    throw (.miscount (← g.path consumer) .sharedConsumer)
  return (g.setRefs consumer [out]).modifyConn out fun y => y.note consumer

/-- The name of a pin node behind an output of `source`: the name of a register, else a made-up
one. -/
def pinNodeNameFor (g : Network) (source : Node) : String × Network :=
  if source.kind.isRegister then (source.name, g) else g.freshPinNodeName

/-- Puts a new pin node between an output and all of its consumers. Afterwards the output drives
only the pin node, and the pin node drives the former consumers, in their order. -/
def putPinNode (g : Network) (output : ConnId) : Attempt (NodeId × Network) := do
  let x ← g.conn output
  unless x.direction.isOutput do
    throw (.obstacle (.noPinNodeOn (← g.path output)))
  let (name, g) := g.pinNodeNameFor (← g.node x.owner)
  let (n, g) := g.addPinNode name
  let (out, g) := g.attach n pinNodeOutput .output
  let (inp, g) := g.attach n pinNodeInput .input
  let g ← x.refs.foldlM (handOver out) (g.setRefs output [])
  return (n, g.wire inp output)

/-- Moves one consumer of `output` to `out`, an output of `target`. A consumer that belongs to
`target` itself is left without this wire. -/
def moveConsumer (target : NodeId) (output out : ConnId) (g : Network) (consumer : ConnId) :
    Attempt Network := do
  let x ← g.conn consumer
  if x.owner = target then
    return g.modifyConn consumer fun y => y.forget output
  let g := g.setRefs consumer [out]
  if (g.refsOf out).contains consumer then
    return g
  return g.modifyConn out fun y => y.note consumer

/-- The first output of a node, a new one if it has none. -/
def ensureOutput (g : Network) (n : NodeId) : Attempt (ConnId × Network) := do
  match ← g.output? n with
  | some out => return (out, g)
  | none => return g.attach n pinNodeOutput .output

/-- Moves every consumer of an output to the output of `target`. Afterwards nothing is wired to the
output. -/
def moveConsumers (g : Network) (target : NodeId) (output : ConnId) : Attempt Network := do
  let x ← g.conn output
  unless x.direction.isOutput do
    throw (.obstacle (.noConsumersOf (← g.path output)))
  let g := g.setRefs output []
  if x.refs.isEmpty then
    return g
  let (out, g) ← g.ensureOutput target
  x.refs.foldlM (moveConsumer target output out) g

end PldSynth.Network
