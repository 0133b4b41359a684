import PldSynth.Network.Consistency
import PldSynth.Network.PinNode

/-!
# Pin nodes that only forward a signal, and unused latch controls

A pin or pin node whose single input is driven by a pin node repeats that pin node under another
name. The forwarding pin node is removed: its input moves to the node that it drives, and its other
consumers read that node.

The asynchronous controls of a latch cannot be written as equations. They are dropped if they are
tied to 0 or not wired at all.
-/

namespace PldSynth.Network

/-! ## Forwarding pin nodes -/

/-- Whether `input` is the single input of a named node and is driven by another node, which is a
pin node. -/
def isForwarded (g : Network) (input : ConnId) : Attempt Bool := do
  unless ← g.isAttached input do
    return false
  let x ← g.conn input
  unless x.direction = .input do
    return false
  unless (← g.nodeKind x.owner).isNamed do
    return false
  unless (← g.sinks x.owner).length = 1 do
    return false
  match x.refs.head? with
  | none => return false
  | some output =>
    let b ← g.owner output
    return b ≠ x.owner && (← g.nodeKind b) = .pinNode

/-- Removes the pin node that drives `input`: its own input takes the place and the name of `input`,
and its consumers move over. -/
def fuse (g : Network) (input : ConnId) : Attempt Network := do
  let x ← g.conn input
  match x.refs.head? with
  | none => throw (.obstacle (.noDriver (← g.path input)))
  | some output =>
    let b ← g.owner output
    match ← g.inputs b with
    | [kept] =>
      let g ← g.detach input
      let g ← (g.renameConn kept x.name).reparent kept x.owner
      let g ← g.moveConsumers x.owner output
      (g.absorb x.owner (← g.node b).absorbed).retire b
    | cs => throw (.miscount (← g.nodeName b) (.pinNodeInputs cs.length))

/-- Removes the pin node behind one input if there is one to remove, and counts it. -/
def fuseIfForwarded (s : Nat × Network) (input : ConnId) : Attempt (Nat × Network) := do
  if ← s.2.isForwarded input then
    return (s.1 + 1, ← s.2.fuse input)
  return s

/-- Goes once over the inputs that get an equation. The answer counts the pin nodes removed. -/
def sweep (g : Network) : Attempt (Nat × Network) := do
  let (n, g) ← g.top.foldlM fuseIfForwarded (0, g)
  return (n, ← g.rebuildTop)

/-- Sweeps until a sweep removes nothing, at most `bound` times. The answer says whether any pin node
was removed. -/
def sweepAll : (bound : Nat) → Network → Attempt (Bool × Network)
  | 0, g => return (false, g)
  | bound + 1, g => do
    let (n, g) ← g.sweep
    if n = 0 then
      return (false, g)
    let (_, g) ← sweepAll bound g
    return (true, g)

/-- How many pin nodes own a connection. Every pin node that is removed was one of them. -/
def livePinNodes (g : Network) : Nat :=
  g.nodes.items.toList.countP fun x => x.kind = .pinNode && !x.conns.isEmpty

/-! ## Latch controls -/

/-- Drops one input of a latch if it is an asynchronous control. The answer says whether it was
one. -/
def dropControl (latch : NodeId) (s : Bool × Network) (input : ConnId) :
    Attempt (Bool × Network) := do
  let g := s.2
  let x ← g.conn input
  match LatchControl.ofPort? x.name with
  | none => return s
  | some control =>
    match x.refs.head? with
    | none => return (true, ← g.detach input)
    | some driver =>
      let source ← g.owner driver
      let y ← g.node source
      unless y.kind = .constant && y.constant = some 0 do
        throw (.latchControl (← g.nodeName latch) control)
      let g ← g.detach input
      if (← g.fanOut driver) = 0 then
        return (true, ← g.retire source)
      return (true, g)

/-- Drops the asynchronous controls of one latch. -/
def dropControls (s : Bool × Network) (latch : NodeId) : Attempt (Bool × Network) := do
  (← s.2.inputs latch).foldlM (dropControl latch) s

/-- Drops the asynchronous controls of every latch. The answer says whether there was any. -/
def dropLatchControls (g : Network) : Attempt (Bool × Network) :=
  (g.cells.filter (g.hasKind (· = .latch))).foldlM dropControls (false, g)

/-- What follows the sweeps. The answer says whether they or this removed anything. -/
def trimLatches (fused : Bool) (g : Network) : Attempt (Bool × Network) := do
  let (dropped, g) ← g.dropLatchControls
  let g ← g.rebuildTop
  g.checkAll
  return (fused || dropped, g)

/-- Removes the forwarding pin nodes and the latch controls. The answer says whether anything was
removed. -/
def simplify (g : Network) : Attempt (Bool × Network) := do
  let (fused, g) ← sweepAll (g.livePinNodes + 1) g
  trimLatches fused g

end PldSynth.Network
