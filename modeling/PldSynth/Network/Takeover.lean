import PldSynth.Network.Consistency
import PldSynth.Network.PinNode

/-!
# Pins that take over registers and tri-state buffers

An equation language for programmable logic has no register or buffer of its own: a register is
written as extensions of the pin or pin node that it drives, and a tri-state buffer as an enable
extension. So each such cell is taken over by the pin or pin node that it drives, which receives the
inputs of the cell. Where there is no such node, a pin node is put in.
-/

namespace PldSynth.Network

/-- The data input of a tri-state buffer. -/
def bufferData : String := "A"

/-- The enable input of a tri-state buffer. -/
def bufferEnable : String := "OE"

/-- The output of a cell if something reads it. -/
def liveOutput? (g : Network) (cell : NodeId) : Attempt (Option ConnId) := do
  match ← g.output? cell with
  | none => return none
  | some o => return if 0 < (← g.fanOut o) then some o else none

/-- The nodes among the owners of `cs` whose kind satisfies `p`, once for every connection. -/
def ownersOfKind (g : Network) (p : NodeKind → Bool) (cs : List ConnId) :
    Attempt (List NodeId) := do
  let owners ← cs.mapM fun c => do
    let n ← g.owner c
    return (n, ← g.nodeKind n)
  return (owners.filter fun o => p o.2).map Prod.fst

/-- The node that takes over the owner of an output. A single consumer is the one if it is named;
among several consumers it is the one that belongs to a pin, if there is exactly one. -/
def existingTarget? (g : Network) (output : ConnId) : Attempt (Option NodeId) := do
  let refs := (← g.conn output).refs
  let named : NodeKind → Bool := if 1 < refs.length then (· = .pin) else NodeKind.isNamed
  match ← g.ownersOfKind named refs with
  | [n] => return some n
  | _ => return none

/-- The node that takes over the owner of an output, a new pin node if no consumer fits. -/
def takeoverTarget (g : Network) (output : ConnId) : Attempt (NodeId × Network) := do
  match ← g.existingTarget? output with
  | some n => return (n, g)
  | none => g.putPinNode output

/-- The only input of a node. -/
def soleInput (g : Network) (n : NodeId) : Attempt ConnId := do
  match ← g.inputs n with
  | [c] => return c
  | cs => throw (.miscount (← g.nodeName n) (.targetInputs cs.length))

/-! ## Tri-state buffers -/

/-- Moves one input of a buffer to the node that takes it over: the driver of the data input drives
`slot`, every other input changes its owner. -/
def moveBufferInput (target : NodeId) (slot : ConnId) (g : Network) (input : ConnId) :
    Attempt Network := do
  let x ← g.conn input
  if x.name = bufferData then
    match x.refs.head? with
    | none => return g
    | some source =>
      return (← g.unlink input source).wire slot source
  else
    g.reparent input target

/-- Takes over one tri-state buffer. The answer says whether it had a consumer. -/
def takeOverBuffer (g : Network) (buffer : NodeId) : Attempt (Bool × Network) := do
  match ← g.liveOutput? buffer with
  | none => return (false, g)
  | some output =>
    let (target, g) ← g.takeoverTarget output
    if (← g.node target).absorbed.buffer then
      throw (.secondBuffer (← g.nodeName target))
    match ← g.sinks target with
    | [slot] =>
      unless (← g.conn slot).refs.contains output do
        throw (.mismatch (← g.path slot) (.notDrivenBy (← g.path output)))
      let g ← g.clearRefs slot
      let g ← (← g.inputs buffer).foldlM (moveBufferInput target slot) g
      let g ← g.moveConsumers target output
      return (true, ← (g.absorb target .oneBuffer).retire buffer)
    | cs => throw (.miscount (← g.nodeName target) (.targetInputs cs.length))

/-! ## Registers -/

/-- Puts a new pin node behind an output and returns it with its input. -/
def putTarget (g : Network) (output : ConnId) : Attempt ((NodeId × ConnId) × Network) := do
  let (target, g) ← g.putPinNode output
  return ((target, ← g.soleInput target), g)

/-- The node that takes over the register of an output, and the input that gives way. A node that
has a register already is passed over for a new pin node, and so is a node with a buffer unless the
register drives nothing but the data of that buffer. -/
def registerTarget (g : Network) (output : ConnId) :
    Attempt ((NodeId × ConnId) × Network) := do
  let (target, g) ← g.takeoverTarget output
  let x ← g.node target
  if x.absorbed.register then
    g.putTarget output
  else if x.absorbed.buffer then
    match x.conns.find? fun c => (g.refsOf c).contains output with
    | none => throw (.obstacle (.notDrivenBy x.name (← g.path output)))
    | some slot =>
      if (← g.conn slot).name = bufferEnable || 1 < (← g.fanOut output) then
        g.putTarget output
      else
        return ((target, slot), g)
  else
    return ((target, ← g.soleInput target), g)

/-- Takes over one register. The answer says whether it had a consumer. -/
def takeOverRegister (g : Network) (register : NodeId) : Attempt (Bool × Network) := do
  match ← g.liveOutput? register with
  | none => return (false, g)
  | some output =>
    let ((target, slot), g) ← g.registerTarget output
    let g ← g.detach slot
    let g ← (← g.inputs register).foldlM (fun g c => g.reparent c target) g
    let g ← g.moveConsumers target output
    return (true, ← (g.absorb target .oneRegister).retire register)

/-! ## All cells -/

/-- Takes over one cell and leaves the network in order. -/
def takeOverWith (takeOver : Network → NodeId → Attempt (Bool × Network)) (s : Bool × Network)
    (cell : NodeId) : Attempt (Bool × Network) := do
  let (merged, g) ← takeOver s.2 cell
  if merged then
    let g ← g.rebuildTop
    g.checkAll
    return (true, g)
  return (s.1, g)

/-- Takes over every tri-state buffer, then every register. The answer says whether any cell was
taken over. -/
def collapse (g : Network) : Attempt (Bool × Network) := do
  let buffers := g.cells.filter (g.hasKind (· = .triState))
  let s ← buffers.foldlM (takeOverWith takeOverBuffer) (false, g)
  let registers := s.2.cells.filter (s.2.hasKind NodeKind.isRegister)
  registers.foldlM (takeOverWith takeOverRegister) s

end PldSynth.Network
