import PldSynth.Network.NodeSet

/-!
# Gates that drive each other in a circle

A signal may run in a circle through a register or a named pin, but not through gates alone: such a
circle has no finite equation. `findCycle` names one circle if there is any.
-/

namespace PldSynth.Network

/-- The gates in use, in cell order. -/
def gates (g : Network) : List NodeId :=
  g.cells.filter (g.hasKind NodeKind.isCombinational)

/-- The nodes that drive a node: for every wired input, the owner of its first wire. -/
def feeders (g : Network) (n : NodeId) : Attempt (List NodeId) := do
  (← g.driversOf (← g.sinks n)).mapM g.owner

/-- For every node handle, the gates that drive it if it is a gate itself. -/
def gateFeeders (g : Network) : Attempt (Array (List NodeId)) := do
  let gates := (NodeSet.empty g.nodes.size).insertAll g.gates
  let lists ← (List.range g.nodes.size).mapM fun i =>
    if gates.contains ⟨i⟩ then return (← g.feeders ⟨i⟩).filter gates.contains else return []
  return lists.toArray

/-- The strongly connected component of `v`, in handle order, within the handles from `v` on. It is
empty if `v` is on no circle among these. -/
def componentFrom (size : Nat) (feeds : NodeId → List NodeId) (v : NodeId) : List NodeId :=
  let above := fun n => (feeds n).filter (v.index ≤ ·.index)
  let behind := reach above (NodeSet.empty size) (above v)
  if behind.contains v then
    let members := behind.toList
    let readers := fun n => members.filter fun m => (feeds m).contains n
    let ahead := reach readers (NodeSet.empty size) [v]
    members.filter ahead.contains
  else []

/-- The gates of one circle, or nothing if there is none: the first gate in cell order that drives
itself, else the component with the smallest handle, in handle order. -/
def findCycle (g : Network) : Attempt (Option (List NodeId)) := do
  let table ← g.gateFeeders
  let feeds := fun n : NodeId => (table[n.index]?).getD []
  match g.gates.find? fun v => (feeds v).contains v with
  | some v => return some [v]
  | none =>
    return ((List.range g.nodes.size).map NodeId.mk).findSome? fun v =>
      match componentFrom g.nodes.size feeds v with
      | [] => none
      | component => some component

/-- Fails if gates drive each other in a circle. -/
def checkLoops (g : Network) : Attempt Unit := do
  match ← g.findCycle with
  | none => return
  | some ns => throw (.cycle (← ns.mapM g.nodeName))

end PldSynth.Network
