import PldSynth.Network.Basic

/-!
# Consistency checks

The rules that the wiring of a network obeys, as a check that names the first connection that
breaks one of them.
-/

namespace PldSynth.Network

/-- One wire of the connection `c` with the record `x`: the other end must face it and must list
it. -/
def checkRef (g : Network) (c : ConnId) (x : Conn) (r : ConnId) : Attempt Unit := do
  let other ← g.conn r
  unless x.direction.mayFace other.direction do
    throw (.mismatch (← g.path c) (.sameDirection (← g.path r)))
  unless other.refs.contains c do
    throw (.mismatch (← g.path c) (.unanswered (← g.path r)))

/-- One connection that the node `n` lists: it must belong to `n`, an input has at most one wire,
and every wire must be in order. -/
def checkConn (g : Network) (n : NodeId) (c : ConnId) : Attempt Unit := do
  let x ← g.conn c
  unless x.owner = n do
    throw (.mismatch (← g.path c) (.listedOn (← g.nodeName n)))
  if x.direction = .input ∧ 1 < x.refs.length then
    throw (.miscount (← g.path c) (.drivers x.refs.length))
  x.refs.forM (g.checkRef c x)

/-- Every connection of a node is in order. -/
def checkNode (g : Network) (n : NodeId) : Attempt Unit := do
  (← g.node n).conns.forM (g.checkConn n)

/-- Every pin, pin node and cell is in order. -/
def checkAll (g : Network) : Attempt Unit :=
  (g.pins ++ g.pinNodes ++ g.cells).forM g.checkNode

end PldSynth.Network
