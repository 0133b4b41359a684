import PldSynth.Equation.Term
import PldSynth.Network.NodeSet
import PldSynth.Text.Wrap

/-!
# The equations of a network

Every wired input on the list of the network gets one equation: the input on the left, the logic
behind its driver on the right. Pins, pin nodes and sequential cells end the logic and stand in it by
name. A gate may be written only once over all equations.
-/

namespace PldSynth

/-- The left-hand side is the input `input` under the name `name`. -/
structure Equation where
  input : ConnId
  name : String
  term : Term
  deriving Repr, Inhabited

namespace Equation

/-- Equations are wrapped at this width. -/
def lineWidth : Nat := 80

/-- The deepest nesting that an expression may have. -/
def maxDepth : Nat := 4096

/-- The equation on one line. Blanks in a row count as one. -/
def text (e : Equation) : String :=
  e.name ++ " = " ++ e.term.text ++ ";"

/-- The equation as it is written. -/
def render (e : Equation) : String :=
  Text.wrap e.text lineWidth

end Equation

namespace Network

/-- The left-hand side for an input. An input of a pin or pin node that stands for the node itself is
written as the name of the node; every other input is written behind the name of its node. -/
def equationName (g : Network) (input : ConnId) : Attempt String := do
  let x ← g.conn input
  let n ← g.node x.owner
  match n.kind with
  | .pin | .pinNode =>
    if x.name = pinNodeInput || x.name = pinNodeOutput || x.name = n.name then
      return n.name
    else
      return n.name ++ "." ++ x.name
  | .design => return x.name
  | _ => return n.name ++ "." ++ x.name

/-- The driver of an input that may have one driver only. -/
def soleDriver? (g : Network) (c : ConnId) : Attempt (Option ConnId) := do
  match (← g.conn c).refs with
  | [] => return none
  | [d] => return some d
  | refs => throw (.miscount (← g.path c) (.drivers refs.length))

/-- Marks a gate as written. A gate cannot be written twice. -/
def claimGate (g : Network) (equation : String) (written : NodeSet) (n : NodeId) :
    Attempt NodeSet := do
  if written.isNew n then
    return written.insert n
  throw (.miscount (← g.nodeName n) (.repeatedIn equation))

/-- What drives the inputs of a gate. -/
def gateDrivers (g : Network) (n : NodeId) : Attempt (List ConnId) :=
  return (← (← g.sinks n).mapM g.soleDriver?).filterMap id

/-- The term behind an output, with the gates written so far. At most `levels` levels may follow. -/
def termOf (g : Network) (equation : String) :
    (levels : Nat) → NodeSet → ConnId → Attempt (Term × NodeSet)
  | 0, _, _ => throw (.tooDeep equation Equation.maxDepth)
  | levels + 1, written, output => do
    let x ← g.conn output
    unless x.direction.isOutput do
      throw (.mismatch (← g.path output) .nonOutputReached)
    let n ← g.node x.owner
    match n.kind with
    | .flipFlop | .latch | .triState => return (.signal output (← g.path output), written)
    | .pin | .pinNode => return (.signal output n.name, written)
    | .design => return (.signal output x.name, written)
    | .constant => return (.constant output (n.constant.getD 0), written)
    | .unknown => throw (.obstacle (.unknownOperator n.name))
    | .inverter =>
      let written ← g.claimGate equation written x.owner
      match ← g.gateDrivers x.owner with
      | [d] =>
        let (t, written) ← termOf g equation levels written d
        return (.invert x.owner t, written)
      | ds => throw (.miscount n.name (.inverterInputs ds.length))
    | .gate op =>
      let written ← g.claimGate equation written x.owner
      let ds ← g.gateDrivers x.owner
      if ds.length < 2 then
        throw (.miscount n.name (.gateInputs n.kind ds.length))
      let (ts, written) ← ds.foldlM
        (fun s d => do
          let (t, written) ← termOf g equation levels s.2 d
          return (s.1 ++ [t], written))
        ([], written)
      return (.combine x.owner op ts, written)

/-- The first of the connections that can drive. -/
def firstSource? (g : Network) : List ConnId → Attempt (Option ConnId)
  | [] => return none
  | r :: rest => do
    if (← g.conn r).direction.isOutput then return some r else g.firstSource? rest

/-- Adds the equation of one input, if the input is driven. -/
def addEquation (g : Network) (s : List Equation × NodeSet) (input : ConnId) :
    Attempt (List Equation × NodeSet) := do
  match ← g.firstSource? (← g.conn input).refs with
  | none => return s
  | some driver =>
    let name ← g.equationName input
    let (term, written) ← g.termOf name Equation.maxDepth s.2 driver
    return (s.1 ++ [{ input, name, term }], written)

/-- The equations of a network, in the order of its list of inputs. -/
def equations (g : Network) : Attempt (List Equation) :=
  return (← g.top.foldlM g.addEquation ([], .empty g.nodes.size)).1

end Network

end PldSynth
