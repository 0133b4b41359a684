/-!
# Kinds, directions and merge marks

The vocabulary of a gate network: what a node is, which way a connection faces, and which
sequential parts a pin or pin node has taken over.
-/

namespace PldSynth

/-- The operator of a gate with two or more inputs. -/
inductive GateOp
  | conj
  | disj
  | parity
  deriving DecidableEq, Repr, Inhabited

/-- The operator as written in an equation. -/
def GateOp.symbol : GateOp → String
  | .conj => "&"
  | .disj => "#"
  | .parity => "$"

/-- What a node of the network stands for. -/
inductive NodeKind
  /-- The enclosing module, which owns the port connections until they become pins. -/
  | design
  /-- A gate with two or more inputs. -/
  | gate (op : GateOp)
  /-- A gate with one input. -/
  | inverter
  /-- An edge-triggered register. -/
  | flipFlop
  /-- A transparent latch. -/
  | latch
  /-- A buffer whose output can be switched off. -/
  | triState
  /-- A source of a fixed value. -/
  | constant
  /-- A signal at a pin of the device. -/
  | pin
  /-- A named signal inside the device. -/
  | pinNode
  /-- A node of no known kind. -/
  | unknown
  deriving DecidableEq, Repr, Inhabited

namespace NodeKind

/-- Gates and inverters. -/
def isCombinational : NodeKind → Bool
  | .gate _ | .inverter => true
  | _ => false

/-- Flip-flops and latches. -/
def isRegister : NodeKind → Bool
  | .flipFlop | .latch => true
  | _ => false

/-- Registers and tri-state buffers: the parts that a pin can take over. -/
def isSequential : NodeKind → Bool
  | .flipFlop | .latch | .triState => true
  | _ => false

/-- Pins and pin nodes: the nodes that an equation can name. -/
def isNamed : NodeKind → Bool
  | .pin | .pinNode => true
  | _ => false

/-- Nodes that stand in an expression as a single atom. -/
def isTerminal : NodeKind → Bool
  | .flipFlop | .latch | .triState | .pin | .pinNode | .design | .constant => true
  | _ => false

/-- Nodes at which the duplication of logic stops: every atom but a constant. -/
def isBoundary : NodeKind → Bool
  | .flipFlop | .latch | .triState | .pin | .pinNode | .design => true
  | _ => false

/-- The operator of a gate with two or more inputs. -/
def gateOp? : NodeKind → Option GateOp
  | .gate op => some op
  | _ => none

/-- The word for a kind in messages. -/
def word : NodeKind → String
  | .design => "module"
  | .gate .conj => "and"
  | .gate .disj => "or"
  | .gate .parity => "xor"
  | .inverter => "not"
  | .flipFlop => "dff"
  | .latch => "latch"
  | .triState => "tbuf"
  | .constant => "constant"
  | .pin => "pin"
  | .pinNode => "pinnode"
  | .unknown => "unknown"

/-- Every kind. -/
def all : List NodeKind :=
  [.design, .gate .conj, .gate .disj, .gate .parity, .inverter, .flipFlop, .latch, .triState,
    .constant, .pin, .pinNode, .unknown]

/-- The kind that a word stands for. -/
def ofWord? (w : String) : Option NodeKind :=
  all.find? fun k => k.word == w

end NodeKind

/-- Which way a connection faces, seen from the node that owns it. -/
inductive Direction
  | input
  | output
  | bidirectional
  deriving DecidableEq, Repr, Inhabited

namespace Direction

/-- The connection can be driven. -/
def isInput : Direction → Bool
  | .input | .bidirectional => true
  | .output => false

/-- The connection can drive. -/
def isOutput : Direction → Bool
  | .output | .bidirectional => true
  | .input => false

/-- The direction seen from the other side of a module boundary. -/
def flipped : Direction → Direction
  | .input => .output
  | .output => .input
  | .bidirectional => .bidirectional

/-- Whether a connection of this direction may refer to one of the other direction. A
bidirectional connection may refer to any. -/
def mayFace : Direction → Direction → Bool
  | .output, other => other.isInput
  | .input, other => other.isOutput
  | .bidirectional, _ => true

end Direction

/-- Which sequential parts a pin or pin node has taken over: at most one register and at most one
tri-state buffer, independently of each other. -/
structure Absorbed where
  register : Bool := false
  buffer : Bool := false
  deriving DecidableEq, Repr, Inhabited

namespace Absorbed

/-- Nothing was taken over. -/
def nothing : Absorbed := {}

/-- One register was taken over. -/
def oneRegister : Absorbed := { register := true }

/-- One tri-state buffer was taken over. -/
def oneBuffer : Absorbed := { buffer := true }

/-- Everything that either side has taken over. -/
def union (a b : Absorbed) : Absorbed :=
  { register := a.register || b.register, buffer := a.buffer || b.buffer }

/-- Whether everything that `b` has taken over was taken over by `a` too. -/
def covers (a b : Absorbed) : Bool :=
  (a.register || !b.register) && (a.buffer || !b.buffer)

/-- Whether nothing was taken over. -/
def isNothing (a : Absorbed) : Bool :=
  !a.register && !a.buffer

theorem isNothing_iff (a : Absorbed) : a.isNothing ↔ a = nothing := by
  cases a with
  | mk r b => cases r <;> cases b <;> decide

end Absorbed

end PldSynth
