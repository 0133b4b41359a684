import PldSynth.Network.Kind

/-!
# The cell library

Which cell types there are, what their ports are called in an equation, and which way the ports of a
register face. Gates and buffers come with the directions of their ports; registers do not.
-/

namespace PldSynth

/-- The direction that a netlist names. -/
def Direction.ofWord? : String → Option Direction
  | "input" => some .input
  | "output" => some .output
  | "inout" => some .bidirectional
  | _ => none

namespace Library

/-- The kind of node that a cell type stands for. -/
def kindOfType? : String → Option NodeKind
  | "$_AND_" => some (.gate .conj)
  | "$_OR_" => some (.gate .disj)
  | "$_XOR_" => some (.gate .parity)
  | "$_NOT_" => some .inverter
  | "$_TBUF_" => some .triState
  | "FDCP" => some .flipFlop
  | "LDCP" => some .latch
  | _ => none

/-- The name of a port in an equation. -/
def portName (kind : NodeKind) (port : String) : String :=
  match kind, port with
  | .latch, "D" => "L"
  | .latch, "G" => "LE"
  | .triState, "E" => "OE"
  | _, port => port

/-- The inputs of a register, by their names in an equation. -/
def registerInputs : List String :=
  ["CK", "AR", "AP", "D", "LE", "L", "PRE", "CLR"]

/-- The direction of a port of a register, by its name in an equation. -/
def registerDirection? (port : String) : Option Direction :=
  if port = "Q" then some .output
  else if registerInputs.contains port then some .input
  else none

end Library

end PldSynth
