/-!
# What can be wrong with a netlist

The causes for which a netlist is refused, with the place where the fault was found, and the wording
of each.
-/

namespace PldSynth

/-- What is wrong at a place of a netlist. -/
inductive Malformation
  /-- The port of a cell is not bound to one bit. -/
  | bitCount (n : Nat)
  /-- The port of a cell has no direction. -/
  | noDirection (port : String)
  deriving DecidableEq, Repr

/-- Why a netlist was refused. -/
inductive NetlistError
  /-- The text is no netlist. -/
  | unreadable
  | malformed (path : String) (why : Malformation)
  | unknownCellType (path type : String)
  | unknownPort (path port : String)
  /-- A literal is bound to something that is no input. -/
  | literalOnNonInput (path : String)
  /-- A literal is no number. -/
  | badLiteral (path literal : String)
  | badDirection (path direction : String)
  /-- Two outputs are bound to one wire. -/
  | ambiguousDriver (wire : Int)
  /-- An input is bound to a wire without an output. -/
  | undriven (wire : Int) (path : String)
  | noSuchDesign (name : String)
  | severalDesigns (n : Nat)
  | noDesign
  deriving DecidableEq, Repr

def Malformation.message : Malformation → String
  | .bitCount n => "expected exactly one bit, found " ++ toString n
  | .noDirection port => "no direction for port '" ++ port ++ "'"

/-- The text of a refusal. -/
def NetlistError.message : NetlistError → String
  | .unreadable => "invalid netlist JSON"
  | .malformed path why => "malformed netlist at " ++ path ++ ": " ++ why.message
  | .unknownCellType path type => "unknown cell type '" ++ type ++ "' at " ++ path
  | .unknownPort path port => "unknown port name '" ++ port ++ "' at " ++ path
  | .literalOnNonInput path => "constant value connected to non-input connection at " ++ path
  | .badLiteral path literal => "unsupported constant literal '" ++ literal ++ "' at " ++ path
  | .badDirection path direction =>
    "unsupported port direction '" ++ direction ++ "' at " ++ path
  | .ambiguousDriver wire => "bit " ++ toString wire ++ " is driven by more than one output"
  | .undriven wire path => "bit " ++ toString wire ++ " consumed at " ++ path ++ " has no driver"
  | .noSuchDesign name => "module '" ++ name ++ "' not found in netlist"
  | .severalDesigns n => "netlist defines " ++ toString n ++ " modules; select one by name"
  | .noDesign => "netlist defines no modules"

end PldSynth
