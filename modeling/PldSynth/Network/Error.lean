import PldSynth.Network.Kind

/-!
# What can be wrong with a network

Every failure of an operation on a network is a cause with the names it concerns. The wording is
given once, by `NetworkError.message`.
-/

namespace PldSynth

/-- Why the references of a connection do not fit together. -/
inductive Mismatch
  /-- The connection is listed on a node that does not own it. -/
  | listedOn (node : String)
  /-- It refers to a connection that faces the same way. -/
  | sameDirection (other : String)
  /-- It refers to a connection that does not refer to it. -/
  | unanswered (other : String)
  /-- It is driven by a connection that cannot drive. -/
  | nonOutputDriver (other : String)
  /-- It should be driven by a connection that does not drive it. -/
  | notDrivenBy (other : String)
  /-- An expression reached a connection that cannot drive. -/
  | nonOutputReached
  deriving DecidableEq, Repr

/-- What was counted where another number was needed. -/
inductive Miscount
  /-- An input is driven from several sides. -/
  | drivers (n : Nat)
  /-- A consumer is no input, or is driven from several sides. -/
  | sharedConsumer
  /-- A pin node that forwards a signal has no single input. -/
  | pinNodeInputs (n : Nat)
  /-- A pin or pin node that takes over a cell has no single input. -/
  | targetInputs (n : Nat)
  /-- A pin node to be written out in full has no single input. -/
  | combinationalInputs (n : Nat)
  /-- A gate would be written twice. -/
  | repeatedIn (equation : String)
  /-- An inverter has no single connected input. -/
  | inverterInputs (n : Nat)
  /-- A gate has fewer than two connected inputs. -/
  | gateInputs (kind : NodeKind) (n : Nat)
  deriving DecidableEq, Repr

/-- A step that cannot be carried out on the network at hand. -/
inductive Obstacle
  /-- No pin node can be put behind a connection that cannot drive. -/
  | noPinNodeOn (conn : String)
  /-- A connection that cannot drive has no consumers to move. -/
  | noConsumersOf (conn : String)
  /-- An input that was to be replaced has no driver. -/
  | noDriver (conn : String)
  /-- A node is not driven by the output that it should take over. -/
  | notDrivenBy (node output : String)
  /-- A pin node has an input without a driver. -/
  | undriven (node : String)
  /-- A pin node has no output. -/
  | noOutput (node : String)
  /-- A duplicated input has no output to read. -/
  | nothingToRead (conn : String)
  /-- Duplicated logic has no output. -/
  | copyWithoutOutput (node : String)
  /-- An expression reached a node of no known kind. -/
  | unknownOperator (node : String)
  deriving DecidableEq, Repr

/-- The asynchronous controls of a latch. -/
inductive LatchControl
  | clear
  | preset
  deriving DecidableEq, Repr

namespace LatchControl

/-- The port that carries the control. -/
def port : LatchControl → String
  | .clear => "CLR"
  | .preset => "PRE"

/-- The word for the control in messages. -/
def word : LatchControl → String
  | .clear => "clear"
  | .preset => "preset"

/-- The control that a port carries. -/
def ofPort? (port : String) : Option LatchControl :=
  [LatchControl.clear, .preset].find? fun c => c.port == port

end LatchControl

/-- Why an operation on a network failed. -/
inductive NetworkError
  /-- A handle was used that the network never handed out. -/
  | unallocated
  | mismatch (conn : String) (why : Mismatch)
  | miscount (location : String) (why : Miscount)
  /-- A node would take over a second tri-state buffer. -/
  | secondBuffer (node : String)
  /-- A latch control is in use. -/
  | latchControl (latch : String) (control : LatchControl)
  /-- Gates drive each other in a circle. -/
  | cycle (nodes : List String)
  /-- An expression is nested too deeply. -/
  | tooDeep (equation : String) (limit : Nat)
  | obstacle (why : Obstacle)
  deriving DecidableEq, Repr

def Mismatch.message : Mismatch → String
  | .listedOn node => "connection is listed on " ++ node
  | .sameDirection other => "references " ++ other ++ " of the same direction"
  | .unanswered other => other ++ " does not reference it back"
  | .nonOutputDriver other => "driven by non-output " ++ other
  | .notDrivenBy other => "not driven by " ++ other
  | .nonOutputReached => "expression reached a non-output connection"

def Miscount.message : Miscount → String
  | .drivers n => "input has " ++ toString n ++ " drivers"
  | .sharedConsumer => "consumer must be an input with a single driver"
  | .pinNodeInputs n => "pin node has " ++ toString n ++ " inputs"
  | .targetInputs n => "merge target has " ++ toString n ++ " inputs"
  | .combinationalInputs n => "combinational pin node has " ++ toString n ++ " inputs"
  | .repeatedIn equation => "reached twice while generating " ++ equation
  | .inverterInputs n => "inverter has " ++ toString n ++ " connected inputs"
  | .gateInputs kind n => kind.word ++ " gate has " ++ toString n ++ " connected inputs"

def Obstacle.message : Obstacle → String
  | .noPinNodeOn conn => "cannot create a pin node on " ++ conn
  | .noConsumersOf conn => "cannot redirect consumers of " ++ conn
  | .noDriver conn => conn ++ " has no driver"
  | .notDrivenBy node output => node ++ " is not driven by " ++ output
  | .undriven node => node ++ " is not driven"
  | .noOutput node => node ++ " has no output"
  | .nothingToRead conn => "no output to reconnect " ++ conn ++ " to"
  | .copyWithoutOutput node => "clone of " ++ node ++ " has no output"
  | .unknownOperator node => "unknown combinational operator at " ++ node

/-- The text of a failure. -/
def NetworkError.message : NetworkError → String
  | .unallocated => "handle was never allocated"
  | .mismatch conn why => "reference mismatch at " ++ conn ++ ": " ++ why.message
  | .miscount location why => "unexpected cardinality at " ++ location ++ ": " ++ why.message
  | .secondBuffer node => "node " ++ node ++ " already contains TBUF inputs"
  | .latchControl latch control =>
    "latch " ++ latch ++ " has an asynchronous " ++ control.word ++ " on '" ++ control.port ++
      "' that is not tied to constant 0"
  | .cycle nodes => "combinational loop through " ++ ", ".intercalate nodes
  | .tooDeep equation limit =>
    "expression driving " ++ equation ++ " nests deeper than " ++ toString limit ++ " levels"
  | .obstacle why => why.message

end PldSynth
