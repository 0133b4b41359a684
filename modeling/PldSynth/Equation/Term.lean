import PldSynth.Network.Basic

/-!
# Terms

The right-hand side of an equation as a tree. A leaf is a signal or a constant, an inner vertex is a
gate. Leaves and gates remember where they stand in the network, so that a term can be read both as
text and as logic.
-/

namespace PldSynth

/-- The right-hand side of an equation. -/
inductive Term
  /-- A signal under the name by which it is read. -/
  | signal (source : ConnId) (name : String)
  /-- A fixed value. -/
  | constant (source : ConnId) (value : Nat)
  /-- The inversion of a term. -/
  | invert (gate : NodeId) (arg : Term)
  /-- Several terms under one operator. -/
  | combine (gate : NodeId) (op : GateOp) (args : List Term)
  deriving Repr, Inhabited

namespace Term

mutual

/-- The text of a term. Blanks in a row count as one. -/
def text : Term → String
  | .signal _ name => name
  | .constant _ value => "'b'" ++ toString value
  | .invert _ arg => "! ( " ++ arg.text ++ " )"
  | .combine _ op args => " ( " ++ (" " ++ op.symbol ++ " ").intercalate (texts args) ++ " )"

/-- The texts of several terms. -/
def texts : List Term → List String
  | [] => []
  | t :: ts => t.text :: texts ts

end

mutual

/-- The number of leaves and gates. -/
def size : Term → Nat
  | .signal _ _ => 1
  | .constant _ _ => 1
  | .invert _ arg => arg.size + 1
  | .combine _ _ args => sizes args + 1

/-- The number of leaves and gates of several terms. -/
def sizes : List Term → Nat
  | [] => 0
  | t :: ts => t.size + sizes ts

end

mutual

/-- The gates of a term, each before its operands. -/
def gates : Term → List NodeId
  | .signal _ _ => []
  | .constant _ _ => []
  | .invert gate arg => gate :: arg.gates
  | .combine gate _ args => gate :: gatesOf args

/-- The gates of several terms. -/
def gatesOf : List Term → List NodeId
  | [] => []
  | t :: ts => t.gates ++ gatesOf ts

end

end Term

end PldSynth
