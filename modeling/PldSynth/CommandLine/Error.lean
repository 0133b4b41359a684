import PldSynth.Compile
import PldSynth.Project.Error

/-!
# Failures of a command

Why a command failed, what the user is told, and the exit code of each failure.
-/

namespace PldSynth.CommandLine

/-- Why a command failed. -/
inductive Failure
  | noInput (path : String)
  | noPinFile (path : String)
  | project (e : ProjectError)
  | compile (e : CompileError)
  /-- A file could not be read or written. -/
  | file (path : String) (fault : FileFault)
  deriving DecidableEq, Repr

namespace Failure

/-- What the user is told. -/
def message : Failure → String
  | .noInput path => "input file not found: " ++ path
  | .noPinFile path => "pin file not found: " ++ path
  | .project e => e.message
  | .compile e => e.message
  | .file path fault => path ++ ": " ++ fault.message

/-- The exit code of a failure. -/
def exitCode : Failure → Nat
  | .file _ _ => 1
  | .noInput _ => 5
  | .noPinFile _ => 6
  | .project (.duplicatePin _) => 8
  | .project (.badPinNumber _ _) => 11
  | .project _ => 2
  | .compile (.network _) => 9
  | .compile (.netlist (.noSuchDesign _)) => 12
  | .compile (.netlist (.severalDesigns _)) => 12
  | .compile (.netlist .noDesign) => 12
  | .compile (.netlist _) => 10

end Failure

end PldSynth.CommandLine
