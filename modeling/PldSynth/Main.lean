import PldSynth.CommandLine.Page

/-!
# The program

Runs the command line on the files of the machine.
-/

namespace PldSynth

/-- The fault behind an error of the system. The code of an error may come with either sign. -/
def faultOf : IO.Error → FileFault
  | .noFileOrDirectory _ _ _ => .notFound
  | .inappropriateType _ code _ =>
    if code = 21 || code = 0 - 21 then .isDirectory else .notDirectory
  | e => .other (toString e)

/-- The result of an action, or the fault for which it failed. -/
def faultsOf {α : Type} (action : IO α) : IO (Except FileFault α) := do
  match ← action.toBaseIO with
  | .ok a => return .ok a
  | .error e => return .error (faultOf e)

instance : Host IO where
  isFile path := return (← faultsOf do (← IO.FS.Handle.mk path .read).read 1).isOk
  read path := faultsOf (IO.FS.readFile path)
  write path text := faultsOf (IO.FS.writeFile path text)
  workingDirectory := return (← IO.currentDir).toString
  note line := IO.eprintln line

end PldSynth

def main (args : List String) : IO UInt32 := do
  let ending ← PldSynth.CommandLine.execute args
  ending.outputLines.forM fun line => IO.println line
  ending.errorLines.forM fun line => IO.eprintln line
  return ending.exitCode.toUInt32
