import PldSynth.Files.Host
import PldSynth.Files.PathName
import PldSynth.Project.Config

/-!
# Settings from files

Finding and reading the configuration of a project, and reading pin files.
-/

namespace PldSynth

variable {m : Type → Type} [Monad m] [Host m]

/-- The settings that a file gives. -/
def loadWith {α : Type} (parse : String → Except ProjectError α) (path : String) :
    m (Except ProjectError α) := do
  match ← Host.read path with
  | .ok text => return parse text
  | .error fault => return .error (.file fault)

/-- The configuration in a file. -/
def Config.load (path : String) : m (Except ProjectError Config) :=
  loadWith Config.parse path

/-- The pin table in a file. -/
def PinFile.load (path : String) : m (Except ProjectError PinTable) :=
  loadWith PinFile.parse path

/-- The configuration file of a directory, if it has one. -/
def Config.find? (dir : String) : m (Option String) := do
  let path := PathName.join dir Config.fileName
  return if ← Host.isFile path then some path else none

end PldSynth
