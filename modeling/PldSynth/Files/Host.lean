import PldSynth.Files.Tree

/-!
# What a program asks of the system

A program reads and writes files, asks for the working directory, and tells the user what it did. It
is written for any system that can do this; `World` is such a system in which all of it is data.
-/

namespace PldSynth

/-- A system with files and a user. -/
class Host (m : Type → Type) where
  /-- Whether a file stands at a path. -/
  isFile : String → m Bool
  /-- The text of the file at a path. -/
  read : String → m (Except FileFault String)
  /-- Writes a text to the file at a path. -/
  write : String → String → m (Except FileFault Unit)
  /-- The path of the working directory. -/
  workingDirectory : m String
  /-- Tells the user a line. -/
  note : String → m Unit

/-- A system as data: its files, the working directory, and what the user was told. -/
structure World where
  tree : FileTree
  workingPlace : Place := []
  notes : List String := []
  deriving DecidableEq, Repr

namespace World

/-- The path of the working directory. -/
def workingDirectory (w : World) : String :=
  "/" ++ "/".intercalate w.workingPlace

/-- Writes a file; a write that fails changes nothing. -/
def write (w : World) (path text : String) : Except FileFault Unit × World :=
  match w.tree.write w.workingPlace path text with
  | .ok tree => (.ok (), { w with tree })
  | .error fault => (.error fault, w)

instance : Host (StateM World) where
  isFile path := fun w => (w.tree.isFile w.workingPlace path, w)
  read path := fun w => (w.tree.read w.workingPlace path, w)
  write path text := fun w => w.write path text
  workingDirectory := fun w => (w.workingDirectory, w)
  note line := fun w => ((), { w with notes := w.notes ++ [line] })

end World

end PldSynth
