/-!
# What can be wrong with the settings of a project

The causes for which a configuration or a pin file is refused, and the wording of each.
-/

namespace PldSynth

/-- Why a file could not be read or written. -/
inductive FileFault
  | notFound
  | isDirectory
  | notDirectory
  | nameTooLong
  /-- The path holds a character that ends it. -/
  | nulInPath
  /-- Any other fault, in the words of the system. -/
  | other (text : String)
  deriving DecidableEq, Repr

/-- The text that the system gives for a fault. -/
def FileFault.message : FileFault → String
  | .notFound => "No such file or directory (os error 2)"
  | .isDirectory => "Is a directory (os error 21)"
  | .notDirectory => "Not a directory (os error 20)"
  | .nameTooLong => "File name too long (os error 36)"
  | .nulInPath => "file name contained an unexpected NUL byte"
  | .other text => text

/-- Why the values of a configuration cannot be used. -/
inductive Misfit
  /-- The device name is not one word. -/
  | blankInDevice (name : String)
  /-- A header field would end its line. -/
  | headerField (key : String)
  /-- The module is given and empty. -/
  | emptyModule
  deriving DecidableEq, Repr

/-- Why the settings of a project were refused. -/
inductive ProjectError
  /-- A file could not be read. -/
  | file (fault : FileFault)
  /-- The text is no configuration. -/
  | unreadable
  /-- A value that must be given is missing. -/
  | missing (field : String)
  | misfit (why : Misfit)
  /-- A line of a pin file has no pin number where one belongs. -/
  | badPinNumber (line : Nat) (number : String)
  /-- A pin file gives one name twice. -/
  | duplicatePin (name : String)
  deriving DecidableEq, Repr

def Misfit.message : Misfit → String
  | .blankInDevice name => "device name '" ++ name ++ "' contains whitespace"
  | .headerField key => "header field " ++ key ++ " must be a single line without ';'"
  | .emptyModule => "compile.module must not be empty"

/-- The text of a refusal. -/
def ProjectError.message : ProjectError → String
  | .file fault => "failed to read configuration: " ++ fault.message
  | .unreadable => "failed to parse configuration"
  | .missing field => "missing required field: " ++ field
  | .misfit why => "validation error: " ++ why.message
  | .badPinNumber line number =>
    "pin file line " ++ toString line ++ ": pin number '" ++ number ++ "' is not an integer"
  | .duplicatePin name => "duplicate pin name '" ++ name ++ "'"

end PldSynth
