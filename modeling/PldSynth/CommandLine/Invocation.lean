import PldSynth.CommandLine.Reading

/-!
# Invocations

What the arguments ask for: a command with all that it needs, and the settings that every command has.
-/

namespace PldSynth.CommandLine

/-- What to compile, and how. -/
structure CompileArgs where
  input : String
  /-- Where the listing goes, if not to a file named for the module. -/
  output : Option String := none
  device : Option String := none
  pinFile : Option String := none
  module : Option String := none
  pinNodeLimit : Option Nat := none
  /-- Whether listings are also written on the way. -/
  intermediate : Bool := false
  deriving DecidableEq, Repr

/-- What script to write. -/
structure ScriptArgs where
  sources : List String
  output : String
  json : Option String := none
  library : String := "yosys"
  deriving DecidableEq, Repr

/-- A command. -/
inductive Command
  | compile (args : CompileArgs)
  | script (args : ScriptArgs)
  deriving DecidableEq, Repr

/-- A command with the settings that every command has. -/
structure Invocation where
  quiet : Bool := false
  verbose : Bool := false
  config : Option String := none
  command : Command
  deriving DecidableEq, Repr

/-- What the arguments behind the name of a command say. -/
def readCommand (verb : Verb) (args : List String) : Except Stop Reading := do
  (← Reading.takeAll verb {} args).1.settle

/-- What to compile, if the input is given. -/
def CompileArgs.of? (r : Reading) : Option CompileArgs :=
  r.operands.head?.map fun input => {
    input
    output := r.value? .output
    device := r.value? .device
    pinFile := r.value? .pinFile
    module := r.value? .module
    pinNodeLimit := (r.value? .pinNodeLimit).bind fun v => Text.readNat? Text.bound64 v.toList
    intermediate := r.has .intermediate }

/-- What script to write, if there are sources and the script has a name. -/
def ScriptArgs.of? (r : Reading) : Option ScriptArgs :=
  if r.operands.isEmpty then none
  else (r.value? .output).map fun output => {
    sources := r.operands
    output
    json := r.value? .json
    library := (r.value? .library).getD "yosys" }

/-- Whether there is a help page for a command. -/
def hasHelp : List String → Bool
  | [] => true
  | [name] => Verb.program.commandNames.contains name
  | _ => false

/-- The invocation of a command, from what was read before and behind its name. What stands right
before the name is looked at only now. -/
def Invocation.of (before behind : Reading) (command : Option Command) : Except Stop Invocation :=
  match command with
  | none => .error .missing
  | some command => do
    let before ← before.settle
    return {
      quiet := before.has .quiet || behind.has .quiet
      verbose := before.has .verbose || behind.has .verbose
      config := (behind.value? .config).or (before.value? .config)
      command }

/-- What the arguments ask for. -/
def Invocation.parse (args : List String) : Except Stop Invocation := do
  let (before, rest) ← Reading.takeAll .program {} args
  match rest with
  | "cupl" :: args =>
    let r ← readCommand .compile args
    Invocation.of before r ((CompileArgs.of? r).map .compile)
  | "yosys" :: args =>
    let r ← readCommand .script args
    Invocation.of before r ((ScriptArgs.of? r).map .script)
  | "help" :: names => .error (if hasHelp names then .help else .invalid)
  | _ => do
    let _ ← before.settle
    .error .missing

end PldSynth.CommandLine
