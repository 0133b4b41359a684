import PldSynth.CommandLine.Error
import PldSynth.CommandLine.Invocation
import PldSynth.Project.Load
import PldSynth.Script

/-!
# Running a command

`execute` is the whole program: it reads the arguments and runs the command that they ask for.

Compiling writes the listing last, so a failure before that leaves it unwritten. With intermediate
listings, two more files are written on the way; they bear the name of the listing with extensions of
their own.
-/

namespace PldSynth.CommandLine

variable {m : Type → Type} [Monad m] [Host m]

/-- A program that may fail. -/
abbrev Run (m : Type → Type) := ExceptT Failure m

/-! ## Files -/

/-- Asks something of the system that cannot fail. -/
def ask {α : Type} (x : m α) : Run m α :=
  ExceptT.lift x

/-- Goes on with a result, or fails for the cause that it gives. -/
def orFail {ε α : Type} (cause : ε → Failure) (r : Except ε α) : Run m α :=
  ExceptT.mk (pure (r.mapError cause))

/-- Reads a file. -/
def readFile (path : String) : Run m String := do
  orFail (.file path) (← ask (Host.read path))

/-- Writes a file. -/
def writeFile (path text : String) : Run m Unit := do
  orFail (.file path) (← ask (Host.write path text))

/-! ## Settings -/

/-- The configuration to use, and the directory that its paths are seen from. -/
def loadConfig (given : Option String) : Run m (Config × String) := do
  let found ←
    match given with
    | some path => pure (some path)
    | none => do
      let dir ← ask Host.workingDirectory
      ask (Config.find? dir)
  match found with
  | none => return ({}, "")
  | some path =>
    let config ← orFail .project (← ask (Config.load path))
    return (config, PathName.parent path)

/-- The pin file to use. -/
def pinFilePath (args : CompileArgs) (config : Config) (dir : String) : Option String :=
  args.pinFile.or (config.pinFile.map (PathName.join dir))

/-- The pin table of a file. -/
def loadPins (path : String) : Run m PinTable := do
  if ← ask (Host.isFile path) then
    orFail .project (← ask (PinFile.load path))
  else
    throw (.noPinFile path)

/-- The options for compiling: arguments win over the configuration, and the pin file over the pins in
the configuration. -/
def resolveOptions (args : CompileArgs) (config : Config) (dir : String) : Run m Options := do
  let pins ←
    match pinFilePath args config dir with
    | none => pure config.pins
    | some path => pure (config.pins.union (← loadPins path))
  return {
    device := args.device.getD config.device
    header := config.header
    pins
    pinNodeLimit := args.pinNodeLimit.or config.pinNodeLimit }

/-! ## Compiling -/

/-- The line that tells the options. -/
def optionsLine (options : Options) : String :=
  let limit :=
    match options.pinNodeLimit with
    | none => "none"
    | some n => toString n
  "  Device " ++ options.device ++ ", " ++ toString options.pins.size ++
    " pin numbers, pin-node limit " ++ limit

/-- The line that tells what was compiled. -/
def compiledLine (name : String) (g : Network) : String :=
  "  Compiled " ++ name ++ " (" ++ toString g.pins.length ++ " pins, " ++
    toString g.pinNodes.length ++ " pin nodes)"

/-- The network that an attempt gives. -/
def orStop {α : Type} (r : Attempt α) : Run m α :=
  orFail (fun e => .compile (.network e)) r

/-- Writes the listing of an unfinished network under another extension. -/
def writeIntermediate (g : Network) (options : Options) (output extension : String) :
    Run m Unit := do
  writeFile (PathName.withExtension output extension) (← orStop (g.listing options))

/-- Compiles the network of a module to a file, and gives the network that was listed. -/
def compileTo (g : Network) (options : Options) (output : String) (intermediate : Bool) :
    Run m Network := do
  let g ← orStop g.branched
  if intermediate then writeIntermediate g options output "it1"
  let g ← orStop g.simplified
  if intermediate then writeIntermediate g options output "it2"
  let g ← orStop (g.reduced options.pinNodeLimit)
  writeFile output (← orStop (g.listing options))
  return g

/-- Runs the command that compiles a netlist. -/
def runCompile (inv : Invocation) (args : CompileArgs) : Run m Unit := do
  let (config, dir) ← loadConfig inv.config
  unless ← ask (Host.isFile args.input) do
    throw (.noInput args.input)
  let options ← resolveOptions args config dir
  if inv.verbose then
    ask (Host.note (optionsLine options))
  let text ← readFile args.input
  let g ← orFail (fun e => .compile (.netlist e))
    (Netlist.network text (args.module.or config.module))
  let name ← orStop (g.nodeName Network.designId)
  let output := args.output.getD (name ++ ".pld")
  let g ← compileTo g options output args.intermediate
  unless inv.quiet do
    ask (Host.note (compiledLine name g))
    ask (Host.note ("     Wrote " ++ output))

/-! ## Writing a script -/

/-- The first path at which no file stands. -/
def firstMissing : List String → m (Option String)
  | [] => return none
  | path :: rest => do
    if ← Host.isFile path then firstMissing rest else return some path

/-- Runs the command that writes a script. -/
def runScript (inv : Invocation) (args : ScriptArgs) : Run m Unit := do
  if let some path ← ask (firstMissing args.sources) then
    throw (.noInput path)
  let script : Script := {
    sources := args.sources
    library := args.library
    netlist := args.json.getD (Script.defaultNetlist args.output) }
  writeFile args.output script.text
  unless inv.quiet do
    ask (Host.note ("     Wrote " ++ args.output ++ " (netlist: " ++ script.netlist ++ ")"))

/-! ## The program -/

/-- How the program ended. -/
inductive Ending
  /-- The arguments made no command to run. -/
  | stopped (why : Stop)
  | done
  | failed (why : Failure)
  deriving DecidableEq, Repr

/-- The exit code of the program. -/
def Ending.exitCode : Ending → Nat
  | .stopped .help | .stopped .version | .done => 0
  | .stopped .missing => 1
  | .stopped .invalid => 2
  | .failed why => why.exitCode

/-- The line that tells the version. -/
def versionLine : String :=
  Listing.signature

/-- Runs the command of an invocation. -/
def runCommand (inv : Invocation) : Run m Unit :=
  match inv.command with
  | .compile args => runCompile inv args
  | .script args => runScript inv args

/-- The whole program. -/
def execute (args : List String) : m Ending := do
  match Invocation.parse args with
  | .error why => return .stopped why
  | .ok inv =>
    match ← (runCommand inv).run with
    | .ok () => return .done
    | .error why => return .failed why

end PldSynth.CommandLine
