import PldSynth.CommandLine.Switch

/-!
# Reading arguments

Arguments are read from left to right. Switches may stand before and behind operands; behind two
dashes alone there are only operands. A switch of one letter may be followed by others of that kind in
one argument, and by its value. A switch may be given once.

A value or operand is looked at when the next argument takes effect, or at the end (`settle`).
-/

namespace PldSynth.CommandLine

/-- Why the arguments do not make a command to run. -/
inductive Stop
  /-- A help page was asked for. -/
  | help
  /-- The version was asked for. -/
  | version
  /-- The command, or something that it needs, is missing. -/
  | missing
  /-- An argument is wrong. -/
  | invalid
  deriving DecidableEq, Repr

/-- The commands by which arguments are read. -/
inductive Verb
  /-- The program itself, before its command is known. -/
  | program
  | compile
  | script
  deriving DecidableEq, Repr

namespace Verb

/-- The switches that a command knows. -/
def switches : Verb → List Switch
  | .program => .version :: Switch.shared
  | .compile =>
    [.output, .device, .pinFile, .module, .pinNodeLimit, .intermediate] ++ Switch.shared
  | .script => [.output, .json, .library] ++ Switch.shared

/-- Whether one more operand may follow. -/
def takesOperand (v : Verb) (operands : Nat) : Bool :=
  match v with
  | .program => false
  | .compile => operands = 0
  | .script => true

/-- The names of the commands that can follow. -/
def commandNames : Verb → List String
  | .program => ["cupl", "yosys", "help"]
  | _ => []

end Verb

/-- What was read and not looked at yet. -/
inductive Pending
  /-- A switch whose value is still to come. -/
  | awaiting (s : Switch)
  | value (s : Switch) (v : String)
  | operand (v : String)
  deriving DecidableEq, Repr

/-- The arguments as far as they were read. -/
structure Reading where
  given : List (Switch × String) := []
  operands : List String := []
  pending : Option Pending := none
  deriving DecidableEq, Repr

namespace Reading

/-- The value of a switch. -/
def value? (r : Reading) (s : Switch) : Option String :=
  r.given.lookup s

/-- Whether a switch was given. -/
def has (r : Reading) (s : Switch) : Bool :=
  (r.value? s).isSome

/-- Whether the next argument may be the value of a switch. -/
def isAwaiting (r : Reading) : Bool :=
  match r.pending with
  | some (.awaiting _) => true
  | _ => false

/-- Enters a switch with its value. -/
def enter (r : Reading) (s : Switch) (v : String) : Except Stop Reading :=
  if r.has s || !s.kind.accepts v then .error .invalid
  else .ok { r with given := r.given ++ [(s, v)] }

/-- Looks at what was not looked at yet. -/
def settle (r : Reading) : Except Stop Reading :=
  let clear := { r with pending := none }
  match r.pending with
  | none => .ok r
  | some (.awaiting _) => .error .invalid
  | some (.value s v) => clear.enter s v
  | some (.operand v) =>
    if v.isEmpty then .error .invalid else .ok { clear with operands := r.operands ++ [v] }

/-- Takes a switch that has the given value attached, if any. -/
def take (r : Reading) (s : Switch) (attached : Option String) : Except Stop Reading :=
  match s.kind, attached with
  | .flag, some _ => .error .invalid
  | .flag, none => do
    let r ← r.settle
    match s with
    | .help => .error .help
    | .version => .error .version
    | s => r.enter s ""
  | _, some v => do (← r.settle).enter s v
  | _, none => do return { ← r.settle with pending := some (.awaiting s) }

/-- Takes an argument behind two dashes. -/
def takeLong (r : Reading) (verb : Verb) (cs : List Char) : Except Stop Reading :=
  let name := String.ofList (cs.takeWhile (· ≠ '='))
  let attached :=
    match cs.dropWhile (· ≠ '=') with
    | _ :: v => some (String.ofList v)
    | [] => none
  match verb.switches.find? (·.long = name) with
  | some s => r.take s attached
  | none => .error .invalid

/-- The value attached to a switch of one letter, with or without an equals sign. -/
def attachedTo : List Char → Option String
  | [] => none
  | '=' :: v => some (String.ofList v)
  | v => some (String.ofList v)

/-- Takes the letters behind one dash. -/
def takeShort (verb : Verb) : Reading → List Char → Except Stop Reading
  | r, [] => .ok r
  | r, c :: cs =>
    match verb.switches.find? (·.short? = some c) with
    | none => .error .invalid
    | some s =>
      if s.kind = .flag then do takeShort verb (← r.take s none) cs
      else r.take s (attachedTo cs)

/-- Takes an operand. -/
def takeOperand (r : Reading) (verb : Verb) (v : String) : Except Stop Reading := do
  let r ← r.settle
  if verb.takesOperand r.operands.length then return { r with pending := some (.operand v) }
  else .error .invalid

/-- Takes an argument that begins with no dash. -/
def takePlain (r : Reading) (verb : Verb) (v : String) : Except Stop Reading :=
  match r.pending with
  | some (.awaiting s) => .ok { r with pending := some (.value s v) }
  | _ => r.takeOperand verb v

/-- Takes an argument. -/
def takeArgument (r : Reading) (verb : Verb) (v : String) : Except Stop Reading :=
  match v.toList with
  | '-' :: '-' :: cs => r.takeLong verb cs
  | '-' :: c :: cs => takeShort verb r (c :: cs)
  | _ => r.takePlain verb v

/-- Reads arguments up to the name of a command, which is left with the arguments behind it. -/
def takeAll (verb : Verb) : Reading → List String → Except Stop (Reading × List String)
  | r, [] => .ok (r, [])
  | r, v :: rest =>
    if !r.isAwaiting && verb.commandNames.contains v then .ok (r, v :: rest)
    else if v = "--" then do return (← rest.foldlM (fun r v => r.takeOperand verb v) r, [])
    else do takeAll verb (← r.takeArgument verb v) rest

end Reading

end PldSynth.CommandLine
