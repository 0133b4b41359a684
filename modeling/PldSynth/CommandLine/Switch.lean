import PldSynth.Text.Decimal

/-!
# Switches

The switches that the commands know, how each is spelled, and what values each takes.
-/

namespace PldSynth.CommandLine

/-- A switch. -/
inductive Switch
  | quiet
  | verbose
  | config
  | help
  | version
  | output
  | device
  | pinFile
  | module
  | pinNodeLimit
  | intermediate
  | json
  | library
  deriving DecidableEq, Repr

/-- What a switch takes. -/
inductive Switch.Kind
  /-- Nothing. -/
  | flag
  /-- Any text. -/
  | text
  /-- A path, which is never empty. -/
  | path
  /-- An unsigned number. -/
  | number
  deriving DecidableEq, Repr

/-- Whether a text is a value of this kind. -/
def Switch.Kind.accepts (value : String) : Kind → Bool
  | .flag | .text => true
  | .path => !value.isEmpty
  | .number => (Text.readNat? Text.bound64 value.toList).isSome

namespace Switch

/-- The spelling behind two dashes. -/
def long : Switch → String
  | .quiet => "quiet"
  | .verbose => "verbose"
  | .config => "config"
  | .help => "help"
  | .version => "version"
  | .output => "output"
  | .device => "device"
  | .pinFile => "pin-file"
  | .module => "module"
  | .pinNodeLimit => "pinnode-limit"
  | .intermediate => "intermediate"
  | .json => "json"
  | .library => "lib-dir"

/-- The letter behind one dash. -/
def short? : Switch → Option Char
  | .quiet => some 'q'
  | .verbose => some 'v'
  | .help => some 'h'
  | .version => some 'V'
  | .output => some 'o'
  | .device => some 'd'
  | .pinFile => some 'p'
  | .module => some 'm'
  | .intermediate => some 'i'
  | .config | .pinNodeLimit | .json | .library => none

/-- What a switch takes. -/
def kind : Switch → Kind
  | .quiet | .verbose | .help | .version | .intermediate => .flag
  | .config | .device | .module => .text
  | .output | .pinFile | .json | .library => .path
  | .pinNodeLimit => .number

/-- The switches that every command knows. -/
def shared : List Switch := [.quiet, .verbose, .config, .help]

end Switch

end PldSynth.CommandLine
