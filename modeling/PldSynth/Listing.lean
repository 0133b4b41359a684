import PldSynth.Equation.OfNetwork
import PldSynth.Header
import PldSynth.Network.Budget
import PldSynth.Network.Cycle
import PldSynth.Network.Forwarding
import PldSynth.Network.Takeover
import PldSynth.Project.PinFile
import PldSynth.Text.Alphanumeric

/-!
# Listings

A listing is the finished file: the header, the pins and pin nodes, and the equations. Three empty
lines stand between these parts, and every line ends with a carriage return and a line feed.

`Network.compile` leads from the network of a module to its listing.
-/

namespace PldSynth

/-- What a listing needs besides the network. -/
structure Options where
  /-- The device that the listing is for. -/
  device : String := "virtual"
  header : Header := {}
  /-- Pin numbers by signal name. -/
  pins : PinTable := Dict.empty
  /-- How many pin nodes the device can hold; without a limit none is removed. -/
  pinNodeLimit : Option Nat := none
  deriving DecidableEq, Repr, Inhabited

namespace Listing

/-- The name under which the program signs its listings. -/
def signature : String := "netcupl 0.1.0"

/-- What stands between two parts of a listing. -/
def gap : String :=
  Text.lineEnd ++ Text.lineEnd ++ Text.lineEnd

/-- A line of text with its end. -/
def line (s : String) : String :=
  s ++ Text.lineEnd

/-- Lines of text, each with its end. -/
def lines (l : List String) : String :=
  String.join (l.map line)

/-- One field of the header. -/
def headerLine (field : String × String) : String :=
  field.1 ++ " " ++ field.2 ++ Header.padding field.1 ++ ";"

/-- The lines of the header. -/
def headerLines (options : Options) (moduleName : String) : List String :=
  (options.header.named moduleName).fields.map headerLine ++ ["Device " ++ options.device ++ ";"]

/-- The declaration of a pin; a pin without a number leaves it blank. -/
def pinLine (pins : PinTable) (name : String) : String :=
  let number := pins.number name
  "PIN  " ++ (if number = 0 then "" else toString number) ++ "  = " ++ name ++ ";"

/-- The declaration of a pin node. -/
def pinNodeLine (name : String) : String :=
  "PINNODE      = " ++ name ++ ";"

/-- The comment between the header and the declarations. -/
def banner : String :=
  "/* The following was auto-generated by " ++ signature ++ " */"

end Listing

namespace Network

/-! ## Names that an equation can hold -/

/-- Gives a pin or pin node a name of letters, digits and underscores. A connection that bears the name of
the node changes with it. -/
def cleanName (g : Network) (n : NodeId) : Attempt Network := do
  let x ← g.node n
  let name := Text.identifier x.name
  if name = x.name then
    return g
  x.conns.foldlM
    (fun g c => do return if (← g.conn c).name = x.name then g.renameConn c name else g)
    (g.renameNode n name)

/-- Gives every pin and pin node a name of letters, digits and underscores. -/
def cleanNames (g : Network) : Attempt Network :=
  (g.pins ++ g.pinNodes).foldlM cleanName g

/-! ## The listing -/

/-- The listing of a network. -/
def listing (g : Network) (options : Options) : Attempt String := do
  let header := Listing.headerLines options (← g.nodeName designId)
  let pins ← g.pins.mapM g.nodeName
  let pinNodes ← g.pinNodes.mapM g.nodeName
  let equations ← g.equations
  return Listing.lines header ++ Listing.gap ++ Listing.banner ++ Listing.gap ++
    Listing.lines (pins.map (Listing.pinLine options.pins)) ++ Listing.gap ++
    Listing.lines (pinNodes.map Listing.pinNodeLine) ++ Listing.gap ++
    Listing.lines (equations.map Equation.render)

/-! ## The way there -/

/-- The network of a module with names for the signals that are used more than once. -/
def branched (g : Network) : Attempt Network := do
  g.checkLoops
  return (← g.branch).2

/-- The network without pin nodes that only pass a signal on. -/
def simplified (g : Network) : Attempt Network := do
  return (← g.simplify).2

/-- The network with as few nodes as the limit asks for, and with names that an equation can hold. -/
def reduced (g : Network) (limit : Option Nat) : Attempt Network := do
  let (_, g) ← g.collapse
  let (_, g) ← g.expand limit
  g.cleanNames

/-- The listing of the network of a module, after all passes. -/
def compile (g : Network) (options : Options) : Attempt String := do
  let g ← g.branched
  let g ← g.simplified
  let g ← g.reduced options.pinNodeLimit
  g.listing options

end Network

end PldSynth
