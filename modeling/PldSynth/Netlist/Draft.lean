import PldSynth.Netlist.Basic
import PldSynth.Netlist.Error
import PldSynth.Netlist.Library
import PldSynth.Network.Wiring
import PldSynth.Text.Decimal

/-!
# From a design to its network

The network of a design is drawn in three steps: first the ports and cells with their connections,
then the wires, then the names of the registers. Every connection is bound to the number of a wire.
An output drives its wire; anything else reads it. A literal gets a constant of its own, on a wire of
a number that counts down from -1.

Ports are seen from inside here: an input of the design drives, an output reads.
-/

namespace PldSynth

/-- A connection that reads a wire. -/
structure Reader where
  conn : ConnId
  wire : Int
  /-- Where the netlist binds the connection. -/
  path : String
  deriving DecidableEq, Repr

/-- A network whose wires are still to be drawn. -/
structure Draft where
  net : Network
  /-- The outputs by the wires that they drive; the first one counts. -/
  drivers : List (Int × ConnId) := []
  /-- How many literals were met. -/
  literals : Nat := 0
  cellReaders : List Reader := []
  portReaders : List Reader := []
  /-- The registers by the wires that they drive; the first one counts. -/
  registers : List (Int × NodeId) := []
  deriving DecidableEq, Repr

/-- Which part of a design a connection belongs to. -/
inductive Side
  | port
  | cell
  deriving DecidableEq, Repr

namespace Draft

/-- A constant on a wire of its own, and the number of that wire. -/
def addLiteral (d : Draft) (value : Nat) : Int × Draft :=
  let ((_, out), net) := d.net.addConstant value
  let wire : Int := -1 - d.literals
  (wire, { d with net, drivers := (wire, out) :: d.drivers, literals := d.literals + 1 })

/-- The wire that a bit stands for. A literal may be bound to an input only. -/
def wireOf (d : Draft) (direction : Direction) (path : String) :
    Bit → Except NetlistError (Int × Draft)
  | .wire id => .ok (id, d)
  | .literal text =>
    if direction ≠ .input then .error (.literalOnNonInput path)
    else
      match Text.readNat? Text.bound32 text.toList with
      | none => .error (.badLiteral path text)
      | some value => .ok (d.addLiteral value)

/-- Records that an output drives a wire. There may be one only. -/
def drive (d : Draft) (conn : ConnId) (wire : Int) : Except NetlistError Draft :=
  if (d.drivers.lookup wire).isSome then .error (.ambiguousDriver wire)
  else .ok { d with drivers := (wire, conn) :: d.drivers }

/-- Records that a connection reads a wire. -/
def read (d : Draft) (side : Side) (reader : Reader) : Draft :=
  match side with
  | .port => { d with portReaders := d.portReaders ++ [reader] }
  | .cell => { d with cellReaders := d.cellReaders ++ [reader] }

/-- Binds a connection to a bit. -/
def bind (d : Draft) (side : Side) (conn : ConnId) (direction : Direction) (path : String)
    (bit : Bit) : Except NetlistError Draft := do
  let (wire, d) ← d.wireOf direction path bit
  match direction with
  | .output => d.drive conn wire
  | _ => return d.read side { conn, wire, path }

/-! ## Ports -/

/-- The name of a bit of a port or net: the name itself if there is no other bit, else the name with
the position of the bit. -/
def bitName (name : String) (width index : Nat) : String :=
  if 1 < width then name ++ toString index else name

/-- Draws one bit of a port. -/
def addPortBit (path name : String) (width : Nat) (direction : Direction) (d : Draft)
    (bit : Bit × Nat) : Except NetlistError Draft :=
  let (conn, net) := d.net.attach Network.designId (bitName name width bit.2) direction
  { d with net }.bind .port conn direction (path ++ ".bits." ++ toString bit.2) bit.1

/-- Draws a port. -/
def addPort (root : String) (d : Draft) (port : String × Port) : Except NetlistError Draft :=
  let path := root ++ ".ports." ++ port.1
  match Direction.ofWord? port.2.direction with
  | none => .error (.badDirection (path ++ ".direction") port.2.direction)
  | some direction =>
    port.2.bits.zipIdx.foldlM
      (addPortBit path port.1 port.2.bits.length direction.flipped) d

/-! ## Cells -/

/-- The direction of a port of a cell: fixed by its name for a register, given by the netlist for any
other cell. -/
def cellPortDirection (path : String) (cell : Cell) (kind : NodeKind) (port : String) :
    Except NetlistError Direction :=
  if kind.isRegister then
    match Library.registerDirection? (Library.portName kind port) with
    | some direction => .ok direction
    | none => .error (.unknownPort path port)
  else
    match cell.portDirections.get? port with
    | none => .error (.malformed (path ++ ".port_directions") (.noDirection port))
    | some word =>
      match Direction.ofWord? word with
      | some direction => .ok direction
      | none => .error (.badDirection (path ++ ".port_directions." ++ port) word)

/-- Records the wire that a register drives. -/
def noteRegister (d : Draft) (kind : NodeKind) (node : NodeId) (direction : Direction)
    (bit : Bit) : Draft :=
  match bit with
  | .wire id =>
    if kind.isRegister && direction = .output then
      { d with registers := (id, node) :: d.registers }
    else d
  | .literal _ => d

/-- Draws one port of a cell. -/
def addCellPort (path : String) (cell : Cell) (kind : NodeKind) (node : NodeId) (d : Draft)
    (port : String × List Bit) : Except NetlistError Draft := do
  let portPath := path ++ ".connections." ++ port.1
  match port.2 with
  | [bit] =>
    let direction ← cellPortDirection path cell kind port.1
    let (conn, net) := d.net.attach node (Library.portName kind port.1) direction
    ({ d with net }.noteRegister kind node direction bit).bind .cell conn direction portPath bit
  | bits => throw (.malformed portPath (.bitCount bits.length))

/-- Draws a cell. -/
def addCell (root : String) (d : Draft) (cell : String × Cell) : Except NetlistError Draft :=
  let path := root ++ ".cells." ++ cell.1
  match Library.kindOfType? cell.2.type with
  | none => .error (.unknownCellType (path ++ ".type") cell.2.type)
  | some kind =>
    let (node, net) := d.net.addCell cell.1 kind
    cell.2.connections.entries.foldlM (addCellPort path cell.2 kind node) { d with net }

/-! ## Wires and names -/

/-- Draws the wire to one reader. -/
def connect (drivers : List (Int × ConnId)) (net : Network) (r : Reader) :
    Except NetlistError Network :=
  match drivers.lookup r.wire with
  | none => .error (.undriven r.wire r.path)
  | some driver => .ok (net.wire r.conn driver)

/-- Draws the wires to all readers, those of the cells first. -/
def connectAll (d : Draft) : Except NetlistError Network :=
  (d.cellReaders ++ d.portReaders).foldlM (connect d.drivers) d.net

/-- Names a register after the net that it drives. -/
def nameRegister (registers : List (Int × NodeId)) (name : String) (width : Nat) (net : Network)
    (bit : Bit × Nat) : Network :=
  match bit.1 with
  | .literal _ => net
  | .wire id =>
    match registers.lookup id with
    | none => net
    | some node => net.renameNode node (bitName name width bit.2)

/-- Names the registers after one net, unless its name was made up by a tool. -/
def nameRegisters (registers : List (Int × NodeId)) (net : Network) (n : String × Net) : Network :=
  if n.2.hideName = 0 then
    n.2.bits.zipIdx.foldl (nameRegister registers n.1 n.2.bits.length) net
  else net

end Draft

/-- The network of a design. -/
def Design.toNetwork (name : String) (d : Design) : Except NetlistError Network := do
  let root := "modules." ++ name
  let draft ← d.ports.entries.foldlM (Draft.addPort root) { net := .new name }
  let draft ← d.cells.entries.foldlM (Draft.addCell root) draft
  let net ← draft.connectAll
  return d.nets.entries.foldl (Draft.nameRegisters draft.registers) net

namespace Netlist

/-- Reads a netlist. -/
def parse (text : String) : Except NetlistError Netlist :=
  match (Json.parse? text).bind ofJson? with
  | some netlist => .ok netlist
  | none => .error .unreadable

/-- The design of a name; without a name, the only design. -/
def select (netlist : Netlist) : Option String → Except NetlistError (String × Design)
  | some name =>
    match netlist.designs.get? name with
    | some design => .ok (name, design)
    | none => .error (.noSuchDesign name)
  | none =>
    match netlist.designs.entries with
    | [] => .error .noDesign
    | [entry] => .ok entry
    | entries => .error (.severalDesigns entries.length)

/-- The network of a design in the text of a netlist. -/
def network (text : String) (name : Option String) : Except NetlistError Network := do
  let (name, design) ← (← parse text).select name
  design.toNetwork name

end Netlist

end PldSynth
