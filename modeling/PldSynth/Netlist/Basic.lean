import PldSynth.Json.Record

/-!
# Netlists

A netlist describes designs by their ports, cells and nets. A wire is known by a number; all that is
bound to one number is connected. In place of a number there may be a literal.

`Netlist.ofJson?` takes a netlist out of a JSON value. Whatever else the value holds is passed over.
-/

namespace PldSynth

/-- What one bit of a port, cell or net is bound to. -/
inductive Bit
  /-- The wire of a number. -/
  | wire (id : Int)
  /-- A literal value. -/
  | literal (text : String)
  deriving DecidableEq, Repr, Inhabited

/-- A port of a design, with its direction as seen from outside. -/
structure Port where
  direction : String
  bits : List Bit
  deriving DecidableEq, Repr, Inhabited

/-- A cell of a design. -/
structure Cell where
  type : String
  /-- The directions of its ports, where they are given. -/
  portDirections : Dict String
  /-- The bits that its ports are bound to. -/
  connections : Dict (List Bit)
  deriving DecidableEq, Repr, Inhabited

/-- A net of a design: a name for some bits. -/
structure Net where
  /-- Not zero if the name was made up by a tool. -/
  hideName : Nat
  bits : List Bit
  deriving DecidableEq, Repr, Inhabited

/-- One design of a netlist. -/
structure Design where
  ports : Dict Port
  cells : Dict Cell
  nets : Dict Net
  deriving DecidableEq, Repr, Inhabited

/-- A netlist. -/
structure Netlist where
  designs : Dict Design
  deriving DecidableEq, Repr, Inhabited

/-! ## Reading -/

/-- A bit: a number of 64 bits with sign, or a literal. -/
def Bit.ofJson? (j : Json) : Option Bit :=
  match j with
  | .string text => text.map .literal
  | j => (j.integerIn? (-Int.pow 2 63) (Int.pow 2 63)).map .wire

/-- Several bits. -/
def bitsOfJson? : Json → Option (List Bit) :=
  Json.list? Bit.ofJson?

def Port.ofJson? (j : Json) : Option Port := do
  match ← j.record? ["direction", "bits"] with
  | [some direction, some bits] =>
    return { direction := ← direction.text?, bits := ← bitsOfJson? bits }
  | _ => none

def Cell.ofJson? (j : Json) : Option Cell := do
  match ← j.record? ["type", "port_directions", "connections"] with
  | [some type, directions, connections] =>
    return {
      type := ← type.text?
      portDirections := ← Json.orElse (Json.dict? Json.text?) Dict.empty directions
      connections := ← Json.orElse (Json.dict? bitsOfJson?) Dict.empty connections }
  | _ => none

def Net.ofJson? (j : Json) : Option Net := do
  match ← j.record? ["hide_name", "bits"] with
  | [hideName, bits] =>
    return {
      hideName := (← Json.orElse (Json.integerIn? 0 256) 0 hideName).toNat
      bits := ← Json.orElse bitsOfJson? [] bits }
  | _ => none

def Design.ofJson? (j : Json) : Option Design := do
  match ← j.record? ["ports", "cells", "netnames"] with
  | [ports, cells, nets] =>
    return {
      ports := ← Json.orElse (Json.dict? Port.ofJson?) Dict.empty ports
      cells := ← Json.orElse (Json.dict? Cell.ofJson?) Dict.empty cells
      nets := ← Json.orElse (Json.dict? Net.ofJson?) Dict.empty nets }
  | _ => none

def Netlist.ofJson? (j : Json) : Option Netlist := do
  match ← j.record? ["modules"] with
  | [designs] => return { designs := ← Json.orElse (Json.dict? Design.ofJson?) Dict.empty designs }
  | _ => none

end PldSynth
