import PldSynth.Dict
import PldSynth.Project.Error
import PldSynth.Text.Blank
import PldSynth.Text.Decimal
import PldSynth.Text.Split

/-!
# Pin tables and pin files

A pin table gives numbers to signals by name. A pin file holds such a table, one signal a line, with
fields between colons: the first field is the name, the second the number, all others are ignored.
Lines without a name or without a number are no entries.

A member of a bus, `name[3]`, is entered under the name of the port bit, `name3`.
-/

namespace PldSynth

/-- Pin numbers by signal name. -/
abbrev PinTable := Dict Nat

/-- The pin number of a signal, 0 if it has none. -/
def PinTable.number (t : PinTable) (name : String) : Nat :=
  (Dict.get? t name).getD 0

namespace PinFile

/-- The name of a port bit for a member of a bus; any other name stays as it is. -/
def portBitName (name : List Char) : List Char :=
  let base := name.takeWhile (· ≠ '[')
  let index := (name.dropWhile (· ≠ '[')).drop 1
  let digits := index.dropLast
  if !base.isEmpty && index.getLast? = some ']' && !digits.isEmpty && digits.all Char.isDigit then
    base ++ digits
  else
    name

/-- One entry as it is written: the name, and the text of the number. -/
structure Entry where
  name : List Char
  number : List Char
  deriving DecidableEq, Repr

/-- The entry of a line, if the line has a name and something that begins like a number. -/
def Entry.ofLine? (line : List Char) : Option Entry :=
  match Text.pieces ':' line with
  | name :: number :: _ =>
    let name := Text.trimChars name
    let number := Text.trimChars number
    if !name.isEmpty && number.head?.any Char.isDigit then some { name, number } else none
  | _ => none

/-- Adds the entry of the line with the given number to a table. -/
def addLine (t : PinTable) (line : List Char × Nat) : Except ProjectError PinTable :=
  match Entry.ofLine? line.1 with
  | none => .ok t
  | some e =>
    match Text.readNat? Text.bound32 e.number with
    | none => .error (.badPinNumber line.2 (String.ofList e.number))
    | some n =>
      let name := String.ofList (portBitName e.name)
      if t.contains name then .error (.duplicatePin name) else .ok (t.insert name n)

/-- The table that a pin file holds. -/
def parse (text : String) : Except ProjectError PinTable :=
  ((Text.linesOf text.toList).zipIdx 1).foldlM addLine Dict.empty

end PinFile

end PldSynth
