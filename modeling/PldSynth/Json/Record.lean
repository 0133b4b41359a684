import PldSynth.Dict
import PldSynth.Json.Basic

/-!
# Records, dictionaries and lists in JSON

How typed data is taken out of a JSON value. A record is an object with some known members, or an
array of the values of its fields in order. Members that are not known are passed over; a known
member may not be given twice. In a dictionary every member counts, and the last of one name wins.
-/

namespace PldSynth.Json

/-- The members of an object whose keys are all text. -/
def namedMembers? (members : List (Option String × Json)) : Option (List (String × Json)) :=
  members.mapM fun m => m.1.map fun key => (key, m.2)

/-- The values of the fields of a record, as far as they are given. -/
def record? (fields : List String) : Json → Option (List (Option Json))
  | .array items =>
    if items.length ≤ fields.length then
      some ((List.range fields.length).map fun i => items[i]?)
    else
      none
  | .object members => do
    let named ← namedMembers? members
    if fields.any fun f => 1 < named.countP (·.1 = f) then none
    else some (fields.map fun f => named.lookup f)
  | _ => none

/-- A dictionary of values of one kind. -/
def dict? {α : Type} (decode : Json → Option α) : Json → Option (Dict α)
  | .object members =>
    members.foldlM (fun d m => do return d.insert (← m.1) (← decode m.2)) Dict.empty
  | _ => none

/-- A list of values of one kind. -/
def list? {α : Type} (decode : Json → Option α) : Json → Option (List α)
  | .array items => items.mapM decode
  | _ => none

/-- A text. -/
def text? : Json → Option String
  | .string text => text
  | _ => none

/-- An integer from `lo` on and below `hi`. -/
def integerIn? (lo hi : Int) : Json → Option Int
  | .integer n => if lo ≤ n ∧ n < hi then some n else none
  | _ => none

/-- A field that may be left out. -/
def orElse {α : Type} (decode : Json → Option α) (default : α) : Option Json → Option α
  | none => some default
  | some v => decode v

end PldSynth.Json
