import PldSynth.Dict
import PldSynth.Toml.Value

/-!
# Records and dictionaries in TOML

How typed data is taken out of a TOML value. A record is a table of its fields, and no other name may
stand in it; or an array of the values of its fields in order, of which values behind the last field
do not count. In a dictionary every entry counts.
-/

namespace PldSynth.Toml

/-- The values of the fields of a table, as far as they are given. -/
def fieldsOf? (fields : List String) (entries : List (String × Toml)) :
    Option (List (Option Toml)) :=
  if entries.all fun e => fields.contains e.1 then some (fields.map fun f => entries.lookup f) else none

/-- The values of the fields of a record, as far as they are given. -/
def record? (fields : List String) : Toml → Option (List (Option Toml))
  | .table entries => fieldsOf? fields entries
  | .array items => some ((List.range fields.length).map fun i => items[i]?)
  | _ => none

/-- A dictionary of values of one kind. -/
def dict? {α : Type} (decode : Toml → Option α) : Toml → Option (Dict α)
  | .table entries => entries.foldlM (fun d e => do return d.insert e.1 (← decode e.2)) Dict.empty
  | _ => none

/-- A text. -/
def text? : Toml → Option String
  | .string s => some s
  | _ => none

/-- A natural number below a bound. -/
def natBelow? (bound : Nat) : Toml → Option Nat
  | .integer n => if 0 ≤ n ∧ n < bound then some n.toNat else none
  | _ => none

/-- A field that has a default. -/
def orElse {α : Type} (decode : Toml → Option α) (default : α) : Option Toml → Option α
  | none => some default
  | some v => decode v

/-- A field that may be left out. -/
def optional? {α : Type} (decode : Toml → Option α) : Option Toml → Option (Option α)
  | none => some none
  | some v => (decode v).map some

end PldSynth.Toml
