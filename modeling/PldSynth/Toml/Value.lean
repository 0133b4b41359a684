import PldSynth.Toml.Number

/-!
# TOML: values and the tables they form

The values that can stand behind an equals sign. While a table is being written, how each table in it
came about decides what may still be added: a table of a header may not be opened again, a table that
only stands on the way to another may, and a table of dotted keys may only be added to by dotted keys.
-/

namespace PldSynth

/-- A TOML value. Of decimal fractions, dates and times nothing is kept. -/
inductive Toml
  | string (s : String)
  | integer (n : Int)
  | boolean (b : Bool)
  | fraction
  | dateTime
  | array (items : List Toml)
  | table (entries : List (String × Toml))
  deriving Repr, Inhabited

namespace Toml

/-! ## Tables in the making -/

/-- How a table came about. -/
inductive Origin
  /-- By a header of its own. -/
  | header
  /-- On the way to the table of a longer header. -/
  | passed
  /-- On the way of a dotted key. -/
  | dotted
  deriving DecidableEq, Repr

/-- What a name stands for while its table is being written. -/
inductive Item
  | value (v : Toml)
  | table (origin : Origin) (items : List (String × Item))
  /-- An array of tables: the last one, and those before it from the last to the first. -/
  | tables (last : List (String × Item)) (before : List (List (String × Item)))
  deriving Repr, Inhabited

/-- The items of a table. -/
abbrev Items := List (String × Item)

/-- Replaces the first item of a name. -/
def replace (key : String) (i : Item) : Items → Items
  | [] => [(key, i)]
  | e :: rest => if e.1 = key then (key, i) :: rest else e :: replace key i rest

/-- Adds a value under a key of several parts. The parts before the last lead through tables, and open
those that are missing; the table that they lead to must be one of dotted keys. The last part must be
new. -/
def addKey? (v : Toml) : (path : List String) → Items → Option Items
  | [], _ => none
  | [key], items =>
    match items.lookup key with
    | some _ => none
    | none => some (items ++ [(key, .value v)])
  | key :: next :: path, items => do
    match items.lookup key with
    | none => return items ++ [(key, .table .dotted (← addKey? v (next :: path) []))]
    | some (.table .dotted inner) =>
      return replace key (.table .dotted (← addKey? v (next :: path) inner)) items
    | some (.table .passed inner) =>
      if path.isEmpty then none
      else return replace key (.table .passed (← addKey? v (next :: path) inner)) items
    | some (.tables last before) =>
      if path.isEmpty then none
      else return replace key (.tables (← addKey? v (next :: path) last) before) items
    | some (.table .header _) => none
    | some (.value _) => none

mutual

/-- The value of an item. -/
def Item.toToml : Item → Toml
  | .value v => v
  | .table _ items => .table (Item.entries items)
  | .tables last before => .array (Item.arrayOf before ++ [.table (Item.entries last)])

/-- The entries of a table. -/
def Item.entries : List (String × Item) → List (String × Toml)
  | [] => []
  | (key, i) :: rest => (key, i.toToml) :: Item.entries rest

/-- The tables of an array, of which the last comes first in the list. -/
def Item.arrayOf : List (List (String × Item)) → List Toml
  | [] => []
  | items :: rest => Item.arrayOf rest ++ [.table (Item.entries items)]

end

/-! ## Scalars -/

/-- A word at the head of a text, and the value that it stands for. -/
def word? (w : List Char) (v : Toml) : Reader Toml := fun cs =>
  if w.isPrefixOf cs then some (v, cs.drop w.length) else none

/-- A number, date or time. -/
def number? : Reader Toml := fun cs =>
  match skipDateTime? cs, skipFloat? cs with
  | some rest, _ => some (.dateTime, rest)
  | none, some rest => some (.fraction, rest)
  | none, none => (integer? cs).map fun (n, rest) => (.integer n, rest)

/-- A value that holds no other values. -/
def scalar? : Reader Toml := fun cs =>
  match cs with
  | '"' :: _ | '\'' :: _ => (string? cs).map fun (s, rest) => (.string s, rest)
  | 't' :: _ => word? ['t', 'r', 'u', 'e'] (.boolean true) cs
  | 'f' :: _ => word? ['f', 'a', 'l', 's', 'e'] (.boolean false) cs
  | _ => number? cs

/-! ## Values of values -/

/-- The items of an array behind its opening bracket. Every round passes a comma, so the length of the
text bounds the rounds. -/
def arrayItems (value : Reader Toml) : (bound : Nat) → (done : List Toml) → Reader (List Toml)
  | 0, _, _ => none
  | bound + 1, done, cs => do
    match ← skipGap? cs with
    | ']' :: rest => return (done.reverse, rest)
    | cs =>
      let (v, rest) ← value cs
      match ← skipGap? rest with
      | ',' :: rest => arrayItems value bound (v :: done) rest
      | ']' :: rest => return ((v :: done).reverse, rest)
      | _ => none

/-- The entries of an inline table that has some, behind its opening brace. -/
def inlineItems (value : Reader Toml) : (bound : Nat) → Items → Reader Items
  | 0, _, _ => none
  | bound + 1, items, cs => do
    let (path, rest) ← key? cs
    let (v, rest) ← value (skipSpaces (← skipChar? (· = '=') rest))
    let items ← addKey? v path items
    match skipSpaces rest with
    | ',' :: rest => inlineItems value bound items rest
    | '\x7d' :: rest => return (items, rest)
    | _ => none

/-- An inline table behind its opening brace. -/
def inlineTable (value : Reader Toml) : Reader Toml := fun cs =>
  match skipSpaces cs with
  | '\x7d' :: rest => some (.table [], rest)
  | cs => (inlineItems value cs.length [] cs).map fun (items, rest) =>
      (.table (Item.entries items), rest)

/-- A value in which arrays and inline tables are nested less than `depth` levels deep. -/
def value? : (depth : Nat) → Reader Toml
  | 0, _ => none
  | depth + 1, cs =>
    match cs with
    | '[' :: rest =>
      if depth = 0 then none
      else (arrayItems (value? depth) cs.length [] rest).map fun (l, rest) => (.array l, rest)
    | '\x7b' :: rest => if depth = 0 then none else inlineTable (value? depth) rest
    | cs => scalar? cs

end Toml

end PldSynth
