import PldSynth.Toml.Value

/-!
# TOML: documents

A document is a sequence of lines. A line with a key and a value adds to the table of the last header;
a header opens a table, or one more table of an array of tables.
-/

namespace PldSynth.Toml

/-! ## Headers -/

/-- Changes the table that a path leads to. Tables on the way are opened if they are missing; an array
of tables stands for its last one. -/
def within? (change : Items → Option Items) : (path : List String) → Items → Option Items
  | [], items => change items
  | key :: path, items => do
    match items.lookup key with
    | none => return items ++ [(key, .table .passed (← within? change path []))]
    | some (.table origin inner) =>
      return replace key (.table origin (← within? change path inner)) items
    | some (.tables last before) =>
      return replace key (.tables (← within? change path last) before) items
    | some (.value _) => none

/-- Opens the table of a header. -/
def openTable? (key : String) (items : Items) : Option Items :=
  match items.lookup key with
  | none => some (items ++ [(key, .table .header [])])
  | some (.table .passed inner) => some (replace key (.table .header inner) items)
  | some _ => none

/-- Opens one more table of an array of tables. -/
def openArrayTable? (key : String) (items : Items) : Option Items :=
  match items.lookup key with
  | none => some (items ++ [(key, .tables [] [])])
  | some (.tables last before) => some (replace key (.tables [] (last :: before)) items)
  | some _ => none

/-! ## Lines -/

/-- A document as far as it was read. -/
structure Draft where
  root : Items := []
  /-- The header whose table is being added to. -/
  current : List String := []
  deriving Repr

/-- Opens what a header names, by its last part, and makes it the current table. -/
def Draft.enter? (d : Draft) (openLast : String → Items → Option Items) (path : List String) :
    Option Draft := do
  let root ← within? (openLast (← path.getLast?)) path.dropLast d.root
  return { root, current := path }

/-- Adds a value to the current table. -/
def Draft.add? (d : Draft) (path : List String) (v : Toml) : Option Draft := do
  return { d with root := ← within? (addKey? v path) d.current d.root }

/-- A header behind its opening bracket. -/
def readHeader? (d : Draft) : Reader Draft
  | '[' :: cs => do
    let (path, rest) ← key? cs
    match rest with
    | ']' :: ']' :: rest => return (← d.enter? openArrayTable? path, ← skipRestOfLine? rest)
    | _ => none
  | cs => do
    let (path, rest) ← key? cs
    match rest with
    | ']' :: rest => return (← d.enter? openTable? path, ← skipRestOfLine? rest)
    | _ => none

/-- A line with a key and a value. -/
def readKeyValue? (d : Draft) : Reader Draft := fun cs => do
  let (path, rest) ← key? cs
  let (v, rest) ← value? maxDepth (skipSpaces (← skipChar? (· = '=') rest))
  return (← d.add? path v, ← skipRestOfLine? rest)

/-- One line, behind the blanks at its head. -/
def readLine? (d : Draft) : Reader Draft := fun cs =>
  match cs with
  | '[' :: rest => readHeader? d rest
  | '#' :: _ | '\n' :: _ | '\r' :: _ => (skipRestOfLine? cs).map fun rest => (d, rest)
  | cs => readKeyValue? d cs

/-- The rest of a document. Every line passes at least one character, so the length of the text bounds
the lines. -/
def readLines : (bound : Nat) → Draft → List Char → Option Draft
  | 0, _, _ => none
  | bound + 1, d, cs =>
    match skipSpaces cs with
    | [] => some d
    | cs => (readLine? d cs).bind fun (d, rest) => readLines bound d rest

/-- The text without a byte order mark at its head. -/
def dropMark : List Char → List Char
  | '\ufeff' :: rest => rest
  | cs => cs

/-- The table that a document stands for. -/
def parse? (text : String) : Option (List (String × Toml)) := do
  let cs := dropMark text.toList
  let d ← readLines (cs.length + 1) {} cs
  return Item.entries d.root

end PldSynth.Toml
