import PldSynth.Json.Token

/-!
# JSON values

The second step of reading JSON: the tokens of a text are put together into a value. Values that are
still open wait on a stack, so a value may be nested to any depth.
-/

namespace PldSynth

/-- A JSON value. Of a number only the integers keep their value; a string or a key whose escapes
spell no text is kept as nothing. -/
inductive Json
  | null
  | bool (b : Bool)
  | integer (n : Int)
  | real
  | string (text : Option String)
  | array (items : List Json)
  | object (members : List (Option String × Json))
  deriving Repr, Inhabited

namespace Json

/-- A value that is still open, with what it holds so far in reverse. -/
inductive Frame
  | array (items : List Json)
  | object (members : List (Option String × Json))
  /-- The key of the member that comes next. -/
  | member (key : Option String)
  deriving Repr

/-- What may come next. -/
inductive Expect
  /-- A value. -/
  | value
  /-- A value, or the end of an array that is still empty. -/
  | item
  /-- A key. -/
  | key
  /-- A key, or the end of an object that is still empty. -/
  | firstKey
  /-- A colon. -/
  | colon
  /-- A comma, or the end of the innermost open value. -/
  | separator
  /-- Nothing: the value is complete. -/
  | nothing (value : Json)
  deriving Repr

/-- How far a value was put together. -/
structure Assembly where
  expect : Expect
  stack : List Frame
  deriving Repr

/-- A complete value goes into the innermost open one. -/
def Assembly.complete (v : Json) : List Frame → Option Assembly
  | [] => some ⟨.nothing v, []⟩
  | .array items :: stack => some ⟨.separator, .array (v :: items) :: stack⟩
  | .member key :: .object members :: stack =>
    some ⟨.separator, .object ((key, v) :: members) :: stack⟩
  | _ => none

/-- A token where a value may begin. -/
def Assembly.beginValue (stack : List Frame) : Token → Option Assembly
  | .openArray => some ⟨.item, .array [] :: stack⟩
  | .openObject => some ⟨.firstKey, .object [] :: stack⟩
  | .null => complete .null stack
  | .bool b => complete (.bool b) stack
  | .integer n => complete (.integer n) stack
  | .real => complete .real stack
  | .string text => complete (.string text) stack
  | _ => none

/-- One token. -/
def Assembly.step (a : Assembly) (t : Token) : Option Assembly :=
  match a.expect, t, a.stack with
  | .value, t, stack => beginValue stack t
  | .item, .closeArray, .array items :: stack => complete (.array items.reverse) stack
  | .item, t, stack => beginValue stack t
  | .key, .string text, stack => some ⟨.colon, .member text :: stack⟩
  | .firstKey, .closeObject, .object members :: stack => complete (.object members.reverse) stack
  | .firstKey, .string text, stack => some ⟨.colon, .member text :: stack⟩
  | .colon, .colon, stack => some ⟨.value, stack⟩
  | .separator, .comma, .array items :: stack => some ⟨.value, .array items :: stack⟩
  | .separator, .comma, .object members :: stack => some ⟨.key, .object members :: stack⟩
  | .separator, .closeArray, .array items :: stack => complete (.array items.reverse) stack
  | .separator, .closeObject, .object members :: stack =>
    complete (.object members.reverse) stack
  | _, _, _ => none

/-- The value of a row of tokens. -/
def ofTokens? (tokens : List Token) : Option Json := do
  match (← tokens.foldlM Assembly.step ⟨.value, []⟩).expect with
  | .nothing v => some v
  | _ => none

/-- The value of a text. -/
def parse? (text : String) : Option Json := do
  ofTokens? (← tokens? text)

end Json

end PldSynth
