/-!
# JSON tokens

The first step of reading JSON: a text is cut into tokens, one character at a time. Only the four
blanks of JSON stand between tokens, and nothing else is forgiven.

The text of a string is kept if its escapes spell Unicode text. A lone surrogate does not, but a
string with one is still a token, because it may stand where nobody looks at it.
-/

namespace PldSynth.Json

/-- A token of a JSON text. -/
inductive Token
  | openArray
  | closeArray
  | openObject
  | closeObject
  | comma
  | colon
  | null
  | bool (b : Bool)
  /-- A number that is written as an integer. Minus zero is not one. -/
  | integer (n : Int)
  /-- Any other number. -/
  | real
  /-- A string; no text if its escapes spell none. -/
  | string (text : Option String)
  deriving DecidableEq, Repr, Inhabited

/-! ## Strings -/

/-- One item of a string: a character, or half of a surrogate pair. -/
inductive Piece
  | char (c : Char)
  | high (unit : Nat)
  | low (unit : Nat)
  deriving DecidableEq, Repr

/-- The item that a code unit stands for. -/
def Piece.ofUnit (n : Nat) : Piece :=
  if 0xD800 ≤ n ∧ n < 0xDC00 then .high n
  else if 0xDC00 ≤ n ∧ n < 0xE000 then .low n
  else .char (Char.ofNat n)

/-- Joins surrogate pairs; fails on a lone surrogate. -/
def joinPairs : List Piece → Option (List Char)
  | [] => some []
  | .char c :: rest => (joinPairs rest).map (c :: ·)
  | .high h :: .low l :: rest =>
    (joinPairs rest).map (Char.ofNat (0x10000 + (h - 0xD800) * 0x400 + (l - 0xDC00)) :: ·)
  | .high _ :: _ => none
  | .low _ :: _ => none

/-- The character that a single-letter escape stands for. -/
def unescape? : Char → Option Char
  | '"' => some '"'
  | '\\' => some '\\'
  | '/' => some '/'
  | 'b' => some '\x08'
  | 'f' => some '\x0c'
  | 'n' => some '\n'
  | 'r' => some '\r'
  | 't' => some '\t'
  | _ => none

/-- The value of a hexadecimal digit. -/
def hexDigit? (c : Char) : Option Nat :=
  if '0' ≤ c ∧ c ≤ '9' then some (c.toNat - '0'.toNat)
  else if 'a' ≤ c ∧ c ≤ 'f' then some (c.toNat - 'a'.toNat + 10)
  else if 'A' ≤ c ∧ c ≤ 'F' then some (c.toNat - 'A'.toNat + 10)
  else none

/-! ## Numbers -/

/-- How much of a number was read. -/
inductive Stage
  /-- The minus sign. -/
  | sign
  /-- A zero, after which no digit may follow. -/
  | zero
  /-- Digits of which the first is not zero. -/
  | digits
  /-- The decimal point. -/
  | point
  /-- Digits behind the point. -/
  | fraction
  /-- The mark of the exponent. -/
  | mark
  /-- The sign of the exponent. -/
  | markSign
  /-- Digits of the exponent. -/
  | exponent
  deriving DecidableEq, Repr

/-- The stage after one more character, if the number goes on with it. -/
def Stage.next? (s : Stage) (c : Char) : Option Stage :=
  let digit := c.isDigit
  let isMark := c = 'e' || c = 'E'
  match s with
  | .sign => if c = '0' then some .zero else if digit then some .digits else none
  | .zero => if c = '.' then some .point else if isMark then some .mark else none
  | .digits =>
    if digit then some .digits else if c = '.' then some .point
    else if isMark then some .mark else none
  | .point => if digit then some .fraction else none
  | .fraction => if digit then some .fraction else if isMark then some .mark else none
  | .mark =>
    if c = '+' || c = '-' then some .markSign else if digit then some .exponent else none
  | .markSign => if digit then some .exponent else none
  | .exponent => if digit then some .exponent else none

/-- The token of a number that ends here, if it may end here. -/
def Stage.token? (s : Stage) (negative : Bool) (value : Nat) : Option Token :=
  match s with
  | .zero => some (if negative then .real else .integer 0)
  | .digits => some (.integer (if negative then -value else value))
  | .fraction | .exponent => some .real
  | .sign | .point | .mark | .markSign => none

/-! ## Reading -/

/-- Where a text was read up to. -/
inductive Reading
  /-- Between two tokens. -/
  | blank
  /-- Inside a string, with its items in reverse. -/
  | text (items : List Piece)
  /-- Behind a backslash. -/
  | escape (items : List Piece)
  /-- Inside a code unit of which some digits are still to come. -/
  | unit (items : List Piece) (missing : Nat) (value : Nat)
  | number (stage : Stage) (negative : Bool) (value : Nat)
  /-- Inside a word of which some letters are still to come. -/
  | word (letters : List Char) (token : Token)
  deriving DecidableEq, Repr

/-- One character between tokens. -/
def Reading.start (c : Char) : Option (Reading × List Token) :=
  match c with
  | ' ' | '\t' | '\n' | '\r' => some (.blank, [])
  | '[' => some (.blank, [.openArray])
  | ']' => some (.blank, [.closeArray])
  | '\x7b' => some (.blank, [.openObject])
  | '\x7d' => some (.blank, [.closeObject])
  | ',' => some (.blank, [.comma])
  | ':' => some (.blank, [.colon])
  | '"' => some (.text [], [])
  | 'n' => some (.word ['u', 'l', 'l'] .null, [])
  | 't' => some (.word ['r', 'u', 'e'] (.bool true), [])
  | 'f' => some (.word ['a', 'l', 's', 'e'] (.bool false), [])
  | '-' => some (.number .sign true 0, [])
  | '0' => some (.number .zero false 0, [])
  | c => if c.isDigit then some (.number .digits false (c.toNat - '0'.toNat), []) else none

/-- One character, and the tokens that it completes. -/
def Reading.step (r : Reading) (c : Char) : Option (Reading × List Token) :=
  match r with
  | .blank => Reading.start c
  | .text items =>
    if c = '"' then some (.blank, [.string ((joinPairs items.reverse).map String.ofList)])
    else if c = '\\' then some (.escape items, [])
    else if c.toNat < 0x20 then none
    else some (.text (.char c :: items), [])
  | .escape items =>
    if c = 'u' then some (.unit items 4 0, [])
    else (unescape? c).map fun e => (.text (.char e :: items), [])
  | .unit items missing value =>
    (hexDigit? c).map fun d =>
      if missing ≤ 1 then (.text (.ofUnit (value * 16 + d) :: items), [])
      else (.unit items (missing - 1) (value * 16 + d), [])
  | .number stage negative value =>
    match stage.next? c with
    | some stage =>
      let value := if stage = .digits then value * 10 + (c.toNat - '0'.toNat) else value
      some (.number stage negative value, [])
    | none => do
      let token ← stage.token? negative value
      let (r, tokens) ← Reading.start c
      return (r, token :: tokens)
  | .word letters token =>
    match letters with
    | [] => none
    | [l] => if c = l then some (.blank, [token]) else none
    | l :: ls => if c = l then some (.word ls token, []) else none

/-- The end of the text, and the token that it completes. -/
def Reading.finish? : Reading → Option (List Token)
  | .blank => some []
  | .number stage negative value => (stage.token? negative value).map ([·])
  | _ => none

/-- Reads on; `found` holds the tokens so far in reverse. -/
def Reading.run (r : Reading) (found : List Token) : List Char → Option (List Token)
  | [] => r.finish?.map fun tokens => (tokens.reverse ++ found).reverse
  | c :: cs =>
    match r.step c with
    | none => none
    | some (r, tokens) => r.run (tokens.reverse ++ found) cs

/-- The tokens of a text. -/
def tokens? (text : String) : Option (List Token) :=
  Reading.run .blank [] text.toList

end PldSynth.Json
