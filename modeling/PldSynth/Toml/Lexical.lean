/-!
# TOML: characters, strings and keys

The lexical part of TOML 1.0. Every reader takes the characters that are left and returns what it read
together with the characters behind it, or nothing if the text is not in order.
-/

namespace PldSynth.Toml

/-- A reader of a value at the head of a text. -/
abbrev Reader (α : Type) := List Char → Option (α × List Char)

/-! ## Blanks, comments and line ends -/

/-- A blank within a line. -/
def isSpace (c : Char) : Bool :=
  c = ' ' || c = '\t'

/-- The text behind the blanks at its head. -/
def skipSpaces (cs : List Char) : List Char :=
  cs.dropWhile isSpace

/-- A character that may stand in a comment. -/
def isCommentChar (c : Char) : Bool :=
  c = '\t' || (0x20 ≤ c.toNat && c.toNat ≠ 0x7F)

/-- The text behind a comment at its head, if there is one. -/
def skipComment : List Char → List Char
  | '#' :: rest => rest.dropWhile isCommentChar
  | cs => cs

/-- The text behind a line end at its head. -/
def skipNewline? : List Char → Option (List Char)
  | '\n' :: rest => some rest
  | '\r' :: '\n' :: rest => some rest
  | _ => none

/-- The text behind a line end at its head; the end of the text ends a line too. -/
def skipLineEnd? : List Char → Option (List Char)
  | [] => some []
  | cs => skipNewline? cs

/-- The text behind the rest of a line on which nothing more may stand but a comment. -/
def skipRestOfLine? (cs : List Char) : Option (List Char) :=
  skipLineEnd? (skipComment (skipSpaces cs))

/-- The text behind blanks, line ends, and comments that end with their line. Every round passes at
least one character, so the length of the text bounds the rounds. -/
def skipLines : (bound : Nat) → List Char → Option (List Char)
  | 0, cs => some cs
  | bound + 1, cs =>
    match skipSpaces cs with
    | '#' :: rest => (skipNewline? (rest.dropWhile isCommentChar)).bind (skipLines bound)
    | cs =>
      match skipNewline? cs with
      | some rest => skipLines bound rest
      | none => some cs

/-- The text behind all blanks, line ends and comments at its head. -/
def skipGap? (cs : List Char) : Option (List Char) :=
  skipLines cs.length cs

/-! ## Escapes -/

/-- The value of a hexadecimal digit. -/
def hexDigit? (c : Char) : Option Nat :=
  if '0' ≤ c ∧ c ≤ '9' then some (c.toNat - '0'.toNat)
  else if 'a' ≤ c ∧ c ≤ 'f' then some (c.toNat - 'a'.toNat + 10)
  else if 'A' ≤ c ∧ c ≤ 'F' then some (c.toNat - 'A'.toNat + 10)
  else none

/-- The character of a code point in hexadecimal digits. -/
def codePoint? (digits : List Char) : Option Char := do
  let n ← digits.foldlM (fun n c => return n * 16 + (← hexDigit? c)) 0
  if Nat.isValidChar n then some (Char.ofNat n) else none

/-- The character that a single-letter escape stands for. -/
def unescape? : Char → Option Char
  | 'b' => some '\x08'
  | 't' => some '\t'
  | 'n' => some '\n'
  | 'f' => some '\x0c'
  | 'r' => some '\r'
  | '"' => some '"'
  | '\\' => some '\\'
  | _ => none

/-! ## Strings -/

/-- A character that stands for itself in a basic string. -/
def isBasicChar (c : Char) : Bool :=
  isCommentChar c && c ≠ '"' && c ≠ '\\'

/-- A character that stands for itself in a literal string. -/
def isLiteralChar (c : Char) : Bool :=
  isCommentChar c && c ≠ '\''

/-- A basic string behind its opening quote; `done` holds what was read in reverse. -/
def basicString (done : List Char) : Reader (List Char)
  | [] => none
  | '"' :: rest => some (done.reverse, rest)
  | '\\' :: 'u' :: a :: b :: c :: d :: rest => do
    basicString ((← codePoint? [a, b, c, d]) :: done) rest
  | '\\' :: 'U' :: a :: b :: c :: d :: e :: f :: g :: h :: rest => do
    basicString ((← codePoint? [a, b, c, d, e, f, g, h]) :: done) rest
  | '\\' :: e :: rest => do basicString ((← unescape? e) :: done) rest
  | c :: rest => if isBasicChar c then basicString (c :: done) rest else none

/-- A literal string behind its opening quote. -/
def literalString (done : List Char) : Reader (List Char)
  | [] => none
  | '\'' :: rest => some (done.reverse, rest)
  | c :: rest => if isLiteralChar c then literalString (c :: done) rest else none

/-- The end of a string of several lines: of up to five quotes in a row the last three end it. -/
def closeQuotes (quote : Char) (done rest : List Char) : List Char × List Char :=
  let extra := ((rest.take 2).takeWhile (· = quote)).length
  ((List.replicate extra quote ++ done).reverse, rest.drop extra)

/-- Whether the line ends after some blanks. -/
def lineEndsHere (cs : List Char) : Bool :=
  (skipNewline? (skipSpaces cs)).isSome

/-- A basic string of several lines behind its opening quotes. After a backslash at the end of a line,
blanks and line ends are passed over; `passing` says that this is going on. -/
def basicLines (passing : Bool) (done : List Char) : Reader (List Char)
  | [] => none
  | '"' :: '"' :: '"' :: rest => some (closeQuotes '"' done rest)
  | '"' :: rest => basicLines false ('"' :: done) rest
  | '\r' :: '\n' :: rest => basicLines passing (if passing then done else '\n' :: done) rest
  | '\n' :: rest => basicLines passing (if passing then done else '\n' :: done) rest
  | '\\' :: 'u' :: a :: b :: c :: d :: rest => do
    basicLines false ((← codePoint? [a, b, c, d]) :: done) rest
  | '\\' :: 'U' :: a :: b :: c :: d :: e :: f :: g :: h :: rest => do
    basicLines false ((← codePoint? [a, b, c, d, e, f, g, h]) :: done) rest
  | '\\' :: e :: rest =>
    if lineEndsHere (e :: rest) then basicLines true done (e :: rest)
    else (unescape? e).bind fun x => basicLines false (x :: done) rest
  | c :: rest =>
    if passing && isSpace c then basicLines true done rest
    else if isBasicChar c then basicLines false (c :: done) rest
    else none

/-- A literal string of several lines behind its opening quotes. -/
def literalLines (done : List Char) : Reader (List Char)
  | [] => none
  | '\'' :: '\'' :: '\'' :: rest => some (closeQuotes '\'' done rest)
  | '\r' :: '\n' :: rest => literalLines ('\n' :: done) rest
  | '\n' :: rest => literalLines ('\n' :: done) rest
  | c :: rest => if isLiteralChar c || c = '\'' then literalLines (c :: done) rest else none

/-- The text behind a line end, if it begins with one. -/
def dropFirstNewline (cs : List Char) : List Char :=
  (skipNewline? cs).getD cs

/-- A string of any of the four forms. -/
def string? : Reader String := fun cs => do
  let (s, rest) ← match cs with
    | '"' :: '"' :: '"' :: rest => basicLines false [] (dropFirstNewline rest)
    | '\'' :: '\'' :: '\'' :: rest => literalLines [] (dropFirstNewline rest)
    | '"' :: rest => basicString [] rest
    | '\'' :: rest => literalString [] rest
    | _ => none
  return (String.ofList s, rest)

/-! ## Keys -/

/-- A character of a bare key. -/
def isBareKeyChar (c : Char) : Bool :=
  c.isAlphanum || c = '_' || c = '-'

/-- One part of a key: bare, or a string of one line. -/
def simpleKey? : Reader String := fun cs =>
  match cs with
  | '"' :: rest => (basicString [] rest).map fun (s, rest) => (String.ofList s, rest)
  | '\'' :: rest => (literalString [] rest).map fun (s, rest) => (String.ofList s, rest)
  | cs =>
    let (key, rest) := cs.span isBareKeyChar
    if key.isEmpty then none else some (String.ofList key, rest)

/-- The parts of a key behind a first part, each behind a dot. -/
def moreKeys (bound : Nat) (done : List String) : Reader (List String) := fun cs =>
  match bound, skipSpaces cs with
  | bound + 1, '.' :: rest => do
    let (part, rest) ← simpleKey? (skipSpaces rest)
    moreKeys bound (part :: done) rest
  | _, cs => some (done.reverse, cs)

/-- Keys must have fewer parts, and arrays and inline tables must be nested less deep, than this. -/
def maxDepth : Nat := 80

/-- A key with its parts, and the text behind it and the blanks that follow. -/
def key? : Reader (List String) := fun cs => do
  let (part, rest) ← simpleKey? (skipSpaces cs)
  let (parts, rest) ← moreKeys rest.length [part] rest
  if parts.length < maxDepth then some (parts, rest) else none

end PldSynth.Toml
