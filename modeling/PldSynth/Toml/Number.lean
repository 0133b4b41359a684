import PldSynth.Toml.Lexical

/-!
# TOML: numbers, dates and times

Integers must fit in 64 bits with sign. Of a decimal fraction or a date only the form is checked; no
setting has such a value.
-/

namespace PldSynth.Toml

/-! ## Digits -/

/-- The digits behind a digit; single underscores may stand between them. `done` holds what was read
in reverse. -/
def moreDigits (isDigit : Char → Bool) (done : List Char) : List Char → List Char × List Char
  | '_' :: d :: rest =>
    if isDigit d then moreDigits isDigit (d :: done) rest else (done.reverse, '_' :: d :: rest)
  | d :: rest => if isDigit d then moreDigits isDigit (d :: done) rest else (done.reverse, d :: rest)
  | [] => (done.reverse, [])

/-- Digits at the head of a text, without the underscores between them. -/
def digits? (isDigit : Char → Bool) : Reader (List Char)
  | d :: rest => if isDigit d then some (moreDigits isDigit [d] rest) else none
  | [] => none

/-- The value of digits in a base. -/
def valueIn (base : Nat) (ds : List Char) : Nat :=
  ds.foldl (fun n d => n * base + (hexDigit? d).getD 0) 0

/-! ## Integers -/

/-- A sign at the head of a text. -/
def sign : List Char → Bool × List Char
  | '-' :: rest => (true, rest)
  | '+' :: rest => (false, rest)
  | cs => (false, cs)

/-- The digits of a decimal integer: a zero alone, or digits of which the first is not zero. -/
def decimalDigits? : Reader (List Char)
  | '0' :: rest => some (['0'], rest)
  | cs => digits? Char.isDigit cs

/-- An integer that fits in 64 bits with sign. -/
def fitting? (n : Int) : Option Int :=
  if -Int.pow 2 63 ≤ n ∧ n < Int.pow 2 63 then some n else none

/-- The digits of a base behind its mark. -/
def basedInteger? (base : Nat) (isDigit : Char → Bool) : Reader Int := fun cs => do
  let (ds, rest) ← digits? isDigit cs
  return (← fitting? (valueIn base ds), rest)

def isHexDigit (c : Char) : Bool := (hexDigit? c).isSome
def isOctalDigit (c : Char) : Bool := '0' ≤ c && c ≤ '7'
def isBinaryDigit (c : Char) : Bool := c = '0' || c = '1'

/-- An integer in decimal, with or without sign. -/
def decimalInteger? : Reader Int := fun cs => do
  let (negative, cs) := sign cs
  let (ds, rest) ← decimalDigits? cs
  let n : Int := valueIn 10 ds
  return (← fitting? (if negative then -n else n), rest)

/-- An integer in decimal, or behind a mark in base 16, 8 or 2. -/
def integer? : Reader Int
  | '0' :: 'x' :: rest => basedInteger? 16 isHexDigit rest
  | '0' :: 'o' :: rest => basedInteger? 8 isOctalDigit rest
  | '0' :: 'b' :: rest => basedInteger? 2 isBinaryDigit rest
  | cs => decimalInteger? cs

/-! ## Decimal fractions -/

/-- The least number that is too great for a double: halfway from the greatest double to the next
power of two. -/
def overflowBound : Nat := Nat.pow 2 1024 - Nat.pow 2 970

/-- Whether the number with these digits, times a power of ten, is too great for a double. The number
of places decides it, unless there are exactly 309 of them. -/
def overflows (ds : List Char) (exponent : Int) : Bool :=
  let ds := ds.dropWhile (· = '0')
  let places : Int := ds.length + exponent
  if ds.isEmpty || places < 309 then false
  else if 309 < places then true
  else if 0 ≤ exponent then overflowBound ≤ valueIn 10 ds * Nat.pow 10 exponent.toNat
  else overflowBound * Nat.pow 10 (-exponent).toNat ≤ valueIn 10 ds

/-- The exponent at the head of a text. -/
def exponent? : Reader Int
  | e :: rest =>
    if e = 'e' || e = 'E' then do
      let (negative, rest) := sign rest
      let (ds, rest) ← digits? Char.isDigit rest
      let n : Int := valueIn 10 ds
      return (if negative then -n else n, rest)
    else none
  | [] => none

/-- The text behind a number with a fraction or an exponent. -/
def skipFraction? (cs : List Char) : Option (List Char) := do
  let (negative, cs) := sign cs
  let (whole, rest) ← decimalDigits? cs
  let (ds, exponent, rest) ← match rest with
    | '.' :: rest => do
      let (part, rest) ← digits? Char.isDigit rest
      let (exponent, rest) := (exponent? rest).getD (0, rest)
      pure (whole ++ part, exponent - part.length, rest)
    | rest => do
      let (exponent, rest) ← exponent? rest
      pure (whole, exponent, rest)
  if !negative && overflows ds exponent then none else some rest

/-- The text behind one of the special numbers. -/
def skipSpecial? (cs : List Char) : Option (List Char) :=
  match (sign cs).2 with
  | 'i' :: 'n' :: 'f' :: rest => some rest
  | 'n' :: 'a' :: 'n' :: rest => some rest
  | _ => none

/-- The text behind a number that is no integer. -/
def skipFloat? (cs : List Char) : Option (List Char) :=
  (skipFraction? cs).or (skipSpecial? cs)

/-! ## Dates and times -/

/-- A number of `width` digits that is at least `lo` and at most `hi`. -/
def fixed? (width lo hi : Nat) : Reader Nat := fun cs =>
  let ds := cs.take width
  let n := valueIn 10 ds
  if ds.length = width && ds.all Char.isDigit && lo ≤ n && n ≤ hi then some (n, cs.drop width)
  else none

/-- The text behind one character. -/
def skipChar? (p : Char → Bool) : List Char → Option (List Char)
  | c :: rest => if p c then some rest else none
  | [] => none

/-- The number of days of a month. -/
def daysIn (year month : Nat) : Nat :=
  if month = 2 then
    if (year % 4 = 0 && year % 100 ≠ 0) || year % 400 = 0 then 29 else 28
  else if month = 4 || month = 6 || month = 9 || month = 11 then 30
  else 31

/-- The text behind a date. -/
def skipDate? (cs : List Char) : Option (List Char) := do
  let (year, cs) ← fixed? 4 0 9999 cs
  let (month, cs) ← fixed? 2 1 12 (← skipChar? (· = '-') cs)
  let (_, cs) ← fixed? 2 1 (daysIn year month) (← skipChar? (· = '-') cs)
  return cs

/-- The text behind a fraction of a second, if there is one. -/
def skipSecondFraction : List Char → List Char
  | '.' :: d :: rest => if d.isDigit then rest.dropWhile Char.isDigit else '.' :: d :: rest
  | cs => cs

/-- The text behind a time of day. -/
def skipTime? (cs : List Char) : Option (List Char) := do
  let (_, cs) ← fixed? 2 0 23 cs
  let (_, cs) ← fixed? 2 0 59 (← skipChar? (· = ':') cs)
  let (_, cs) ← fixed? 2 0 60 (← skipChar? (· = ':') cs)
  return skipSecondFraction cs

/-- The text behind the offset of a time zone. -/
def skipOffset? (cs : List Char) : Option (List Char) :=
  (skipChar? (fun c => c = 'Z' || c = 'z') cs).or do
    let (_, cs) ← fixed? 2 0 23 (← skipChar? (fun c => c = '+' || c = '-') cs)
    let (_, cs) ← fixed? 2 0 59 (← skipChar? (· = ':') cs)
    return cs

/-- The text behind a time that follows a date, with its offset. -/
def skipTimeOfDate? (cs : List Char) : Option (List Char) := do
  let rest ← skipTime? (← skipChar? (fun c => c = 'T' || c = 't' || c = ' ') cs)
  return (skipOffset? rest).getD rest

/-- The text behind a date, a time, or both. -/
def skipDateTime? (cs : List Char) : Option (List Char) :=
  match skipDate? cs with
  | some rest => some ((skipTimeOfDate? rest).getD rest)
  | none => skipTime? cs

end PldSynth.Toml
