/-!
# Unsigned decimal numbers

An unsigned number is one or more decimal digits, with a plus sign in front if one likes. Leading
zeros are fine. The value must stay below a bound.
-/

namespace PldSynth.Text

/-- Below this bound a number fits in 32 bits. -/
def bound32 : Nat := Nat.pow 2 32

/-- Below this bound a number fits in 64 bits. -/
def bound64 : Nat := Nat.pow 2 64

/-- The value of a row of digits. -/
def digitsValue (ds : List Char) : Nat :=
  ds.foldl (fun n d => n * 10 + (d.toNat - '0'.toNat)) 0

/-- The digits behind a plus sign, if there is one. -/
def dropPlus : List Char → List Char
  | '+' :: ds => ds
  | ds => ds

/-- Reads an unsigned number below `bound`. -/
def readNat? (bound : Nat) (cs : List Char) : Option Nat :=
  let ds := dropPlus cs
  if ds.isEmpty || !ds.all Char.isDigit then none
  else if digitsValue ds < bound then some (digitsValue ds)
  else none

example : readNat? bound32 "+007".toList = some 7 ∧ readNat? bound32 "4294967296".toList = none ∧
    readNat? bound32 "1_0".toList = none ∧ readNat? bound32 "+".toList = none := by decide

end PldSynth.Text
