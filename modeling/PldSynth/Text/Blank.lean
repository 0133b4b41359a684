/-!
# Blank characters

Blanks are the characters with the Unicode property White_Space. Text is cut into words at blanks,
and trimmed of blanks at its ends.
-/

namespace PldSynth.Text

/-- Whether a character is a blank. -/
def isBlank (c : Char) : Bool :=
  let n := c.toNat
  (0x9 ≤ n && n ≤ 0xD) || n = 0x20 || n = 0x85 || n = 0xA0 || n = 0x1680 ||
    (0x2000 ≤ n && n ≤ 0x200A) || n = 0x2028 || n = 0x2029 || n = 0x202F || n = 0x205F ||
    n = 0x3000

/-! ## Words -/

/-- The words of the text that begins with `c` and goes on with words that were found already. The
flag says whether the first of them begins right behind `c`. -/
def prependChar (c : Char) (s : Bool × List (List Char)) : Bool × List (List Char) :=
  if isBlank c then (false, s.2)
  else
    match s with
    | (true, w :: ws) => (true, (c :: w) :: ws)
    | (_, ws) => (true, [c] :: ws)

/-- The longest runs of characters that are not blank. -/
def wordsOf (cs : List Char) : List (List Char) :=
  (cs.foldr prependChar (false, [])).2

/-- The words of a text. -/
def words (s : String) : List String :=
  (wordsOf s.toList).map String.ofList

/-! ## Trimming -/

/-- The characters between the blanks at the two ends. -/
def trimChars (cs : List Char) : List Char :=
  ((cs.dropWhile isBlank).reverse.dropWhile isBlank).reverse

/-- The text between the blanks at the two ends. -/
def trim (s : String) : String :=
  String.ofList (trimChars s.toList)

end PldSynth.Text
