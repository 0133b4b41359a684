import PldSynth.Text.Blank

/-!
# Wrapped lines

A text is set in lines of at most a given width. Lengths are counted in bytes of UTF-8. A word goes
on the line as long as the line stays below the width; a longer word stands on a line of its own.
Lines after the first are indented, and the indent does not count.
-/

namespace PldSynth.Text

/-- The end of a line. -/
def lineEnd : String := "\r\n"

/-- What stands between two lines of a wrapped text. -/
def continuation : String := lineEnd ++ "  "

/-- The lines that the words fill if `line`, of length `used`, is already set. -/
def fillFrom (width : Nat) (line : List String) (used : Nat) : List String → List (List String)
  | [] => [line]
  | w :: ws =>
    if used + w.utf8ByteSize < width then
      fillFrom width (line ++ [w]) (used + 1 + w.utf8ByteSize) ws
    else
      line :: fillFrom width [w] w.utf8ByteSize ws

/-- The lines that the words fill. -/
def fill (width : Nat) : List String → List (List String)
  | [] => []
  | w :: ws => fillFrom width [w] w.utf8ByteSize ws

/-- The text in lines of at most the given width. -/
def wrap (text : String) (width : Nat) : String :=
  continuation.intercalate ((fill width (words text)).map fun line => " ".intercalate line)

end PldSynth.Text
