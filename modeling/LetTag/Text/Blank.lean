/-
  Blank characters, and texts without the blanks at their ends.

  A blank is anything that counts as white space in a statement: the ASCII blanks with the four
  separator controls, the no-break spaces and the line and paragraph separators.  The byte order
  mark and the zero-width space are not among them.
-/
import LetTag.Text.Ranges

namespace LetTag.Text

/-- The blank characters, as ranges of code points. -/
def blankTable : List (Nat × Nat) :=
  [(9, 13), (28, 32), (133, 133), (160, 160), (5760, 5760), (8192, 8202), (8232, 8233),
    (8239, 8239), (8287, 8287), (12288, 12288)]

/-- Is `c` white space? -/
def isBlank (c : Char) : Bool :=
  inRanges blankTable c

/-- The text without its last characters that satisfy `p`. -/
def dropEndWhile (p : Char → Bool) (s : List Char) : List Char :=
  s.foldr (fun c rest => if rest.isEmpty && p c then [] else c :: rest) []

/-- The text without the blanks in front. -/
def trimLeft (s : List Char) : List Char :=
  s.dropWhile isBlank

/-- The text without the blanks at its end. -/
def trimRight (s : List Char) : List Char :=
  dropEndWhile isBlank s

/-- The text without the blanks at either end. -/
def trim (s : List Char) : List Char :=
  trimRight (trimLeft s)

/-- Are all characters blank? -/
def allBlank (s : List Char) : Bool :=
  s.all isBlank

end LetTag.Text
