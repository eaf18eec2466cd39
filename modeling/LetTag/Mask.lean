/-
  String literals in the text of a statement, and what can be found outside them.

  A literal runs from a quote to the next quote of the same kind that no backslash escapes, or to
  the end of its line.  `mask` blanks out what stands inside literals and keeps the quotes, so that
  a position in the mask is a position in the text.  Everything here reads the text once, from left
  to right, with a `Quoting` that says where the scan stands.
-/
import LetTag.Text.Blank
import LetTag.Text.Line

namespace LetTag

open Text

/-! ## Where a scan stands -/

/-- Outside literals, or inside one opened by `quote`, perhaps right behind a backslash. -/
inductive Quoting where
  | outside
  | inside (quote : Char) (escaped : Bool)
  deriving DecidableEq, Repr

namespace Quoting

/-- Is `c` one of the two quotes? -/
def isQuote (c : Char) : Bool :=
  c == '\'' || c == '"'

/-- Where the scan stands after `c`. -/
def next : Quoting → Char → Quoting
  | outside, c => if isQuote c then inside c false else outside
  | inside q true, _ => inside q false
  | inside q false, c =>
    if c = '\\' then inside q true else if c = q ∨ c = '\n' then outside else inside q false

/-- What the mask shows in the place of `c`. -/
def shown : Quoting → Char → Char
  | outside, c => c
  | inside _ true, _ => ' '
  | inside q false, c => if c ≠ '\\' ∧ (c = q ∨ c = '\n') then c else ' '

end Quoting

/-! ## The mask -/

/-- The mask of a text whose scan starts at `q`. -/
def maskFrom : Quoting → List Char → List Char
  | _, [] => []
  | q, c :: rest => q.shown c :: maskFrom (q.next c) rest

/-- The text with the contents of its literals blanked out. -/
def mask (s : List Char) : List Char :=
  maskFrom .outside s

/-- Does `token` occur in `s`? -/
def occursIn (token : List Char) : List Char → Bool
  | [] => token.isEmpty
  | c :: rest => token.isPrefixOf (c :: rest) || occursIn token rest

/-- Does `token` occur outside the literals of `s`? -/
def occursUnquoted (s token : List Char) : Bool :=
  occursIn token (mask s)

/-! ## Splitting at the top level -/

/-- Is `c` an opening bracket? -/
def isOpener (c : Char) : Bool :=
  c == '(' || c == '[' || c == '{'

/-- Is `c` a closing bracket? -/
def isCloser (c : Char) : Bool :=
  c == ')' || c == ']' || c == '}'

/-- The pieces of the rest of a text, `depth` brackets being open where it starts. -/
def topLevelPieces (sep : Char) : Quoting → Nat → List Char → List (List Char)
  | _, _, [] => [[]]
  | q, depth, c :: rest =>
    let m := q.shown c
    if isOpener m then extendFirst c (topLevelPieces sep (q.next c) (depth + 1) rest)
    else if isCloser m then extendFirst c (topLevelPieces sep (q.next c) (depth - 1) rest)
    else if m = sep ∧ depth = 0 then [] :: topLevelPieces sep (q.next c) depth rest
    else extendFirst c (topLevelPieces sep (q.next c) depth rest)

/-- The trimmed, non-empty parts between the separators that stand outside literals and brackets.
    Brackets are counted, not matched, and one that closes nothing is ignored. -/
def topLevelParts (sep : Char) (s : List Char) : List (List Char) :=
  ((topLevelPieces sep .outside 0 s).map trim).filter (!·.isEmpty)

end LetTag
