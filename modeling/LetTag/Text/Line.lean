/-
  Lines of a text, their common margin, and their indentation.

  Two notions of a line are in use.  `cut '\n'` splits at line feeds only and is undone by joining;
  margins are measured on it.  `lines` splits at every line break there is (carriage returns, form
  feeds, the separator controls, the line and paragraph separators), as statements and indentation
  do.
-/
import LetTag.Text.Blank

namespace LetTag.Text

/-! ## Cutting at one character -/

/-- The pieces with `c` put in front of the first of them. -/
def extendFirst (c : Char) : List (List Char) → List (List Char)
  | [] => [[c]]
  | piece :: pieces => (c :: piece) :: pieces

/-- The pieces between the separators: one more than there are separators. -/
def cut (sep : Char) : List Char → List (List Char)
  | [] => [[]]
  | c :: rest => if c = sep then [] :: cut sep rest else extendFirst c (cut sep rest)

/-- The pieces with `sep` between them. -/
def join (sep : List Char) (pieces : List (List Char)) : List Char :=
  sep.intercalate pieces

/-! ## Lines -/

/-- Does `c` end a line? -/
def isBreak (c : Char) : Bool :=
  let n := c.toNat
  (10 ≤ n && n ≤ 13) || (28 ≤ n && n ≤ 30) || n == 0x85 || n == 0x2028 || n == 0x2029

/-- The lines of a text, each with the break that ends it; the last one may have none. -/
def brokenLines : List Char → List (List Char × List Char)
  | [] => []
  | '\r' :: '\n' :: rest => ([], ['\r', '\n']) :: brokenLines rest
  | c :: rest =>
    if isBreak c then ([], [c]) :: brokenLines rest
    else match brokenLines rest with
      | [] => [([c], [])]
      | (line, ending) :: more => (c :: line, ending) :: more

/-- The lines of a text, without their breaks. -/
def lines (s : List Char) : List (List Char) :=
  (brokenLines s).map Prod.fst

/-- Carriage returns, alone or before a line feed, read as line feeds. -/
def unifyNewlines : List Char → List Char
  | [] => []
  | '\r' :: '\n' :: rest => '\n' :: unifyNewlines rest
  | c :: rest => (if c = '\r' then '\n' else c) :: unifyNewlines rest

/-! ## Margins -/

/-- Is `c` a character that a margin is made of? -/
def isMargin (c : Char) : Bool :=
  c == ' ' || c == '\t'

/-- The longest common beginning of two texts. -/
def commonStart : List Char → List Char → List Char
  | a :: s, b :: t => if a = b then a :: commonStart s t else []
  | _, _ => []

/-- The longest margin that all lines share, lines of margin characters only left out of account. -/
def commonMargin (ls : List (List Char)) : List Char :=
  match (ls.filter fun l => !l.all isMargin).map (·.takeWhile isMargin) with
  | [] => []
  | m :: ms => ms.foldl commonStart m

/-- The text with the common margin removed from its lines, and lines of margin only emptied. -/
def dedent (s : List Char) : List Char :=
  let ls := cut '\n' s
  let width := (commonMargin ls).length
  join ['\n'] (ls.map fun l => if l.all isMargin then [] else l.drop width)

/-- The text with `margin` put before every line that is not blank. -/
def indent (margin s : List Char) : List Char :=
  (brokenLines s).flatMap fun (line, ending) =>
    (if allBlank line then [] else margin) ++ line ++ ending

end LetTag.Text
