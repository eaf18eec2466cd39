/-
  From source text to statements.

  A statement ends at a semicolon or at the end of its line.  One that begins with `let` and opens
  a brace is a block: it takes whole lines, line ends included, until its braces are closed.  What
  stands in string literals never counts, and no literal goes past its line.  A block that is still
  open at the end of the text is kept as it stands and reported.
-/
import LetTag.Mask
import LetTag.Text.Word

namespace LetTag

open Text

/-- The statements of a text in order, and the last of them again if it is a block left open. -/
structure Statements where
  all : List (List Char)
  unclosed : Option (List Char)
  deriving DecidableEq, Repr

/-- Does the text begin with the word `let`? -/
def startsDeclaration (s : List Char) : Bool :=
  match trimLeft s with
  | 'l' :: 'e' :: 't' :: rest => !rest.head?.any isWord
  | _ => false

namespace Statements

/-- A text that is being read: the finished statements and the one being read, both last first, and
    how many braces are open in it. -/
structure Progress where
  finished : List (List Char)
  reading : List Char
  depth : Nat

/-- The statement being read is finished; a blank one is dropped. -/
def Progress.flush (p : Progress) : Progress :=
  match trim p.reading.reverse with
  | [] => { p with reading := [] }
  | s => { p with finished := s :: p.finished, reading := [] }

/-- Reads the character `c`, for which the mask of its line shows `m`. -/
def Progress.read (p : Progress) (c m : Char) : Progress :=
  if p.depth > 0 then
    { p with
      reading := c :: p.reading
      depth := if m = '{' then p.depth + 1 else if m = '}' then p.depth - 1 else p.depth }
  else if m = ';' then p.flush
  else
    let reading := c :: p.reading
    { p with
      reading
      depth := if m = '{' && startsDeclaration reading.reverse then 1 else 0 }

/-- Reads a line and its end. -/
def Progress.readLine (p : Progress) (line : List Char) : Progress :=
  let p := (line.zip (mask line)).foldl (fun p (c, m) => p.read c m) p
  if p.depth > 0 then { p with reading := '\n' :: p.reading } else p.flush

/-- The statements of a text. -/
def ofText (code : List Char) : Statements :=
  let p := (lines code).foldl Progress.readLine ⟨[], [], 0⟩
  { all := p.flush.finished.reverse
    unclosed := if p.depth > 0 then some (trim p.reading.reverse) else none }

end Statements

end LetTag
