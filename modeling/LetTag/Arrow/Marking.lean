/-
  Parameters in the body of an arrow definition.

  Each occurrence of a parameter is marked by `_p_` in front of it, so that parameters may be named
  like anything, keywords included.  An occurrence is a whole word.  It is left alone behind a dot
  (an attribute), inside a string literal that is closed on its line, and as the name of a keyword
  argument: between a bracket `(` or a comma and a single `=`, in a call.

  The body is read once, character by character.  `Reading` holds all that decides about a word:
  what stands directly before it, how much of a literal is still to come, and what the mask of the
  text so far shows.
-/
import LetTag.Mask
import LetTag.Text.Word

namespace LetTag.Arrow

open Text

/-- What is put in front of a parameter. -/
def parameterMark : List Char :=
  ['_', 'p', '_']

/-! ## Closed literals -/

/-- How many characters there are up to the next quote on the line that no backslash escapes. -/
def unescapedEnd (quote : Char) : List Char → Option Nat
  | [] => none
  | '\\' :: c :: rest => if c = '\n' then none else (unescapedEnd quote rest).map (· + 2)
  | c :: rest =>
    if c = '\n' then none
    else if c = quote then some 1
    else (unescapedEnd quote rest).map (· + 1)

/-- How many characters there are up to the last quote on the line. -/
def lastEnd (quote : Char) : List Char → Option Nat
  | [] => none
  | c :: rest =>
    if c = '\n' then none
    else match lastEnd quote rest with
      | some n => some (n + 1)
      | none => if c = quote then some 1 else none

/-- How many characters a literal has behind its opening quote: it is closed by the first quote that
    is not escaped or, if all quotes on the line are escaped, by the last of them. -/
def literalLength (quote : Char) (rest : List Char) : Nat :=
  ((unescapedEnd quote rest).or (lastEnd quote rest)).getD 0

/-! ## Reading a body -/

/-- Where the reading of a body stands. -/
structure Reading where
  /-- the character before -/
  previous : Option Char
  /-- how many characters of a closed literal are still to come -/
  literal : Nat
  /-- the scan of the mask -/
  quoting : Quoting
  /-- the brackets that the mask has opened and not closed, innermost first -/
  brackets : List Char
  /-- the last character of the mask that is not blank -/
  shown : Option Char

namespace Reading

/-- At the start of a body. -/
def start : Reading :=
  ⟨none, 0, .outside, [], none⟩

/-- The opening bracket that a closing one belongs to. -/
def partner? (c : Char) : Option Char :=
  match c with
  | ')' => some '('
  | ']' => some '['
  | '}' => some '\x7b'
  | _ => none

/-- The open brackets after `c`; a bracket that does not match the innermost one is ignored. -/
def bracketsAfter (brackets : List Char) (c : Char) : List Char :=
  if isOpener c then c :: brackets
  else match partner? c, brackets with
    | some o, b :: outer => if b = o then outer else brackets
    | _, _ => brackets

/-- Where the reading stands after `c`, which `rest` follows. -/
def next (r : Reading) (c : Char) (rest : List Char) : Reading :=
  let m := r.quoting.shown c
  { previous := some c
    literal :=
      if r.literal > 0 then r.literal - 1
      else if Quoting.isQuote c then literalLength c rest else 0
    quoting := r.quoting.next c
    brackets := bracketsAfter r.brackets m
    shown := if isBlank m then r.shown else some m }

/-- Does a single `=` come next, blanks aside? -/
def assigns (s : List Char) : Bool :=
  match trimLeft s with
  | '=' :: '=' :: _ => false
  | '=' :: _ => true
  | _ => false

/-- Is a word of `width` characters at the start of `s` the name of a keyword argument? -/
def isKeyword (r : Reading) (width : Nat) (s : List Char) : Bool :=
  assigns ((maskFrom r.quoting s).drop width)
    && (r.shown == some '(' || r.shown == some ',') && r.brackets.head? == some '('

/-- Does `s` start with the whole word `p`, not behind a dot? -/
def isWordHere (r : Reading) (p s : List Char) : Bool :=
  !r.previous.any (fun c => isWord c || c == '.') && p.isPrefixOf s
    && !(s.drop p.length).head?.any isWord

/-- Is there an occurrence of the parameter `p` at the start of `s`? -/
def occurs (r : Reading) (p s : List Char) : Bool :=
  r.literal == 0 && r.isWordHere p s && !r.isKeyword p.length s

end Reading

/-- The rest of a body with the occurrences of `p` marked. -/
def markFrom (p : List Char) : Reading → List Char → List Char
  | _, [] => []
  | r, c :: rest =>
    (if r.occurs p (c :: rest) then parameterMark else []) ++ c :: markFrom p (r.next c rest) rest

/-- The body with the occurrences of the parameter `p` marked. -/
def mark (p body : List Char) : List Char :=
  markFrom p .start body

end LetTag.Arrow
