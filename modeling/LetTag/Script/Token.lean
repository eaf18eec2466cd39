/-
  From the text of a script to tokens.

  The text is read line by line: the indentation of a line that holds anything opens and closes
  blocks, and its end is a token, except inside brackets.  Literals are read here, so a token holds
  the value that they denote.  Tabs reach to the next multiple of eight; a line whose indentation
  compares differently when tabs count as one column is refused, as are a closing bracket too many
  and more than two hundred brackets open at once.
-/
import LetTag.Script.Syntax
import LetTag.Text.Line
import LetTag.Text.Digits
import LetTag.Text.Name

namespace LetTag.Script

open Text Number

/-- Tokens. -/
inductive Token where
  | name (s : String)
  | keyword (s : String)
  | number (s : Scalar)
  | bytes (bs : List UInt8)
  | text (formatted : Bool) (pieces : List Piece)
  | sign (s : String)
  | newline
  | indent
  | dedent
  deriving Repr

/-- The words that are no names. -/
def keywords : List String :=
  ["False", "None", "True", "and", "as", "assert", "async", "await", "break", "class", "continue",
    "def", "del", "elif", "else", "except", "finally", "for", "from", "global", "if", "import",
    "in", "is", "lambda", "nonlocal", "not", "or", "pass", "raise", "return", "try", "while",
    "with", "yield"]

/-! ## Numbers -/

/-- Can `c` continue a word that stands directly behind a number? -/
def isWordTail (c : Char) : Bool :=
  c.isAlphanum || c == '_' || c.toNat ≥ 128

/-- A run of digits, single underscores between them left out. -/
def digitRun (p : Char → Bool) : List Char → List Char × List Char
  | '_' :: d :: rest =>
    if p d then let (ds, after) := digitRun p rest; (d :: ds, after) else ([], '_' :: d :: rest)
  | c :: rest => if p c then let (ds, after) := digitRun p rest; (c :: ds, after) else ([], c :: rest)
  | [] => ([], [])

/-- The words that may stand right behind a number. -/
def wordsBehindNumbers : List String :=
  ["and", "else", "for", "if", "in", "is", "or", "not"]

/-- May this stand behind a number?  No word may, except one that begins like an operator. -/
def endsNumber (cs : List Char) : Bool :=
  !cs.head?.any isWordTail || wordsBehindNumbers.any (·.toList.isPrefixOf cs)

/-- The sign of an exponent, which may be missing, and what follows it. -/
def exponentSign : List Char → Int × List Char
  | '-' :: rest => (-1, rest)
  | '+' :: rest => (1, rest)
  | rest => (1, rest)

/-- The exponent behind the digits of a number, if there is one: its value and what follows. -/
def exponentOf (cs : List Char) : Option (Int × List Char) :=
  match cs with
  | 'e' :: rest | 'E' :: rest =>
    let (sign, digits) := exponentSign rest
    if digits.head?.any Char.isDigit then
      let (ds, after) := digitRun Char.isDigit digits
      some (sign * ofDigits 10 ds, after)
    else none
  | _ => none

/-- What stands behind a point: the digits there, whether there is a point at all, and what follows. -/
def fractionOf (cs : List Char) : List Char × Bool × List Char :=
  match cs with
  | '.' :: d :: rest =>
    if d.isDigit then
      let (ds, after) := digitRun Char.isDigit (d :: rest)
      (ds, true, after)
    else ([], true, d :: rest)
  | ['.'] => ([], true, [])
  | rest => ([], false, rest)

/-- The power of ten behind the digits, whether there is one, and what follows. -/
def scaleOf (cs : List Char) : Int × Bool × List Char :=
  match exponentOf cs with
  | some (e, after) => (e, true, after)
  | none => (0, false, cs)

/-- Does the letter of an imaginary number come next, and what follows? -/
def imaginaryOf : List Char → Bool × List Char
  | 'j' :: rest | 'J' :: rest => (true, rest)
  | rest => (false, rest)

/-- The number that digits, a power of ten and perhaps the imaginary unit stand for. -/
def decimalScalar? (whole fraction : List Char) (exponent : Int) (exact imaginary : Bool) :
    Option Scalar :=
  let value : Decimal := ⟨ofDigits 10 (whole ++ fraction), exponent - fraction.length⟩
  if imaginary then some (.complex 0.0 value.toFloat)
  else if !exact then some (.float value.toFloat)
  else if value.digits = 0 then some (.int 0)
  else if whole.head? == some '0' || whole.length > digitLimit then none
  else some (.int value.digits)

/-- A number in base ten that starts with a digit or a point. -/
def decimalNumber (cs : List Char) : Option (Scalar × List Char) := do
  let (whole, rest) := digitRun Char.isDigit cs
  let (fraction, pointed, rest) := fractionOf rest
  let (exponent, scaled, rest) := scaleOf rest
  let (imaginary, rest) := imaginaryOf rest
  let number ← decimalScalar? whole fraction exponent (!pointed && !scaled) imaginary
  if endsNumber rest then some (number, rest) else none

/-- The base that the letter behind a leading zero stands for. -/
def baseOf? (c : Char) : Option Nat :=
  match c.toLower with
  | 'x' => some 16
  | 'o' => some 8
  | 'b' => some 2
  | _ => none

/-- The base that the first two characters mark, and what follows them. -/
def basePrefix? : List Char → Option (Nat × List Char)
  | '0' :: c :: rest => (baseOf? c).map fun base => (base, rest)
  | _ => none

/-- A number, and what follows it. -/
def readNumber (cs : List Char) : Option (Scalar × List Char) :=
  match basePrefix? cs with
  | some (base, rest) =>
    let (ds, after) := digitRun (isDigitIn base) rest
    if ds.isEmpty || !endsNumber after then none
    else some (.int (ofDigits base ds), after)
  | none => decimalNumber cs

/-! ## Texts -/

/-- How a literal of text is marked by the letters in front of it. -/
structure Marking where
  raw : Bool
  bytes : Bool
  formatted : Bool

/-- The marking that the letters in front of a quote stand for, if they are one. -/
def marking? (letters : List Char) : Option Marking :=
  match letters.map Char.toLower with
  | [] | ['u'] => some ⟨false, false, false⟩
  | ['r'] => some ⟨true, false, false⟩
  | ['b'] => some ⟨false, true, false⟩
  | ['b', 'r'] | ['r', 'b'] => some ⟨true, true, false⟩
  | ['f'] => some ⟨false, false, true⟩
  | ['f', 'r'] | ['r', 'f'] => some ⟨true, false, true⟩
  | _ => none

/-- What stands before the closing quotes, escapes as they are, and what follows the quotes.  A
    literal in single quotes ends with its line unless a backslash escapes the line end. -/
def untilClosed (quotes : List Char) (long : Bool) : List Char → Option (List Char × List Char)
  | [] => none
  | '\\' :: c :: rest => do
    let (content, after) ← untilClosed quotes long rest
    some ('\\' :: c :: content, after)
  | c :: rest =>
    if quotes.isPrefixOf (c :: rest) then some ([], (c :: rest).drop quotes.length)
    else if c == '\n' && !long then none
    else do
      let (content, after) ← untilClosed quotes long rest
      some (c :: content, after)

/-- The character that a backslash and a letter stand for. -/
def simpleEscape? (c : Char) : Option Char :=
  match c with
  | '\\' => some '\\' | '\'' => some '\'' | '"' => some '"'
  | 'a' => some '\x07' | 'b' => some '\x08' | 'f' => some '\x0c' | 'n' => some '\n'
  | 'r' => some '\r' | 't' => some '\t' | 'v' => some '\x0b'
  | _ => none

/-- How many hexadecimal digits follow the letter of an escape. -/
def hexWidth? (wide : Bool) (c : Char) : Option Nat :=
  match c with
  | 'x' => some 2
  | 'u' => if wide then some 4 else none
  | 'U' => if wide then some 8 else none
  | _ => none

/-- A text with its escapes replaced; `wide` allows those for large code points.  Unknown escapes
    stay as they are; a bad one spoils the text.  Escapes that give a character by its name are bad
    here, and so are those for surrogates, which are no characters.  The fuel bounds the escapes. -/
def unescapeFrom (wide : Bool) : Nat → List Char → Option (List Char)
  | 0, _ => none
  | _ + 1, [] => some []
  | n + 1, '\\' :: c :: rest =>
    if c = '\n' then unescapeFrom wide n rest
    else if let some e := simpleEscape? c then (unescapeFrom wide n rest).map (e :: ·)
    else if isDigitIn 8 c then
      let ds := ((c :: rest).take 3).takeWhile (isDigitIn 8)
      let code := ofDigits 8 ds
      let code := if wide then code else code % 256
      (unescapeFrom wide n ((c :: rest).drop ds.length)).map (Char.ofNat code :: ·)
    else if let some width := hexWidth? wide c then
      let ds := (rest.take width).takeWhile (isDigitIn 16)
      if ds.length < width then none
      else do
        let e ← charOf? (ofDigits 16 ds)
        (unescapeFrom wide n (rest.drop width)).map (e :: ·)
    else if c = 'N' && wide then none
    else (unescapeFrom wide n rest).map ('\\' :: c :: ·)
  | n + 1, c :: rest => (unescapeFrom wide n rest).map (c :: ·)

/-- A text with its escapes replaced. -/
def unescape (wide : Bool) (cs : List Char) : Option (List Char) :=
  unescapeFrom wide (cs.length + 1) cs

/-- Is the text a name? -/
def isName (s : List Char) : Bool :=
  match s with
  | c :: rest => isNameStart c && rest.all isNamePart && !keywords.contains (String.ofList s)
  | [] => false

/-- The pieces of a formatted text: doubled braces stand for single ones, and a name in braces for
    its value.  `held` is the text read since the last name, last character first. -/
def piecesFrom (raw : Bool) : Nat → List Char → List Char → Option (List Piece)
  | 0, _, _ => none
  | n + 1, held, cs =>
    let flush : Option Piece := do
      let s := held.reverse
      let s ← if raw then some s else unescape true s
      some (.text (String.ofList s))
    match cs with
    | [] => flush.map ([·])
    | '\x7b' :: '\x7b' :: rest => piecesFrom raw n ('\x7b' :: held) rest
    | '\x7d' :: '\x7d' :: rest => piecesFrom raw n ('\x7d' :: held) rest
    | '\x7d' :: _ => none
    | '\x7b' :: rest => do
      let inner := trim (rest.takeWhile (· ≠ '\x7d'))
      let '\x7d' :: after := rest.dropWhile (· ≠ '\x7d') | none
      let piece ← match String.ofList inner with
        | "None" | "True" | "False" => some (Piece.text (String.ofList inner))
        | s => if isName inner then some (.name s) else none
      let before ← flush
      (piecesFrom raw n [] after).map fun ps => before :: piece :: ps
    | c :: rest => piecesFrom raw n (c :: held) rest

/-- The token of a literal, from what stands between its quotes. -/
def literalToken (m : Marking) (content : List Char) : Option Token :=
  if m.bytes then
    if content.any (·.toNat ≥ 128) then none
    else do
      let cs ← if m.raw then some content else unescape false content
      some (.bytes (cs.map fun c => c.toNat.toUInt8))
  else if m.formatted then (piecesFrom m.raw (content.length + 1) [] content).map (.text true)
  else do
    let cs ← if m.raw then some content else unescape true content
    some (.text false [.text (String.ofList cs)])

/-- A literal whose opening quote is the first character, and what follows it. -/
def readLiteral (m : Marking) (cs : List Char) : Option (Token × List Char) := do
  let q :: _ := cs | none
  let long := [q, q, q].isPrefixOf cs
  let quotes := if long then [q, q, q] else [q]
  let (content, after) ← untilClosed quotes long (cs.drop quotes.length)
  let t ← literalToken m content
  some (t, after)

/-! ## Words and signs -/

/-- A word: a literal marked by letters, a keyword or a name. -/
def readWord (cs : List Char) : Option (Token × List Char) :=
  let (word, rest) := (cs.takeWhile isWordTail, cs.dropWhile isWordTail)
  match rest.head?.filter (fun c => c == '\'' || c == '"'), marking? word with
  | some _, some m => readLiteral m rest
  | _, _ =>
    let s := String.ofList word
    if keywords.contains s then some (.keyword s, rest)
    else if isName word then some (.name s, rest)
    else none

/-- The signs of more than one character, the longest first. -/
def longSigns : List String :=
  ["**=", "//=", ">>=", "<<=", "...", "!=", "%=", "&=", "**", "*=", "+=", "-=", "->", "//", "/=",
    ":=", "<<", "<=", "==", ">=", ">>", "@=", "^=", "|="]

/-- A sign, and what follows it. -/
def readSign (cs : List Char) : Option (String × List Char) :=
  match longSigns.find? (·.toList.isPrefixOf cs), cs with
  | some s, _ => some (s, cs.drop s.length)
  | none, c :: rest =>
    if "()[]\x7b\x7d:,;+-*/|&<>=.%~^@".toList.contains c then some (String.ofList [c], rest) else none
  | none, [] => none

/-- One token of a line, and what follows it. -/
def readToken (cs : List Char) : Option (Token × List Char) :=
  match cs with
  | [] => none
  | c :: rest =>
    if c.isDigit || (c == '.' && rest.head?.any Char.isDigit) then
      (readNumber cs).map fun (s, after) => (.number s, after)
    else if c == '\'' || c == '"' then readLiteral ⟨false, false, false⟩ cs
    else if isWordTail c then readWord cs
    else (readSign cs).map fun (s, after) => (.sign s, after)

/-! ## Lines and blocks -/

/-- The width of an indentation: tabs as eight columns and tabs as one. -/
structure Width where
  wide : Nat
  narrow : Nat
  deriving DecidableEq

/-- The blanks at the start of a line: their width, what follows them, and the width before the
    first line end among them that a backslash takes back, which counts instead unless it is zero.
    A form feed starts over.  A backslash before anything else, or at the end of the text, is
    refused. -/
def measureFrom : Width → Width → List Char → Option (Width × List Char)
  | held, w, ' ' :: rest => measureFrom held ⟨w.wide + 1, w.narrow + 1⟩ rest
  | held, w, '\t' :: rest => measureFrom held ⟨(w.wide / 8 + 1) * 8, w.narrow + 1⟩ rest
  | held, _, '\x0c' :: rest => measureFrom held ⟨0, 0⟩ rest
  | held, w, '\\' :: rest => match rest with
    | '\n' :: after =>
      if after.isEmpty then none
      else measureFrom (if held.wide = 0 then ⟨w.wide, w.wide⟩ else held) w after
    | _ => none
  | held, w, rest => some (if held.wide = 0 then w else held, rest)

/-- The width of the blanks at the start of a line, and what follows them. -/
def measure (cs : List Char) : Option (Width × List Char) :=
  measureFrom ⟨0, 0⟩ ⟨0, 0⟩ cs

/-- How deeply blocks and brackets may be nested. -/
def blockLimit : Nat := 100

/-- How many brackets may be open at once. -/
def bracketLimit : Nat := 200

/-- The tokens by which a line of that width opens a block or closes some, and the widths of the
    blocks then open, innermost first. -/
def blockTokens (w : Width) : List Width → Option (List Token × List Width)
  | [] => none
  | v :: outer =>
    if w.wide = v.wide then if w.narrow = v.narrow then some ([], v :: outer) else none
    else if w.wide > v.wide then
      if w.narrow ≤ v.narrow || outer.length + 1 ≥ blockLimit then none
      else some ([.indent], w :: v :: outer)
    else do
      let (ts, ws) ← closing outer
      some (.dedent :: ts, ws)
where
  /-- Closes blocks until one has just that width. -/
  closing : List Width → Option (List Token × List Width)
    | [] => none
    | v :: outer =>
      if w.wide = v.wide then if w.narrow = v.narrow then some ([], v :: outer) else none
      else if w.wide > v.wide then none
      else do
        let (ts, ws) ← closing outer
        some (.dedent :: ts, ws)

/-- The rest of a line is a comment. -/
def skipComment (cs : List Char) : List Char :=
  cs.dropWhile (· ≠ '\n')

/-- How many brackets are open after a token, unless that is too many or one too few. -/
def depthAfter? (depth : Nat) : Token → Option Nat
  | .sign "(" | .sign "[" | .sign "\x7b" =>
    if depth ≥ bracketLimit then none else some (depth + 1)
  | .sign ")" | .sign "]" | .sign "\x7d" => if depth = 0 then none else some (depth - 1)
  | _ => some depth

/-- Reads tokens to the end of the text.  The flag says that a line begins here; then come the
    widths of the open blocks, innermost first, and the number of open brackets. -/
def tokensFrom : Nat → Bool → List Width → Nat → List Char → Option (List Token)
  | 0, _, _, _, _ => none
  | n + 1, true, blocks, depth, cs => do
    let (w, rest) ← measure cs
    match rest with
    | [] => some (blocks.drop 1 |>.map fun _ => .dedent)
    | '#' :: _ => match skipComment rest with
      | _ :: after => tokensFrom n true blocks depth after
      | [] => some (blocks.drop 1 |>.map fun _ => .dedent)
    | '\n' :: after => tokensFrom n true blocks depth after
    | _ =>
      let (ts, blocks) ← blockTokens w blocks
      let more ← tokensFrom n false blocks depth rest
      some (ts ++ more)
  | n + 1, false, blocks, depth, cs =>
    match cs with
    | [] => if depth > 0 then none else some (.newline :: (blocks.drop 1 |>.map fun _ => .dedent))
    | ' ' :: rest | '\t' :: rest | '\x0c' :: rest => tokensFrom n false blocks depth rest
    | '#' :: _ => tokensFrom n false blocks depth (skipComment cs)
    | '\\' :: '\n' :: rest => if rest.isEmpty then none else tokensFrom n false blocks depth rest
    | '\n' :: rest =>
      if depth > 0 then tokensFrom n false blocks depth rest
      else (tokensFrom n true blocks depth rest).map (.newline :: ·)
    | _ => do
      let (t, rest) ← readToken cs
      let depth ← depthAfter? depth t
      (tokensFrom n false blocks depth rest).map (t :: ·)

/-- The tokens of a text, unless it holds something that is none, or the character zero. -/
def tokens? (cs : List Char) : Option (List Token) :=
  let cs := unifyNewlines cs
  if cs.contains '\x00' then none else tokensFrom (cs.length + 2) true [⟨0, 0⟩] 0 cs

end LetTag.Script
