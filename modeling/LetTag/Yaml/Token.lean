/-
  From YAML text to tokens.

  Indentation opens and closes block collections: a token that stands further right than its block
  begins a new one, and one further left ends those to its right.  Whether a scalar or a flow
  collection is a key shows only at the `:` behind it, which must come on the same line and within
  1024 characters; until then its place among the tokens is kept, so that the tokens of a key can
  be put there.  A line of a block may begin with a key; behind a scalar on the same line none may.

  Anchors, tags, directives and literal blocks are refused.
-/
import LetTag.Text.Digits

namespace LetTag.Yaml

open Text

/-- Why a text is not read. -/
inductive ReadError where
  | malformed
  | badCharacter
  | badNumber
  | outOfRange
  deriving DecidableEq, Repr

/-- Tokens. -/
inductive Token where
  | sequenceStart
  | mappingStart
  | blockEnd
  | entry
  | key
  | value
  | openSequence
  | closeSequence
  | openMapping
  | closeMapping
  | comma
  | scalar (plain : Bool) (s : List Char)
  | documentStart
  | documentEnd
  deriving DecidableEq, Repr

/-! ## Characters -/

/-- Does `c` end a line? -/
def isLineEnd (c : Char) : Bool :=
  let n := c.toNat
  n == 10 || n == 13 || n == 0x85 || n == 0x2028 || n == 0x2029

/-- Is `c` a space, a tab or the end of a line? -/
def isGap (c : Char) : Bool :=
  c == ' ' || c == '\t' || isLineEnd c

/-- Does the text begin with a gap, or is it at its end? -/
def atGap (s : List Char) : Bool :=
  s.head?.all isGap

/-- May the character occur in a document? -/
def isAllowed (c : Char) : Bool :=
  let n := c.toNat
  n == 9 || n == 10 || n == 13 || (0x20 ≤ n && n ≤ 0x7E) || n == 0x85
    || (0xA0 ≤ n && n ≤ 0xFFFD) || (0x10000 ≤ n && n ≤ 0x10FFFF)

/-- Does a marker of documents stand here? -/
def atMarker (s : List Char) : Bool :=
  match s with
  | a :: b :: c :: rest => a == b && b == c && (a == '-' || a == '.') && atGap rest
  | _ => false

/-! ## Positions -/

/-- A place in the text: what follows, and where it stands. -/
structure Cursor where
  rest : List Char
  index : Nat
  line : Nat
  column : Nat

namespace Cursor

/-- The place behind the next character. -/
def next (c : Cursor) : Cursor :=
  match c.rest with
  | [] => c
  | a :: rest =>
    if isLineEnd a && !(a == '\r' && rest.head? == some '\n') then ⟨rest, c.index + 1, c.line + 1, 0⟩
    else ⟨rest, c.index + 1, c.line, if a == '\uFEFF' then c.column else c.column + 1⟩

/-- The place behind so many characters. -/
def skip : Nat → Cursor → Cursor
  | 0, c => c
  | n + 1, c => skip n c.next

/-- The place behind the characters that satisfy `p`. -/
def skipWhile (p : Char → Bool) (c : Cursor) : Cursor :=
  c.skip (c.rest.takeWhile p).length

/-- The end of a line here: the character it stands for, and the place behind it. -/
def lineEnd? (c : Cursor) : Option (Char × Cursor) :=
  match c.rest with
  | '\r' :: '\n' :: _ => some ('\n', c.skip 2)
  | a :: _ =>
    if isLineEnd a then some (if a.toNat < 0x2028 then '\n' else a, c.next) else none
  | [] => none

end Cursor

/-- What line ends inside a scalar stand for: one is a space, of several the first is left out. -/
def foldBreaks (first : Char) (more : List Char) : List Char :=
  if first ≠ '\n' then first :: more else if more.isEmpty then [' '] else more

/-! ## Plain scalars -/

/-- How many characters of a plain scalar stand here without a gap. -/
def plainLength (flow : Bool) : List Char → Nat
  | [] => 0
  | c :: rest =>
    let ended : Bool := isGap c
      || (c == ':' && (atGap rest || (flow && rest.head?.any ",[]\x7b\x7d".toList.contains)))
      || (flow && ",?[]\x7b\x7d".toList.contains c)
    if ended then 0 else plainLength flow rest + 1

/-- The further line ends behind the first, spaces between them skipped, and whether a marker of
    documents follows. -/
def plainBreaks : Nat → Cursor → List Char × Bool × Cursor
  | 0, c => ([], false, c)
  | n + 1, c =>
    if c.rest.head? == some ' ' then plainBreaks n c.next
    else match c.lineEnd? with
      | none => ([], false, c)
      | some (b, c) =>
        if atMarker c.rest then ([b], true, c)
        else
          let (bs, marked, c) := plainBreaks n c
          (b :: bs, marked, c)

/-- A plain scalar: its text, the place behind it, and whether it ran over the end of a line.  It
    goes on over gaps, but not to a comment, to a line further left than `margin`, or to a marker of
    documents. -/
def plainFrom (flow : Bool) (margin : Int) : Nat → Cursor → List Char × Bool × Cursor
  | 0, c => ([], false, c)
  | n + 1, c =>
    if c.rest.head? == some '#' then ([], false, c)
    else
      let length := plainLength flow c.rest
      if length = 0 then ([], false, c)
      else
        let word := c.rest.take length
        let c := c.skip length
        let spaces := c.rest.takeWhile (· == ' ')
        let c := c.skip spaces.length
        let goOn (gap : List Char) (broke : Bool) (c : Cursor) : List Char × Bool × Cursor :=
          if gap.isEmpty || c.rest.head? == some '#' || (!flow && (c.column : Int) < margin) then
            (word, broke, c)
          else
            let (more, brokeLater, after) := plainFrom flow margin n c
            if more.isEmpty then (word, broke || brokeLater, after)
            else (word ++ gap ++ more, brokeLater, after)
        match c.lineEnd? with
        | none => goOn spaces false c
        | some (b, c) =>
          if atMarker c.rest then (word, true, c)
          else
            let (bs, marked, c) := plainBreaks n c
            if marked then (word, true, c) else goOn (foldBreaks b bs) true c

/-! ## Quoted scalars -/

/-- The character that a backslash and a letter stand for. -/
def letterEscape? (c : Char) : Option Char :=
  match c with
  | '0' => some '\x00' | 'a' => some '\x07' | 'b' => some '\x08' | 't' => some '\t'
  | '\t' => some '\t' | 'n' => some '\n' | 'v' => some '\x0b' | 'f' => some '\x0c'
  | 'r' => some '\r' | 'e' => some '\x1b' | ' ' => some ' ' | '"' => some '"' | '\\' => some '\\'
  | '/' => some '/' | 'N' => some '\u0085' | '_' => some '\u00A0' | 'L' => some '\u2028'
  | 'P' => some '\u2029' | _ => none

/-- How many digits follow a letter that announces a code point. -/
def codeWidth? (c : Char) : Option Nat :=
  match c with
  | 'x' => some 2 | 'u' => some 4 | 'U' => some 8 | _ => none

/-- From here on a number is not even taken for a wrong code point. -/
def codeLimit : Nat := 0x80000000

/-- Line ends and the blanks before and between them; no marker of documents may follow one. -/
def quotedBreaks : Nat → Cursor → Except ReadError (List Char × Cursor)
  | 0, _ => .error .malformed
  | n + 1, c =>
    if atMarker c.rest then .error .malformed
    else
      let c := c.skipWhile fun a => a == ' ' || a == '\t'
      match c.lineEnd? with
      | none => .ok ([], c)
      | some (b, c) => do
        let (bs, c) ← quotedBreaks n c
        .ok (b :: bs, c)

/-- A scalar behind its opening quote, and the place behind the closing one. -/
def quotedFrom (double : Bool) : Nat → Cursor → Except ReadError (List Char × Cursor)
  | 0, _ => .error .malformed
  | n + 1, c =>
    let keep (s : List Char) (c : Cursor) : Except ReadError (List Char × Cursor) := do
      let (more, c) ← quotedFrom double n c
      .ok (s ++ more, c)
    match c.rest with
    | [] => .error .malformed
    | '\'' :: rest =>
      if double then keep ['\''] c.next
      else if rest.head? == some '\'' then keep ['\''] (c.skip 2)
      else .ok ([], c.next)
    | '"' :: _ => if double then .ok ([], c.next) else keep ['"'] c.next
    | '\\' :: rest =>
      if !double then keep ['\\'] c.next
      else match rest with
        | [] => .error .malformed
        | e :: digits => match letterEscape? e, codeWidth? e with
          | some a, _ => keep [a] (c.skip 2)
          | none, some w =>
            let ds := digits.take w
            if ds.length = w && ds.all (isDigitIn 16) then
              let n := ofDigits 16 ds
              match charOf? n with
              | some a => keep [a] (c.skip (w + 2))
              | none => .error (if n < codeLimit then .badCharacter else .outOfRange)
            else .error .malformed
          | none, none => match c.next.lineEnd? with
            | none => .error .malformed
            | some (_, c) => do
              let (bs, c) ← quotedBreaks (n + 1) c
              keep bs c
    | a :: _ =>
      if !isGap a then keep [a] c.next
      else
        let blanks := c.rest.takeWhile fun a => a == ' ' || a == '\t'
        let c := c.skip blanks.length
        match c.lineEnd? with
        | none => keep blanks c
        | some (b, c) => do
          let (bs, c) ← quotedBreaks (n + 1) c
          keep (foldBreaks b bs) c

/-! ## The state of the reading -/

/-- The start of what may turn out to be a key: its place among the tokens and in the text, and
    whether nothing else may stand there. -/
structure PendingKey where
  position : Nat
  required : Bool
  index : Nat
  line : Nat
  column : Nat

/-- A reading under way: the tokens so far, last first; the columns of the open blocks, innermost
    first; a possible key for the outermost level and every open bracket, innermost first; and
    whether a key may begin here. -/
structure Progress where
  cursor : Cursor
  tokens : List Token
  blocks : List Nat
  keys : List (Option PendingKey)
  allowsKey : Bool

namespace Progress

/-- Is a bracket open? -/
def inFlow (p : Progress) : Bool :=
  p.keys.length > 1

/-- The column of the innermost block; to the left of all columns if there is none. -/
def indent (p : Progress) : Int :=
  match p.blocks with
  | [] => -1
  | column :: _ => column

/-- Adds a token. -/
def emit (p : Progress) (t : Token) : Progress :=
  { p with tokens := t :: p.tokens }

/-- Puts a token where there were so many. -/
def insertAt (p : Progress) (position : Nat) (t : Token) : Progress :=
  let behind := p.tokens.length - position
  { p with tokens := p.tokens.take behind ++ t :: p.tokens.drop behind }

/-- Moves on by so many characters. -/
def skip (p : Progress) (n : Nat) : Progress :=
  { p with cursor := p.cursor.skip n }

/-- Says whether a key may begin here. -/
def allowKey (p : Progress) (allowed : Bool) : Progress :=
  { p with allowsKey := allowed }

/-- Ends the blocks that begin to the right of a column. -/
def closeBlocks (p : Progress) (column : Int) : Progress :=
  let ended (b : Nat) : Bool := (b : Int) > column
  { p with
    blocks := p.blocks.dropWhile ended
    tokens := List.replicate (p.blocks.takeWhile ended).length .blockEnd ++ p.tokens }

/-- Begins a block in a column, at a place among the tokens, if the column is further right. -/
def openBlock (p : Progress) (column position : Nat) (t : Token) : Progress :=
  if p.indent < column then { p.insertAt position t with blocks := column :: p.blocks } else p

/-- Gives up a possible key. -/
def giveUp (key : Option PendingKey) : Except ReadError Unit :=
  if key.any (·.required) then .error .malformed else .ok ()

/-- Gives up the possible key of the innermost level. -/
def dropKey (p : Progress) : Except ReadError Progress := do
  giveUp p.keys.head?.join
  .ok { p with keys := none :: p.keys.tail }

/-- Gives up the possible keys that a `:` comes too late for. -/
def dropStaleKeys (p : Progress) : Except ReadError Progress := do
  let stale (k : PendingKey) : Bool :=
    k.line != p.cursor.line || p.cursor.index - k.index > 1024
  let keys ← p.keys.mapM fun key =>
    if key.any stale then do giveUp key; .ok none else .ok key
  .ok { p with keys }

/-- Notes that a key may begin here. -/
def noteKey (p : Progress) : Except ReadError Progress := do
  if !p.allowsKey then .ok p
  else
    let p ← p.dropKey
    let c := p.cursor
    let key : PendingKey :=
      ⟨p.tokens.length, !p.inFlow && p.indent == c.column, c.index, c.line, c.column⟩
    .ok { p with keys := some key :: p.keys.tail }

/-! ## One token -/

/-- Moves to the next token, over spaces, comments and line ends. -/
def toToken : Nat → Progress → Progress
  | 0, p => p
  | n + 1, p =>
    let c := p.cursor.skipWhile (· == ' ')
    let c := if c.rest.head? == some '#' then c.skipWhile (!isLineEnd ·) else c
    match c.lineEnd? with
    | some (_, c) => toToken n { p with cursor := c, allowsKey := p.allowsKey || !p.inFlow }
    | none => { p with cursor := c }

/-- A marker of documents. -/
def marker (p : Progress) (t : Token) : Except ReadError Progress := do
  let p ← (p.closeBlocks (-1)).dropKey
  .ok (((p.allowKey false).emit t).skip 3)

/-- An opening bracket. -/
def opening (p : Progress) (t : Token) : Except ReadError Progress := do
  let p ← p.noteKey
  .ok ((({ p with keys := none :: p.keys }.allowKey true).emit t).skip 1)

/-- A closing bracket. -/
def closing (p : Progress) (t : Token) : Except ReadError Progress := do
  let p ← p.dropKey
  if p.inFlow then .ok ((({ p with keys := p.keys.tail }.allowKey false).emit t).skip 1)
  else .error .malformed

/-- A comma inside brackets. -/
def comma (p : Progress) : Except ReadError Progress := do
  .ok (((← (p.allowKey true).dropKey).emit .comma).skip 1)

/-- The indicator of an item. -/
def entry (p : Progress) : Except ReadError Progress := do
  if !p.inFlow && !p.allowsKey then .error .malformed
  else
    let p := if p.inFlow then p
      else p.openBlock p.cursor.column p.tokens.length .sequenceStart
    .ok (((← (p.allowKey true).dropKey).emit .entry).skip 1)

/-- The indicator of a key. -/
def key (p : Progress) : Except ReadError Progress := do
  if !p.inFlow && !p.allowsKey then .error .malformed
  else
    let p := if p.inFlow then p
      else p.openBlock p.cursor.column p.tokens.length .mappingStart
    .ok (((← (p.allowKey (!p.inFlow)).dropKey).emit .key).skip 1)

/-- The indicator of a value, which makes a key of what was noted. -/
def value (p : Progress) : Except ReadError Progress := do
  match p.keys with
  | some k :: keys =>
    let p := { p with keys := none :: keys }.insertAt k.position .key
    let p := if p.inFlow then p else p.openBlock k.column k.position .mappingStart
    .ok (((p.allowKey false).emit .value).skip 1)
  | _ =>
    if !p.inFlow && !p.allowsKey then .error .malformed
    else
      let p := if p.inFlow then p
        else p.openBlock p.cursor.column p.tokens.length .mappingStart
      .ok (((← (p.allowKey (!p.inFlow)).dropKey).emit .value).skip 1)

/-- A scalar in quotes. -/
def quoted (p : Progress) (double : Bool) : Except ReadError Progress := do
  let p ← p.noteKey
  let c := p.cursor.next
  let (s, c) ← quotedFrom double (c.rest.length + 1) c
  .ok { (p.allowKey false).emit (.scalar false s) with cursor := c }

/-- A scalar without quotes. -/
def plain (p : Progress) : Except ReadError Progress := do
  let p ← p.noteKey
  let (s, broke, c) := plainFrom p.inFlow (p.indent + 1) (p.cursor.rest.length + 1) p.cursor
  .ok { (p.allowKey broke).emit (.scalar true s) with cursor := c }

/-- May a plain scalar begin here? -/
def beginsPlain (flow : Bool) (s : List Char) : Bool :=
  match s with
  | [] => false
  | c :: rest =>
    !(isGap c || "-?:,[]\x7b\x7d#&*!|>'\"%@\x60".toList.contains c)
      || (!atGap rest && (c == '-' || (!flow && (c == '?' || c == ':'))))

/-- Reads the token at the cursor. -/
def token (p : Progress) : Except ReadError Progress :=
  let s := p.cursor.rest
  let atStart : Bool := p.cursor.column == 0 && atMarker s
  let behindGap : Bool := atGap s.tail
  match s.headD ' ' with
  | '[' => p.opening .openSequence
  | '\x7b' => p.opening .openMapping
  | ']' => p.closing .closeSequence
  | '\x7d' => p.closing .closeMapping
  | ',' => p.comma
  | '\'' => p.quoted false
  | '"' => p.quoted true
  | c =>
    if atStart then p.marker (if c == '-' then .documentStart else .documentEnd)
    else if c == '-' && behindGap then p.entry
    else if c == '?' && (p.inFlow || behindGap) then p.key
    else if c == ':' && (p.inFlow || behindGap) then p.value
    else if beginsPlain p.inFlow s then p.plain
    else .error .malformed

/-- Reads all tokens. -/
def run : Nat → Progress → Except ReadError Progress
  | 0, _ => .error .malformed
  | n + 1, p => do
    let p := p.toToken (n + 1)
    let p ← p.dropStaleKeys
    if p.cursor.rest.isEmpty then
      (p.closeBlocks (-1)).dropKey
    else
      let p := if p.inFlow then p else p.closeBlocks p.cursor.column
      run n (← p.token)

end Progress

/-- The tokens of a text. -/
def tokens (s : List Char) : Except ReadError (List Token) := do
  if !s.all isAllowed then .error .malformed
  else
    let s := if s.head? == some '\uFEFF' then s.tail else s
    let p ← Progress.run (s.length + 2) ⟨⟨s, 0, 0, 0⟩, [], [], [none], true⟩
    .ok p.tokens.reverse

end LetTag.Yaml
