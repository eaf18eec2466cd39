/-
  Quoted texts: how a value of text or bytes is shown inside a message or another value.

  The quote is `'` unless the text holds that one and not `"`.  A backslash, the quote itself, line
  feeds, carriage returns and tabs are escaped, and what is not printable is written by its code
  point in two, four or eight hexadecimal digits.
-/
import LetTag.Text.Digits
import LetTag.Text.Printable

namespace LetTag.Text

/-- The quote that a text is written in. -/
def quoteFor (s : List Char) : Char :=
  if s.contains '\'' && !s.contains '"' then '"' else '\''

/-- A code point written as an escape. -/
def codeEscape (n : Nat) : List Char :=
  if n < 0x100 then '\\' :: 'x' :: hexDigits 2 n
  else if n < 0x10000 then '\\' :: 'u' :: hexDigits 4 n
  else '\\' :: 'U' :: hexDigits 8 n

/-- One character inside quotes of the kind `quote`, where those that satisfy `plain` need no
    escape. -/
def escapeIn (plain : Char → Bool) (quote c : Char) : List Char :=
  if c = quote ∨ c = '\\' then ['\\', c]
  else if c = '\n' then ['\\', 'n']
  else if c = '\r' then ['\\', 'r']
  else if c = '\t' then ['\\', 't']
  else if plain c then [c]
  else codeEscape c.toNat

/-- A text in quotes. -/
def quoted (s : List Char) : List Char :=
  let q := quoteFor s
  q :: s.flatMap (escapeIn isPrintable q) ++ [q]

/-- Bytes in quotes, behind a `b`; only ASCII is printable here. -/
def quotedBytes (bs : List UInt8) : List Char :=
  let s := bs.map fun b => Char.ofNat b.toNat
  let q := quoteFor s
  'b' :: q :: s.flatMap (escapeIn (fun c => isPrintable c && c.toNat < 128) q) ++ [q]

end LetTag.Text
