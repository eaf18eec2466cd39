/-
  Integers that texts write.

  Blanks may stand around such a text, a sign in front of its digits, and single underscores between
  them; what is in front of the digits may name a base.  Decimal digits of other scripts count like
  those of ASCII, and blanks of other scripts like a space.  Digits are read as far as they go
  before anything behind them is looked at, so too many of them are noticed first.
-/
import LetTag.Number.Shortest
import LetTag.Text.Blank
import LetTag.Text.Name

namespace LetTag.Script

open Text Number

/-- Why a text is not an integer. -/
inductive IntegerError where
  | malformed
  | tooManyDigits (count : Nat)
  deriving DecidableEq, Repr

/-- The text in ASCII: digits and blanks of other scripts are replaced, and it ends at the first
    character that is neither.  A text that is in ASCII stays as it is. -/
def inAscii : List Char → List Char
  | [] => []
  | c :: rest =>
    if c.toNat < 127 then c :: inAscii rest
    else if isBlank c then ' ' :: inAscii rest
    else match digitValue? c with
      | some d => Char.ofNat ('0'.toNat + d) :: inAscii rest
      | none => ['?']

/-- Is it one of the blanks of ASCII? -/
def isAsciiBlank (c : Char) : Bool :=
  c == ' ' || ('\t' ≤ c && c ≤ '\r')

/-- The value of a digit in a base of at most thirty-six. -/
def digitIn? (base : Nat) (c : Char) : Option Nat :=
  let value :=
    if '0' ≤ c && c ≤ '9' then c.toNat - '0'.toNat
    else if 'a' ≤ c && c ≤ 'z' then c.toNat - 'a'.toNat + 10
    else if 'A' ≤ c && c ≤ 'Z' then c.toNat - 'A'.toNat + 10
    else 36
  if value < base then some value else none

/-- The base that digits are in and the digits themselves, when `base` was asked for: two characters
    in front may name it, and must if it is zero, except that the base is then ten. -/
def behindBase (base : Nat) (s : List Char) : Nat × List Char :=
  let named (c : Char) : Option Nat := match c with
    | 'x' | 'X' => some 16
    | 'o' | 'O' => some 8
    | 'b' | 'B' => some 2
    | _ => none
  let plain := (if base = 0 then 10 else base, s)
  match s with
  | '0' :: c :: rest => match named c with
    | some n =>
      if base = n ∨ base = 0 then
        (n, match rest with
          | '_' :: digits => digits
          | digits => digits)
      else plain
    | none => plain
  | _ => plain

/-- Does every underscore stand between two digits? -/
def separates : List Char → Bool
  | [] => true
  | '_' :: _ => false
  | [_, '_'] => false
  | _ :: '_' :: rest => separates rest
  | _ :: rest => separates rest

/-- The integer that a text in ASCII writes in a base. -/
def readInteger (base : Nat) (s : List Char) : Except IntegerError Int :=
  let (negative, rest) := match s.dropWhile isAsciiBlank with
    | '-' :: rest => (true, rest)
    | '+' :: rest => (false, rest)
    | rest => (false, rest)
  let (actual, text) := behindBase base rest
  let isPart (c : Char) : Bool := c == '_' || (digitIn? actual c).isSome
  let run := text.takeWhile isPart
  let digits := run.filterMap (digitIn? actual)
  let n := digits.foldl (fun n d => actual * n + d) 0
  if !separates run then .error .malformed
  else if digits.length > digitLimit ∧ actual ∉ [2, 4, 8, 16, 32] then
    .error (.tooManyDigits digits.length)
  else if run.isEmpty || !((text.dropWhile isPart).dropWhile isAsciiBlank).isEmpty then
    .error .malformed
  else if base = 0 ∧ actual = 10 ∧ digits.head? = some 0 ∧ n ≠ 0 then .error .malformed
  else .ok (signed negative n)

end LetTag.Script
