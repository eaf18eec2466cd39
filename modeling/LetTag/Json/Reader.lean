/-
  Values from JSON text.

  Blank space is the four blanks of JSON.  The three words for doubles without a number are read
  too.  Of entries with the same key the last one counts, in the place of the first.  An integer of
  more digits than can be read is an error of its own.
-/
import LetTag.Value.Equal
import LetTag.Text.Digits

namespace LetTag.Json

open Number Text

/-- Why a text is not read. -/
inductive ReadError where
  | malformed
  | tooManyDigits
  deriving DecidableEq, Repr

/-- Is `c` one of the blanks of JSON? -/
def isSpace (c : Char) : Bool :=
  c == ' ' || c == '\t' || c == '\n' || c == '\r'

/-- The text without the blanks in front. -/
def skipSpace (cs : List Char) : List Char :=
  cs.dropWhile isSpace

/-! ## Strings -/

/-- The UTF-16 unit that four hexadecimal digits write. -/
def unit? (a b c d : Char) : Option Nat :=
  if [a, b, c, d].all (isDigitIn 16) then some (ofDigits 16 [a, b, c, d]) else none

/-- The characters of a string up to its closing quote, and what follows it. -/
def stringFrom : Nat → List Char → Option (List Char × List Char)
  | 0, _ => none
  | n + 1, cs =>
    let keep (c : Char) (rest : List Char) := do
      let (s, after) ← stringFrom n rest
      some (c :: s, after)
    match cs with
    | '"' :: rest => some ([], rest)
    | '\\' :: 'u' :: a :: b :: c :: d :: rest => do
      let high ← unit? a b c d
      if 0xD800 ≤ high && high < 0xDC00 then
        let '\\' :: 'u' :: a :: b :: c :: d :: rest := rest | none
        let low ← unit? a b c d
        if 0xDC00 ≤ low && low < 0xE000 then
          keep (Char.ofNat (0x10000 + (high - 0xD800) * 0x400 + (low - 0xDC00))) rest
        else none
      else
        let c ← charOf? high
        keep c rest
    | '\\' :: e :: rest => match e with
      | '"' => keep '"' rest
      | '\\' => keep '\\' rest
      | '/' => keep '/' rest
      | 'b' => keep '\x08' rest
      | 'f' => keep '\x0c' rest
      | 'n' => keep '\n' rest
      | 'r' => keep '\r' rest
      | 't' => keep '\t' rest
      | _ => none
    | c :: rest => if c.toNat < 32 then none else keep c rest
    | [] => none

/-- A string behind its opening quote. -/
def readString (cs : List Char) : Except ReadError (List Char × List Char) :=
  match stringFrom (cs.length + 1) cs with
  | some r => .ok r
  | none => .error .malformed

/-! ## Numbers and words -/

/-- The digits at the start of a text, and what follows them. -/
def digits (cs : List Char) : List Char × List Char :=
  (cs.takeWhile Char.isDigit, cs.dropWhile Char.isDigit)

/-- The part of a number behind the point, if it has digits. -/
def fraction (cs : List Char) : Option (List Char) × List Char :=
  match cs with
  | '.' :: rest =>
    let (ds, after) := digits rest
    if ds.isEmpty then (none, cs) else (some ds, after)
  | _ => (none, cs)

/-- The sign of an exponent, and what follows it. -/
def exponentSign (cs : List Char) : Int × List Char :=
  match cs with
  | '-' :: rest => (-1, rest)
  | '+' :: rest => (1, rest)
  | _ => (1, cs)

/-- The exponent of a number, if it has digits. -/
def exponent (cs : List Char) : Option Int × List Char :=
  match cs with
  | c :: rest =>
    let (sign, behind) := exponentSign rest
    let (ds, after) := digits behind
    if (c == 'e' || c == 'E') && !ds.isEmpty then (some (sign * ofDigits 10 ds), after)
    else (none, cs)
  | [] => (none, [])

/-- The sign of a number, and what follows it. -/
def sign (cs : List Char) : Bool × List Char :=
  match cs with
  | '-' :: rest => (true, rest)
  | _ => (false, cs)

/-- The digits before the point, and what follows them; a zero in front is all there is. -/
def whole (cs : List Char) : List Char × List Char :=
  match cs with
  | '0' :: rest => (['0'], rest)
  | _ => digits cs

/-- The number with these parts, a double if it has a fraction or an exponent. -/
def numberOf (negative : Bool) (ds : List Char) : Option (List Char) → Option Int →
    Except ReadError Value
  | none, none =>
    if ds.length > digitLimit then .error .tooManyDigits
    else .ok (.int (signed negative (ofDigits 10 ds)))
  | f, e =>
    let behind := f.getD []
    let x := (Decimal.mk (ofDigits 10 (ds ++ behind)) (e.getD 0 - behind.length)).toFloat
    .ok (.scalar (.float (if negative then -x else x)))

/-- A number, which has at least one digit before the point. -/
def readNumber (cs : List Char) : Except ReadError (Value × List Char) :=
  let (negative, rest) := sign cs
  let (ds, rest) := whole rest
  let (f, rest) := fraction rest
  let (e, rest) := exponent rest
  if ds.isEmpty then .error .malformed
  else (numberOf negative ds f e).map fun v => (v, rest)

/-- The words of JSON. -/
def words : List (List Char × Scalar) :=
  [("null".toList, .null), ("true".toList, .bool true), ("false".toList, .bool false),
    ("NaN".toList, .float (0.0 / 0.0)), ("Infinity".toList, .float (1.0 / 0.0)),
    ("-Infinity".toList, .float (-1.0 / 0.0))]

/-- A word or a number. -/
def readWord (cs : List Char) : Except ReadError (Value × List Char) :=
  match words.find? (·.1.isPrefixOf cs) with
  | some (w, s) => .ok (.scalar s, cs.drop w.length)
  | none => readNumber cs

/-! ## Values -/

mutual

/-- A value, and what follows it. -/
def valueFrom : Nat → List Char → Except ReadError (Value × List Char)
  | 0, _ => .error .malformed
  | n + 1, cs => match cs with
    | '"' :: rest => do
      let (s, after) ← readString rest
      .ok (.text (String.ofList s), after)
    | '[' :: rest => match skipSpace rest with
      | ']' :: after => .ok (.list [], after)
      | rest => do
        let (xs, after) ← itemsFrom n rest
        .ok (.list xs, after)
    | '\x7b' :: rest => match skipSpace rest with
      | '\x7d' :: after => .ok (.dict [], after)
      | rest => do
        let (es, after) ← entriesFrom n rest
        .ok (.dict (Value.ofEntries es), after)
    | cs => readWord cs

/-- Items up to the closing bracket. -/
def itemsFrom : Nat → List Char → Except ReadError (List Value × List Char)
  | 0, _ => .error .malformed
  | n + 1, cs => do
    let (x, rest) ← valueFrom n cs
    match skipSpace rest with
    | ']' :: after => .ok ([x], after)
    | ',' :: rest =>
      let (xs, after) ← itemsFrom n (skipSpace rest)
      .ok (x :: xs, after)
    | _ => .error .malformed

/-- Entries up to the closing brace. -/
def entriesFrom : Nat → List Char → Except ReadError (List (Value × Value) × List Char)
  | 0, _ => .error .malformed
  | n + 1, cs => do
    let '"' :: rest := cs | .error .malformed
    let (k, rest) ← readString rest
    let ':' :: rest := skipSpace rest | .error .malformed
    let (v, rest) ← valueFrom n (skipSpace rest)
    match skipSpace rest with
    | '\x7d' :: after => .ok ([(.text (String.ofList k), v)], after)
    | ',' :: rest =>
      let (es, after) ← entriesFrom n (skipSpace rest)
      .ok ((.text (String.ofList k), v) :: es, after)
    | _ => .error .malformed

end

/-- The value that a JSON text writes. -/
def read (cs : List Char) : Except ReadError Value := do
  let (v, rest) ← valueFrom (2 * cs.length + 2) (skipSpace cs)
  if (skipSpace rest).isEmpty then .ok v else .error .malformed

end LetTag.Json
