/-
  Plain scalars: what a text means in YAML when it stands there without quotes.

  Some words are truth values or null, and a text of a certain form is a number or a date; `<<` and
  `=` have meanings of their own as keys.  Everything else is text.  A writer needs to know only
  which of these it is, to put quotes around a text that would be taken for something else; a
  reader also needs the value.
-/
import LetTag.Scalar
import LetTag.Text.Digits
import LetTag.Text.Line

namespace LetTag.Yaml

open Number Text

/-- What a plain scalar is. -/
inductive Plain where
  | null
  | bool (b : Bool)
  | int
  | float
  | merge
  | default
  | date
  | text
  deriving DecidableEq, Repr

/-! ## Forms -/

/-- Is `c` a digit, or an underscore between digits? -/
def isSpaced (c : Char) : Bool :=
  c.isDigit || c == '_'

/-- The text without a sign in front, and whether the sign is a minus. -/
def unsigned : List Char → Bool × List Char
  | '-' :: rest => (true, rest)
  | '+' :: rest => (false, rest)
  | s => (false, s)

/-- A digit, then digits and underscores. -/
def isRun : List Char → Bool
  | c :: rest => c.isDigit && rest.all isSpaced
  | [] => false

/-- Two digits below sixty, or one. -/
def isSixtieth : List Char → Bool
  | [c] => c.isDigit
  | [c, d] => '0' ≤ c && c ≤ '5' && d.isDigit
  | _ => false

/-- A number written in sixtieths: a run and at least one further part behind a colon. -/
def isSexagesimal (s : List Char) : Bool :=
  match cut ':' s with
  | first :: second :: rest => isRun first && (second :: rest).all isSixtieth
  | _ => false

/-- A signed exponent, or nothing. -/
def isExponent : List Char → Bool
  | [] => true
  | [_, _] | [_] => false
  | e :: sign :: ds => (e == 'e' || e == 'E') && (sign == '+' || sign == '-') && ds.all Char.isDigit

/-- An integer: binary, octal behind a zero, hexadecimal, decimal, or in sixtieths. -/
def isInteger (s : List Char) : Bool :=
  match (unsigned s).2 with
  | '0' :: 'b' :: ds => !ds.isEmpty && ds.all fun c => c == '0' || c == '1' || c == '_'
  | '0' :: 'x' :: ds => !ds.isEmpty && ds.all fun c => isDigitIn 16 c || c == '_'
  | '0' :: ds => ds.all fun c => isDigitIn 8 c || c == '_'
  | u => isRun u || isSexagesimal u

/-- A number with a point, with an exponent that has a sign if there is one; or infinity, or no
    number. -/
def isFloat (s : List Char) : Bool :=
  let u := (unsigned s).2
  let fraction (ds : List Char) : Bool := isExponent (ds.dropWhile isSpaced)
  match u.takeWhile (· ≠ '.'), u.dropWhile (· ≠ '.') with
  | _, [] => false
  | [], _ :: rest =>
    [".inf", ".Inf", ".INF"].contains (String.ofList u)
      || (u == s && (rest.head?.any Char.isDigit && fraction rest
        || [".nan", ".NaN", ".NAN"].contains (String.ofList u)))
  | whole, _ :: rest => isRun whole && fraction rest || isSexagesimal whole && rest.all isSpaced

/-! ## Dates -/

/-- What follows between `low` and `high` digits. -/
def afterDigits? (low high : Nat) (s : List Char) : Option (List Char) :=
  let n := ((s.take high).takeWhile Char.isDigit).length
  if low ≤ n then some (s.drop n) else none

/-- What follows a character. -/
def afterChar? (c : Char) : List Char → Option (List Char)
  | d :: rest => if c = d then some rest else none
  | [] => none

/-- A time zone behind blanks, or nothing. -/
def isZone (s : List Char) : Bool :=
  let offset (s : List Char) : Option Bool := do
    let rest ← afterDigits? 1 2 s
    if rest.isEmpty then return true
    let rest ← afterChar? ':' rest
    return (← afterDigits? 2 2 rest).isEmpty
  match s, s.dropWhile fun c => c == ' ' || c == '\t' with
  | [], _ => true
  | _, ['Z'] => true
  | _, '+' :: rest | _, '-' :: rest => offset rest == some true
  | _, _ => false

/-- A date, with or without a time of the day. -/
def isDate (s : List Char) : Bool :=
  let day : Option Bool := do
    let rest ← afterChar? '-' (← afterDigits? 4 4 s)
    let rest ← afterChar? '-' (← afterDigits? 2 2 rest)
    return (← afterDigits? 2 2 rest).isEmpty
  let time : Option Bool := do
    let rest ← afterChar? '-' (← afterDigits? 4 4 s)
    let rest ← afterChar? '-' (← afterDigits? 1 2 rest)
    let rest ← afterDigits? 1 2 rest
    let rest ← match rest with
      | 'T' :: rest | 't' :: rest => some rest
      | ' ' :: rest | '\t' :: rest => some (rest.dropWhile fun c => c == ' ' || c == '\t')
      | _ => none
    let rest ← afterChar? ':' (← afterDigits? 1 2 rest)
    let rest ← afterChar? ':' (← afterDigits? 2 2 rest)
    let rest ← afterDigits? 2 2 rest
    match rest with
    | '.' :: rest => return isZone (rest.dropWhile Char.isDigit)
    | rest => return isZone rest
  day == some true || time == some true

/-! ## Meaning -/

/-- The words, each in the three ways of writing it. -/
def words : List (String × Plain) :=
  [("", .null), ("~", .null), ("null", .null), ("Null", .null), ("NULL", .null),
    ("yes", .bool true), ("Yes", .bool true), ("YES", .bool true), ("true", .bool true),
    ("True", .bool true), ("TRUE", .bool true), ("on", .bool true), ("On", .bool true),
    ("ON", .bool true), ("no", .bool false), ("No", .bool false), ("NO", .bool false),
    ("false", .bool false), ("False", .bool false), ("FALSE", .bool false),
    ("off", .bool false), ("Off", .bool false), ("OFF", .bool false), ("<<", .merge),
    ("=", .default)]

/-- What a plain scalar is. -/
def Plain.of (s : List Char) : Plain :=
  match words.lookup (String.ofList s) with
  | some p => p
  | none =>
    if isFloat s then .float else if isInteger s then .int else if isDate s then .date else .text

/-! ## Numbers -/

/-- The parts of a number in sixtieths, summed up. -/
def ofSixtieths (parts : List Nat) : Nat :=
  parts.foldl (fun n p => 60 * n + p) 0

/-- The integer that a text of that form writes; none if it has no digits or too many. -/
def integer? (s : List Char) : Option Int :=
  let (negative, u) := unsigned (s.filter (· ≠ '_'))
  let inBase (base : Nat) (ds : List Char) : Option Int :=
    if ds.isEmpty then none else some (signed negative (ofDigits base ds))
  match u with
  | ['0'] => some 0
  | '0' :: 'b' :: ds => inBase 2 ds
  | '0' :: 'x' :: ds => inBase 16 ds
  | '0' :: ds => inBase 8 ds
  | u =>
    let parts := cut ':' u
    if parts.any (·.length > digitLimit) then none
    else some (signed negative (ofSixtieths (parts.map (ofDigits 10))))

/-- The double that digits with a point and an exponent write. -/
def decimalValue (u : List Char) : Float :=
  let mantissa := u.takeWhile fun c => c.isDigit || c == '.'
  let fraction := (mantissa.dropWhile (· ≠ '.')).drop 1
  let e : Int := match u.drop mantissa.length with
    | _ :: '-' :: ds => -(ofDigits 10 ds : Int)
    | _ :: _ :: ds => ofDigits 10 ds
    | _ => 0
  (Decimal.mk (ofDigits 10 (mantissa.filter (· ≠ '.'))) (e - fraction.length)).toFloat

/-- The sum of parts in sixtieths, the last part first, of which the first counts `base` times; none
    if a part counts too often for a double. -/
def sumOfSixtieths (sum : Float) (base : Nat) : List (List Char) → Option Float
  | [] => some sum
  | part :: parts => match ofInt? base with
    | some b => sumOfSixtieths (sum + decimalValue part * b) (60 * base) parts
    | none => none

/-- The double that a text of that form writes; none if it is out of range. -/
def float? (s : List Char) : Option Float :=
  let (negative, u) := unsigned (s.filter (· ≠ '_'))
  let x := match u with
    | '.' :: 'i' :: _ | '.' :: 'I' :: _ => some (1.0 / 0.0)
    | '.' :: 'n' :: _ | '.' :: 'N' :: _ => some (0.0 / 0.0)
    | u => match (cut ':' u).reverse with
      | [only] => some (decimalValue only)
      | parts => sumOfSixtieths 0.0 1 parts
  x.map (withSign negative)

end LetTag.Yaml
