/-
  The text of a double: as few decimal digits as read back to it.

  The reals that round to `m * 2 ^ q` form an interval around it, which contains its ends when `m`
  is even.  For one digit, two digits, and so on, the two decimals of that many digits next to the
  number are tried; the first length with a hit wins, and of two hits the nearer, or the even one if
  they are equally near.  Seventeen digits are always enough.  All comparisons are between natural
  numbers.
-/
import LetTag.Number.Binary

namespace LetTag.Number

/-- The number `digits * 10 ^ exponent`. -/
structure Decimal where
  digits : Nat
  exponent : Int
  deriving DecidableEq, Repr

namespace Decimal

/-- How `d * 10 ^ e` compares with `b * 2 ^ q`. -/
def compareBinary (d : Nat) (e : Int) (b : Nat) (q : Int) : Ordering :=
  compare (d * tenTo e.toNat * twoTo (-q).toNat) (b * twoTo q.toNat * tenTo (-e).toNat)

/-- The least `k` from `start` on, of at most `fuel` candidates, with `b * 2 ^ q < 10 ^ k`. -/
def magnitudeFrom (b : Nat) (q : Int) : Nat → Int → Int
  | 0, k => k
  | fuel + 1, k => if compareBinary 1 k b q = .gt then k else magnitudeFrom b q fuel (k + 1)

/-- How many digits `b * 2 ^ q` has before the point; zeros behind the point count down. -/
def magnitude (b : Nat) (q : Int) : Int :=
  magnitudeFrom b q 4 ((b.log2 + q) * 30103 / 100000)

/-- The decimal of `n` digits that is nearest to `m * 2 ^ q`, if it reads back to it. -/
def ofLength? (m : Nat) (q k : Int) (low high : Nat) (n : Nat) : Option Decimal :=
  let e := k - n
  let q := q - 2
  let value := 4 * m
  let down := value * twoTo q.toNat * tenTo (-e).toNat / (tenTo e.toNat * twoTo (-q).toNat)
  let inside (d : Nat) : Bool :=
    let a := compareBinary d e low q
    let b := compareBinary d e high q
    if m % 2 = 0 then a != .lt && b != .gt else a == .gt && b == .lt
  -- the middle between the two candidates tells which is nearer; of two as near, the even one
  let nearer := match compareBinary (2 * down + 1) e (2 * value) q with
    | .gt => down
    | .lt => down + 1
    | .eq => if down % 2 = 0 then down else down + 1
  if inside nearer then some ⟨nearer, e⟩
  else if inside (2 * down + 1 - nearer) then some ⟨2 * down + 1 - nearer, e⟩
  else none

/-- Takes the zeros at the end of the digits into the exponent. -/
def normalize : Nat → Decimal → Decimal
  | 0, d => d
  | fuel + 1, d =>
    if d.digits ≠ 0 ∧ d.digits % 10 = 0 then normalize fuel ⟨d.digits / 10, d.exponent + 1⟩ else d

/-- The shortest decimal that reads back to the double `m * 2 ^ q`. -/
def shortest (m : Nat) (q : Int) : Decimal :=
  if m = 0 then ⟨0, 0⟩
  else
    let low := if m = twoTo 52 ∧ q > Binary.leastExponent then 4 * m - 1 else 4 * m - 2
    let k := magnitude m q
    match (List.range 17).findSome? fun n => ofLength? m q k low (4 * m + 2) (n + 1) with
    | some d => normalize 20 d
    | none => ⟨m, 0⟩

end Decimal

/-! ## Layout -/

/-- The decimal digits of a natural number. -/
def digitsOf (n : Nat) : List Char :=
  Nat.toDigits 10 n

/-- How a number is laid out: whether a whole number shows `.0`, and the texts of the numbers that
    are not finite. -/
structure Layout where
  wholeMark : List Char
  infinity : List Char
  notANumber : List Char

/-- The text of an exponent: a sign and at least two digits. -/
def exponentText (e : Int) : List Char :=
  let ds := digitsOf e.natAbs
  'e' :: (if e < 0 then '-' else '+') :: ((if ds.length < 2 then ['0'] else []) ++ ds)

/-- Positional between a ten-thousandth and 10 ^ 16; else one digit before the point and a signed
    exponent of at least two digits. -/
def Layout.decimal (l : Layout) (d : Decimal) : List Char :=
  let ds := digitsOf d.digits
  let point := d.exponent + ds.length
  if d.digits = 0 then '0' :: l.wholeMark
  else if -4 < point ∧ point ≤ 16 then
    if point ≤ 0 then '0' :: '.' :: (List.replicate (-point).toNat '0' ++ ds)
    else if ds.length ≤ point.toNat then
      ds ++ List.replicate (point.toNat - ds.length) '0' ++ l.wholeMark
    else ds.take point.toNat ++ '.' :: ds.drop point.toNat
  else
    let fraction := if ds.length = 1 then [] else '.' :: ds.drop 1
    ds.take 1 ++ fraction ++ exponentText (point - 1)

/-- The text of a double. -/
def Layout.float (l : Layout) (x : Float) : List Char :=
  match Binary.ofFloat x with
  | .notANumber => l.notANumber
  | .infinite negative => (if negative then ['-'] else []) ++ l.infinity
  | .finite negative m q => (if negative then ['-'] else []) ++ l.decimal (.shortest m q)

/-- Numbers as a script shows them: a whole double keeps its `.0`. -/
def plainLayout : Layout :=
  ⟨['.', '0'], ['i', 'n', 'f'], ['n', 'a', 'n']⟩

/-- The parts of a complex number drop the `.0`. -/
def partLayout : Layout :=
  ⟨[], ['i', 'n', 'f'], ['n', 'a', 'n']⟩

/-- The text of an integer. -/
def intText (n : Int) : List Char :=
  (if n < 0 then ['-'] else []) ++ digitsOf n.natAbs

/-- Integers of more digits than this are neither read nor written in decimal. -/
def digitLimit : Nat := 4300

/-- Can the integer be written in decimal? -/
def withinDigitLimit (n : Int) : Bool :=
  n.natAbs < tenTo digitLimit

/-! ## Reading -/

/-- The double nearest to `digits * 10 ^ exponent`; far outside the range of doubles nothing is
    computed. -/
def Decimal.toFloat (d : Decimal) : Float :=
  let size := d.exponent + (digitsOf d.digits).length
  if d.digits = 0 ∨ size < -400 then 0.0
  else if size > 400 then 1.0 / 0.0
  else nearest (d.digits * tenTo d.exponent.toNat) (tenTo (-d.exponent).toNat)

end LetTag.Number
