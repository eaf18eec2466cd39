/-
  Double-precision numbers taken apart.

  A finite number is `± mantissa * 2 ^ exponent`.  On this form numbers are compared with integers
  exactly, divided with remainder, and (in `Number.Shortest`) written with as few digits as
  possible.  The other way, `nearest` rounds a quotient of natural numbers to a double.  Arithmetic
  of words is left to `Float`.
-/

namespace LetTag.Number

/-- `2 ^ n`. -/
def twoTo (n : Nat) : Nat :=
  Nat.pow 2 n

/-- `10 ^ n`. -/
def tenTo (n : Nat) : Nat :=
  Nat.pow 10 n

/-- What a double stands for. -/
inductive Binary where
  | finite (negative : Bool) (mantissa : Nat) (exponent : Int)
  | infinite (negative : Bool)
  | notANumber
  deriving DecidableEq, Repr

namespace Binary

/-- The smallest exponent of a double. -/
def leastExponent : Int := -1074

/-- The parts of a double: 52 bits of fraction, 11 of exponent, one of sign. -/
def ofFloat (x : Float) : Binary :=
  let bits := x.toBits.toNat
  let negative := bits / twoTo 63 == 1
  let biased : Nat := bits / twoTo 52 % twoTo 11
  let fraction : Nat := bits % twoTo 52
  if biased = 2047 then if fraction = 0 then infinite negative else notANumber
  else if biased = 0 then finite negative fraction leastExponent
  else finite negative (fraction + twoTo 52) ((biased : Int) + leastExponent - 1)

end Binary

/-! ## Exact comparison -/

/-- How `n` compares with the finite number `m * 2 ^ e`. -/
def compareInt (n m : Int) (e : Int) : Ordering :=
  if e ≥ 0 then compare n (m * twoTo e.toNat) else compare (n * twoTo (-e).toNat) m

/-- The signed mantissa. -/
def signed (negative : Bool) (mantissa : Nat) : Int :=
  if negative then -mantissa else mantissa

/-- How an integer compares with a double; nothing compares with what is not a number. -/
def compareFloat? (n : Int) (x : Float) : Option Ordering :=
  match Binary.ofFloat x with
  | .notANumber => none
  | .infinite negative => some (if negative then .gt else .lt)
  | .finite negative m e => some (compareInt n (signed negative m) e)

/-! ## Rounding -/

/-- The natural number nearest to `p / q`, of two as near the even one. -/
def roundHalfEven (p q : Nat) : Nat :=
  let down := p / q
  match compare (2 * (p % q)) q with
  | .lt => down
  | .gt => down + 1
  | .eq => down + down % 2

/-- The exponent with which a double of 53 bits comes nearest to `p / q`, which is positive. -/
def exponentFor (p q : Nat) : Int :=
  let d := (p.log2 : Int) - q.log2
  let small := if d ≥ 0 then p < q * twoTo d.toNat else p * twoTo (-d).toNat < q
  max (if small then d - 53 else d - 52) Binary.leastExponent

/-- The double nearest to `p / q`, of two as near the one whose last bit is zero; infinity if that
    is out of range.  A mantissa that reaches `2 ^ 53` by rounding carries into the exponent. -/
def nearest (p q : Nat) : Float :=
  if p = 0 then 0.0
  else
    let e := exponentFor p q
    let mantissa := roundHalfEven (p * twoTo (-e).toNat) (q * twoTo e.toNat)
    let bits := (e - Binary.leastExponent).toNat * twoTo 52 + mantissa
    Float.ofBits (min bits (2047 * twoTo 52)).toUInt64

/-- The number with a sign in front of it. -/
def withSign (negative : Bool) (x : Float) : Float :=
  if negative then -x else x

/-! ## Conversions -/

/-- The integer part of a double, if it has one. -/
def truncate? (x : Float) : Option Int :=
  match Binary.ofFloat x with
  | .finite negative m e =>
    some (signed negative (if e ≥ 0 then m * twoTo e.toNat else m / twoTo (-e).toNat))
  | _ => none

/-- The double nearest to `p / q`, unless it is out of range.  A quotient that is or becomes zero
    has a sign too. -/
def ofRatio? (p q : Int) : Option Float :=
  let x := nearest p.natAbs q.natAbs
  if x.isInf then none else some (withSign ((p < 0) != (q < 0)) x)

/-- The double nearest to an integer, unless it is out of range. -/
def ofInt? (n : Int) : Option Float :=
  ofRatio? n 1

/-! ## The length of a hypotenuse -/

/-- The square root of the sum of two squares, the first number being the greater: the root of the
    rounded sum, corrected by one step of Newton's method. -/
def hypotenuseOf (x y : Float) : Float :=
  let h := Float.sqrt (x * x + y * y)
  let error :=
    if h ≤ 2.0 * y then
      let d := h - y
      x * (2.0 * d - x) + (d - 2.0 * (x - y)) * d
    else
      let d := h - x
      2.0 * d * (x - 2.0 * y) + ((4.0 * d - y) * y + d * d)
  h - error / (2.0 * h)

/-- The square root of the sum of two squares.  Numbers whose squares would leave the range are
    scaled, and one that is too small to count is only added. -/
def hypotenuse (x y : Float) : Float :=
  if x.isInf || y.isInf then 1.0 / 0.0
  else
    let (x, y) := (x.abs, y.abs)
    let (x, y) := if x < y then (y, x) else (x, y)
    if y.scaleB 54 ≤ x then x + y
    else if x > Float.scaleB 1.0 511 then
      (hypotenuseOf (x.scaleB (-600)) (y.scaleB (-600))).scaleB 600
    else if y < Float.scaleB 1.0 (-459) then
      (hypotenuseOf (x.scaleB 600) (y.scaleB 600)).scaleB (-600)
    else hypotenuseOf x y

/-! ## Division with remainder -/

/-- Zero with the sign of `x`. -/
def zeroLike (x : Float) : Float :=
  if x.toBits.toNat / twoTo 63 = 1 then -0.0 else 0.0

/-- The remainder of `x` by `y`, exact and with the sign of `x`. -/
def remainder (x y : Float) : Float :=
  match Binary.ofFloat x, Binary.ofFloat y with
  | .finite negative m e, .finite _ n f =>
    if n = 0 then 0.0 / 0.0
    else
      let least := min e f
      let r := m * twoTo (e - least).toNat % (n * twoTo (f - least).toNat)
      withSign negative (nearest (r * twoTo least.toNat) (twoTo (-least).toNat))
  | .finite .., .infinite _ => x
  | _, _ => 0.0 / 0.0

/-- The remainder with the sign of the divisor. -/
def floorMod (x y : Float) : Float :=
  let r := remainder x y
  if r == 0.0 then zeroLike y else if (y < 0.0) != (r < 0.0) then r + y else r

/-- The quotient rounded down. -/
def floorDiv (x y : Float) : Float :=
  let r := remainder x y
  let adjust := r != 0.0 && (y < 0.0) != (r < 0.0)
  let q := (x - r) / y - (if adjust then 1.0 else 0.0)
  if q == 0.0 then zeroLike (x / y)
  else
    let down := q.floor
    if q - down > 0.5 then down + 1.0 else down

end LetTag.Number
