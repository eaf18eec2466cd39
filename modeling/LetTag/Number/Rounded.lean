/-
  The text of a double with a given number of digits.

  `m * 2 ^ q` is counted in units of a power of ten and rounded, of two natural numbers as near to
  the even one.  All counting is done in natural numbers, so the digits are right however many are
  asked for.  A number is laid out with a fixed number of places, with one digit before the point
  and an exponent, or in the shorter of these ways without the zeros at its end.
-/
import LetTag.Number.Shortest

namespace LetTag.Number

/-- Ways to lay out a number. -/
inductive FloatForm where
  | fixed | scientific | general
  deriving DecidableEq, Repr

/-- How many units of `10 ^ -places` there are in `m * 2 ^ q`, rounded. -/
def unitsOf (m : Nat) (q places : Int) : Nat :=
  roundHalfEven (m * twoTo q.toNat * tenTo places.toNat) (twoTo (-q).toNat * tenTo (-places).toNat)

/-- The first `count` digits of `m * 2 ^ q`, rounded, as a number and with the exponent of the first
    of them.  Nines that are rounded up make the number longer. -/
def leadingDigits (m : Nat) (q : Int) (count : Nat) : Nat × Int :=
  if m = 0 then (0, 0)
  else
    let k := Decimal.magnitude m q
    let d := unitsOf m q (count - k)
    if d = tenTo count then (tenTo (count - 1), k) else (d, k - 1)

/-- The digits of a number, zeros in front up to a width. -/
def paddedDigits (width n : Nat) : List Char :=
  let ds := digitsOf n
  List.replicate (width - ds.length) '0' ++ ds

/-- Digits with a point before the last `places` of them.  Without places there is a point only if
    it is asked for. -/
def pointed (point : Bool) (places : Nat) (ds : List Char) : List Char :=
  let whole := ds.length - places
  ds.take whole ++ (if places > 0 || point then ['.'] else []) ++ ds.drop whole

/-- The number without the zeros that end its places, and without a point that nothing follows. -/
def withoutZeros (s : List Char) : List Char :=
  if s.contains '.' then
    let s := s.reverse.dropWhile (· == '0')
    (if s.head? == some '.' then s.tail else s).reverse
  else s

/-- The text of `m * 2 ^ q`; `point` keeps the point and the zeros behind it. -/
def FloatForm.layout (form : FloatForm) (point : Bool) (precision m : Nat) (q : Int) : List Char :=
  match form with
  | fixed => pointed point precision (paddedDigits (precision + 1) (unitsOf m q precision))
  | scientific =>
    let (d, e) := leadingDigits m q (precision + 1)
    pointed point precision (paddedDigits (precision + 1) d) ++ exponentText e
  | general =>
    let count := max precision 1
    let (d, e) := leadingDigits m q count
    let trimmed (s : List Char) : List Char := if point then s else withoutZeros s
    if e < -4 ∨ e ≥ count then
      trimmed (pointed point (count - 1) (paddedDigits count d)) ++ exponentText e
    else
      let places := ((count : Int) - 1 - e).toNat
      trimmed (pointed point places (paddedDigits (places + 1) d))

/-- The text of a double. -/
def FloatForm.text (form : FloatForm) (point : Bool) (precision : Nat) (x : Float) : List Char :=
  match Binary.ofFloat x with
  | .notANumber => plainLayout.notANumber
  | .infinite negative => (if negative then ['-'] else []) ++ plainLayout.infinity
  | .finite negative m q =>
    (if negative then ['-'] else []) ++ form.layout point precision m q

end LetTag.Number
