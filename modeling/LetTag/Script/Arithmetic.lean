/-
  Arithmetic of scripts.

  It is exact on integers and rounds on doubles; an integer that meets a double becomes one, and
  both become complex beside a complex number.  Division of integers gives the nearest double, and
  the quotient and remainder round down.
-/
import LetTag.Script.Fault

namespace LetTag.Script

open Number

/-- A double from a real number. -/
def toFloat : Numeric → Except Fault Float
  | .int n => match ofInt? n with
    | some x => .ok x
    | none => .error (.overflow "int too large to convert to float")
  | .float x => .ok x
  | .complex re _ => .ok re

/-- The integer part of a double. -/
def integerPart (x : Float) : Except Fault Int :=
  match truncate? x with
  | some n => .ok n
  | none =>
    if x.isNaN then .error (.badValue "cannot convert float NaN to integer")
    else .error (.overflow "cannot convert float infinity to integer")

/-- Arithmetic on integers. -/
def intArithmetic (op : BinaryOp) (a b : Int) : Except Fault Scalar :=
  match op with
  | .add => .ok (.int (a + b))
  | .sub => .ok (.int (a - b))
  | .mul => .ok (.int (a * b))
  | .div =>
    if b = 0 then .error (.divisionByZero op .whole)
    else match ofRatio? a b with
      | some x => .ok (.float x)
      | none => .error (.overflow "integer division result too large for a float")
  | .floorDiv => if b = 0 then .error (.divisionByZero op .whole) else .ok (.int (a.fdiv b))
  | .mod => if b = 0 then .error (.divisionByZero op .whole) else .ok (.int (a.fmod b))
  | .pow =>
    if b ≥ 0 then .ok (.int (Int.pow a b.toNat))
    else if a = 0 then .error .zeroToNegativePower
    else do .ok (.float (Float.pow (← toFloat (.int a)) (← toFloat (.int b))))

/-- The product of two complex numbers. -/
def complexMul (x y : Float × Float) : Float × Float :=
  (x.1 * y.1 - x.2 * y.2, x.1 * y.2 + x.2 * y.1)

/-- The quotient of two complex numbers, of which the second is not zero. -/
def complexDiv (x y : Float × Float) : Float × Float :=
  let (a, b) := x
  let (c, d) := y
  if c.abs ≥ d.abs then
    let r := d / c
    let e := c + d * r
    ((a + b * r) / e, (b - a * r) / e)
  else
    let r := c / d
    let e := c * r + d
    ((a * r + b) / e, (b * r - a) / e)

/-- `acc` times the power of `x` to a natural number below `2 ^ fuel`, by squaring. -/
def complexPower : Nat → Float × Float → Float × Float → Nat → Float × Float
  | 0, acc, _, _ => acc
  | fuel + 1, acc, x, n =>
    if n = 0 then acc
    else complexPower fuel (if n % 2 = 1 then complexMul acc x else acc) (complexMul x x) (n / 2)

/-- A power of complex numbers: by squaring for a whole exponent up to a hundred, else by size and
    angle. -/
def complexPow (x y : Float × Float) : Except Fault Scalar := do
  let (c, d) := y
  let zero : Bool := x.1 == 0.0 && x.2 == 0.0
  let (re, im) ←
    if d == 0.0 && c.floor == c && c.abs ≤ 100.0 then
      let p := complexPower 8 (1.0, 0.0) x c.abs.toUInt64.toNat
      if c > 0.0 then .ok p
      else if p.1 == 0.0 && p.2 == 0.0 then .error .zeroToComplexPower
      else .ok (complexDiv (1.0, 0.0) p)
    else if zero then
      if d != 0.0 || c < 0.0 then .error .zeroToComplexPower else .ok (0.0, 0.0)
    else
      let size := hypotenuse x.1 x.2
      let angle := Float.atan2 x.2 x.1
      let length := Float.pow size c
      let length := if d == 0.0 then length else length / Float.exp (angle * d)
      let phase := if d == 0.0 then angle * c else angle * c + d * Float.log size
      if phase.isInf then .error .zeroToComplexPower
      else .ok (length * Float.cos phase, length * Float.sin phase)
  if re.isInf || im.isInf then .error (.overflow "complex exponentiation")
  else .ok (.complex re im)

/-- Is it a number, and a finite one? -/
def isFinite (x : Float) : Bool :=
  !(x.isInf || x.isNaN)

/-- Arithmetic on doubles. -/
def floatArithmetic (op : BinaryOp) (x y : Float) : Except Fault Scalar :=
  match op with
  | .add => .ok (.float (x + y))
  | .sub => .ok (.float (x - y))
  | .mul => .ok (.float (x * y))
  | .div => if y == 0.0 then .error (.divisionByZero op .real) else .ok (.float (x / y))
  | .floorDiv =>
    if y == 0.0 then .error (.divisionByZero op .real) else .ok (.float (floorDiv x y))
  | .mod => if y == 0.0 then .error (.divisionByZero op .real) else .ok (.float (floorMod x y))
  | .pow =>
    if x == 0.0 && y < 0.0 && !y.isInf then .error .zeroToNegativePower
    else if x < 0.0 && isFinite x && isFinite y && y.floor != y then complexPow (x, 0.0) (y, 0.0)
    else
      let z := Float.pow x y
      if z.isInf && isFinite x && isFinite y then
        .error (.overflow "(34, 'Numerical result out of range')")
      else .ok (.float z)

/-- A complex number from its parts. -/
def ofParts (z : Float × Float) : Scalar :=
  .complex z.1 z.2

/-- The parts of a number taken as complex. -/
def complexParts : Numeric → Except Fault (Float × Float)
  | .complex re im => .ok (re, im)
  | x => do .ok (← toFloat x, 0.0)

/-- Arithmetic on complex numbers; they have no quotient or remainder that rounds down. -/
def complexArithmetic (op : BinaryOp) (x y : Numeric) (unsupported : Fault) :
    Except Fault Scalar :=
  let on (f : Float × Float → Float × Float → Except Fault Scalar) := do
    f (← complexParts x) (← complexParts y)
  match op with
  | .add => on fun (a, b) (c, d) => .ok (.complex (a + c) (b + d))
  | .sub => on fun (a, b) (c, d) => .ok (.complex (a - c) (b - d))
  | .mul => on fun z w => .ok (ofParts (complexMul z w))
  | .div => on fun z w =>
    if w.1 == 0.0 && w.2 == 0.0 then .error (.divisionByZero op .complex)
    else .ok (ofParts (complexDiv z w))
  | .pow => on complexPow
  | .floorDiv | .mod => .error unsupported

/-- Arithmetic on numbers. -/
def arithmetic (op : BinaryOp) (x y : Numeric) (unsupported : Fault) : Except Fault Scalar :=
  match x, y with
  | .int a, .int b => intArithmetic op a b
  | .complex .., _ | _, .complex .. => complexArithmetic op x y unsupported
  | x, y => do floatArithmetic op (← toFloat x) (← toFloat y)

end LetTag.Script
