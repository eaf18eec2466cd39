/-
  Scalars: the values without parts.

  They are what literals of one token denote, together with the names that scripts find predefined.
  Truth values count as the integers 0 and 1 wherever numbers are compared, so `1`, `1.0` and
  `True` are equal, and integers are compared with doubles exactly.
-/
import LetTag.Number.Shortest
import LetTag.Text.Quoted

namespace LetTag

open Number Text

/-- The functions and error classes that every script knows by name; the last is the function of the
    script itself. -/
inductive Builtin where
  | str | len | int | bool | abs | min | max | sum | dict
  | valueError | keyError | typeError
  | itself
  deriving DecidableEq, Repr

/-- Values without parts. -/
inductive Scalar where
  | null
  | bool (b : Bool)
  | int (n : Int)
  | float (x : Float)
  | complex (re im : Float)
  | text (s : String)
  | bytes (bs : List UInt8)
  | ellipsis
  | builtin (b : Builtin)
  deriving Repr

namespace Builtin

/-- All of them, for looking one up by name. -/
def all : List Builtin :=
  [str, len, int, bool, abs, min, max, sum, dict, valueError, keyError, typeError, itself]

/-- The name a script uses. -/
def name : Builtin → String
  | str => "str" | len => "len" | int => "int" | bool => "bool" | abs => "abs" | min => "min"
  | max => "max" | sum => "sum" | dict => "dict" | valueError => "ValueError"
  | keyError => "KeyError" | typeError => "TypeError" | itself => "__metadsl_fn__"

/-- The predefined thing of that name. -/
def ofName? (n : String) : Option Builtin :=
  all.find? (·.name == n)

/-- Is it a class, so that calling it makes a value of that class? -/
def isClass : Builtin → Bool
  | str | int | bool | dict | valueError | keyError | typeError => true
  | _ => false

/-- The name of its type, as error messages give it. -/
def typeName : Builtin → String
  | itself => "function"
  | b => if b.isClass then "type" else "builtin_function_or_method"

end Builtin

/-! ## Numbers among the scalars -/

/-- A number: whole, real or complex. -/
inductive Numeric where
  | int (n : Int)
  | float (x : Float)
  | complex (re im : Float)

namespace Numeric

/-- Are the two numbers equal? -/
def equal : Numeric → Numeric → Bool
  | int a, int b => a == b
  | int a, float y => compareFloat? a y == some .eq
  | float x, int b => compareFloat? b x == some .eq
  | float x, float y => x == y
  | int a, complex re im => im == 0.0 && compareFloat? a re == some .eq
  | complex re im, int b => im == 0.0 && compareFloat? b re == some .eq
  | float x, complex re im => im == 0.0 && x == re
  | complex re im, float y => im == 0.0 && re == y
  | complex a b, complex c d => a == c && b == d

/-- How two numbers compare; what is not a number compares with nothing, and neither does a complex
    number. -/
def compare? : Numeric → Numeric → Option Ordering
  | int a, int b => some (compare a b)
  | int a, float y => compareFloat? a y
  | float x, int b => (compareFloat? b x).map Ordering.swap
  | float x, float y =>
    if x < y then some .lt else if x > y then some .gt else if x == y then some .eq else none
  | _, _ => none

/-- Is the number zero? -/
def isZero : Numeric → Bool
  | int n => n == 0
  | float x => x == 0.0
  | complex re im => re == 0.0 && im == 0.0

end Numeric

namespace Scalar

/-- The number that a scalar stands for, truth values included. -/
def numeric? : Scalar → Option Numeric
  | bool b => some (.int (if b then 1 else 0))
  | int n => some (.int n)
  | float x => some (.float x)
  | complex re im => some (.complex re im)
  | _ => none

/-- Are the two scalars equal, numbers by value and the rest by kind and content? -/
def equal (a b : Scalar) : Bool :=
  match a, b with
  | null, null => true
  | text s, text t => s == t
  | bytes s, bytes t => s == t
  | ellipsis, ellipsis => true
  | builtin s, builtin t => s == t
  | a, b => match a.numeric?, b.numeric? with
    | some x, some y => x.equal y
    | _, _ => false

/-- Does the scalar count as true in a condition? -/
def truthy : Scalar → Bool
  | null => false
  | text s => !s.isEmpty
  | bytes bs => !bs.isEmpty
  | s => match s.numeric? with
    | some x => !x.isZero
    | none => true

/-- The name of the scalar's type, as error messages give it. -/
def typeName : Scalar → String
  | null => "NoneType"
  | bool _ => "bool"
  | int _ => "int"
  | float _ => "float"
  | complex .. => "complex"
  | text _ => "str"
  | bytes _ => "bytes"
  | ellipsis => "ellipsis"
  | builtin b => b.typeName

/-- The text of a complex number: the imaginary part alone, or both parts in parentheses when the
    real part is not plain zero. -/
def complexText (re im : Float) : List Char :=
  let imaginary := partLayout.float im ++ ['j']
  if re.toBits = 0 then imaginary
  else
    let sign := match imaginary with
      | '-' :: _ => []
      | _ => ['+']
    '(' :: partLayout.float re ++ sign ++ imaginary ++ [')']

/-- The scalar as a literal shows it. -/
def shown : Scalar → List Char
  | null => "None".toList
  | bool b => (if b then "True" else "False").toList
  | int n => intText n
  | float x => plainLayout.float x
  | complex re im => complexText re im
  | text s => quoted s.toList
  | bytes bs => quotedBytes bs
  | ellipsis => "Ellipsis".toList
  | builtin b =>
    if b.isClass then "<class '".toList ++ b.name.toList ++ "'>".toList
    else "<built-in function ".toList ++ b.name.toList ++ ">".toList

end Scalar
end LetTag
