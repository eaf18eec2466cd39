/-
  Operators of scripts.

  Numbers have arithmetic.  Texts and lists are joined by `+` and repeated by `*`, and texts are
  filled by `%`.  Comparisons are those of values.
-/
import LetTag.Mask
import LetTag.Script.Fill

namespace LetTag.Script

open Number

/-! ## Operators on values -/

/-- How often a sequence of so many items is repeated; `surplus` is the fault of a length that is no
    index.  Less than once is not at all. -/
def repetitions (length : Nat) (surplus : Fault) (times : Value) : Work Nat := do
  match times? times with
  | none => fail (.cannotRepeat times.typeName)
  | some n =>
    let total : Int := max n 0 * length
    if !isIndex n then fail (.overflow Fault.hugeIndex.text)
    else if !isIndex total then fail surplus
    else if total > itemLimit then fail .outOfMemory
    else return n.toNat

/-- Items repeated. -/
def repeated {α : Type} (n : Nat) (xs : List α) : List α :=
  if xs.isEmpty then [] else (List.replicate n xs).flatten

/-- A sequence repeated. -/
def repeatSequence (sequence times : Value) : Work Value := do
  match sequence with
  | .text s =>
    let n ← repetitions s.length (.overflow "repeated string is too long") times
    return .text (String.ofList (repeated n s.toList))
  | .scalar (.bytes bs) =>
    let n ← repetitions bs.length (.overflow "repeated bytes are too long") times
    return .scalar (.bytes (repeated n bs))
  | .tuple xs => return .tuple (repeated (← repetitions xs.length .outOfMemory times) xs)
  | .list xs => newList (repeated (← repetitions xs.length .outOfMemory times) xs)
  | v => return v

/-- Is the value a sequence that can be joined and repeated? -/
def isSequence : Value → Bool
  | .text _ | .scalar (.bytes _) | .tuple _ | .list _ => true
  | _ => false

/-- The text or list with the other one behind it. -/
def concatenate (left right : Value) : Work Value := do
  match left, right with
  | .text s, .text t => return .text (s ++ t)
  | .scalar (.bytes s), .scalar (.bytes t) => return .scalar (.bytes (s ++ t))
  | .tuple xs, .tuple ys => return .tuple (xs ++ ys)
  | .list xs, .list ys => newList (xs ++ ys)
  | l, r => fail (.cannotConcatenate l.typeName r.typeName)

/-- The value of an operator; `sign` is how a message shows the operator. -/
def operate (op : BinaryOp) (sign : String) (left right : Value) : Work Value := do
  let l ← view left
  let r ← view right
  let unsupported := Fault.unsupportedOperands sign l.typeName r.typeName
  let numbers := match l, r with
    | .scalar s, .scalar t => match s.numeric?, t.numeric? with
      | some x, some y => some (x, y)
      | _, _ => none
    | _, _ => none
  match numbers with
  | some (x, y) => return .scalar (← ofExcept (arithmetic op x y unsupported))
  | none => match op with
    | .add => if isSequence l then concatenate l r else fail unsupported
    | .mul =>
      if isSequence l then repeatSequence l r
      else if isSequence r then repeatSequence r l
      else fail unsupported
    | .mod => match l with
      | .text s => return .text (String.ofList (← fill s.toList r))
      | _ => fail unsupported
    | _ => fail unsupported

/-- The value of an operator between two operands. -/
def binary (op : BinaryOp) (left right : Value) : Work Value :=
  operate op (if op = .pow then "** or pow()" else op.symbol) left right

/-- The value of an operator that changes its left operand: a list is changed in its place. -/
def augmented (op : BinaryOp) (left right : Value) : Work Value := do
  match op, left, ← view left with
  | .add, .ref a, .list xs => do
    let ys ← itemsOf right
    setPlace a (.list (xs ++ ys))
    return left
  | .mul, .ref a, .list xs => do
    let n ← repetitions xs.length .outOfMemory (← view right)
    setPlace a (.list (repeated n xs))
    return left
  | .mul, _, .dict _ | .mul, _, .object .. | .mul, _, .var .. | .mul, _, .record .. =>
    fail (.unsupportedOperands "*=" (← view left).typeName (← view right).typeName)
  | _, _, _ => operate op (op.symbol ++ "=") left right

/-- The value of an operator with one operand. -/
def unary (op : UnaryOp) (v : Value) : Work Value := do
  let w ← view v
  let number := match w with
    | .scalar s => s.numeric?
    | _ => none
  match op, number with
  | .negate, some (.int n) => return .int (-n)
  | .negate, some (.float x) => return .scalar (.float (-x))
  | .negate, some (.complex re im) => return .scalar (.complex (-re) (-im))
  | .plus, some (.int n) => return .int n
  | .plus, some _ => return w
  | _, none => fail (.badOperand ("unary " ++ op.symbol) w.typeName)

/-! ## Comparisons -/

/-- Are two values equal?  What is in one place is equal to itself. -/
def areEqual (a b : Value) : Work Bool := do
  match a, b with
  | .ref i, .ref j => if i = j then return true else return (← whole a).equal (← whole b)
  | _, _ => return (← whole a).equal (← whole b)

/-- Is it the same value, and not just an equal one? -/
def areSame (a b : Value) : Bool :=
  match a, b with
  | .ref i, .ref j => i == j
  | .scalar s, .scalar t => s.typeName == t.typeName && s.equal t
  | _, _ => false

/-- Is the value among the items? -/
def isAmong (v : Value) : List Value → Work Bool
  | [] => return false
  | x :: xs => do if ← areEqual x v then return true else isAmong v xs

/-- Does the second value contain the first? -/
def contains (item container : Value) : Work Bool := do
  match ← view container with
  | .list xs => isAmong item xs
  | .tuple xs => isAmong item xs
  | .dict es =>
    let k ← whole item
    match k.unhashable? with
    | some t => fail (.unhashable t)
    | none => return (Value.find? k es).isSome
  | .text s => match ← view item with
    | .text t => return occursIn t.toList s.toList
    | v => fail (.badCall ("'in <string>' requires string as left operand, not " ++ v.typeName))
  | .scalar (.bytes bs) => match ← view item with
    | .int n => return bs.any fun b => b.toNat == n
    | .scalar (.bytes cs) =>
      return occursIn (cs.map fun c => Char.ofNat c.toNat) (bs.map fun b => Char.ofNat b.toNat)
    | v => fail (.badCall ("a bytes-like object is required, not '" ++ v.typeName ++ "'"))
  | .object .. => match item with
    -- a loop over an object gives null at once, and nothing else ever
    | .null => return true
    | _ => throw .endless
  | v => fail (.notContainer v.typeName)

/-- The value of a comparison. -/
def compared (op : CompareOp) (a b : Value) : Work Bool := do
  match op with
  | .equal positive => return (← areEqual a b) == positive
  | .same positive => return areSame a b == positive
  | .member positive => return (← contains a b) == positive
  | .order o => match (← whole a).ordered o (← whole b) with
    | .ok r => return r
    | .error (l, r) => fail (.unordered o.symbol l r)

end LetTag.Script
