/-
  Literal expressions: values written out in a statement.

  A literal is an expression of the script language in which only constants, tuples, lists,
  dictionaries and sets occur, a sign in front of a number, and sums of a real and an imaginary
  number.  It is read into a tree of its own, because sets can be written but are refused: no
  value holds one.  A set under a key that comes again is in no value, and is not refused.
-/
import LetTag.Script.Parse
import LetTag.Value.Equal
import LetTag.Value.Shown
import LetTag.Mask

namespace LetTag

open Script Text

/-- Why a text is not the literal of a value. -/
inductive LiteralError where
  /-- it is no literal -/
  | invalid
  /-- a real part is too large for a complex number -/
  | outOfRange
  deriving DecidableEq, Repr

/-- What a literal writes. -/
inductive Literal where
  | scalar (s : Scalar)
  | list (items : List Literal)
  | tuple (items : List Literal)
  | dict (entries : List (Literal × Literal))
  | set (items : List Literal)
  deriving Repr

namespace Literal

mutual

/-- Can the literal be a key of a dictionary or a member of a set? -/
def hashable : Literal → Bool
  | scalar _ => true
  | tuple items => listHashable items
  | _ => false

/-- Can all of them? -/
def listHashable : List Literal → Bool
  | [] => true
  | x :: xs => x.hashable && listHashable xs

end

/-! ## Numbers -/

/-- The number that an expression without sign writes; truth values are none. -/
def unsigned? : Expr → Option Numeric
  | .constant (.bool _) => none
  | .constant s => s.numeric?
  | _ => none

/-- The number that an expression writes, perhaps with one sign. -/
def signed? : Expr → Option Numeric
  | .unary .plus e => unsigned? e
  | .unary .negate e => (unsigned? e).map fun
    | .int n => .int (-n)
    | .float x => .float (-x)
    | .complex re im => .complex (-re) (-im)
  | e => unsigned? e

/-- A number as a literal. -/
def ofNumeric : Numeric → Literal
  | .int n => scalar (.int n)
  | .float x => scalar (.float x)
  | .complex re im => scalar (.complex re im)

/-- The double nearest to a real number. -/
def realPart : Numeric → Except LiteralError Float
  | .int n => match Number.ofInt? n with
    | some x => .ok x
    | none => .error .outOfRange
  | .float x => .ok x
  | .complex .. => .error .invalid

/-- The sum or difference of a real and an imaginary number. -/
def complexSum (subtract : Bool) (left right : Expr) : Except LiteralError Literal := do
  match signed? left, unsigned? right with
  | some l, some (.complex re im) =>
    let x ← realPart l
    .ok (scalar (if subtract then .complex (x - re) (0.0 - im) else .complex (x + re) (0.0 + im)))
  | _, _ => .error .invalid

/-! ## Reading -/

/-- A set or dictionary needs members or keys that can be looked up. -/
def requireHashable (ok : Bool) (l : Literal) : Except LiteralError Literal :=
  if ok then .ok l else .error .invalid

mutual

/-- The literal that an expression is. -/
def ofExpr : Expr → Except LiteralError Literal
  | .constant s => .ok (scalar s)
  | .tuple es => (ofExprs es).map tuple
  | .list es => (ofExprs es).map list
  | .set es => do
    let xs ← ofExprs es
    requireHashable (listHashable xs) (set xs)
  | .dict es => do
    let entries ← ofEntries es
    requireHashable (listHashable (entries.map Prod.fst)) (dict entries)
  | .call (.name "set") [] [] => .ok (set [])
  | .binary .add l r => complexSum false l r
  | .binary .sub l r => complexSum true l r
  | .unary op e => match signed? (.unary op e) with
    | some n => .ok (ofNumeric n)
    | none => .error .invalid
  | _ => .error .invalid

/-- The literals that expressions are. -/
def ofExprs : List Expr → Except LiteralError (List Literal)
  | [] => .ok []
  | e :: es => do
    let x ← ofExpr e
    let xs ← ofExprs es
    .ok (x :: xs)

/-- The entries that pairs of expressions are. -/
def ofEntries : List (Expr × Expr) → Except LiteralError (List (Literal × Literal))
  | [] => .ok []
  | (k, v) :: es => do
    let x ← ofExpr k
    let y ← ofExpr v
    let rest ← ofEntries es
    .ok ((x, y) :: rest)

end

mutual

/-- The value that a literal writes, if no set is in that. -/
def value? : Literal → Option Value
  | scalar s => some (.scalar s)
  | list items => (values? items).map .list
  | tuple items => (values? items).map .tuple
  | dict entries => (entryValues? entries).map fun es => .dict (Value.ofEntries es)
  | set _ => none

/-- The values that literals write. -/
def values? : List Literal → Option (List Value)
  | [] => some []
  | x :: xs => do
    let v ← x.value?
    let vs ← values? xs
    some (v :: vs)

/-- The entries that pairs of literals write.  Where a key comes again, what stands under it first is
    lost, and has the later value here; so it may hold a set. -/
def entryValues? : List (Literal × Literal) → Option (List (Value × Value))
  | [] => some []
  | (k, v) :: es => do
    let x ← k.value?
    let rest ← entryValues? es
    let y ← ((rest.find? fun e => x.equal e.1).map Prod.snd).or v.value?
    some ((x, y) :: rest)

end

/-- The literal that a text is. -/
def parse (cs : List Char) : Except LiteralError Literal :=
  match Expr.parse? cs with
  | some e => ofExpr e
  | none => .error .invalid

end Literal

/-! ## Value expressions -/

/-- Why a text is not evaluated, with the text. -/
inductive EvaluationError where
  | invalidExpression (expr : String)
  | setLiteral (expr : String)
  | invalidField (entry : String)
  | outOfRange
  /-- a name that is a sequence with an integer too long to be written -/
  | unwritableName
  deriving DecidableEq, Repr

/-- What is said about it, but for the reason that the reader of literals gives behind it. -/
def EvaluationError.message : EvaluationError → String
  | invalidExpression e => "Invalid value expression " ++ String.ofList (quoted e.toList)
  | setLiteral e => "Set literals are not supported: " ++ String.ofList (quoted e.toList)
  | invalidField e =>
    "Invalid object field " ++ String.ofList (quoted e.toList) ++ ", expected 'key: value'"
  | outOfRange => "int too large to convert to float"
  | unwritableName => "Exceeds the limit (4300 digits) for integer string conversion"

/-- The value of a value expression: a literal without sets, blanks around it. -/
def evaluate (expr : List Char) : Except EvaluationError Value :=
  let expr := trim expr
  let text := String.ofList expr
  match Literal.parse expr with
  | .error .invalid => .error (.invalidExpression text)
  | .error .outOfRange => .error .outOfRange
  | .ok l => match l.value? with
    | some v => .ok v
    | none => .error (.setLiteral text)

/-! ## Fields of a record -/

/-- Reads one `key: value` into the fields read so far.  A key that starts with a quote is read as a
    literal, any other stands for itself. -/
def readField (fields : List (Value × Value)) (entry : List Char) :
    Except EvaluationError (List (Value × Value)) := do
  match topLevelParts ':' entry with
  | [key, raw] =>
    let key ← if key.head?.any Quoting.isQuote then evaluate key else .ok (.text (String.ofList key))
    let value ← evaluate raw
    if key.writable then .ok (Value.put (.text key.nameText) value fields)
    else .error .unwritableName
  | _ => .error (.invalidField (String.ofList entry))

/-- The fields that the argument list of `object(...)` writes. -/
def readFields (args : List Char) : Except EvaluationError (List (Value × Value)) :=
  (topLevelParts ',' args).foldlM readField []

end LetTag
