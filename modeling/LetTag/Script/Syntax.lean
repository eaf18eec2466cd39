/-
  Scripts: the bodies of arrow definitions, as trees.

  A script is a function with a list of statements, and perhaps statements behind the function that
  run once when it is defined.  Loops run over a sequence; there are no other loops and no nested
  functions, so a tree is run by recursion on it.
-/
import LetTag.Scalar

namespace LetTag.Script

/-- Arithmetic on two operands. -/
inductive BinaryOp where
  | add | sub | mul | div | floorDiv | mod | pow
  deriving DecidableEq, Repr

/-- Arithmetic on one operand. -/
inductive UnaryOp where
  | negate | plus
  deriving DecidableEq, Repr

/-- Comparisons by order. -/
inductive OrderOp where
  | lt | le | gt | ge
  deriving DecidableEq, Repr

/-- Comparisons, which may be chained. -/
inductive CompareOp where
  | equal (positive : Bool)
  | order (op : OrderOp)
  | member (positive : Bool)
  | same (positive : Bool)
  deriving DecidableEq, Repr

/-- A piece of a formatted text: characters as they are, or a name whose value is shown. -/
inductive Piece where
  | text (s : String)
  | name (n : String)
  deriving DecidableEq, Repr

/-- Expressions. -/
inductive Expr where
  | constant (s : Scalar)
  | name (n : String)
  | formatted (pieces : List Piece)
  | tuple (items : List Expr)
  | list (items : List Expr)
  | set (items : List Expr)
  | dict (entries : List (Expr × Expr))
  | unary (op : UnaryOp) (e : Expr)
  | binary (op : BinaryOp) (left right : Expr)
  | compare (first : Expr) (rest : List (CompareOp × Expr))
  | not (e : Expr)
  | and (left right : Expr)
  | or (left right : Expr)
  | conditional (condition yes no : Expr)
  | attribute (e : Expr) (name : String)
  | subscript (e index : Expr)
  | call (callee : Expr) (arguments : List Expr) (keywords : List (String × Expr))
  deriving Repr

/-- What can be assigned to. -/
inductive Target where
  | name (n : String)
  | tuple (targets : List Target)
  deriving Repr

/-- Statements. -/
inductive Stmt where
  | expr (e : Expr)
  | assign (targets : List Target) (value : Expr)
  | augment (name : String) (op : BinaryOp) (value : Expr)
  | annotate (name : String) (described : Expr) (value : Option Expr)
  | ret (value : Option Expr)
  | raise (e : Option Expr)
  | pass
  | stop
  | skip
  | branch (condition : Expr) (yes no : List Stmt)
  | each (target : Target) (items : Expr) (body otherwise : List Stmt)
  deriving Repr

/-- A function: its parameters and its statements. -/
structure Function where
  name : String
  parameters : List String
  body : List Stmt
  deriving Repr

/-- A function and the statements behind it. -/
structure Program where
  function : Function
  trailing : List Stmt
  deriving Repr

/-! ## Operators as they are written -/

/-- The sign of an arithmetic operator. -/
def BinaryOp.symbol : BinaryOp → String
  | .add => "+" | .sub => "-" | .mul => "*" | .div => "/" | .floorDiv => "//" | .mod => "%"
  | .pow => "**"

/-- The sign of an operator on one operand. -/
def UnaryOp.symbol : UnaryOp → String
  | .negate => "-" | .plus => "+"

/-- The sign of a comparison by order. -/
def OrderOp.symbol : OrderOp → String
  | .lt => "<" | .le => "<=" | .gt => ">" | .ge => ">="

/-- Does the comparison hold of two things that compare so? -/
def OrderOp.holds : OrderOp → Ordering → Bool
  | .lt, o => o == .lt
  | .le, o => o != .gt
  | .gt, o => o == .gt
  | .ge, o => o != .lt

/-! ## The names that a script sets -/

mutual

/-- The names that an assignment to the target sets. -/
def Target.names : Target → List String
  | .name n => [n]
  | .tuple ts => Target.listNames ts

/-- The names that assignments to the targets set. -/
def Target.listNames : List Target → List String
  | [] => []
  | t :: ts => t.names ++ Target.listNames ts

end

mutual

/-- The names that a statement sets, wherever in it. -/
def Stmt.names : Stmt → List String
  | .assign targets _ => Target.listNames targets
  | .augment n _ _ => [n]
  | .annotate n _ _ => [n]
  | .branch _ yes no => Stmt.listNames yes ++ Stmt.listNames no
  | .each target _ body otherwise =>
    target.names ++ Stmt.listNames body ++ Stmt.listNames otherwise
  | _ => []

/-- The names that the statements set. -/
def Stmt.listNames : List Stmt → List String
  | [] => []
  | s :: ss => s.names ++ Stmt.listNames ss

end

/-- The names that are local to a function: its parameters and whatever its body sets. -/
def Function.locals (f : Function) : List String :=
  f.parameters ++ Stmt.listNames f.body

end LetTag.Script
