/-
  What can go wrong while a script runs, and what is said about it.

  A fault is a cause with the names, types and texts that its message shows.  Its kind is the class
  of error that a script raises or a caller sees.
-/
import LetTag.Json.Writer

namespace LetTag.Script

/-- Classes of faults. -/
inductive FaultKind where
  | type | value | key | index | attribute | name | unboundLocal | zeroDivision | overflow | runtime
  | memory | recursion
  deriving DecidableEq, Repr

/-- Classes of numbers, as far as messages tell them apart. -/
inductive NumberClass where
  | whole | real | complex
  deriving DecidableEq, Repr

/-- What is said about something, or why nothing can be said: it shows a value that cannot be
    written. -/
inductive Wording where
  | said (text : String)
  | unwritable (e : Json.WriteError)
  deriving DecidableEq, Repr

/-- The wording that a written value is. -/
def Wording.ofWritten : Except Json.WriteError (List Char) → Wording
  | .ok s => said (String.ofList s)
  | .error e => unwritable e

/-- Causes of faults. -/
inductive Fault where
  | undefinedName (name : String)
  | unsetLocal (name : String)
  | divisionByZero (op : BinaryOp) (numbers : NumberClass)
  | zeroToNegativePower
  | zeroToComplexPower
  | overflow (text : String)
  | outOfMemory
  | tooDeep
  | unsupportedOperands (sign left right : String)
  | badOperand (sign type : String)
  | cannotConcatenate (sequence other : String)
  | cannotRepeat (times : String)
  | unordered (sign left right : String)
  | notSubscriptable (type : String)
  | notCallable (type : String)
  | notIterable (type : String)
  | notContainer (type : String)
  | noLength (type : String)
  | wrongIndex (sequence index : String)
  | indexOutOfRange (sequence : String)
  | hugeIndex
  | missingKey (key : Wording)
  | unhashable (type : String)
  | noAttribute (type name : String)
  | badInteger (base : Int) (text : String)
  | badValue (text : String)
  | emptySeparator
  | emptySequence (function : String)
  | wrongItem (position : Nat) (type : String)
  | missingArguments (function : String) (names : List String)
  | surplusArguments (function : String) (takes given : Nat)
  | invalidKeyword (function name : String)
  | unexpectedKeyword (function name : String)
  | repeatedArgument (function name : String)
  | badCall (text : String)
  | notUnpackable (type : String)
  | tooManyValues (expected : Nat)
  | tooFewValues (expected given : Nat)
  | noActiveError
  | notAnError
  | setWritten
  | raised (kind : FaultKind) (text : Wording)
  | unwritable (e : Json.WriteError)
  deriving DecidableEq, Repr

namespace Fault

/-- The class of a fault. -/
def kind : Fault → FaultKind
  | undefinedName _ => .name
  | unsetLocal _ => .unboundLocal
  | divisionByZero .. | zeroToNegativePower | zeroToComplexPower => .zeroDivision
  | overflow _ => .overflow
  | outOfMemory => .memory
  | tooDeep => .recursion
  | indexOutOfRange _ | hugeIndex => .index
  | missingKey _ => .key
  | noAttribute .. => .attribute
  | badInteger .. | badValue _ | emptySeparator | emptySequence _ | tooManyValues _
  | tooFewValues .. | unwritable .tooManyDigits => .value
  | noActiveError => .runtime
  | raised k _ => k
  | _ => .type

/-- A list of quoted names for a reader. -/
def enumerate : List String → String
  | [] => ""
  | [a] => "'" ++ a ++ "'"
  | [a, b] => "'" ++ a ++ "' and '" ++ b ++ "'"
  | names => ", ".intercalate (names.dropLast.map fun n => "'" ++ n ++ "'")
      ++ ", and '" ++ names.getLastD "" ++ "'"

/-- The plural of a noun unless there is one. -/
def plural (n : Nat) : String :=
  if n = 1 then "" else "s"

/-- How many bytes of a name a message shows at most. -/
def nameLimit : Nat := 200

/-- The name as far as a message shows it.  A character that is cut through leaves a mark. -/
def clipped (name : String) : String :=
  let rec go : Nat → List Char → List Char
    | _, [] => []
    | 0, _ => []
    | n, c :: rest => if c.utf8Size ≤ n then c :: go (n - c.utf8Size) rest else ['\ufffd']
  String.ofList (go nameLimit name.toList)

/-- What is said about a division by zero. -/
def zeroMessage : BinaryOp → NumberClass → String
  | _, .complex => "complex division by zero"
  | .div, .whole => "division by zero"
  | .div, .real => "float division by zero"
  | .floorDiv, .whole => "integer division or modulo by zero"
  | .floorDiv, .real => "float floor division by zero"
  | _, .whole => "integer modulo by zero"
  | _, .real => "float modulo"

/-- What is said about a fault that shows names and types alone. -/
def text : Fault → String
  | undefinedName n => "name '" ++ clipped n ++ "' is not defined"
  | unsetLocal n =>
    "cannot access local variable '" ++ n ++ "' where it is not associated with a value"
  | divisionByZero op numbers => zeroMessage op numbers
  | zeroToNegativePower => "0.0 cannot be raised to a negative power"
  | zeroToComplexPower => "0.0 to a negative or complex power"
  | overflow t => t
  | outOfMemory => ""
  | tooDeep => "maximum recursion depth exceeded"
  | unsupportedOperands s l r =>
    "unsupported operand type(s) for " ++ s ++ ": '" ++ l ++ "' and '" ++ r ++ "'"
  | badOperand s t => "bad operand type for " ++ s ++ ": '" ++ t ++ "'"
  | cannotConcatenate "bytes" t => "can't concat " ++ t ++ " to bytes"
  | cannotConcatenate s t =>
    "can only concatenate " ++ s ++ " (not \"" ++ t ++ "\") to " ++ s
  | cannotRepeat t => "can't multiply sequence by non-int of type '" ++ t ++ "'"
  | unordered s l r =>
    "'" ++ s ++ "' not supported between instances of '" ++ l ++ "' and '" ++ r ++ "'"
  | notSubscriptable t => "'" ++ t ++ "' object is not subscriptable"
  | notCallable t => "'" ++ t ++ "' object is not callable"
  | notIterable t => "'" ++ t ++ "' object is not iterable"
  | notContainer t => "argument of type '" ++ t ++ "' is not iterable"
  | noLength t => "object of type '" ++ t ++ "' has no len()"
  | wrongIndex "str" t => "string indices must be integers, not '" ++ t ++ "'"
  | wrongIndex "bytes" t => "byte indices must be integers or slices, not " ++ t
  | wrongIndex s t => s ++ " indices must be integers or slices, not " ++ t
  | indexOutOfRange "str" => "string index out of range"
  | indexOutOfRange "bytes" => "index out of range"
  | indexOutOfRange s => s ++ " index out of range"
  | hugeIndex => "cannot fit 'int' into an index-sized integer"
  | unhashable t => "unhashable type: '" ++ t ++ "'"
  | noAttribute t n => "'" ++ t ++ "' object has no attribute '" ++ n ++ "'"
  | badInteger b t =>
    "invalid literal for int() with base " ++ toString b ++ ": " ++ t
  | badValue t => t
  | emptySeparator => "empty separator"
  | emptySequence f => f ++ "() arg is an empty sequence"
  | wrongItem i t => "sequence item " ++ toString i ++ ": expected str instance, " ++ t ++ " found"
  | missingArguments f ns =>
    f ++ "() missing " ++ toString ns.length ++ " required positional argument"
      ++ plural ns.length ++ ": " ++ enumerate ns
  | surplusArguments f takes given =>
    f ++ "() takes " ++ toString takes ++ " positional argument" ++ plural takes ++ " but "
      ++ toString given ++ (if given = 1 then " was" else " were") ++ " given"
  | invalidKeyword f k => "'" ++ k ++ "' is an invalid keyword argument for " ++ f ++ "()"
  | repeatedArgument f k => f ++ "() got multiple values for argument '" ++ k ++ "'"
  | unexpectedKeyword f k => f ++ "() got an unexpected keyword argument '" ++ k ++ "'"
  | badCall t => t
  | notUnpackable t => "cannot unpack non-iterable " ++ t ++ " object"
  | tooManyValues n => "too many values to unpack (expected " ++ toString n ++ ")"
  | tooFewValues n m =>
    "not enough values to unpack (expected " ++ toString n ++ ", got " ++ toString m ++ ")"
  | noActiveError => "No active exception to reraise"
  | notAnError => "exceptions must derive from BaseException"
  | setWritten => "sets are not supported"
  | unwritable e => e.message
  | missingKey _ | raised .. => ""

/-- What is said about a fault. -/
def message : Fault → Wording
  | missingKey k => k
  | raised _ t => t
  | f => .said f.text

end Fault
end LetTag.Script
