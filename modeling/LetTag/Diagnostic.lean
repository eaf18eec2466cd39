/-
  Diagnostics: what is wrong with statements, and the log.

  A statement that cannot be carried out never stops a pass; it leaves a diagnostic.  Each holds the
  statement and, where there is one, the id that the statement declares or tags.  What happens
  during a pass or a request is also logged, with a level and the component that speaks.
-/
import LetTag.Error

namespace LetTag

/-- What can be wrong with a statement. -/
inductive Problem where
  | unclosedBlock
  | unrecognized
  | malformedLet
  | malformedTag
  | arrow (id : String) (e : ArrowError)
  | evaluation (id : String) (e : EvaluationError)
  | missingObject (id : String)
  deriving DecidableEq, Repr

/-- A problem and the statement that has it. -/
structure Diagnostic where
  problem : Problem
  statement : List Char
  deriving DecidableEq, Repr

namespace Diagnostic

/-- The kind of a diagnostic, for programs. -/
def kind (d : Diagnostic) : String :=
  match d.problem with
  | .unclosedBlock => "unclosed-block"
  | .unrecognized | .malformedLet | .malformedTag => "malformed-statement"
  | .arrow .. => "translation-failed"
  | .evaluation .. => "evaluation-failed"
  | .missingObject _ => "missing-object"

/-- The id that the statement declares or tags. -/
def objectId? (d : Diagnostic) : Option String :=
  match d.problem with
  | .arrow id _ | .evaluation id _ | .missingObject id => some id
  | _ => none

/-- What is said about the statement. -/
def message (d : Diagnostic) : String :=
  let statement := String.ofList d.statement
  match d.problem with
  | .unclosedBlock =>
    "Unclosed '\x7b' in block starting at: " ++ String.ofList ((Text.lines d.statement).headD [])
  | .unrecognized => "Unrecognized statement: " ++ statement
  | .malformedLet => "Malformed let statement: " ++ statement
  | .malformedTag => "Malformed tag statement: " ++ statement
  | .arrow id e => "In define '" ++ id ++ "': " ++ e.message
  | .evaluation id e => "In define '" ++ id ++ "': " ++ e.message
  | .missingObject id => "Tried to tag missing object '" ++ id ++ "'"

/-- The diagnostic as a line of the log. -/
def text (d : Diagnostic) : String :=
  "[" ++ d.kind ++ "] " ++ d.message

end Diagnostic

/-! ## The log -/

/-- How much a line of the log matters. -/
inductive Level where
  | debug | info | warning | error
  deriving DecidableEq, Repr

/-- Who speaks in the log. -/
inductive Component where
  | statements | registry | requests
  deriving DecidableEq, Repr

/-- A line of the log. -/
structure LogLine where
  level : Level
  component : Component
  text : String
  deriving DecidableEq, Repr

end LetTag
