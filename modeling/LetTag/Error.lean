/-
  Errors that reach a caller.

  A definition that cannot be compiled or evaluated, an id or an operation that is not there, a
  call that fails, a description that cannot be rebuilt.  Beside them stand the ways in which a
  definition or a call is broken off: the character zero in a script, a fault while a script is
  being defined, a run without end, input of the wrong shape, and a value that cannot be written.
-/
import LetTag.Arrow
import LetTag.Literal
import LetTag.Script.Machine

namespace LetTag

open Text

/-- Why a description is not rebuilt into a record. -/
inductive ReconstructionError where
  | noId
  | noFields (id : String)
  | notAList (id : String)
  | unknownMember (id : String) (member : String)
  | notAMapping (type : String)
  | unhashableName (type : String)
  | notIterable (type : String)
  | missingName
  | notADescription (type : String)
  | unwritable (e : Json.WriteError)
  deriving DecidableEq, Repr

/-- What is said about it. -/
def ReconstructionError.message : ReconstructionError → String
  | noId => "Cannot reconstruct: description has no id"
  | noFields id => "Cannot reconstruct '" ++ id ++ "': missing relations.field info"
  | notAList id => "relations.field of '" ++ id ++ "' is not a list"
  | unknownMember id m => "Unrecognized field entry in '" ++ id ++ "': " ++ m
  | notAMapping t => "'" ++ t ++ "' object has no attribute 'get'"
  | unhashableName t => "unhashable type: '" ++ t ++ "'"
  | notIterable t => "'" ++ t ++ "' object is not iterable"
  | missingName => "'name'"
  | notADescription t => t ++ ".get() takes no key"
  | unwritable e => e.message

/-- Errors that reach a caller. -/
inductive Error where
  | arrow (e : ArrowError)
  | evaluation (e : EvaluationError)
  | objectNotFound (id : String)
  | operationNotFound (id operation : String)
  | invocation (id operation : String) (cause : Script.FaultKind) (text : String)
  | reconstruction (e : ReconstructionError)
  | zeroCharacter
  | definition (cause : Script.FaultKind)
  | endless
  | notAMapping (type : String)
  | unwritable (e : Json.WriteError)
  deriving DecidableEq, Repr

/-- The error that a fault in a call is, unless the fault shows a value that cannot be written. -/
def Error.ofFault (id operation : String) (f : Script.Fault) : Error :=
  match f.message with
  | .said text => .invocation id operation f.kind text
  | .unwritable e => .unwritable e

/-- What is said about an error. -/
def Error.message : Error → String
  | arrow e => e.message
  | evaluation e => e.message
  | objectNotFound id => "Object '" ++ id ++ "' not found"
  | operationNotFound id op => "Method '" ++ op ++ "' not callable or missing in '" ++ id ++ "'"
  | invocation id op _ t => "Call to '" ++ id ++ "." ++ op ++ "' failed: " ++ t
  | reconstruction e => e.message
  | zeroCharacter => "source code string cannot contain null bytes"
  | definition _ => "a script fails while it is being defined"
  | endless => "the run has no end"
  | notAMapping t => "'" ++ t ++ "' object has no attribute 'items'"
  | unwritable e => e.message

end LetTag
