/-
  Values, and the objects that a registry holds.

  A value is a tree: scalars, lists, tuples and dictionaries, and in between the three entities of
  the domain.  A variable is a named value with a type tag.  An object has an id, a type, a value,
  operations, related entities by kind, and tags.  A record is what a receiver rebuilds from the
  description of an object: named variables and nothing else.

  Lists and objects can be shared and changed; inside a running script they live in a store, and
  `ref` points to their place there (`LetTag.Store`).  Everywhere else values hold no `ref`.  The
  tags of an object are a list of texts, or in a store a pointer to one.
-/
import LetTag.Script.Syntax

namespace LetTag

/-- An operation that runs a script: the parameters it declares to callers, the script, the names
    defined behind its function, and its source text if it came from a definition. -/
structure Closure where
  parameters : List String
  program : Script.Program
  source : Option String
  deriving Repr

/-- What can stand behind the name of an operation: a script, or the `execute` operation of the
    object at a place of the store. -/
inductive Method where
  | closure (c : Closure)
  | reference (target : Nat)
  deriving Repr

/-- Values. -/
inductive Value where
  | scalar (s : Scalar)
  | list (items : List Value)
  | tuple (items : List Value)
  | dict (entries : List (Value × Value))
  | var (name value type : Value)
  | object (id type : String) (value : Value) (methods : List (String × Method))
      (relations : List (String × List Value)) (tags : Value)
  | record (id : String) (fields : List (Value × Value))
  | ref (place : Nat)
  deriving Repr

namespace Value

/-! ## Short forms -/

/-- The value that stands for absence. -/
@[match_pattern] abbrev null : Value := scalar .null

/-- A truth value. -/
@[match_pattern] abbrev bool (b : Bool) : Value := scalar (.bool b)

/-- An integer. -/
@[match_pattern] abbrev int (n : Int) : Value := scalar (.int n)

/-- A text. -/
@[match_pattern] abbrev text (s : String) : Value := scalar (.text s)

/-- A list of texts. -/
def texts (ss : List String) : Value :=
  list (ss.map text)

/-- The texts among the items of a list. -/
def textItems : Value → List String
  | list items => items.filterMap fun
    | text s => some s
    | _ => none
  | _ => []

instance : Inhabited Value := ⟨null⟩

/-- The name of a value's type, as error messages give it. -/
def typeName : Value → String
  | scalar s => s.typeName
  | list _ => "list"
  | tuple _ => "tuple"
  | dict _ => "dict"
  | var .. => "MetaVar"
  | object .. => "MetaObject"
  | record .. => "AbstractObject"
  | ref _ => "list"

/-- Does the value count as true in a condition? -/
def truthy : Value → Bool
  | scalar s => s.truthy
  | list items => !items.isEmpty
  | tuple items => !items.isEmpty
  | dict entries => !entries.isEmpty
  | _ => true

end Value
end LetTag
