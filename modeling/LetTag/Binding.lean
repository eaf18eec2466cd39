/-
  From plain mappings to objects, and from named input to arguments.

  A mapping becomes an object of type `abstract-object` with one variable per key, nested mappings
  included.  Arguments are bound in the order in which an operation declares its parameters; a
  parameter without input is bound to null, and input without a parameter is left out.
-/
import LetTag.Entity
import LetTag.Value.Shown

namespace LetTag.Value

mutual

/-- The value as it is bound to a name: a mapping as an object, anything else as it is. -/
def bound (type : Value) (name : String) : Value → Value
  | dict entries => object name recordType null [] [(fieldKind, boundFields type entries)] (texts [])
  | v => v

/-- The variables for the entries of a mapping, all with the same type tag. -/
def boundFields (type : Value) : List (Value × Value) → List Value
  | [] => []
  | (k, v) :: es => var (text k.nameText) (bound type k.nameText v) type :: boundFields type es

end

mutual

/-- Can all keys of a mapping, and of the mappings in it, be written as names of fields? -/
def nameable : Value → Bool
  | dict entries => entriesNameable entries
  | _ => true

/-- Can all keys of the entries be written? -/
def entriesNameable : List (Value × Value) → Bool
  | [] => true
  | (k, v) :: es => k.writable && v.nameable && entriesNameable es

end
end LetTag.Value

namespace LetTag

/-- The object made from a mapping. -/
def Entity.ofMapping (name : String) (entries : List (Value × Value)) (type : Value) : Entity :=
  ⟨name, recordType, .null, [], [(Value.fieldKind, Value.boundFields type entries)], []⟩

/-- The object made from a mapping whose keys can be written. -/
def Entity.build (name : String) (entries : List (Value × Value)) (type : Value) :
    Except Error Entity :=
  if Value.entriesNameable entries then .ok (.ofMapping name entries type)
  else .error (.unwritable .tooManyDigits)

/-- One variable per parameter, in order, with the input under its name. -/
def bindParameters (parameters : List String) (source : List (Value × Value)) (type : Value) :
    List Value :=
  parameters.map fun p =>
    .var (.text p) (Value.bound type p ((Value.lookup? p source).getD .null)) type

/-- The same for input that may be no mapping, which matters as soon as there is a parameter, or
    whose keys may be such that they cannot be written. -/
def bindInput (parameters : List String) (source type : Value) : Except Error (List Value) :=
  match source, parameters with
  | .dict es, ps =>
    if ps.all fun p => ((Value.lookup? p es).getD .null).nameable then
      .ok (bindParameters ps es type)
    else .error (.unwritable .tooManyDigits)
  | _, [] => .ok []
  | v, _ => .error (.notAMapping v.typeName)

end LetTag
