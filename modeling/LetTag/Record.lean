/-
  Records: objects rebuilt from their descriptions.

  A description is rebuilt if it has an id and lists its fields under `relations.field`.  A field
  whose value is itself the description of an `abstract-object` becomes a record inside the record.
  Nothing is guessed: any other shape is an error.  The rebuilding recurs on the description, so
  what is looked up in a dictionary is looked up by walking its entries.  Ids and strange members are
  written out as texts, which ends the rebuilding if they hold an integer that is too long for one.
-/
import LetTag.Binding
import LetTag.Error

namespace LetTag

open ReconstructionError

/-- The type tag of a field that has none. -/
def plainType : Value := .text "mixed"

/-- The fields with a variable under its name. -/
def addField (name value type : Value) (fields : List (Value × Value)) :
    Except ReconstructionError (List (Value × Value)) :=
  match name.unhashable? with
  | some t => .error (unhashableName t)
  | none => .ok (Value.put name (.var name value type) fields)

/-- The text of an id. -/
def idText (id : Value) : Except ReconstructionError String :=
  if id.writable then .ok id.nameText else .error (unwritable .tooManyDigits)

/-- The error for a member that is no field of the record `id`. -/
def strange (id : String) (m : Value) : ReconstructionError :=
  match m.written with
  | .ok shown => unknownMember id (String.ofList shown)
  | .error e => unwritable e

/-- Are these the entries of the description of an `abstract-object`? -/
def describesRecord (entries : List (Value × Value)) : Bool :=
  (Value.lookup? "type" entries).any (·.equal (.text recordType))
    && (Value.lookup? "relations" entries).isSome

/-- Is the key this text? -/
def isKey (key : Value) (name : String) : Bool :=
  key.equal (.text name)

mutual

/-- The value of the member `name`: rebuilt if it describes a record, or else as it is. -/
def rebuildValue (name : Value) : Value → Except ReconstructionError Value
  | .dict entries =>
    if describesRecord entries then do
      let id ← idText ((Value.lookup? "id" entries).getD name)
      let fields ← relationsOf id entries
      .ok (.record id fields)
    else .ok (.dict entries)
  | v => .ok v
termination_by structural v => v

/-- The fields that the entry `relations` lists. -/
def relationsOf (id : String) :
    List (Value × Value) → Except ReconstructionError (List (Value × Value))
  | [] => .ok []
  | (k, v) :: es => if isKey k "relations" then fieldsOf id v else relationsOf id es
termination_by structural v => v

/-- The fields that relations list. -/
def fieldsOf (id : String) : Value → Except ReconstructionError (List (Value × Value))
  | .dict entries => fieldEntry id entries
  | v => .error (notAMapping v.typeName)
termination_by structural v => v

/-- The fields that the entry `field` lists; there are none if it is missing. -/
def fieldEntry (id : String) :
    List (Value × Value) → Except ReconstructionError (List (Value × Value))
  | [] => .ok []
  | (k, v) :: es => if isKey k Value.fieldKind then members id v else fieldEntry id es
termination_by structural v => v

/-- The fields that a list of members gives. -/
def members (id : String) : Value → Except ReconstructionError (List (Value × Value))
  | .list ms => addMembers id [] ms
  | _ => .error (notAList id)
termination_by structural v => v

/-- The fields with those of the members behind. -/
def addMembers (id : String) (fields : List (Value × Value)) :
    List Value → Except ReconstructionError (List (Value × Value))
  | [] => .ok fields
  | m :: ms => do
    let fields ← addMember id fields m
    addMembers id fields ms
termination_by structural v => v

/-- The fields with that of a member behind: a name alone, or a dictionary with a name. -/
def addMember (id : String) (fields : List (Value × Value)) :
    Value → Except ReconstructionError (List (Value × Value))
  | .dict entries =>
    match Value.lookup? "name" entries with
    | none => .error (strange id (.dict entries))
    | some name => do
      let value ← valueEntry name entries
      addField name value ((Value.lookup? "type" entries).getD plainType) fields
  | .text s => addField (.text s) .null plainType fields
  | m => .error (strange id m)
termination_by structural v => v

/-- The value under the entry `value`. -/
def valueEntry (name : Value) : List (Value × Value) → Except ReconstructionError Value
  | [] => .ok .null
  | (k, v) :: es => if isKey k "value" then rebuildValue name v else valueEntry name es
termination_by structural v => v

end

/-- The record that a description gives. -/
def Value.ofDescription (description : Value) : Except ReconstructionError Value :=
  match (description.field? "id").filter Value.truthy with
  | none => .error noId
  | some id => do
    let id ← idText id
    match (description.field? "relations").bind (Value.field? Value.fieldKind) with
    | none => .error (noFields id)
    | some ms => (members id ms).map (.record id ·)

/-! ## Fields of a record -/

namespace Value

/-- The record with a variable under its name. -/
def addVariable (v name value type : Value) : Value :=
  match v with
  | record id fields => record id (put name (var name value type) fields)
  | v => v

/-- The value of a field, or null if there is none. -/
def fieldValue (v name : Value) : Value :=
  match v with
  | record _ fields => match find? name fields with
    | some (var _ w _) => w
    | _ => null
  | _ => null

/-- The record with another value in the field of that name; it gains no field by it. -/
def setField (v name value : Value) : Value :=
  match v with
  | record id fields => match find? name fields with
    | some (var n _ t) => record id (put name (var n value t) fields)
    | _ => record id fields
  | v => v

/-- The variable with another value. -/
def setValue (v value : Value) : Value :=
  match v with
  | var n _ t => var n value t
  | v => v

end Value

/-! ## Reading a record -/

mutual

/-- A record as a plain mapping, and any other value as it is. -/
def Value.plain : Value → Value
  | .record _ fields => .dict (plainFields fields)
  | v => v

/-- The fields with their values. -/
def plainFields : List (Value × Value) → List (Value × Value)
  | [] => []
  | (k, .var _ v _) :: es => (k, v.plain) :: plainFields es
  | e :: es => e :: plainFields es

end

mutual

/-- The description of a record, and any other value as it is. -/
def Value.recordDescription : Value → Value
  | .record id fields =>
    .dict [(.text "id", .text id), (.text "fields", .dict (fieldDescriptions fields))]
  | v => v

/-- The fields with their descriptions. -/
def fieldDescriptions : List (Value × Value) → List (Value × Value)
  | [] => []
  | (k, .var n v t) :: es =>
    (k, .dict [(.text "name", n), (.text "value", v.recordDescription), (.text "type", t)])
      :: fieldDescriptions es
  | e :: es => e :: fieldDescriptions es

end

/-! ## Arguments of a call -/

/-- The argument that an entry of `vars` describes: its name and its value, rebuilt if it describes
    a record. -/
def rebuildArgument (arguments : List (Value × Value)) (var : Value) :
    Except ReconstructionError (List (Value × Value)) := do
  match var with
  | .dict entries =>
    let value ← match (Value.lookup? "value" entries).getD .null with
      | .dict es => if describesRecord es then Value.ofDescription (.dict es) else .ok (.dict es)
      | v => .ok v
    match Value.lookup? "name" entries with
    | none => .error missingName
    | some name => match name.unhashable? with
      | some t => .error (unhashableName t)
      | none => .ok (Value.put name value arguments)
  | .var .. => .error (notADescription var.typeName)
  | v => .error (notAMapping v.typeName)

/-- The arguments that the result of a call describes, by name. -/
def rebuildArguments (result : Value) : Except ReconstructionError (List (Value × Value)) :=
  match result with
  | .dict entries => match (Value.lookup? "vars" entries).getD (.list []) with
    | .list vs | .tuple vs => vs.foldlM rebuildArgument []
    | .dict es => (es.map Prod.fst).foldlM rebuildArgument []
    | .text s => if s.isEmpty then .ok [] else .error (notAMapping "str")
    | v => .error (notIterable v.typeName)
  | .var .. => .error (notADescription result.typeName)
  | v => .error (notAMapping v.typeName)

end LetTag
