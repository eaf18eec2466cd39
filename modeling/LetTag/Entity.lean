/-
  Objects: what a registry holds.

  An object has an id, a type, a value, operations by name, related entities by kind, and tags.
  Adding a tag that is there changes nothing; an operation or relation keeps the place where its
  name first came.  Among values an object is `Value.object`, and in a store it has a place, through
  which references from one object to another are followed.
-/
import LetTag.Closure
import LetTag.Value.Describe

namespace LetTag

/-- The operation that a call of an object runs. -/
def executeName : String := "execute"

/-- The type of objects made from mappings. -/
def recordType : String := "abstract-object"

/-- An object. -/
structure Entity where
  id : String
  type : String
  value : Value
  methods : Table Method
  relations : Table (List Value)
  tags : List String

namespace Entity

/-- The object among values. -/
def toValue (e : Entity) : Value :=
  .object e.id e.type e.value e.methods e.relations (.texts e.tags)

/-- The object with the tags added. -/
def tag (e : Entity) (new : List String) : Entity :=
  { e with tags := addTags e.tags new }

/-- Has the object the tag? -/
def hasTag (e : Entity) (t : String) : Bool :=
  e.tags.contains t

/-- The object with an operation. -/
def addMethod (e : Entity) (name : String) (m : Method) : Entity :=
  { e with methods := Table.put name m e.methods }

/-- The object with one more related entity. -/
def relate (e : Entity) (kind : String) (v : Value) : Entity :=
  { e with relations := Table.put kind ((Table.get? kind e.relations).getD [] ++ [v]) e.relations }

/-- The object with the operations and tags of another. -/
def bind (e other : Entity) : Entity :=
  { e with
    methods := other.methods.foldl (fun ms (n, m) => Table.put n m ms) e.methods
    tags := addTags e.tags other.tags }

/-- The value of the first field with that name. -/
def get (e : Entity) (name : Value) : Value :=
  Value.member (fun v => v) name e.relations

/-- The description of the object. -/
def describe (e : Entity) : Value :=
  e.toValue.describe

end Entity

namespace Store

/-- The object in a place. -/
def entity? (s : Store) (place : Nat) : Option Entity :=
  match s.content (.ref place) with
  | .object id type value methods relations tags =>
    some ⟨id, type, value, methods, relations, (s.content tags).textItems⟩
  | _ => none

/-- The object in a place is changed; its tags stay in the place that they have. -/
def update (s : Store) (place : Nat) (change : Entity → Entity) : Store :=
  match s.entity? place, s.content (.ref place) with
  | some e, .object _ _ _ _ _ (.ref tags) =>
    let e := change e
    (s.set tags (.texts e.tags)).set place
      (.object e.id e.type e.value e.methods e.relations (.ref tags))
  | some e, _ => s.set place (change e).toValue
  | none, _ => s

/-- The operation that a value can serve as: an object stands for a reference to it. -/
def method? (s : Store) : Value → Option Method
  | .ref place => (s.entity? place).map fun _ => .reference place
  | _ => none

/-- The operation that a reference to a place leads to. -/
def execute? (s : Store) (place : Nat) : Option Method :=
  (s.entity? place).bind fun e => Table.get? executeName e.methods

/-- The value of the first field with that name of an object whose members are in the store. -/
def memberOf (s : Store) (e : Entity) (name : Value) : Value :=
  Value.member s.content name e.relations

/-! ## Parameters -/

/-- The parameters of the operation that references lead to, each place visited once. -/
def parametersFrom (s : Store) : Nat → List Nat → Option Method → List String
  | _, _, some (.closure c) => c.parameters
  | n + 1, seen, some (.reference a) =>
    if seen.contains a then [] else parametersFrom s n (a :: seen) (s.execute? a)
  | _, _, _ => []

/-- The parameters that an operation of an object declares, references followed; none if there is
    nothing to call. -/
def parametersOf (s : Store) (e : Entity) (operation : String) : List String :=
  s.parametersFrom (s.cells.size + 1) [] (Table.get? operation e.methods)

/-! ## Calls -/

/-- The result of `execute` together with the descriptions of the arguments, as they are after the
    call.  The description of one that contains itself would have no end. -/
def callResult (s : Store) (result : Value) (args : List Value) : Except Error Value :=
  let args := args.map s.expand
  if args.all Value.isWhole then
    .ok (.dict [(.text "result", s.expand result),
      (.text "vars", .list (args.map Value.describe))])
  else .error .endless

/-- Calls an operation of an object; `follow` calls the object that a reference leads to. -/
def callWith (follow : Entity → StateM Store (Except Error Value)) (e : Entity) (operation : String)
    (args : List Value) : StateM Store (Except Error Value) := do
  match Table.get? operation e.methods with
  | some (.closure c) => do
    match ← c.run (← c.globals) args with
    | .error (.fault f) => return .error (.ofFault e.id operation f)
    | .error .endless => return .error .endless
    | .ok v =>
      let s ← getThe Store
      return if operation = executeName then s.callResult v args else .ok (s.expand v)
  | some (.reference a) => do
    let s ← getThe Store
    match s.entity? a, s.execute? a with
    | some target, some _ => follow target
    | _, _ => return .error (.operationNotFound e.id operation)
  | none => return .error (.operationNotFound e.id operation)

/-- Calls an operation of an object; at most so many references are followed. -/
def callFrom : Nat → Entity → String → List Value → StateM Store (Except Error Value)
  | 0, e, operation, args => callWith (fun _ => return .error .endless) e operation args
  | n + 1, e, operation, args =>
    callWith (fun target => callFrom n target executeName args) e operation args

/-- Calls an operation of an object with arguments in the store.  The result has no pointers. -/
def call (e : Entity) (operation : String) (args : List Value) :
    StateM Store (Except Error Value) := do
  callFrom ((← getThe Store).cells.size + 1) e operation args

end Store

namespace Entity

/-- Calls an operation of an object that stands alone, with arguments without pointers. -/
def call (e : Entity) (operation : String) (args : List Value) : Except Error Value :=
  let run : StateM Store (Except Error Value) := do
    let args ← Value.placeList args
    Store.call e operation args
  (run.run Store.empty).1

/-- The parameters that a call of an object that stands alone takes. -/
def parameters (e : Entity) : List String :=
  Store.empty.parametersOf e executeName

end Entity
end LetTag
