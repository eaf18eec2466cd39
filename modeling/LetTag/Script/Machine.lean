/-
  The state of a running script.

  All of a run shares the world: the store and the names defined outside the function.  A script has
  local names beside it, and nothing that values do sees these, so that steps come in two kinds:
  `Work` on the world, and `Run` on the machine.  A run ends with a value, with a fault, or not at
  all: a loop over a list that its own body keeps growing has no end, and `endless` says so.
-/
import LetTag.Script.Fault
import LetTag.Store
import LetTag.Table

namespace LetTag.Script

/-- Why a run stops without a value. -/
inductive Stop where
  | fault (f : Fault)
  | endless
  deriving DecidableEq, Repr

/-- What is shared: the store, and the names defined outside of functions. -/
structure World where
  store : Store
  globals : Table Value

/-- The state of a run: `scope` holds the names that are local, set or not. -/
structure Machine extends World where
  scope : List String
  locals : Table Value

/-- A step that works on the world.  What it did stays done when it stops. -/
abbrev Work := ExceptT Stop (StateM World)

/-- A step of a run.  What it did to the state stays done when it stops. -/
abbrev Run := ExceptT Stop (StateM Machine)

/-- Work as a step of a run; it leaves the local names alone. -/
def Work.lift {α : Type} (w : Work α) : Run α := fun m =>
  let (outcome, world) := w m.toWorld
  (outcome, { m with toWorld := world })

instance : MonadLiftT Work Run where
  monadLift := Work.lift

/-- A run as work, with local names of its own. -/
def Run.within {α : Type} (r : Run α) (scope : List String) (locals : Table Value) : Work α :=
  fun world =>
    let (outcome, m) := r ⟨world, scope, locals⟩
    (outcome, m.toWorld)

/-- The work stops with a fault. -/
def fail {α : Type} (f : Fault) : Work α :=
  throw (.fault f)

/-- The outcome of something that may fault. -/
def ofExcept {α : Type} : Except Fault α → Work α
  | .ok a => return a
  | .error f => fail f

/-- What a value points to. -/
def view (v : Value) : Work Value :=
  return (← get).store.content v

/-- The value with all pointers followed. -/
def whole (v : Value) : Work Value :=
  return (← get).store.expand v

/-- Works on the store. -/
def onStore {α : Type} (f : StateM Store α) : Work α :=
  modifyGet fun m => let (a, s) := f m.store; (a, { m with store := s })

/-- A new list. -/
def newList (items : List Value) : Work Value :=
  onStore (Store.alloc (.list items))

/-- Changes what a place holds. -/
def setPlace (place : Nat) (content : Value) : Work Unit :=
  modify fun m => { m with store := m.store.set place content }

/-- What was written, unless it cannot be. -/
def ofWriting : Except Json.WriteError (List Char) → Work (List Char)
  | .ok s => return s
  | .error e => fail (.unwritable e)

/-- The value with all pointers followed, as text for a reader. -/
def displayed (v : Value) : Work String := do
  return String.ofList (← ofWriting (← whole v).display)

/-! ## Names -/

/-- The value of a name: a local name must have been set; then come the names defined outside, and
    those that every script knows. -/
def lookupName (name : String) : Run Value := do
  let m ← get
  if m.scope.contains name then
    match Table.get? name m.locals with
    | some v => return v
    | none => fail (.unsetLocal name)
  else match Table.get? name m.globals, Builtin.ofName? name with
    | some v, _ => return v
    | none, some b => return .scalar (.builtin b)
    | none, none => fail (.undefinedName name)

/-- Sets a name. -/
def assignName (name : String) (value : Value) : Run Unit :=
  modify fun m =>
    if m.scope.contains name then { m with locals := Table.put name value m.locals }
    else { m with globals := Table.put name value m.globals }

/-! ## Sequences -/

/-- The items that a loop over a value would give, as they are now.  A loop over an object would
    never end. -/
def itemsOf (v : Value) : Work (List Value) := do
  match ← view v with
  | .list xs => return xs
  | .tuple xs => return xs
  | .dict es => return es.map Prod.fst
  | .text s => return s.toList.map fun c => .text (String.singleton c)
  | .scalar (.bytes bs) => return bs.map fun b => .int b.toNat
  | .object .. => throw .endless
  | w => fail (.notIterable w.typeName)

end LetTag.Script
