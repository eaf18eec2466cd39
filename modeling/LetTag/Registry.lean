/-
  The registry: objects by id.

  It keeps the order in which ids were first declared; declaring an id again replaces the object.
  Beside the objects it holds the settings and all diagnostics so far.  Routes and descriptions are
  read off the objects as they are now.
-/
import LetTag.Binding
import LetTag.Diagnostic
import LetTag.Route
import LetTag.Settings

namespace LetTag

/-- Settings, objects by id, and all diagnostics so far. -/
structure Registry where
  settings : Settings
  objects : Table Entity
  diagnostics : List Diagnostic

namespace Registry

/-- The registry without objects. -/
def empty (settings : Settings) : Registry :=
  ⟨settings, [], []⟩

/-- Forgets all objects and diagnostics. -/
def reset (r : Registry) : Registry :=
  { r with objects := [], diagnostics := [] }

/-- The object with an id. -/
def get (r : Registry) (id : String) : Except Error Entity :=
  match Table.get? id r.objects with
  | some e => .ok e
  | none => .error (.objectNotFound id)

/-- The description of the object with an id; an empty one if there is none. -/
def describe (r : Registry) (id : String) : Value :=
  match Table.get? id r.objects with
  | some e => e.describe
  | none => .dict []

/-- The routes of the objects. -/
def routes (r : Registry) : List Route :=
  LetTag.routes (r.objects.map Prod.snd)

/-- The arguments for an object from named input; without a type tag of its own the input gets that
    of the settings. -/
def arguments (r : Registry) (e : Entity) (source type : Value) : Except Error (List Value) :=
  bindInput e.parameters source (if type.truthy then type else r.settings.sourceType)

end Registry
end LetTag
