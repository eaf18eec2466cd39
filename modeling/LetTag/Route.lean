/-
  Routes: which requests lead to which objects.

  An object tagged `api` and `path:...` answers requests for that path, those sent by POST if it is
  tagged `post` too, and else by GET.  Routes are never kept; they are read off the tags.
-/
import LetTag.Entity

namespace LetTag

/-- A path and a method, and the object that answers. -/
structure Route where
  path : String
  method : String
  handler : Entity

/-- What stands behind `start` in a text that begins with it. -/
def behind? (start s : String) : Option String :=
  if start.toList.isPrefixOf s.toList then some (String.ofList (s.toList.drop start.length))
  else none

/-- The path that the first tag of the form `path:...` gives. -/
def pathOf (tags : List String) : Option String :=
  tags.findSome? (behind? "path:")

/-- The route of an object, if it has one. -/
def Entity.route? (e : Entity) : Option Route :=
  if e.hasTag "api" then
    (pathOf e.tags).map fun path => ⟨path, if e.hasTag "post" then "POST" else "GET", e⟩
  else none

/-- The routes of objects, in their order. -/
def routes (es : List Entity) : List Route :=
  es.filterMap Entity.route?

end LetTag
