/-
  Tables: values under names, in the order in which the names first came.

  Putting a value under a name that is there keeps the name's place.
-/

namespace LetTag

/-- Values under names. -/
abbrev Table (α : Type) := List (String × α)

namespace Table

variable {α : Type}

/-- The value under a name. -/
def get? (name : String) (t : Table α) : Option α :=
  t.lookup name

/-- The table with `value` under `name`. -/
def put (name : String) (value : α) : Table α → Table α
  | [] => [(name, value)]
  | (n, v) :: rest => if n = name then (n, value) :: rest else (n, v) :: put name value rest

/-- The names, in order. -/
def names (t : Table α) : List String :=
  t.map Prod.fst

end Table

/-! ## Tags -/

/-- The tags with those of the new ones that are not among them behind, each once. -/
def addTags (tags new : List String) : List String :=
  new.foldl (fun ts t => if ts.contains t then ts else ts ++ [t]) tags

end LetTag
