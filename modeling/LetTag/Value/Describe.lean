/-
  Descriptions: values with every variable and object replaced by a dictionary of its parts.

  A description is a function of the value alone.  Whatever can be reached through values and
  relations is described in its place, so a receiver can rebuild the structure from it.
-/
import LetTag.Value

namespace LetTag.Value


mutual

/-- The description of a value: plain data in which every variable and object is a dictionary of
    its parts. -/
def describe : Value → Value
  | scalar s => scalar s
  | list items => list (describeList items)
  | tuple items => tuple (describeList items)
  | dict entries => dict (describeEntries entries)
  | var n v t => dict [(text "name", n), (text "value", v.describe), (text "type", t)]
  | object i t v ms rs gs => dict [
      (text "id", text i), (text "type", text t), (text "tags", gs),
      (text "methods", texts (ms.map Prod.fst)), (text "relations", dict (describeRelations rs)),
      (text "value", v.describe)]
  | record i fs => record i fs
  | ref a => ref a

/-- The descriptions of the items. -/
def describeList : List Value → List Value
  | [] => []
  | x :: xs => x.describe :: describeList xs

/-- The entries with their values described. -/
def describeEntries : List (Value × Value) → List (Value × Value)
  | [] => []
  | (k, v) :: es => (k, v.describe) :: describeEntries es

/-- The related entities of each kind, described. -/
def describeRelations : List (String × List Value) → List (Value × Value)
  | [] => []
  | (kind, xs) :: rs => (text kind, list (describeList xs)) :: describeRelations rs

end

end LetTag.Value
