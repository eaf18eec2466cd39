/-
  Values as text, the way they would be written in a script.

  Entities are shown by their parts.  No operation can be written out, so a table of operations
  shows the names alone.  Integers have a longest length in decimal, so beside the text of a value
  stands the question whether it can be written.
-/
import LetTag.Value

namespace LetTag.Value


/-- Items with commas between them. -/
def commas (items : List (List Char)) : List Char :=
  List.intercalate [',', ' '] items

mutual

/-- The value as it would be written in a script, entities by their parts. -/
def shown : Value → List Char
  | scalar s => s.shown
  | list items => '[' :: commas (shownList items) ++ [']']
  | tuple [x] => '(' :: x.shown ++ [',', ')']
  | tuple items => '(' :: commas (shownList items) ++ [')']
  | dict entries => '\x7b' :: commas (shownEntries entries) ++ ['\x7d']
  | var n v t =>
    "MetaVar(name=".toList ++ n.shown ++ ", value=".toList ++ v.shown ++ ", type=".toList
      ++ t.shown ++ [')']
  | object i t v ms rs gs =>
    "MetaObject(id=".toList ++ (Scalar.text i).shown ++ ", type=".toList ++ (Scalar.text t).shown
      ++ ", value=".toList ++ v.shown ++ ", methods=".toList
      ++ '\x7b' :: commas (ms.map fun (n, _) => (Scalar.text n).shown ++ ": ...".toList)
      ++ '\x7d' :: ", relations=".toList ++ '\x7b' :: commas (shownRelations rs)
      ++ '\x7d' :: ", tags=".toList ++ gs.shown ++ [')']
  | record i fs =>
    "AbstractObject(id=".toList ++ (Scalar.text i).shown ++ ", fields=".toList
      ++ '\x7b' :: commas (shownEntries fs) ++ ['\x7d', ')']
  | ref _ => "...".toList

/-- The items of a sequence, each as it would be written. -/
def shownList : List Value → List (List Char)
  | [] => []
  | x :: xs => x.shown :: shownList xs

/-- The entries of a dictionary, each as it would be written. -/
def shownEntries : List (Value × Value) → List (List Char)
  | [] => []
  | (k, v) :: es => (k.shown ++ ':' :: ' ' :: v.shown) :: shownEntries es

/-- The relations of an object, each as it would be written. -/
def shownRelations : List (String × List Value) → List (List Char)
  | [] => []
  | (kind, xs) :: rs =>
    ((Scalar.text kind).shown ++ ": [".toList ++ commas (shownList xs) ++ [']'])
      :: shownRelations rs

end

mutual

/-- Is no integer in the value too long to be written in decimal? -/
def writable : Value → Bool
  | scalar (.int n) => Number.withinDigitLimit n
  | scalar _ | ref _ => true
  | list items => listWritable items
  | tuple items => listWritable items
  | dict entries => entriesWritable entries
  | var n v t => n.writable && v.writable && t.writable
  | object _ _ v _ rs gs => v.writable && relationsWritable rs && gs.writable
  | record _ fs => entriesWritable fs

/-- Is no integer in the items too long? -/
def listWritable : List Value → Bool
  | [] => true
  | x :: xs => x.writable && listWritable xs

/-- Is no integer in the entries too long? -/
def entriesWritable : List (Value × Value) → Bool
  | [] => true
  | (k, v) :: es => k.writable && v.writable && entriesWritable es

/-- Is no integer in the related entities too long? -/
def relationsWritable : List (String × List Value) → Bool
  | [] => true
  | (_, xs) :: rs => listWritable xs && relationsWritable rs

end

/-- The text of a value that names a field: a text as it is, anything else as it would be
    written. -/
def nameText : Value → String
  | text s => s
  | v => String.ofList v.shown

end LetTag.Value
