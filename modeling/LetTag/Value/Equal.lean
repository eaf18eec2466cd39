/-
  Equality and order of values, and dictionaries as lists of entries.

  Numbers are equal by value whatever their kind, so `1`, `1.0` and `True` are one key.  A
  dictionary keeps its entries in the order in which the keys first came; a later entry under an
  equal key changes the value and neither the place nor the form of the key.
-/
import LetTag.Value

namespace LetTag.Value

/-! ## Equality -/

/-- Are both scalars different even from themselves?  Among the parts of two values such a number
    counts as the same. -/
def undefinedAlike : Value → Value → Bool
  | scalar s, scalar t => s.typeName == t.typeName && !s.equal s && !t.equal t
  | _, _ => false

/-- Are two operations the same? -/
def sameMethod : Method → Method → Bool
  | .closure c, .closure d => c.parameters == d.parameters && c.source == d.source
  | .reference a, .reference b => a == b
  | _, _ => false

/-- Are two tables of operations the same, in whatever order? -/
def sameMethods (a b : List (String × Method)) : Bool :=
  a.length == b.length && a.all fun (n, m) => (b.lookup n).any (sameMethod m)

mutual

/-- Are two values equal?  Numbers are compared by value, sequences and entities part by part, and
    dictionaries without regard to order. -/
def equal : Value → Value → Bool
  | scalar s, scalar t => s.equal t
  | list xs, list ys => listEqual xs ys
  | tuple xs, tuple ys => listEqual xs ys
  | dict es, dict fs => es.length == fs.length && entriesWithin es fs
  | var n v t, var n' v' t' => n.equal n' && v.equal v' && t.equal t'
  | object i t v ms rs gs, object i' t' v' ms' rs' gs' =>
    i == i' && t == t' && v.equal v' && sameMethods ms ms' && rs.length == rs'.length
      && relationsWithin rs rs' && gs.equal gs'
  | record i fs, record i' fs' => i == i' && fs.length == fs'.length && entriesWithin fs fs'
  | ref a, ref b => a == b
  | _, _ => false

/-- Equality item by item. -/
def listEqual : List Value → List Value → Bool
  | [], [] => true
  | x :: xs, y :: ys => (x.equal y || undefinedAlike x y) && listEqual xs ys
  | _, _ => false

/-- Does the other dictionary have every entry of this one? -/
def entriesWithin : List (Value × Value) → List (Value × Value) → Bool
  | [], _ => true
  | (k, v) :: es, fs =>
    (fs.find? fun f => k.equal f.1 || undefinedAlike k f.1).any
        (fun f => v.equal f.2 || undefinedAlike v f.2)
      && entriesWithin es fs

/-- Does the other object have every relation of this one? -/
def relationsWithin : List (String × List Value) → List (String × List Value) → Bool
  | [], _ => true
  | (kind, xs) :: rs, others => (others.lookup kind).any (fun ys => listEqual xs ys)
      && relationsWithin rs others

end

mutual

/-- The type that keeps a value from being a key of a dictionary, if there is one. -/
def unhashable? : Value → Option String
  | scalar _ => none
  | tuple items => listUnhashable? items
  | v => some v.typeName

/-- The first such type among the items. -/
def listUnhashable? : List Value → Option String
  | [] => none
  | x :: xs => match x.unhashable? with
    | some t => some t
    | none => listUnhashable? xs

end

/-! ## Dictionaries as lists of entries -/

/-- The value under a key. -/
def find? (key : Value) (entries : List (Value × Value)) : Option Value :=
  (entries.find? fun e => e.1.equal key || undefinedAlike e.1 key).map Prod.snd

/-- The entries with `value` under `key`: a key that is there keeps its place and its form. -/
def put (key value : Value) : List (Value × Value) → List (Value × Value)
  | [] => [(key, value)]
  | (k, v) :: es => if k.equal key then (k, value) :: es else (k, v) :: put key value es

/-- The dictionary that a list of entries writes, later entries over earlier ones. -/
def ofEntries (entries : List (Value × Value)) : List (Value × Value) :=
  entries.foldl (fun acc (k, v) => put k v acc) []

/-- The value under a text. -/
def lookup? (key : String) (entries : List (Value × Value)) : Option Value :=
  find? (text key) entries

/-- The value under a text if the value is a dictionary that has it. -/
def field? (key : String) : Value → Option Value
  | dict entries => lookup? key entries
  | _ => none

/-! ## Fields of an object -/

/-- The kind of relation that holds the fields of an object. -/
def fieldKind : String := "field"

/-- The value of the first field with that name; `content` says what a member of a relation points
    to. -/
def member (content : Value → Value) (name : Value) (relations : List (String × List Value)) :
    Value :=
  let members := (relations.lookup fieldKind).getD []
  (members.findSome? fun m => match content m with
    | var n v _ => if n.equal name then some v else none
    | _ => none).getD null

/-! ## Order -/

/-- How two texts, or two lists of bytes, compare. -/
def compareLists {α : Type} (cmp : α → α → Ordering) : List α → List α → Ordering
  | [], [] => .eq
  | [], _ :: _ => .lt
  | _ :: _, [] => .gt
  | x :: xs, y :: ys => (cmp x y).then (compareLists cmp xs ys)

mutual

/-- Does `op` hold of two values?  Numbers compare with numbers, texts with texts, and sequences of
    one kind by their first difference; anything else is an error, which names the two types. -/
def ordered (op : Script.OrderOp) : Value → Value → Except (String × String) Bool
  | scalar (.text s), scalar (.text t) =>
    .ok (op.holds (compareLists (fun a b => compare a.toNat b.toNat) s.toList t.toList))
  | scalar (.bytes s), scalar (.bytes t) =>
    .ok (op.holds (compareLists (fun a b => compare a.toNat b.toNat) s t))
  | scalar s, scalar t => match s.numeric?, t.numeric? with
    | some (.complex ..), _ | _, some (.complex ..) | none, _ | _, none =>
      .error (s.typeName, t.typeName)
    | some x, some y => .ok ((x.compare? y).any op.holds)
  | list xs, list ys => listOrdered op xs ys
  | tuple xs, tuple ys => listOrdered op xs ys
  | a, b => .error (a.typeName, b.typeName)

/-- The order of two sequences: that of the first items that differ, or else of the lengths. -/
def listOrdered (op : Script.OrderOp) : List Value → List Value → Except (String × String) Bool
  | x :: xs, y :: ys =>
    if x.equal y || undefinedAlike x y then listOrdered op xs ys else x.ordered op y
  | xs, ys => .ok (op.holds (compare xs.length ys.length))

end

end LetTag.Value
