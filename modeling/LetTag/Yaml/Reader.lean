/-
  Values from YAML text.

  A text holds one document or none.  Plain scalars are read for what they mean, quoted ones as
  text.  Of entries with equal keys the last one counts, in the place of the first; the entries of
  mappings under the key `<<` come before a mapping's own.  Keys must be scalars.  Dates are not
  read.
-/
import LetTag.Value.Equal
import LetTag.Yaml.Node
import LetTag.Yaml.Plain

namespace LetTag.Yaml

/-- The value of a plain scalar. -/
def plainValue (s : List Char) : Except ReadError Value :=
  match Plain.of s with
  | .null => .ok .null
  | .bool b => .ok (.bool b)
  | .int => match integer? s with
    | some n => .ok (.int n)
    | none => .error .badNumber
  | .float => match float? s with
    | some x => .ok (.scalar (.float x))
    | none => .error .outOfRange
  | .text => .ok (.text (String.ofList s))
  | .merge | .default | .date => .error .malformed

/-! ## Which error counts -/

/-- Something that is read, or the error that keeps it from being read and its level in the tree.
    Trees are read level by level. -/
abbrev Levelled (α : Type) := Except (Nat × ReadError) α

namespace Levelled

/-- The outcome at a level. -/
def ofLevel {α : Type} (level : Nat) : Except ReadError α → Levelled α
  | .ok a => .ok a
  | .error e => .error (level, e)

/-- Both of two things; of two errors the one of the higher level counts, or else the first. -/
def both {α β γ : Type} (f : α → β → γ) : Levelled α → Levelled β → Levelled γ
  | .ok a, .ok b => .ok (f a b)
  | .error e, .error g => .error (if g.1 < e.1 then g else e)
  | .error e, .ok _ => .error e
  | .ok _, .error g => .error g

end Levelled

namespace Node

/-! ## Keys -/

/-- Is the node the key under which entries are merged? -/
def isMerge : Node → Bool
  | scalar true s => Plain.of s == .merge
  | _ => false

/-- The value of a key. -/
def keyOf : Node → Except ReadError Value
  | scalar true ['='] => .ok (.text "=")
  | scalar plain s => if plain then plainValue s else .ok (.text (String.ofList s))
  | _ => .error .malformed

/-- Is everything under the key of merging a mapping or a sequence of mappings? -/
def mergeable : List (Node × Node) → Bool
  | [] => true
  | (k, v) :: es => (!k.isMerge || isSource v) && mergeable es
where
  /-- Can entries be taken from the node? -/
  isSource : Node → Bool
    | mapping es => mergeable es
    | sequence items => allSources items
    | scalar .. => false
  /-- Are these mappings from which entries can be taken? -/
  allSources : List Node → Bool
    | [] => true
    | mapping es :: rest => mergeable es && allSources rest
    | _ => false

/-- The entries, each key with its last value.  What is not a number counts as one key. -/
def distinctEntries (entries : List (Value × Value)) : List (Value × Value) :=
  entries.foldl (fun acc (k, v) =>
    if Value.undefinedAlike k k && acc.any fun e => Value.undefinedAlike e.1 k then
      acc.map fun e => if Value.undefinedAlike e.1 k then (e.1, v) else e
    else Value.put k v acc) []

/-! ## Values -/

mutual

/-- The value of a node at a level. -/
def toValue (level : Nat) : Node → Levelled Value
  | scalar plain s =>
    .ofLevel level (if plain then plainValue s else .ok (.text (String.ofList s)))
  | sequence items => (toValues (level + 1) items).map .list
  | mapping entries =>
    if mergeable entries then
      (Levelled.both (· ++ ·) (mergedEntries (level + 1) entries)
        (ownEntries (level + 1) entries)).map fun es => .dict (distinctEntries es)
    else .error (level + 1, .malformed)

/-- The values of nodes. -/
def toValues (level : Nat) : List Node → Levelled (List Value)
  | [] => .ok []
  | x :: xs => .both (· :: ·) (toValue level x) (toValues level xs)

/-- The entries of a mapping itself. -/
def ownEntries (level : Nat) : List (Node × Node) → Levelled (List (Value × Value))
  | [] => .ok []
  | (k, v) :: es =>
    if k.isMerge then ownEntries level es
    else .both (· :: ·) (.both Prod.mk (.ofLevel level (keyOf k)) (toValue level v))
      (ownEntries level es)

/-- The entries that a mapping takes over from others. -/
def mergedEntries (level : Nat) : List (Node × Node) → Levelled (List (Value × Value))
  | [] => .ok []
  | (k, v) :: es =>
    if k.isMerge then .both (· ++ ·) (entriesOf level v) (mergedEntries level es)
    else mergedEntries level es

/-- All entries of a mapping, or those of several, the first of which come last. -/
def entriesOf (level : Nat) : Node → Levelled (List (Value × Value))
  | mapping es => .both (· ++ ·) (mergedEntries level es) (ownEntries level es)
  | sequence items => entriesOfAll level items
  | scalar .. => .error (level, .malformed)

/-- The entries of mappings, the last mapping first. -/
def entriesOfAll (level : Nat) : List Node → Levelled (List (Value × Value))
  | [] => .ok []
  | mapping es :: rest =>
    .both (· ++ ·) (entriesOfAll level rest)
      (.both (· ++ ·) (mergedEntries level es) (ownEntries level es))
  | _ => .error (level, .malformed)

end
end Node

/-- The value of the document in a text; null if there is none. -/
def read (s : List Char) : Except ReadError Value := do
  match Node.ofTokens? (← tokens s) with
  | some (some node) => (node.toValue 0).mapError Prod.snd
  | some none => .ok .null
  | none => .error .malformed

end LetTag.Yaml
