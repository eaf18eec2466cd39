/-
  Parts of values: what stands under an index or a key.

  Sequences are indexed by integers, from the end if these are negative.  Dictionaries are asked for
  keys, and objects for the names of their fields.
-/
import LetTag.Script.Machine

namespace LetTag.Script

open Number

/-- The integer that a value stands for where a count or an index is wanted. -/
def times? : Value → Option Int
  | .int n => some n
  | .bool b => some (if b then 1 else 0)
  | _ => none

/-- Is the integer in the range of an index? -/
def isIndex (n : Int) : Bool :=
  -(twoTo 63) ≤ n && n < twoTo 63

/-- How many items a sequence can have at most. -/
def itemLimit : Nat := twoTo 32

/-- The item at an index; a negative one counts from the end. -/
def itemAt {α : Type} (sequence : String) (xs : List α) (index : Value) : Work α := do
  match times? index with
  | none => fail (.wrongIndex sequence index.typeName)
  | some i =>
    let place := if i < 0 then i + xs.length else i
    if !isIndex i then fail .hugeIndex
    else match if place < 0 then none else xs[place.toNat]? with
      | some x => return x
      | none => fail (.indexOutOfRange sequence)

/-- The part of a value under an index or key. -/
def subscripted (v index : Value) : Work Value := do
  let i ← view index
  match ← view v with
  | .list xs => itemAt "list" xs i
  | .tuple xs => itemAt "tuple" xs i
  | .text s => return .text (String.singleton (← itemAt "str" s.toList i))
  | .scalar (.bytes bs) => return .int (← itemAt "bytes" bs i).toNat
  | .dict es =>
    let k ← whole index
    match k.unhashable?, Value.find? k es with
    | some t, _ => fail (.unhashable t)
    | none, some w => return w
    | none, none => fail (.missingKey (.ofWritten k.written))
  | .object _ _ _ _ rs _ => return Value.member (← get).store.content (← whole index) rs
  | w => fail (.notSubscriptable w.typeName)

end LetTag.Script
