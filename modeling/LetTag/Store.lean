/-
  The store: places for what can be shared and changed.

  While a script runs, lists and objects live here and values point to them, so that two names can
  stand for one list and a change shows through both.  A place holds a value of which only the
  outermost part belongs to it; lists inside it have places of their own.  `place` takes a value
  without pointers apart into places, and `expand` puts it together again.  An expanded value is
  what the rest of the library works with.
-/
import LetTag.Value

namespace LetTag

/-- The contents of the places, by number. -/
structure Store where
  cells : Array Value
  deriving Inhabited

namespace Store

/-- A store without places. -/
def empty : Store :=
  ⟨#[]⟩

/-- A new place with that content. -/
def alloc (content : Value) : StateM Store Value :=
  fun s => (.ref s.cells.size, ⟨s.cells.push content⟩)

/-- What a value points to, or the value itself if it points to nothing. -/
def content (s : Store) : Value → Value
  | .ref a => s.cells.getD a .null
  | v => v

/-- The store with another content in one place. -/
def set (s : Store) (place : Nat) (content : Value) : Store :=
  ⟨s.cells.setIfInBounds place content⟩

end Store

namespace Value

/-! ## Taking a value apart -/

mutual

/-- The value with every list and object moved to a place of its own. -/
def place : Value → StateM Store Value
  | list items => do Store.alloc (list (← placeList items))
  | tuple items => return tuple (← placeList items)
  | dict entries => return dict (← placeEntries entries)
  | var n v t => return var n (← v.place) t
  | object i t v ms rs gs => do
    let v ← v.place
    let rs ← placeRelations rs
    let gs ← gs.place
    Store.alloc (object i t v ms rs gs)
  | record i fs => return record i (← placeEntries fs)
  | v => return v

/-- The items, each taken apart. -/
def placeList : List Value → StateM Store (List Value)
  | [] => return []
  | x :: xs => do
    let y ← x.place
    let ys ← placeList xs
    return y :: ys

/-- The entries with their values taken apart; keys hold nothing that can change. -/
def placeEntries : List (Value × Value) → StateM Store (List (Value × Value))
  | [] => return []
  | (k, v) :: es => do
    let w ← v.place
    let rest ← placeEntries es
    return (k, w) :: rest

/-- The related entities, each taken apart. -/
def placeRelations : List (String × List Value) → StateM Store (List (String × List Value))
  | [] => return []
  | (kind, xs) :: rs => do
    let ys ← placeList xs
    let rest ← placeRelations rs
    return (kind, ys) :: rest

end

/-! ## Putting it together -/

mutual

/-- The value with every pointer replaced. -/
def resolve (f : Nat → Value) : Value → Value
  | ref a => f a
  | list items => list (resolveList f items)
  | tuple items => tuple (resolveList f items)
  | dict entries => dict (resolveEntries f entries)
  | var n v t => var n (v.resolve f) t
  | object i t v ms rs gs =>
    object i t (v.resolve f) ms (resolveRelations f rs) (gs.resolve f)
  | record i fs => record i (resolveEntries f fs)
  | scalar s => scalar s

/-- The items with every pointer replaced. -/
def resolveList (f : Nat → Value) : List Value → List Value
  | [] => []
  | x :: xs => x.resolve f :: resolveList f xs

/-- The entries with every pointer in their values replaced. -/
def resolveEntries (f : Nat → Value) : List (Value × Value) → List (Value × Value)
  | [] => []
  | (k, v) :: es => (k, v.resolve f) :: resolveEntries f es

/-- The relations with every pointer replaced. -/
def resolveRelations (f : Nat → Value) : List (String × List Value) → List (String × List Value)
  | [] => []
  | (kind, xs) :: rs => (kind, resolveList f xs) :: resolveRelations f rs

end
end Value

namespace Store

/-- The value with pointers followed to the given depth. -/
def expandTo (s : Store) : Nat → Value → Value
  | 0, v => v
  | n + 1, v => v.resolve fun a => s.expandTo n (s.content (.ref a))

/-- The value with all pointers followed; no chain of them is longer than the store, unless a value
    contains itself. -/
def expand (s : Store) (v : Value) : Value :=
  s.expandTo (s.cells.size + 1) v

end Store

namespace Value

mutual

/-- Is no pointer left in the value?  After an expansion there is one exactly if something in it
    contains itself. -/
def isWhole : Value → Bool
  | ref _ => false
  | list items => listWhole items
  | tuple items => listWhole items
  | dict entries => entriesWhole entries
  | var _ v _ => v.isWhole
  | object _ _ v _ rs gs => v.isWhole && relationsWhole rs && gs.isWhole
  | record _ fs => entriesWhole fs
  | scalar _ => true

/-- Is none left in the items? -/
def listWhole : List Value → Bool
  | [] => true
  | x :: xs => x.isWhole && listWhole xs

/-- Is none left in the values of the entries? -/
def entriesWhole : List (Value × Value) → Bool
  | [] => true
  | (_, v) :: es => v.isWhole && entriesWhole es

/-- Is none left in the related entities? -/
def relationsWhole : List (String × List Value) → Bool
  | [] => true
  | (_, xs) :: rs => listWhole xs && relationsWhole rs

end
end Value
end LetTag
