/-
  Runs that only add to the store.

  Much of what scripts do makes new places in the store, and nearly nothing changes one that was there
  before.  `Adds` says of a run that whatever was in the store is there behind it, however the run ends
  (`Store.Extends`).  It is kept by sequencing (`Adds.bind`), and so there is one lemma for each operator,
  function and method of values, with the proof following the steps of its definition.

  Four things are missing here, since they do change places: `+=` and `*=` on a list, the method `append`,
  and the method `tag`.  What is said of scripts without them is in `LetTag.Proofs.Stillness`.
-/
import LetTag.Proofs.Expansion
import LetTag.Proofs.Renaming

namespace LetTag

namespace Script

/-! ## Runs that add to it -/

/-- The run leaves what is in the store as it is. -/
def Adds {σ α : Type} (store : σ → Store) (r : ExceptT Stop (StateM σ) α) : Prop :=
  ∀ m, (store m).Extends (store (r m).2)

/-- The work leaves what is in the store as it is. -/
abbrev Work.Adds {α : Type} (w : Work α) : Prop :=
  Script.Adds World.store w

/-- The run leaves what is in the store of the machine as it is. -/
abbrev Run.Adds {α : Type} (r : Run α) : Prop :=
  Script.Adds (fun m : Machine => m.store) r

namespace Adds

section

variable {σ α β : Type} {store : σ → Store} {r : ExceptT Stop (StateM σ) α}
  {f : α → ExceptT Stop (StateM σ) β}

theorem pure (x : α) : Adds store (Pure.pure x : ExceptT Stop (StateM σ) α) :=
  fun m => .refl (store m)

theorem throw (e : Stop) : Adds store (MonadExcept.throw e : ExceptT Stop (StateM σ) α) :=
  fun m => .refl (store m)

/-- What comes second may rely on what the first has left alone. -/
theorem bind_at {m : σ} (h : (store m).Extends (store (r m).2))
    (hf : ∀ x m', (store m).Extends (store m') → (store m').Extends (store (f x m').2)) :
    (store m).Extends (store ((r >>= f) m).2) := by
  rw [bind_apply]
  cases hr : r m with
  | mk outcome m' =>
    rw [hr] at h
    cases outcome with
    | ok x => exact h.trans (hf x m' h)
    | error e => exact h

/-- Two runs that add, one behind the other, add. -/
theorem bind (h : Adds store r) (hf : ∀ x, Adds store (f x)) : Adds store (r >>= f) :=
  fun m => bind_at (h m) fun x m' _ => hf x m'

theorem ite {c : Prop} [Decidable c] {r' : ExceptT Stop (StateM σ) α} (h : Adds store r)
    (h' : Adds store r') : Adds store (if c then r else r') := by
  split
  · exact h
  · exact h'

theorem map (g : α → β) (h : Adds store r) : Adds store (g <$> r) :=
  bind h fun x => pure (g x)

/-- Whatever adds for each item of a list adds for the whole list. -/
theorem mapM (h : ∀ x, Adds store (f x)) (xs : List α) : Adds store (xs.mapM f) := by
  induction xs with
  | nil =>
    rw [List.mapM_nil]
    exact pure []
  | cons x xs ih =>
    rw [List.mapM_cons]
    exact bind (h x) fun y => bind ih fun ys => pure (y :: ys)

theorem foldlM {g : β → α → ExceptT Stop (StateM σ) β} (h : ∀ y x, Adds store (g y x))
    (xs : List α) : ∀ y, Adds store (xs.foldlM g y) := by
  induction xs with
  | nil => exact fun y => pure y
  | cons x xs ih => exact fun y => bind (h y x) ih

end

/-- Work that adds is a run that adds: the local names are no part of the store. -/
theorem lift {α : Type} {w : Work α} (h : w.Adds) : Run.Adds w.lift :=
  fun m => h m.toWorld

/-- A run with local names of its own adds if it does with any. -/
theorem within {α : Type} {r : Run α} (h : r.Adds) (scope : List String) (locals : Table Value) :
    Work.Adds (r.within scope locals) :=
  fun world => h ⟨world, scope, locals⟩

/-! ## Steps -/

theorem fail {α : Type} (f : Fault) : (Script.fail f : Work α).Adds :=
  throw (.fault f)

/-- A check, and then the rest. -/
theorem guarded {α : Type} {c : Prop} [Decidable c] {f : Fault} {rest : Unit → Work α}
    (h : (rest ()).Adds) : Work.Adds (if c then Script.fail f >>= rest else rest ()) :=
  ite (bind (fail f) fun _ => h) h

theorem ofExcept {α : Type} (e : Except Fault α) : (Script.ofExcept e).Adds := by
  cases e with
  | ok a => exact pure a
  | error f => exact fail f

theorem view (v : Value) : (Script.view v).Adds :=
  fun m => .refl m.store

theorem whole (v : Value) : (Script.whole v).Adds :=
  fun m => .refl m.store

/-- A new list stands in a place of its own, behind all others. -/
theorem newList (items : List Value) : (Script.newList items).Adds :=
  fun m => .alloc m.store (.list items)

theorem ofWriting (e : Except Json.WriteError (List Char)) : (Script.ofWriting e).Adds := by
  cases e with
  | ok s => exact pure s
  | error e => exact fail _

theorem displayed (v : Value) : (Script.displayed v).Adds :=
  bind (whole v) fun _ => bind (ofWriting _) fun _ => pure _

theorem lookupName (name : String) : Run.Adds (Script.lookupName name) := by
  intro m
  rw [lookupName_apply]
  exact .refl m.store

/-- Names are no part of the store, so setting one leaves it alone. -/
theorem assignName (name : String) (value : Value) : Run.Adds (Script.assignName name value) := by
  intro m
  show m.store.Extends
    (if m.scope.contains name then { m with locals := Table.put name value m.locals }
      else { m with globals := Table.put name value m.globals } : Machine).store
  split
  · exact .refl m.store
  · exact .refl m.store

/-- The items of a value are read, and a loop over an object that never ends has changed nothing. -/
theorem itemsOf (v : Value) : (Script.itemsOf v).Adds :=
  bind (view v) fun w => by
    split
    all_goals first | exact pure _ | exact throw _

theorem itemAt {α : Type} (sequence : String) (xs : List α) (index : Value) :
    (Script.itemAt sequence xs index).Adds := by
  unfold Script.itemAt
  split
  · exact fail _
  · dsimp only
    split
    · exact fail _
    · split
      · exact pure _
      · exact fail _

/-- A subscript reads, whatever it is applied to. -/
theorem subscripted (v index : Value) : (Script.subscripted v index).Adds :=
  bind (view index) fun i => bind (view v) fun w => by
    split
    · exact itemAt "list" _ i
    · exact itemAt "tuple" _ i
    · exact bind (itemAt "str" _ i) fun _ => pure _
    · exact bind (itemAt "bytes" _ i) fun _ => pure _
    · refine bind (whole index) fun k => ?_
      split
      · exact fail _
      · exact pure _
      · exact fail _
    · exact fun m => .refl m.store
    · exact fail _

/-! ## Texts with slots -/

theorem padded (slot : Slot) (pad : Slot → List Char → List Char) (s : List Char) :
    (slot.padded pad s).Adds := by
  unfold Slot.padded
  split
  · exact fail _
  · exact pure _

theorem integer (slot : Slot) (v : Value) : (slot.integer v).Adds := by
  unfold Slot.integer
  dsimp only
  split
  · exact pure _
  · split
    · exact fail _
    · exact ofExcept _
  · exact fail _

theorem integerText (slot : Slot) (n : Int) : (slot.integerText n).Adds :=
  guarded (pure _)

theorem floatText (slot : Slot) (v : Value) : (slot.floatText v).Adds := by
  unfold Slot.floatText
  dsimp only
  split
  · split
    · exact bind (fail _) fun _ => pure _
    · exact bind (fail _) fun _ => pure _
    · exact bind (ofExcept _) fun _ => pure _
  · exact bind (fail _) fun _ => pure _

theorem charFrom (v : Value) : (Script.charFrom v).Adds := by
  unfold Script.charFrom
  split
  · split
    · exact pure _
    · exact fail _
  · exact ite (pure _) (fail _)
  · exact fail _

theorem text (slot : Slot) (index : Nat) (v : Value) : (slot.text index v).Adds :=
  bind (view v) fun w => by
    have hinteger : Adds World.store (do
        slot.padded Slot.padNumber (← slot.integerText (← slot.integer w))) :=
      bind (integer slot w) fun n => bind (integerText slot n) fun s => padded slot _ s
    have hfloat : Adds World.store (do slot.padded Slot.padNumber (← slot.floatText w)) :=
      bind (floatText slot w) fun s => padded slot _ s
    split
    · exact bind (displayed v) fun _ => padded slot _ _
    · exact bind (whole v) fun _ => bind (ofWriting _) fun _ => padded slot _ _
    · exact bind (whole v) fun _ => bind (ofWriting _) fun _ => padded slot _ _
    all_goals first | exact hinteger | exact hfloat | skip
    · exact bind (charFrom w) fun _ => padded slot _ _
    · exact fail _

theorem takeValue (f : Filling) : f.takeValue.Adds := by
  unfold Filling.takeValue
  split
  · exact pure _
  · exact fail _

theorem lookUp (f : Filling) : f.lookUp.Adds := by
  unfold Filling.lookUp
  split
  · exact fail _
  · split
    · exact fail _
    · exact bind (subscripted _ _) fun _ => pure _
  · exact pure _

theorem measure (f : Filling) (name type : String) (limit : Nat) :
    (f.measure name type limit).Adds := by
  unfold Filling.measure
  split
  · refine bind (takeValue f) fun taken => bind (view taken.1) fun w => ?_
    split
    · exact fail _
    · exact guarded (pure _)
  · split
    · exact pure _
    · exact guarded (pure _)

theorem slot (f : Filling) : f.slot.Adds := by
  refine bind (lookUp f) fun f => bind (measure _ _ _ _) fun width => ?_
  dsimp only
  split
  · refine bind (measure _ _ _ _) fun precision => bind (pure _) fun _ => ?_
    split
    · exact fail _
    · exact pure _
  · refine bind (pure _) fun _ => ?_
    split
    · exact fail _
    · exact pure _

theorem run (length : Nat) : ∀ (n : Nat) (f : Filling), (Filling.run length n f).Adds
  | 0, _ => pure []
  | n + 1, f => by
    unfold Filling.run
    split
    · exact ite (pure _) (fail _)
    · exact bind (run length n _) fun _ => pure _
    · exact bind (slot _) fun _ => bind (takeValue _) fun _ => bind (text _ _ _) fun _ =>
        bind (run length n _) fun _ => pure _
    · exact bind (run length n _) fun _ => pure _

/-- Filling a pattern with values reads these values and makes a text. -/
theorem fill (s : List Char) (v : Value) : (Script.fill s v).Adds :=
  bind (view v) fun _ => run s.length (s.length + 1) _

/-! ## Operators -/

theorem repetitions (length : Nat) (surplus : Fault) (times : Value) :
    (Script.repetitions length surplus times).Adds := by
  unfold Script.repetitions
  split
  · exact fail _
  · exact ite (fail _) (ite (fail _) (ite (fail _) (pure _)))

theorem repeatSequence (sequence times : Value) : (Script.repeatSequence sequence times).Adds := by
  unfold Script.repeatSequence
  split
  · exact bind (repetitions _ _ times) fun _ => pure _
  · exact bind (repetitions _ _ times) fun _ => pure _
  · exact bind (repetitions _ _ times) fun _ => pure _
  · exact bind (repetitions _ _ times) fun _ => newList _
  · exact pure _

/-- Two lists that are joined make a new one; neither of them grows. -/
theorem concatenate (left right : Value) : (Script.concatenate left right).Adds := by
  unfold Script.concatenate
  split
  · exact pure _
  · exact pure _
  · exact pure _
  · exact newList _
  · exact fail _

/-- Operators on two operands make new values; a list is changed in its place by other operators only.
    -/
theorem operate (op : BinaryOp) (sign : String) (left right : Value) :
    (Script.operate op sign left right).Adds :=
  bind (view left) fun l => bind (view right) fun r => by
    dsimp only
    split
    · exact bind (ofExcept _) fun _ => pure _
    · split
      · exact ite (concatenate l r) (fail _)
      · exact ite (repeatSequence l r) (ite (repeatSequence r l) (fail _))
      · split
        · exact bind (fill _ r) fun _ => pure _
        · exact fail _
      · exact fail _

theorem binary (op : BinaryOp) (left right : Value) : (Script.binary op left right).Adds :=
  operate op _ left right

/-- A sign in front of a value makes a new number. -/
theorem unary (op : UnaryOp) (v : Value) : (Script.unary op v).Adds :=
  bind (view v) fun w => by
    dsimp only
    split
    all_goals first | exact pure _ | exact fail _

theorem areEqual (a b : Value) : (Script.areEqual a b).Adds := by
  have hwhole : Adds World.store (do return (← Script.whole a).equal (← Script.whole b)) :=
    bind (whole a) fun _ => bind (whole b) fun _ => pure _
  unfold Script.areEqual
  split
  · exact ite (pure _) hwhole
  · exact hwhole

theorem isAmong (v : Value) (xs : List Value) : (Script.isAmong v xs).Adds := by
  induction xs with
  | nil => exact pure false
  | cons x xs ih => exact bind (areEqual x v) fun _ => ite (pure true) ih

/-- Looking for a value in another one reads them. -/
theorem contains (item container : Value) : (Script.contains item container).Adds :=
  bind (view container) fun w => by
    split
    · exact isAmong item _
    · exact isAmong item _
    · refine bind (whole item) fun k => ?_
      split
      · exact fail _
      · exact pure _
    · refine bind (view item) fun v => ?_
      split
      · exact pure _
      · exact fail _
    · refine bind (view item) fun v => ?_
      split
      · exact pure _
      · exact pure _
      · exact fail _
    · split
      · exact pure _
      · exact throw _
    · exact fail _

theorem compared (op : CompareOp) (a b : Value) : (Script.compared op a b).Adds := by
  unfold Script.compared
  split
  · exact bind (areEqual a b) fun _ => pure _
  · exact pure _
  · exact bind (contains a b) fun _ => pure _
  · refine bind (whole a) fun v => bind (whole b) fun w => ?_
    split
    · exact pure _
    · exact fail _

/-! ## Predefined functions -/

theorem noKeywords (function : String) (keys : List (String × Value)) :
    (Script.noKeywords function keys).Adds :=
  ite (pure ()) (fail _)

theorem oneArgument (function : String) (args : List Value) :
    (Script.oneArgument function args).Adds := by
  unfold Script.oneArgument
  split
  · exact pure _
  · exact fail _

theorem atMostOne (function : String) (args : List Value) :
    (Script.atMostOne function args).Adds := by
  unfold Script.atMostOne
  split
  · exact pure _
  · exact pure _
  · exact fail _

/-- Finding out which argument is meant for which parameter changes nothing. -/
theorem bindNamed (function : String) (parameters : List String) (args : List Value)
    (keys : List (String × Value)) : (Script.bindNamed function parameters args keys).Adds := by
  unfold Script.bindNamed
  refine ite (fail _) ?_
  split
  · exact fail _
  · split
    · exact fail _
    · exact pure _

/-- The items that a function reads are those of a loop. -/
theorem readItems (v : Value) : (Script.readItems v).Adds :=
  bind (view v) fun w => by
    split
    · exact pure _
    · exact itemsOf v

theorem integerOf (base : Nat) (s shown : List Char) : (Script.integerOf base s shown).Adds := by
  unfold Script.integerOf
  split
  · exact pure _
  · exact fail _
  · exact fail _

theorem toInteger (v : Value) : (Script.toInteger v).Adds := by
  unfold Script.toInteger
  split
  · exact pure _
  · exact pure _
  · exact bind (ofExcept _) fun _ => pure _
  · exact integerOf 10 _ _
  · exact integerOf 10 _ _
  · exact fail _

theorem toIntegerIn (v base : Value) : (Script.toIntegerIn v base).Adds := by
  unfold Script.toIntegerIn
  split
  · exact fail _
  · refine ite (fail _) ?_
    split
    · exact integerOf _ _ _
    · exact integerOf _ _ _
    · exact fail _

theorem textArgument (function name : String) (given : Option Value) :
    (Script.textArgument function name given).Adds := by
  cases given with
  | none => exact pure none
  | some v =>
    refine bind (view v) fun w => ?_
    split
    · exact pure _
    · exact fail _

theorem decoded (v : Value) : (Script.decoded v).Adds := by
  unfold Script.decoded
  split
  · split
    · exact pure _
    · exact fail _
  · exact fail _
  · exact fail _

theorem toText (args : List Value) (keys : List (String × Value)) :
    (Script.toText args keys).Adds :=
  bind (bindNamed "str" _ args keys) fun given => bind (textArgument "str" "encoding" _) fun _ =>
    bind (textArgument "str" "errors" _) fun _ => by
      split
      · exact pure _
      · exact bind (displayed _) fun _ => pure _
      · exact bind (view _) fun _ => decoded _

theorem toWhole (args : List Value) (keys : List (String × Value)) :
    (Script.toWhole args keys).Adds :=
  bind (bindNamed "int" _ args keys) fun given => by
    split
    · exact pure _
    · exact bind (view _) fun _ => toInteger _
    · exact bind (view _) fun _ => bind (view _) fun _ => toIntegerIn _ _
    · exact fail _

theorem lengthOf (v : Value) : (Script.lengthOf v).Adds :=
  bind (view v) fun w => by
    split
    all_goals first | exact pure _ | exact fail _

theorem absolute (v : Value) : (Script.absolute v).Adds :=
  bind (view v) fun w => by
    dsimp only
    split
    · exact pure _
    · exact pure _
    · exact ite (fail _) (pure _)
    · exact fail _

section

variable {key : Value → Work Value} {call : Value → List Value → Work Value} {self : Callable}

/-- The least or greatest item is found by comparisons, so what the keys are made with decides. -/
theorem extreme (op : OrderOp) (h : ∀ x, (key x).Adds) : ∀ (best : Value × Value) (xs : List Value),
    (Script.extreme op key best xs).Adds
  | _, [] => pure _
  | (best, k), x :: xs => bind (h x) fun l => bind (compared (.order op) l k) fun _ =>
      ite (extreme op h (x, l) xs) (extreme op h (best, k) xs)

/-- A function that gives keys is called. -/
theorem extremeOf (op : OrderOp) (function : String) (h : ∀ f args, (call f args).Adds)
    (args : List Value) (keys : List (String × Value)) :
    (Script.extremeOf op function call args keys).Adds := by
  unfold Script.extremeOf
  extract_lets checked
  refine guarded (bind (bindNamed function _ [] keys) fun given => ?_)
  -- the key of an item, what is done with the items, and how they are come by
  extract_lets otherwise key rest chosen
  have hkey : ∀ x, (key x).Adds := by
    intro x
    unfold key
    split
    · exact pure x
    · exact pure x
    · exact h _ [x]
  clear_value key otherwise
  have hrest : ∀ items, (rest items).Adds := by
    intro items
    unfold rest
    split
    · exact bind (hkey _) fun k => extreme op hkey (_, k) _
    · exact pure _
    · exact fail _
  refine guarded ?_
  unfold chosen
  split
  · exact bind (readItems _) hrest
  · exact bind (pure _) hrest

/-- A sum starts from a value of its own: it joins lists, and extends none. -/
theorem total (start : Value) (items : List Value) : (Script.total start items).Adds :=
  bind (view start) fun w => by
    split
    · exact fail _
    · exact fail _
    · exact foldlM (fun y x => binary .add y x) items start

theorem entryOf (position : Nat) (pair : Value) : (Script.entryOf position pair).Adds := by
  refine bind (view pair) fun w => ?_
  extract_lets rest
  have hrest : ∀ items, (rest items).Adds := by
    intro items
    unfold rest
    split
    · refine bind (whole _) fun k => ?_
      split
      · exact fail _
      · exact pure _
    · exact fail _
  split
  · exact bind (pure _) hrest
  · exact bind (pure _) hrest
  · exact bind (itemsOf _) hrest
  · exact bind (fail _) hrest

/-- The entries of a dictionary are read out of pairs, one behind the other. -/
theorem entriesOf : ∀ (i : Nat) (ps : List Value), (Script.entriesOf i ps).Adds
  | _, [] => pure []
  | i, p :: ps => bind (entryOf i p) fun _ => bind (entriesOf (i + 1) ps) fun _ => pure _

/-- A dictionary made of another one or of pairs is a new value. -/
theorem toDict (args : List Value) (keys : List (String × Value)) :
    (Script.toDict args keys).Adds :=
  bind (atMostOne "dict" args) fun given => by
    dsimp only
    split
    · exact bind (pure _) fun _ => pure _
    · refine bind (view _) fun w => ?_
      split
      · exact bind (pure _) fun _ => pure _
      · exact bind (readItems _) fun _ => bind (entriesOf 0 _) fun _ => pure _

/-- No predefined function changes a place, if the functions that it may call change none. -/
theorem callBuiltinWith (hself : ∀ args keys, (self args keys).Adds)
    (h : ∀ f args, (call f args).Adds) (b : Builtin) (args : List Value)
    (keys : List (String × Value)) : (Script.callBuiltinWith self call b args keys).Adds := by
  cases b with
  | itself => exact hself args keys
  | dict => exact toDict args keys
  | max => exact extremeOf .gt "max" h args keys
  | min => exact extremeOf .lt "min" h args keys
  | sum => exact guarded (bind (bindNamed "sum" _ args keys) fun _ => bind (readItems _) fun _ => total _ _)
  | str => exact toText args keys
  | int => exact toWhole args keys
  | len =>
    exact bind (noKeywords "len" keys) fun _ => bind (oneArgument "len" args) fun v =>
      bind (lengthOf v) fun _ => pure _
  | abs =>
    exact bind (noKeywords "abs" keys) fun _ => bind (oneArgument "abs" args) fun v => absolute v
  | bool =>
    refine bind (noKeywords "bool" keys) fun _ => bind (atMostOne "bool" args) fun given => ?_
    split
    · exact pure _
    · exact bind (view _) fun _ => pure _
  | valueError => exact fail _
  | keyError => exact fail _
  | typeError => exact fail _

/-- The functions that a predefined function may call are predefined, or the function of the script. -/
theorem callBuiltin (hself : ∀ args keys, (self args keys).Adds) (b : Builtin) (args : List Value)
    (keys : List (String × Value)) : (Script.callBuiltin self b args keys).Adds :=
  -- a function among the arguments calls no further ones
  callBuiltinWith hself (fun f args => bind (view f) fun w => by
    split
    · exact callBuiltinWith hself (fun g _ => bind (view g) fun _ => fail _) _ args []
    · exact fail _) b args keys

end

theorem errorText (kind : FaultKind) (args : List Value) : (Script.errorText kind args).Adds := by
  unfold Script.errorText
  split
  · exact pure _
  · exact bind (whole _) fun _ => pure _
  · exact bind (whole _) fun _ => pure _

/-! ## Methods -/

theorem limitOf (v : Value) : (Script.limitOf v).Adds := by
  unfold Script.limitOf
  split
  · exact pure _
  · exact fail _

theorem splitText (s : List Char) (args : List Value) (keys : List (String × Value)) :
    (Script.splitText s args keys).Adds :=
  bind (bindNamed "split" _ args keys) fun given => bind (view _) fun _ => bind (limitOf _) fun _ =>
    bind (view _) fun w => by
      dsimp only
      split
      · exact bind (pure _) fun _ => newList _
      · split
        · exact bind (fail _) fun _ => newList _
        · exact bind (pure _) fun _ => newList _
      · exact bind (fail _) fun _ => newList _

theorem textsOf : ∀ (i : Nat) (xs : List Value), (Script.textsOf i xs).Adds
  | _, [] => pure []
  | i, x :: xs => bind (view x) fun w => by
    split
    · exact bind (textsOf (i + 1) xs) fun _ => pure _
    · exact fail _

/-- Texts do not change, so none of their methods changes anything. -/
theorem callText (s method : String) (args : List Value) (keys : List (String × Value)) :
    (Script.callText s method args keys).Adds := by
  unfold Script.callText
  split
  · exact splitText s.toList args keys
  · refine bind (noKeywords _ keys) fun _ => bind (oneArgument _ args) fun v => bind (view v) fun w => ?_
    have hjoin : Work.Adds (do
        return Value.text (s.intercalate (← Script.textsOf 0 (← Script.itemsOf v)))) :=
      bind (itemsOf v) fun xs => bind (textsOf 0 xs) fun _ => pure _
    split
    all_goals first | exact hjoin | exact fail _
  · refine bind (noKeywords _ keys) fun _ => bind (atMostOne _ args) fun given => ?_
    split
    · exact pure _
    · refine bind (view _) fun w => ?_
      split
      · exact pure _
      · exact pure _
      · exact fail _
  · exact bind (noKeywords _ keys) fun _ => ite (pure _) (fail _)

theorem checkKeywords (function : String) (taken free : List String) (keys : List (String × Value)) :
    (Script.checkKeywords function taken free keys).Adds := by
  unfold Script.checkKeywords
  split
  · exact fail _
  · exact pure ()

/-- Binding arguments to parameters changes nothing, whether it fails or not. -/
theorem bindArguments (function : String) (parameters : List String) (args : List Value)
    (keys : List (String × Value)) : (Script.bindArguments function parameters args keys).Adds := by
  refine bind (checkKeywords function _ _ keys) fun _ => guarded ?_
  split
  · exact pure _
  · exact fail _

theorem keyArgument (object : Value) (args : List Value) (keys : List (String × Value)) :
    (Script.keyArgument object args keys).Adds :=
  bind (bindArguments _ _ _ keys) fun _ => pure _

/-- An attribute is read, and what it points to stays the same. -/
theorem attributeOf (v : Value) (name : String) : (Script.attributeOf v name).Adds :=
  bind (view v) fun w => by
    split
    all_goals first | exact pure _ | exact fail _

end Adds
end Script
end LetTag
