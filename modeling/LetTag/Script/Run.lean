/-
  Running scripts: expressions give values, statements say how to go on.

  Both are recursion on the tree.  Operands are evaluated from left to right; `and`, `or`,
  conditions and chained comparisons evaluate no more than they need.  A loop over a list looks at
  the list again before every turn, so a body that keeps appending to it never ends; after
  `turnLimit` turns the loop is given up as endless.  Values hold no sets, so a run ends at one that
  is written out.
-/
import LetTag.Script.Call

namespace LetTag.Script

/-! ## Expressions -/

/-- The text of a piece of a formatted text. -/
def Piece.shown : Piece → Run String
  | .text s => return s
  | .name n => do displayed (← lookupName n)

/-- The texts of the pieces, one behind the other. -/
def formatted : List Piece → Run String
  | [] => return ""
  | p :: ps => do
    let s ← p.shown
    let t ← formatted ps
    return s ++ t

/-- The entries of a dictionary that is written out. -/
def dictOf (entries : List (Value × Value)) : Work Value := do
  let keys ← entries.mapM fun (k, _) => whole k
  match keys.findSome? Value.unhashable? with
  | some t => fail (.unhashable t)
  | none => return .dict (Value.ofEntries (keys.zip (entries.map Prod.snd)))

/-- Says that a set is written out, which can be no value, or that it could not even be a set. -/
def refuseSet (items : List Value) : Work Value := do
  let members ← items.mapM whole
  match members.findSome? Value.unhashable? with
  | some t => fail (.unhashable t)
  | none => fail .setWritten

/-- Calls a value; `self` is the function of the script. -/
def callValue (self : Callable) (callee : Value) (args : List Value)
    (keys : List (String × Value)) : Work Value := do
  match ← view callee with
  | .scalar (.builtin b) => callBuiltin self b args keys
  | v => fail (.notCallable v.typeName)

mutual

/-- The value of an expression. -/
def eval (self : Callable) : Expr → Run Value
  | .constant s => return .scalar s
  | .name n => lookupName n
  | .formatted ps => return .text (← formatted ps)
  | .tuple es => return .tuple (← evalList self es)
  | .list es => do newList (← evalList self es)
  | .set es => do refuseSet (← evalList self es)
  | .dict es => do dictOf (← evalEntries self es)
  | .unary op e => do unary op (← eval self e)
  | .binary op l r => do
    let x ← eval self l
    let y ← eval self r
    binary op x y
  | .compare e rest => do evalComparisons self (← eval self e) rest
  | .not e => return .bool !(← view (← eval self e)).truthy
  | .and l r => do
    let x ← eval self l
    if (← view x).truthy then eval self r else return x
  | .or l r => do
    let x ← eval self l
    if (← view x).truthy then return x else eval self r
  | .conditional c yes no => do
    if (← view (← eval self c)).truthy then eval self yes else eval self no
  | .attribute e n => do attributeOf (← eval self e) n
  | .subscript e i => do
    let x ← eval self e
    let y ← eval self i
    subscripted x y
  | .call (.attribute e n) args keys => do
    let x ← eval self e
    if (methodsOf (← view x)).contains n then
      let vs ← evalList self args
      let ks ← evalKeywords self keys
      callMethod x n vs ks
    else
      let f ← attributeOf x n
      let vs ← evalList self args
      let ks ← evalKeywords self keys
      callValue self f vs ks
  | .call f args keys => do
    let g ← eval self f
    let vs ← evalList self args
    let ks ← evalKeywords self keys
    callValue self g vs ks

/-- The values of expressions, in order. -/
def evalList (self : Callable) : List Expr → Run (List Value)
  | [] => return []
  | e :: es => do
    let v ← eval self e
    let vs ← evalList self es
    return v :: vs

/-- The values of keys and values, in order. -/
def evalEntries (self : Callable) : List (Expr × Expr) → Run (List (Value × Value))
  | [] => return []
  | (k, v) :: es => do
    let x ← eval self k
    let y ← eval self v
    let rest ← evalEntries self es
    return (x, y) :: rest

/-- The values under keywords, in order. -/
def evalKeywords (self : Callable) : List (String × Expr) → Run (List (String × Value))
  | [] => return []
  | (k, e) :: es => do
    let v ← eval self e
    let rest ← evalKeywords self es
    return (k, v) :: rest

/-- Compares a value with the first operand, that one with the next, and so on while it holds. -/
def evalComparisons (self : Callable) (left : Value) : List (CompareOp × Expr) → Run Value
  | [] => return left
  | (op, e) :: rest => do
    let right ← eval self e
    let holds ← compared op left right
    if rest.isEmpty || !holds then return .bool holds else evalComparisons self right rest

end

/-! ## Statements -/

/-- How a statement says to go on. -/
inductive Flow where
  | next
  | stop
  | skip
  | ret (v : Value)

/-- The items that a value is unpacked into. -/
def unpacked (count : Nat) (v : Value) : Work (List Value) := do
  let items ← match ← view v with
    | .list xs | .tuple xs => pure xs
    | w@(.dict _) | w@(.scalar (.text _)) | w@(.scalar (.bytes _)) => itemsOf w
    | .object .. => fail (.tooManyValues count)
    | w => fail (.notUnpackable w.typeName)
  if items.length > count then fail (.tooManyValues count)
  else if items.length < count then fail (.tooFewValues count items.length)
  else return items

mutual

/-- Assigns a value to a target. -/
def assign : Target → Value → Run Unit
  | .name n, v => assignName n v
  | .tuple ts, v => do assignAll ts (← unpacked ts.length v)

/-- Assigns values to targets one by one. -/
def assignAll : List Target → List Value → Run Unit
  | t :: ts, v :: vs => do
    assign t v
    assignAll ts vs
  | _, _ => return ()

end

/-- Assigns one value to several targets. -/
def assignEach (v : Value) : List Target → Run Unit
  | [] => return ()
  | t :: ts => do
    assign t v
    assignEach v ts

/-- Raises what an expression names: an error class, or one called with arguments. -/
def raised (self : Callable) : Option Expr → Run Flow
  | none => fail .noActiveError
  | some (.call f args keys) => do
    match ← view (← eval self f) with
    | .scalar (.builtin b) => match faultClass? b with
      | some kind => do
        let vs ← evalList self args
        let ks ← evalKeywords self keys
        if ks.isEmpty then fail (.raised kind (← errorText kind vs))
        else fail (.badCall (b.name ++ "() takes no keyword arguments"))
      | none => do
        let _ ← eval self (.call f args keys)
        fail .notAnError
    | _ => do
      let _ ← eval self (.call f args keys)
      fail .notAnError
  | some e => do
    match ← view (← eval self e) with
    | .scalar (.builtin b) => match faultClass? b with
      | some kind => fail (.raised kind (.said ""))
      | none => fail .notAnError
    | _ => fail .notAnError

/-- How many turns a loop over a list may take. -/
def turnLimit : Nat := 1000000

/-- Runs a body for each item.  A loop that was not left says so by `next`. -/
def loopOver (body : Value → Run Flow) : List Value → Run Flow
  | [] => return .next
  | x :: xs => do
    match ← body x with
    | .next | .skip => loopOver body xs
    | flow => return flow

/-- Runs a body for the items from an index on, looking up each of them before its turn. -/
def loopLive (body : Value → Run Flow) (item : Nat → Run (Option Value)) : Nat → Nat → Run Flow
  | 0, _ => throw .endless
  | turns + 1, i => do
    match ← item i with
    | none => return .next
    | some x => do
      match ← body x with
      | .next | .skip => loopLive body item turns (i + 1)
      | flow => return flow

/-- Runs a body for each item of a value.  The items of a list are looked up one by one, and those
    of an object too, which has one under every index. -/
def loop (body : Value → Run Flow) (items : Value) : Run Flow := do
  match ← view items with
  | .list _ =>
    loopLive body (fun i => return (← itemsOf items)[i]?) turnLimit 0
  | .object .. => loopLive body (fun i => some <$> subscripted items (.int i)) turnLimit 0
  | _ => do loopOver body (← itemsOf items)

mutual

/-- Runs a statement. -/
def exec (self : Callable) : Stmt → Run Flow
  | .expr e => do
    let _ ← eval self e
    return .next
  | .assign targets e => do
    assignEach (← eval self e) targets
    return .next
  | .augment n op e => do
    let x ← lookupName n
    let y ← eval self e
    assignName n (← augmented op x y)
    return .next
  | .annotate n a e => do
    match e with
    | some e => assignName n (← eval self e)
    | none => pure ()
    -- annotations are evaluated outside functions only
    if !(← get).scope.contains n then
      let _ ← eval self a
    return .next
  | .ret (some e) => return .ret (← eval self e)
  | .ret none => return .ret .null
  | .raise e => raised self e
  | .pass => return .next
  | .stop => return .stop
  | .skip => return .skip
  | .branch c yes no => do
    if (← view (← eval self c)).truthy then execList self yes else execList self no
  | .each target e body otherwise => do
    match ← loop (fun x => do
      assign target x
      execList self body) (← eval self e) with
    | .stop => return .next
    | .ret v => return .ret v
    | _ => execList self otherwise

/-- Runs statements until one of them says not to go on to the next. -/
def execList (self : Callable) : List Stmt → Run Flow
  | [] => return .next
  | s :: ss => do
    match ← exec self s with
    | .next => execList self ss
    | flow => return flow

end

/-! ## Functions and programs -/

/-- How many calls of a function may be under way at a time. -/
def depthLimit : Nat := 990

/-- Calls a function, which may call itself so many times inside of that. -/
def Function.call (f : Function) : Nat → Callable
  | 0, _, _ => fail .tooDeep
  | depth + 1, args, keys => do
    let bound ← bindArguments f.name f.parameters args keys
    match ← (execList (f.call depth) f.body).within f.locals bound with
    | .ret v => return v
    | _ => return .null

/-- Runs something on a store, outside of functions and with the given names. -/
def Run.on {α : Type} (r : Run α) (globals : Table Value) (store : Store) :
    Except Stop α × Machine :=
  r.run.run ⟨⟨store, globals⟩, [], []⟩

namespace Program

/-- The function of a program, for calls from the outside. -/
def callable (p : Program) : Callable :=
  p.function.call depthLimit

/-- Runs the statements behind the function: the names that they define, with values in the store. -/
def start (p : Program) : StateM Store (Except Stop (Table Value)) := fun s =>
  let (outcome, m) := (execList p.callable p.trailing).on [] s
  (outcome.map fun _ => m.globals, m.store)

/-- Calls what stands under the name of the function, with arguments that are in the store. -/
def run (p : Program) (globals : Table Value) (args : List Value) :
    StateM Store (Except Stop Value) := fun s =>
  let call : Run Value := do callValue p.callable (← lookupName p.function.name) args []
  let (outcome, m) := call.on globals s
  (outcome, m.store)

end Program
end LetTag.Script
