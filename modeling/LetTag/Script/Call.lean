/-
  What scripts can call: the predefined functions, and the methods of texts, lists, dictionaries and
  objects.

  A method belongs to the type of the value in front of the dot, and whether there is one is decided
  before the arguments are evaluated.  Everything here gets its arguments evaluated.

  Only what is listed here can be called (`Builtin`, `methodsOf`).  The language has many more predefined
  functions and methods, among them those that change a list in other ways than by appending to it, and
  all that change a dictionary.  A run that comes to one of these faults as at an unknown name or an
  unknown attribute, so what is proved of runs says nothing about it.
-/
import LetTag.Script.Integer
import LetTag.Script.Operator
import LetTag.Text.LetterCase

namespace LetTag.Script

open Text Number

/-! ## Arguments -/

/-- Says that a function takes no arguments under keywords. -/
def noKeywords (function : String) (keys : List (String × Value)) : Work Unit :=
  if keys.isEmpty then return () else fail (.badCall (function ++ "() takes no keyword arguments"))

/-- Says that a function takes exactly one argument. -/
def oneArgument (function : String) (args : List Value) : Work Value :=
  match args with
  | [v] => return v
  | _ => fail (.badCall
      (function ++ "() takes exactly one argument (" ++ toString args.length ++ " given)"))

/-- The only argument of a function that needs none. -/
def atMostOne (function : String) (args : List Value) : Work (Option Value) :=
  match args with
  | [] => return none
  | [v] => return some v
  | _ => fail (.badCall
      (function ++ " expected at most 1 argument, got " ++ toString args.length))

/-- The arguments for the parameters of a function, some of them given by name.  A parameter whose
    name is empty is never named. -/
def bindNamed (function : String) (parameters : List String) (args : List Value)
    (keys : List (String × Value)) : Work (List (Option Value)) :=
  let given := args.length + keys.length
  let count := parameters.length
  let named (p : String) : Bool := keys.any fun (k, _) => k == p
  if given > count then
    fail (.badCall (function ++ "() takes at most " ++ toString count
      ++ (if args.isEmpty then " keyword" else "") ++ " argument" ++ Fault.plural count ++ " ("
      ++ toString given ++ " given)"))
  else match (parameters.take args.length).zipIdx.find? fun (p, _) => named p with
    | some (p, i) => fail (.badCall ("argument for " ++ function ++ "() given by name ('" ++ p
        ++ "') and position (" ++ toString (i + 1) ++ ")"))
    | none => match keys.find? fun (k, _) => !parameters.contains k with
      | some (k, _) => fail (.invalidKeyword function k)
      | none => return parameters.zipIdx.map fun (p, i) => args[i]?.or (keys.lookup p)

/-- The items that a function reads.  A loop over an object gives null at once and has no end, so
    two items stand for all of them. -/
def readItems (v : Value) : Work (List Value) := do
  match ← view v with
  | .object .. => return [.null, .null]
  | _ => itemsOf v

/-! ## Conversions -/

/-- How much of a value a message about integers shows. -/
def quoteLimit : Nat := 200

/-- The integer that a text in ASCII writes in a base. -/
def integerOf (base : Nat) (s shown : List Char) : Work Value := do
  match readInteger base s with
  | .ok n => return .int n
  | .error .malformed => fail (.badInteger base (String.ofList (shown.take quoteLimit)))
  | .error (.tooManyDigits n) =>
    fail (.badValue ("Exceeds the limit (4300 digits) for integer string conversion: value has "
      ++ toString n ++ " digits; use sys.set_int_max_str_digits() to increase the limit"))

/-- A value as an integer: doubles lose their fraction, texts are read. -/
def toInteger (v : Value) : Work Value := do
  match v with
  | .int n => return .int n
  | .bool b => return .int (if b then 1 else 0)
  | .scalar (.float x) => return .int (← ofExcept (integerPart x))
  | .text s => integerOf 10 (inAscii s.toList) (quoted s.toList)
  | .scalar (.bytes bs) => integerOf 10 (bs.map fun b => Char.ofNat b.toNat) (quotedBytes bs)
  | v => fail (.badCall ("int() argument must be a string, a bytes-like object or a real number, "
      ++ "not '" ++ v.typeName ++ "'"))

/-- The integer that a text writes in a base given by a value. -/
def toIntegerIn (v base : Value) : Work Value := do
  match times? base with
  | none => fail (.badCall ("'" ++ base.typeName ++ "' object cannot be interpreted as an integer"))
  | some b =>
    if b < 0 ∨ b = 1 ∨ b > 36 then fail (.badValue "int() base must be >= 2 and <= 36, or 0")
    else match v with
      | .text s => integerOf b.toNat (inAscii s.toList) (quoted s.toList)
      | .scalar (.bytes bs) =>
        integerOf b.toNat (bs.map fun c => Char.ofNat c.toNat) (quotedBytes bs)
      | _ => fail (.badCall "int() can't convert non-string with explicit base")

/-- The text that an argument is, if it was given. -/
def textArgument (function name : String) : Option Value → Work (Option String)
  | none => return none
  | some v => do
    match ← view v with
    | .text s => return some s
    | w =>
      let type := match w with
        | .null => "None"
        | w => w.typeName
      fail (.badCall (function ++ "() argument '" ++ name ++ "' must be str, not " ++ type))

/-- The text that bytes write, which takes bytes and not another value. -/
def decoded (v : Value) : Work Value := do
  match v with
  | .scalar (.bytes bs) => match String.fromUTF8? ⟨bs.toArray⟩ with
    | some s => return .text s
    | none => fail (.badValue "invalid start byte")
  | .text _ => fail (.badCall "decoding str is not supported")
  | v => fail (.badCall ("decoding to str: need a bytes-like object, " ++ v.typeName ++ " found"))

/-- A value as text, or the text that bytes write if an encoding or a way to treat errors is
    given. -/
def toText (args : List Value) (keys : List (String × Value)) : Work Value := do
  let given ← bindNamed "str" ["object", "encoding", "errors"] args keys
  let encoding ← textArgument "str" "encoding" (given.getD 1 none)
  let errors ← textArgument "str" "errors" (given.getD 2 none)
  match given.getD 0 none, encoding, errors with
  | none, _, _ => return .text ""
  | some v, none, none => return .text (← displayed v)
  | some v, _, _ => decoded (← view v)

/-- A value as an integer, or the integer that a text writes in a base. -/
def toWhole (args : List Value) (keys : List (String × Value)) : Work Value := do
  match ← bindNamed "int" ["", "base"] args keys with
  | [none, none] => return .int 0
  | [some v, none] => toInteger (← view v)
  | [some v, some base] => toIntegerIn (← view v) (← view base)
  | _ => fail (.badCall "int() missing string argument")

/-! ## Predefined functions -/

/-- How many parts a value has. -/
def lengthOf (v : Value) : Work Nat := do
  match ← view v with
  | .text s => return s.length
  | .scalar (.bytes bs) => return bs.length
  | .list xs | .tuple xs => return xs.length
  | .dict es => return es.length
  | w => fail (.noLength w.typeName)

/-- A number without its sign. -/
def absolute (v : Value) : Work Value := do
  let w ← view v
  let number := match w with
    | .scalar s => s.numeric?
    | _ => none
  match number with
  | some (.int n) => return .int n.natAbs
  | some (.float x) => return .scalar (.float x.abs)
  | some (.complex re im) =>
    let size := hypotenuse re im
    if size.isInf && isFinite re && isFinite im then fail (.overflow "absolute value too large")
    else return .scalar (.float size)
  | none => fail (.badOperand "abs()" w.typeName)

/-- The item whose key stands in the given order before those of all others; of equal ones the
    first. -/
def extreme (op : OrderOp) (key : Value → Work Value) : Value × Value → List Value → Work Value
  | (best, _), [] => return best
  | (best, k), x :: xs => do
    let l ← key x
    if ← compared (.order op) l k then extreme op key (x, l) xs
    else extreme op key (best, k) xs

/-- The least or greatest of some items: those of one sequence, or the arguments.  A function may
    give the keys by which they are compared; `call` calls it. -/
def extremeOf (op : OrderOp) (function : String) (call : Value → List Value → Work Value)
    (args : List Value) (keys : List (String × Value)) : Work Value := do
  if args.isEmpty then
    fail (.badCall (function ++ " expected at least 1 argument, got 0"))
  let given ← bindNamed function ["key", "default"] [] keys
  let otherwise := given.getD 1 none
  if args.length > 1 && otherwise.isSome then
    fail (.badCall ("Cannot specify a default for " ++ function
      ++ "() with multiple positional arguments"))
  let items ← match args with
    | [v] => readItems v
    | vs => pure vs
  let key (x : Value) : Work Value := match given.getD 0 none with
    | none | some .null => return x
    | some f => call f [x]
  match items, otherwise with
  | x :: xs, _ => extreme op key (x, ← key x) xs
  | [], some d => return d
  | [], none => fail (.emptySequence function)

/-- The sum of the items, from a start. -/
def total (start : Value) (items : List Value) : Work Value := do
  match ← view start with
  | .text _ => fail (.badCall "sum() can't sum strings [use ''.join(seq) instead]")
  | .scalar (.bytes _) => fail (.badCall "sum() can't sum bytes [use b''.join(seq) instead]")
  | _ => items.foldlM (binary .add) start

/-- One entry of a dictionary, from a pair. -/
def entryOf (position : Nat) (pair : Value) : Work (Value × Value) := do
  let items ← match ← view pair with
    | .list xs | .tuple xs => pure xs
    | .text s => itemsOf (.text s)
    | _ => fail (.badCall ("cannot convert dictionary update sequence element #"
        ++ toString position ++ " to a sequence"))
  match items with
  | [k, v] =>
    let k ← whole k
    match k.unhashable? with
    | some t => fail (.unhashable t)
    | none => return (k, v)
  | _ => fail (.badValue ("dictionary update sequence element #" ++ toString position
      ++ " has length " ++ toString items.length ++ "; 2 is required"))

/-- The entries of a dictionary, from pairs. -/
def entriesOf : Nat → List Value → Work (List (Value × Value))
  | _, [] => return []
  | i, p :: ps => do
    let e ← entryOf i p
    let es ← entriesOf (i + 1) ps
    return e :: es

/-- A dictionary from another one or from pairs, and from keywords. -/
def toDict (args : List Value) (keys : List (String × Value)) : Work Value := do
  let start ← match ← atMostOne "dict" args with
    | none => pure []
    | some v => match ← view v with
      | .dict es => pure es
      | _ => entriesOf 0 (← readItems v)
  return .dict (Value.ofEntries (start ++ keys.map fun (k, v) => (.text k, v)))

/-- What can be called with arguments by position and by name. -/
abbrev Callable := List Value → List (String × Value) → Work Value

/-- The value of a predefined function.  `self` is the function of the script, and `call` calls the
    functions among the arguments. -/
def callBuiltinWith (self : Callable) (call : Value → List Value → Work Value) (b : Builtin)
    (args : List Value) (keys : List (String × Value)) : Work Value := do
  match b with
  | .itself => self args keys
  | .dict => toDict args keys
  | .max => extremeOf .gt "max" call args keys
  | .min => extremeOf .lt "min" call args keys
  | .sum =>
    if args.isEmpty && keys.length ≤ 2 then
      fail (.badCall "sum() takes at least 1 positional argument (0 given)")
    let given ← bindNamed "sum" ["", "start"] args keys
    let items ← readItems ((given.getD 0 none).getD .null)
    total ((given.getD 1 none).getD (.int 0)) items
  | .str => toText args keys
  | .int => toWhole args keys
  | .len => do
    noKeywords "len" keys
    return .int (← lengthOf (← oneArgument "len" args))
  | .abs => do
    noKeywords "abs" keys
    absolute (← oneArgument "abs" args)
  | .bool => do
    noKeywords "bool" keys
    match ← atMostOne "bool" args with
    | none => return .bool false
    | some v => return .bool (← view v).truthy
  | .valueError | .keyError | .typeError => fail (.badCall "errors can only be raised")

/-- The value of a predefined function.  A function among its arguments is predefined too, and it is
    called without further ones. -/
def callBuiltin (self : Callable) : Builtin → Callable :=
  callBuiltinWith self fun f args => do
    match ← view f with
    | .scalar (.builtin b) =>
      callBuiltinWith self (fun g _ => do fail (.notCallable (← view g).typeName)) b args []
    | v => fail (.notCallable v.typeName)

/-- The class of faults that a predefined error class stands for. -/
def faultClass? : Builtin → Option FaultKind
  | .valueError => some .value
  | .keyError => some .key
  | .typeError => some .type
  | _ => none

/-- The text of an error: its one argument, or all of them as a tuple; an error about a key shows
    the key as it would be written. -/
def errorText (kind : FaultKind) (args : List Value) : Work Wording := do
  match args with
  | [] => return .said ""
  | [v] =>
    let w ← whole v
    return .ofWritten (if kind = .key then w.written else w.display)
  | vs => return .ofWritten (← whole (.tuple vs)).written

/-! ## Methods -/

/-- The names of the methods of a value, as far as they can be called here. -/
def methodsOf : Value → List String
  | .text _ => ["upper", "lower", "strip", "split", "join"]
  | .list _ => ["append"]
  | .dict _ => ["get"]
  | .object .. => ["get", "tag"]
  | _ => []

/-- A text without the given characters at its ends. -/
def stripped (p : Char → Bool) (s : List Char) : List Char :=
  dropEndWhile p (s.dropWhile p)

/-- The pieces between occurrences of a separator, at most `limit` of them cut off. -/
def piecesBetween (sep : List Char) : Nat → Option Nat → List Char → List Char → List (List Char)
  | 0, _, held, rest => [held.reverse ++ rest]
  | _, some 0, held, rest => [held.reverse ++ rest]
  | _, _, held, [] => [held.reverse]
  | n + 1, limit, held, c :: rest =>
    if sep.isPrefixOf (c :: rest) then
      held.reverse :: piecesBetween sep n (limit.map (· - 1)) [] ((c :: rest).drop sep.length)
    else piecesBetween sep n limit (c :: held) rest

/-- The words of a text, at most `limit` of them cut off from the rest. -/
def wordsOf : Nat → Option Nat → List Char → List (List Char)
  | 0, _, _ => []
  | n + 1, limit, s => match trimLeft s with
    | [] => []
    | s =>
      if limit = some 0 then [trimRight s]
      else s.takeWhile (!isBlank ·) :: wordsOf n (limit.map (· - 1)) (s.dropWhile (!isBlank ·))

/-- A limit from an argument; a negative one is none. -/
def limitOf (v : Value) : Work (Option Nat) :=
  match times? v with
  | some n => return if n < 0 then none else some n.toNat
  | none => fail (.badCall ("'" ++ v.typeName ++ "' object cannot be interpreted as an integer"))

/-- The parts of a text: between separators, or its words. -/
def splitText (s : List Char) (args : List Value) (keys : List (String × Value)) : Work Value := do
  let given ← bindNamed "split" ["sep", "maxsplit"] args keys
  let limit ← limitOf (← view ((given.getD 1 none).getD (.int (-1))))
  let parts ← match ← view ((given.getD 0 none).getD .null) with
    | .null => pure (wordsOf (s.length + 1) limit s)
    | .text sep =>
      if sep.isEmpty then fail .emptySeparator
      else pure (piecesBetween sep.toList (s.length + 1) limit [] s)
    | v => fail (.badCall ("must be str or None, not " ++ v.typeName))
  newList (parts.map fun p => .text (String.ofList p))

/-- The texts among items, which must all be texts. -/
def textsOf : Nat → List Value → Work (List String)
  | _, [] => return []
  | i, x :: xs => do
    match ← view x with
    | .text s =>
      let ss ← textsOf (i + 1) xs
      return s :: ss
    | v => fail (.wrongItem i v.typeName)

/-- Calls a method of a text. -/
def callText (s : String) (method : String) (args : List Value) (keys : List (String × Value)) :
    Work Value := do
  match method with
  | "split" => splitText s.toList args keys
  | "join" => do
    noKeywords "str.join" keys
    let v ← oneArgument "str.join" args
    match ← view v with
    | .text _ | .list _ | .tuple _ | .dict _ | .scalar (.bytes _) | .object .. =>
      return .text (s.intercalate (← textsOf 0 (← itemsOf v)))
    | _ => fail (.badCall "can only join an iterable")
  | "strip" => do
    noKeywords "str.strip" keys
    match ← atMostOne "strip" args with
    | none => return .text (String.ofList (trim s.toList))
    | some v => match ← view v with
      | .null => return .text (String.ofList (trim s.toList))
      | .text cs => return .text (String.ofList (stripped cs.toList.contains s.toList))
      | _ => fail (.badCall "strip arg must be None or str")
  | _ => do
    noKeywords ("str." ++ method) keys
    if args.isEmpty then
      return .text (String.ofList (if method = "upper" then upper s.toList else lower s.toList))
    else fail (.badCall ("str." ++ method ++ "() takes no arguments (" ++ toString args.length
      ++ " given)"))

/-- Says that keywords name parameters, and none that has an argument by position. -/
def checkKeywords (function : String) (taken free : List String) (keys : List (String × Value)) :
    Work Unit := do
  match keys.find? fun (k, _) => !free.contains k with
  | some (k, _) =>
    fail (if taken.contains k then .repeatedArgument function k else .unexpectedKeyword function k)
  | none => return ()

/-- The arguments of a function under its parameters: those by position, then those by name. -/
def bindArguments (function : String) (parameters : List String) (args : List Value)
    (keys : List (String × Value)) : Work (Table Value) := do
  let free := parameters.drop args.length
  checkKeywords function (parameters.take args.length) free keys
  if args.length > parameters.length then
    fail (.surplusArguments function parameters.length args.length)
  match free.filter fun p => (keys.lookup p).isNone with
  | [] => return parameters.zip args ++ keys
  | missing => fail (.missingArguments function missing)

/-- The key that an object is asked for, by position or by name. -/
def keyArgument (object : Value) (args : List Value) (keys : List (String × Value)) :
    Work Value := do
  let bound ← bindArguments "MetaObject.get" ["self", "key"] (object :: args) keys
  return (Table.get? "key" bound).getD .null

/-- Adds the tags that are not among those of an object. -/
def addTagsTo (place : Nat) : List Value → Work Unit
  | [] => return ()
  | t :: ts => do
    let old ← itemsOf (.ref place)
    if !(← isAmong t old) then setPlace place (.list (old ++ [t]))
    addTagsTo place ts

/-- Calls a method of a value. -/
def callMethod (receiver : Value) (method : String) (args : List Value)
    (keys : List (String × Value)) : Work Value := do
  match receiver, ← view receiver with
  | _, .text s => callText s method args keys
  | .ref a, .list xs => do
    noKeywords "list.append" keys
    let v ← oneArgument "list.append" args
    setPlace a (.list (xs ++ [v]))
    return .null
  | _, .dict es => do
    noKeywords "dict.get" keys
    let (key, otherwise) ← match args with
      | [k] => pure (k, Value.null)
      | [k, d] => pure (k, d)
      | [] => fail (.badCall "get expected at least 1 argument, got 0")
      | _ => fail (.badCall ("get expected at most 2 arguments, got " ++ toString args.length))
    let k ← whole key
    match k.unhashable? with
    | some t => fail (.unhashable t)
    | none => return (Value.find? k es).getD otherwise
  | _, .object _ _ _ _ rs gs => do
    match method, gs with
    | "tag", .ref tags => do
      checkKeywords "MetaObject.tag" ["self"] [] keys
      addTagsTo tags args
      return .null
    | _, _ =>
      return Value.member (← get).store.content (← whole (← keyArgument receiver args keys)) rs
  | _, w => fail (.noAttribute w.typeName method)

/-- The value of an attribute that is no method. -/
def attributeOf (v : Value) (name : String) : Work Value := do
  match ← view v, name with
  | .object i .., "id" => return .text i
  | .object _ t .., "type" => return .text t
  | .object _ _ w .., "value" => return w
  | .object _ _ _ _ _ gs, "tags" => return gs
  | w, _ => fail (.noAttribute w.typeName name)

end LetTag.Script
