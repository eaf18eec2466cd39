/-
  Declarations: what a statement says.

      debug on|off                  tracing
      let <id> = (a, b) => body     an object of type `function` that runs the body
      let <id> = object(k: v, ...)  an object of type `abstract-object` with fields
      let <id> = <literal>          an object of type `value`
      tag <id> as t1, t2, ...       tags for an object

  A definition is read in two steps: the statement gives an id and an expression, and the expression
  an object or the error that keeps it from being one.
-/
import LetTag.Binding
import LetTag.Diagnostic
import LetTag.Settings
import LetTag.Text.Word

namespace LetTag

open Text

/-- What a statement says. -/
inductive Declaration where
  | debug (on : Bool)
  | define (id : String) (expr : List Char)
  | tag (id : String) (tags : List String)
  | malformed (problem : Problem)
  deriving DecidableEq, Repr

namespace Declaration

/-- What stands behind blanks, of which there must be one. -/
def behindBlanks? (s : List Char) : Option (List Char) :=
  if s.head?.any isBlank then some (trimLeft s) else none

/-- The word at the start of a text, which must not be empty, and what follows it. -/
def word? (s : List Char) : Option (List Char × List Char) :=
  match s.takeWhile isWord with
  | [] => none
  | w => some (w, s.dropWhile isWord)

/-- What stands behind `start`, in whatever case it is written. -/
def behindAnyCase? (start s : List Char) : Option (List Char) :=
  if (s.take start.length).map Char.toLower = start then some (s.drop start.length) else none

/-- What stands behind a keyword. -/
def behindWord? (start s : List Char) : Option (List Char) :=
  if start.isPrefixOf s then some (s.drop start.length) else none

/-- The switch that a statement sets: `debug on` or `debug off`, and no further letter. -/
def debugSwitch? (s : List Char) : Option Bool := do
  let rest ← behindAnyCase? "debug".toList s
  let rest ← behindBlanks? rest
  let ends (t : List Char) : Bool := !t.head?.any isWord
  if (behindAnyCase? "on".toList rest).any ends then some true
  else if (behindAnyCase? "off".toList rest).any ends then some false
  else none

/-- The id and the expression of a definition: `let <id> = <expr>`. -/
def definition? (s : List Char) : Option (List Char × List Char) := do
  let rest ← behindWord? "let".toList s
  let rest ← behindBlanks? rest
  let (id, rest) ← word? rest
  let '=' :: rest := trimLeft rest | none
  let expr := trim rest
  if expr.isEmpty then none else some (id, expr)

/-- The id and the list of a tagging: `tag <id> as <list>`. -/
def tagging? (s : List Char) : Option (List Char × List Char) := do
  let rest ← behindWord? "tag".toList s
  let rest ← behindBlanks? rest
  let (id, rest) ← word? rest
  let rest ← behindBlanks? rest
  let rest ← behindWord? "as".toList rest
  let list ← behindBlanks? rest
  if list.isEmpty then none else some (id, list)

/-- The tags that a list names. -/
def tagList (s : List Char) : List String :=
  (((cut ',' s).map trim).filter (!·.isEmpty)).map String.ofList

/-- What a statement says. -/
def parse (s : List Char) : Declaration :=
  match debugSwitch? s with
  | some on => debug on
  | none =>
    if "let".toList.isPrefixOf s then
      match definition? s with
      | some (id, expr) => define (String.ofList id) expr
      | none => malformed .malformedLet
    else if "tag".toList.isPrefixOf s then
      match tagging? s with
      | some (id, list) => tag (String.ofList id) (tagList list)
      | none => malformed .malformedTag
    else malformed .unrecognized

end Declaration

/-! ## Definitions -/

/-- The arguments of `object(...)`, if an expression has this form. -/
def recordArguments? (expr : List Char) : Option (List Char) := do
  let rest ← Declaration.behindWord? "object".toList expr
  let '(' :: rest := trimLeft rest | none
  if rest.getLast? = some ')' then some rest.dropLast else none

/-- The object that a definition makes. -/
def define (settings : Settings) (id : String) (expr : List Char) : Except Error Entity :=
  if occursUnquoted expr "=>".toList then do
    let c ← Closure.compile id expr
    .ok ⟨id, "function", .null, [(executeName, .closure c)], [], ["callable"]⟩
  else match recordArguments? expr with
    | some args => match readFields args with
      | .ok fields => do .ok ((← Entity.build id fields settings.sourceType).tag ["object"])
      | .error e => .error (.evaluation e)
    | none => match evaluate expr with
      | .ok v => .ok ⟨id, "value", v, [], [], ["value"]⟩
      | .error e => .error (.evaluation e)

/-- The problem that an error in a definition is, unless it ends the pass. -/
def problemOf? (id : String) : Error → Option Problem
  | .arrow e => some (.arrow id e)
  | .evaluation .outOfRange | .evaluation .unwritableName => none
  | .evaluation e => some (.evaluation id e)
  | _ => none

end LetTag
