/-
  Arrow definitions: `(a, b) => body`.

  A definition becomes the source text of one function.  The parameters are separated by commas,
  trimmed, and must be distinct names.  A body in braces is a block: the braces go, the common
  margin of the lines behind the first goes, and all is indented alike.  Any other body is an
  expression that the function returns.
-/
import LetTag.Arrow.Marking
import LetTag.Scalar
import LetTag.Text.Line
import LetTag.Text.Quoted

namespace LetTag

open Text

/-- Why a text is not an arrow definition, or its source is not a program. -/
inductive ArrowError where
  | notAnArrow (expr : String)
  | invalidParameter (name : String)
  | duplicateParameters (names : List String)
  | doesNotCompile (name : String)
  deriving DecidableEq, Repr

/-- What is said about it, but for the reason that the reader of programs gives behind it. -/
def ArrowError.message : ArrowError → String
  | notAnArrow e => "Invalid arrow function: " ++ String.ofList (quoted e.toList)
  | invalidParameter p => "Invalid parameter name: " ++ String.ofList (quoted p.toList)
  | duplicateParameters ps => "Duplicate parameter names: " ++ ", ".intercalate ps
  | doesNotCompile n => "Generated code for '" ++ n ++ "' does not compile"

/-- An arrow definition as a function: its parameters, the body with its indentation, and the whole
    source text. -/
structure Arrow where
  parameters : List (List Char)
  body : List Char
  source : List Char
  deriving DecidableEq, Repr

namespace Arrow

/-- The name of every function made from an arrow. -/
def functionName : List Char :=
  Builtin.itself.name.toList

/-- What the lines of a body start with. -/
def margin : List Char :=
  [' ', ' ', ' ', ' ']

/-! ## Parts of a definition -/

/-- What stands between the parentheses and behind the arrow, if the text has this form. -/
def split? (expr : List Char) : Option (List Char × List Char) := do
  let '(' :: rest := expr | none
  let inner := rest.takeWhile (· ≠ ')')
  let ')' :: rest := rest.dropWhile (· ≠ ')') | none
  let '=' :: '>' :: rest := trimLeft rest | none
  let body := trimLeft rest
  if body.isEmpty then none else some (inner, body)

/-- Is the text a parameter name: letters, digits and underscores, no digit first? -/
def isParameter (p : List Char) : Bool :=
  match p with
  | c :: rest => (c.isAlpha || c == '_') && rest.all fun d => d.isAlphanum || d == '_'
  | [] => false

/-- Are no two of the names equal? -/
def distinct (names : List (List Char)) : Bool :=
  match names with
  | [] => true
  | n :: rest => !rest.contains n && distinct rest

/-! ## Bodies -/

/-- What stands between the braces of a block; the closing one may be missing. -/
def blockContent (body : List Char) : List Char :=
  let inner := body.drop 1
  let trimmed := trimRight inner
  if trimmed.getLast? = some '\x7d' then trimmed.dropLast else inner

/-- The text without the line feeds at its ends. -/
def trimFeeds (s : List Char) : List Char :=
  dropEndWhile (· == '\n') (s.dropWhile (· == '\n'))

/-- The statements of a block, with a common indentation. -/
def blockBody (body : List Char) : List Char :=
  let ls := cut '\n' (blockContent body)
  let first := trim (ls.headD [])
  let rest := trimFeeds (dedent (join ['\n'] ls.tail))
  let text := join ['\n'] ([first, rest].filter (!allBlank ·))
  indent margin (if allBlank text then "pass".toList else text)

/-- The statement that returns the value of an expression, without semicolons at its end. -/
def expressionBody (body : List Char) : List Char :=
  margin ++ "return ".toList ++ trim (dropEndWhile (· == ';') body)

/-- The body of the function, from a body whose parameters are marked. -/
def layout (body : List Char) : List Char :=
  if body.head? = some '\x7b' then blockBody body else expressionBody body

/-- The source text of the function. -/
def sourceOf (parameters : List (List Char)) (body : List Char) : List Char :=
  "def ".toList ++ functionName ++ '(' :: join [',', ' '] (parameters.map (parameterMark ++ ·))
    ++ ")".toList ++ ":\n".toList ++ body ++ ['\n']

/-- The function that a definition stands for. -/
def ofText (expr : List Char) : Except ArrowError Arrow :=
  let expr := trim expr
  match split? expr with
  | none => .error (.notAnArrow (String.ofList expr))
  | some (inner, body) =>
    let parameters := ((cut ',' inner).map trim).filter (!·.isEmpty)
    match parameters.find? (!isParameter ·) with
    | some p => .error (.invalidParameter (String.ofList p))
    | none =>
      if distinct parameters then
        let body := layout (parameters.foldl (fun b p => mark p b) (trim body))
        .ok ⟨parameters, body, sourceOf parameters body⟩
      else .error (.duplicateParameters (parameters.map String.ofList))

end Arrow
end LetTag
