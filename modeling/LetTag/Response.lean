/-
  Requests and responses.

  A request goes to the first route with its path and method.  The input is bound to the parameters
  of the object, `execute` is called, and the outcome is shaped as a response: 200 with the result,
  404 if no route fits, 500 with the message of an error.
-/
import LetTag.Registry
import LetTag.Text.LetterCase

namespace LetTag

/-- A status and a body. -/
structure Response where
  status : Int
  body : Value

namespace Response

/-- Does the response carry a result? -/
def ok (r : Response) : Bool :=
  r.status == 200

/-- The body as JSON. -/
def json (r : Response) : Except Json.WriteError (List Char) :=
  Json.write Json.responseStyle r.body

/-- The response with a result. -/
def result (v : Value) : Response :=
  ⟨200, .dict [(.text "status", .text "ok"), (.text "result", v)]⟩

/-- The response that says what went wrong. -/
def failure (status : Int) (message : String) : Response :=
  ⟨status, .dict [(.text "error", .text message)]⟩

end Response

/-- The input that is never bound: the router takes it. -/
def reservedParameters : List String :=
  ["path"]

/-- The entries of the input that may be bound. -/
def inputOf (params : Value) : Except Error (List (Value × Value)) :=
  if !params.truthy then .ok []
  else match params with
    | .dict es => .ok (es.filter fun (k, _) => !reservedParameters.any fun r => k.equal (.text r))
    | v => .error (.notAMapping v.typeName)

/-- Is the error answered with its message? -/
def Error.isAnswered : Error → Bool
  | invocation .. | operationNotFound .. => true
  | _ => false

namespace Registry

/-- The outcome of calling an object for a request. -/
def answer (registry : Registry) (e : Entity) (input : List (Value × Value)) (type : Value) :
    Except Error Value := do
  let args ← registry.arguments e (.dict input) type
  e.call executeName args

/-- The response to a request, and what the log says about it.  A run without end has no response,
    nor has input that is no mapping, nor a fault or a key that cannot be written. -/
def respond (registry : Registry) (path method : String) (params : Value) :
    Except Error (Response × List LogLine) := do
  let method := Text.upper method.toList
  let type := Value.text (String.ofList (Text.lower method))
  let method := String.ofList method
  let input ← inputOf params
  match registry.routes.find? fun r => r.path == path && r.method == method with
  | none => .ok (.failure 404 "Not Found", [])
  | some r => match registry.answer r.handler input type with
    | .ok v => .ok (.result v, [])
    | .error e =>
      if e.isAnswered then .ok (.failure 500 e.message,
        [⟨.error, .requests, method ++ " " ++ path ++ " failed: " ++ e.message⟩])
      else .error e

end Registry
end LetTag
