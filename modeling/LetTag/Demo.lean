/-
  A small service, and a tour of it.

  The program declares two functions that answer requests, a value and a record.  The tour lists its
  routes, sends three requests, rebuilds the argument of one of them from the response, and ends
  with the description of the record.
-/
import LetTag.Pass
import LetTag.Record
import LetTag.Response
import LetTag.Yaml.Writer

namespace LetTag.Demo

/-- The program of the service. -/
def program : String :=
  "\n".intercalate ["",
    "let greet = (name) => \"hi \" + name;",
    "tag greet as api, path:/greet;",
    "",
    "let greet_person = (person) => \x7b",
    "    name = person[\"name\"]",
    "    age = person[\"age\"]",
    "    return f\"Hello \x7bname\x7d, you are \x7bage\x7d\"",
    "\x7d",
    "tag greet_person as api, post, path:/api_v1/greet_person;",
    "",
    "let version = \"0.1.0\";",
    "tag version as meta;",
    "",
    "let alice = object(name: \"Alice\", age: 30);",
    ""]

/-- The pass that compiles the service. -/
def compile (settings : Settings) : Registry.Compilation :=
  (Registry.empty settings).compile program.toList false

/-! ## The tour -/

/-- A text with spaces behind it, up to a width. -/
def padded (width : Nat) (s : String) : String :=
  s ++ String.ofList (List.replicate (width - s.length) ' ')

/-- A route on a line of its own. -/
def routeLine (r : Route) : String :=
  "   " ++ padded 5 r.method ++ " " ++ padded 28 r.path ++ " -> " ++ r.handler.id

/-- The response to a request. -/
def respond (c : Registry) (path method : String) (params : List (Value × Value)) : Response :=
  match c.respond path method (.dict params) with
  | .ok (r, _) => r
  | .error e => .failure 500 e.message

/-- A response on a line of its own. -/
def responseLine (r : Response) : String :=
  let body := match r.json with
    | .ok s => String.ofList s
    | .error e => e.message
  "   " ++ String.ofList (Number.intText r.status) ++ " " ++ body

/-- The arguments that a response describes, each on a line of its own. -/
def argumentLines (r : Response) : List String :=
  match (r.body.field? "result").map rebuildArguments with
  | some (.ok arguments) => arguments.map fun (name, v) =>
      "   " ++ name.nameText ++ ": " ++ v.plain.nameText
  | _ => []

/-- The request that names a person. -/
def person : List (Value × Value) :=
  [(.text "person", .dict [(.text "name", .text "Alice"), (.text "age", .int 30)])]

/-- The lines of the tour of a registry that holds the service. -/
def tour (c : Registry) : List String :=
  let rule := String.ofList (List.replicate 80 '=')
  let greeting := respond c "/greet" "GET" [(.text "name", .text "Alice")]
  let posted := respond c "/api_v1/greet_person" "POST" person
  let alice := match Yaml.write (c.describe "alice") with
    | .ok s => String.ofList s
    | .error e => e.message
  [rule, "DISPATCH DEMO", rule, "", "1. ROUTES"] ++ c.routes.map routeLine
    ++ ["", "2. GET /greet?name=Alice", responseLine greeting]
    ++ ["", "3. POST /api_v1/greet_person", responseLine posted]
    ++ (if posted.ok then ["", "4. RECONSTRUCTED ARGUMENTS"] ++ argumentLines posted else [])
    ++ ["", "5. UNKNOWN PATH", responseLine (respond c "/nope" "GET" [])]
    ++ ["", "6. DESCRIPTION OF 'alice' (YAML)", alice]

/-- The text of the tour. -/
def report : String :=
  String.join ((tour (compile .default).registry).map (· ++ "\n"))

end LetTag.Demo
