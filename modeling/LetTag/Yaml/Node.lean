/-
  From YAML tokens to nodes.

  A node is a scalar, a sequence or a mapping.  What is left out where a node may stand is the empty
  plain scalar.  Under a key a sequence may stand without further indentation; such a sequence has
  no tokens around it.  Inside the brackets of a sequence an entry makes a mapping of its own.
-/
import LetTag.Yaml.Token

namespace LetTag.Yaml

/-- Nodes. -/
inductive Node where
  | scalar (plain : Bool) (s : List Char)
  | sequence (items : List Node)
  | mapping (entries : List (Node × Node))
  deriving Repr

namespace Node

/-- The node of nothing. -/
def empty : Node := scalar true []

/-- Puts an item before the others. -/
def cons {α : Type} (x : α) (r : Option (List α × List Token)) : Option (List α × List Token) :=
  r.map fun (xs, rest) => (x :: xs, rest)

/-- Does one of these tokens come next? -/
def comes (next : List Token) (ts : List Token) : Bool :=
  ts.head?.any next.contains

/-- The tokens that end a node in a block mapping. -/
def mappingStops : List Token := [.key, .value, .blockEnd]

mutual

/-- A node in a block; with `inMapping` it may be a sequence without indentation. -/
def ofBlock (inMapping : Bool) : Nat → List Token → Option (Node × List Token)
  | 0, _ => none
  | n + 1, ts => match ts with
    | .sequenceStart :: rest => (items n rest).map fun (xs, rest) => (sequence xs, rest)
    | .mappingStart :: rest => (entries n rest).map fun (es, rest) => (mapping es, rest)
    | .entry :: _ =>
      if inMapping then (flatItems n ts).map fun (xs, rest) => (sequence xs, rest) else none
    | ts => ofFlow n ts

/-- A node in a block, or nothing if one of the tokens comes next. -/
def ofBlockOr (inMapping : Bool) (stops : List Token) : Nat → List Token → Option (Node × List Token)
  | 0, _ => none
  | n + 1, ts => if comes stops ts then some (empty, ts) else ofBlock inMapping n ts

/-- The items of a block sequence. -/
def items : Nat → List Token → Option (List Node × List Token)
  | 0, _ => none
  | n + 1, ts => match ts with
    | .entry :: rest => do
      let (x, rest) ← ofBlockOr false [.entry, .blockEnd] n rest
      cons x (items n rest)
    | .blockEnd :: rest => some ([], rest)
    | _ => none

/-- The items of a sequence without indentation. -/
def flatItems : Nat → List Token → Option (List Node × List Token)
  | 0, _ => none
  | n + 1, ts => match ts with
    | .entry :: rest => do
      let (x, rest) ← ofBlockOr false (.entry :: mappingStops) n rest
      cons x (flatItems n rest)
    | ts => some ([], ts)

/-- The entries of a block mapping. -/
def entries : Nat → List Token → Option (List (Node × Node) × List Token)
  | 0, _ => none
  | n + 1, ts => match ts with
    | .key :: rest => do
      let (k, rest) ← ofBlockOr true mappingStops n rest
      match rest with
      | .value :: rest =>
        let (v, rest) ← ofBlockOr true mappingStops n rest
        cons (k, v) (entries n rest)
      | rest => cons (k, empty) (entries n rest)
    | .blockEnd :: rest => some ([], rest)
    | _ => none

/-- A scalar or a node in brackets. -/
def ofFlow : Nat → List Token → Option (Node × List Token)
  | 0, _ => none
  | n + 1, ts => match ts with
    | .scalar plain s :: rest => some (scalar plain s, rest)
    | .openSequence :: rest =>
      (flowItems n true rest).map fun (xs, rest) => (sequence xs, rest)
    | .openMapping :: rest =>
      (flowEntries n true rest).map fun (es, rest) => (mapping es, rest)
    | _ => none

/-- A node in brackets, or nothing if one of the tokens comes next. -/
def ofFlowOr (stops : List Token) : Nat → List Token → Option (Node × List Token)
  | 0, _ => none
  | n + 1, ts => if comes stops ts then some (empty, ts) else ofFlow n ts

/-- The value behind a key in brackets, if there is one. -/
def flowValue (stops : List Token) : Nat → List Token → Option (Node × List Token)
  | 0, _ => none
  | n + 1, ts => match ts with
    | .value :: rest => ofFlowOr stops n rest
    | ts => some (empty, ts)

/-- The items up to a closing bracket; before each but the first stands a comma. -/
def flowItems : Nat → Bool → List Token → Option (List Node × List Token)
  | 0, _, _ => none
  | n + 1, first, ts =>
    if comes [.closeSequence] ts then some ([], ts.tail)
    else if !first && !comes [.comma] ts then none
    else match (if first then ts else ts.tail) with
      | .closeSequence :: rest => some ([], rest)
      | .key :: rest => do
        let (k, rest) ← ofFlowOr [.value, .comma, .closeSequence] n rest
        let (v, rest) ← flowValue [.comma, .closeSequence] n rest
        cons (mapping [(k, v)]) (flowItems n false rest)
      | ts => do
        let (x, rest) ← ofFlow n ts
        cons x (flowItems n false rest)

/-- The entries up to a closing brace; before each but the first stands a comma. -/
def flowEntries : Nat → Bool → List Token → Option (List (Node × Node) × List Token)
  | 0, _, _ => none
  | n + 1, first, ts =>
    if comes [.closeMapping] ts then some ([], ts.tail)
    else if !first && !comes [.comma] ts then none
    else match (if first then ts else ts.tail) with
      | .closeMapping :: rest => some ([], rest)
      | .key :: rest => do
        let (k, rest) ← ofFlowOr [.value, .comma, .closeMapping] n rest
        let (v, rest) ← flowValue [.comma, .closeMapping] n rest
        cons (k, v) (flowEntries n false rest)
      | ts => do
        let (k, rest) ← ofFlow n ts
        cons (k, empty) (flowEntries n false rest)

end

/-- The node of the only document that the tokens hold; nothing if they hold none. -/
def ofTokens? (ts : List Token) : Option (Option Node) :=
  let fuel := 5 * ts.length + 5
  let document (explicit : Bool) (ts : List Token) : Option (Option Node) := do
    let (node, rest) ←
      if explicit && (ts.isEmpty || comes [.documentStart, .documentEnd] ts) then some (empty, ts)
      else ofBlock false fuel ts
    if (rest.dropWhile (· == .documentEnd)).isEmpty then some (some node) else none
  match ts with
  | [] => some none
  | .documentStart :: rest => document true rest
  | ts => document false ts

end Node
end LetTag.Yaml
