/-
  From tokens to the tree of a script.

  One function per level of precedence, from the loosest (`expression`) to the tightest (`atom`),
  then statements, blocks and whole programs.  Every function takes the tokens that are left and
  returns what it read with the tokens behind it.  The fuel goes down by one on every call; between
  two tokens there are at most as many calls as there are levels, so a fuel of twenty for each token
  is never used up.

  What is read is a part of the language that bodies are written in.  There are no comprehensions,
  slices, starred arguments, nested functions, operators on bits, loops on a condition, handlers of
  errors, imports and deletions; a formatted text shows names only, and only names and tuples of them
  are assigned to.  A text outside of this part is refused like one that is no program at all, so
  "does not compile" says of a body that it does not compile here.  Sets are read, for the sake of
  literals, but no run gets past one (`refuseSet`).
-/
import LetTag.Script.Token

namespace LetTag.Script

/-! ## The next token -/

/-- What follows a keyword, if that keyword comes next. -/
def keyword? (k : String) : List Token → Option (List Token)
  | .keyword l :: ts => if l = k then some ts else none
  | _ => none

/-- What follows a sign, if that sign comes next. -/
def sign? (x : String) : List Token → Option (List Token)
  | .sign y :: ts => if y = x then some ts else none
  | _ => none

/-- What the sign that comes next stands for, and what follows it. -/
def signOf? {α : Type} (meaning? : String → Option α) : List Token → Option (α × List Token)
  | .sign x :: ts => (meaning? x).map fun a => (a, ts)
  | _ => none

/-- The name that comes next, and what follows it. -/
def name? : List Token → Option (String × List Token)
  | .name n :: ts => some (n, ts)
  | _ => none

/-- The name of a keyword argument, if one comes next, and what follows its `=`. -/
def argumentName? : List Token → Option (String × List Token)
  | .name k :: ts => (sign? "=" ts).map fun ts => (k, ts)
  | _ => none

/-- Can an expression start with the next token? -/
def startsExpression : List Token → Bool
  | .name _ :: _ | .number _ :: _ | .text .. :: _ | .bytes _ :: _ => true
  | .keyword s :: _ => ["None", "True", "False", "not"].contains s
  | .sign s :: _ => ["(", "[", "\x7b", "-", "+", "..."].contains s
  | _ => false

/-! ## Expressions -/

/-- The comparison that a sign stands for. -/
def comparisonSign? : String → Option CompareOp
  | "==" => some (.equal true)
  | "!=" => some (.equal false)
  | "<" => some (.order .lt)
  | "<=" => some (.order .le)
  | ">" => some (.order .gt)
  | ">=" => some (.order .ge)
  | _ => none

/-- The comparison that the next tokens write. -/
def comparison? : List Token → Option (CompareOp × List Token)
  | .sign x :: ts => (comparisonSign? x).map fun op => (op, ts)
  | .keyword "in" :: ts => some (.member true, ts)
  | .keyword "not" :: ts => (keyword? "in" ts).map fun ts => (.member false, ts)
  | .keyword "is" :: ts => match keyword? "not" ts with
    | some ts => some (.same false, ts)
    | none => some (.same true, ts)
  | _ => none

/-- The operator of a sum that a sign stands for. -/
def sumSign? : String → Option BinaryOp
  | "+" => some .add
  | "-" => some .sub
  | _ => none

/-- The operator of a product that a sign stands for. -/
def productSign? : String → Option BinaryOp
  | "*" => some .mul
  | "/" => some .div
  | "//" => some .floorDiv
  | "%" => some .mod
  | _ => none

/-- The operator with one operand that a sign stands for. -/
def unarySign? : String → Option UnaryOp
  | "-" => some .negate
  | "+" => some .plus
  | _ => none

/-- The constant that a keyword stands for. -/
def constant? : String → Option Scalar
  | "None" => some .null
  | "True" => some (.bool true)
  | "False" => some (.bool false)
  | _ => none

/-- The texts that stand side by side: whether one of them is formatted, and all pieces. -/
def adjacentTexts : List Token → Bool × List Piece × List Token
  | .text f ps :: ts => let (g, more, after) := adjacentTexts ts; (f || g, ps ++ more, after)
  | ts => (false, [], ts)

/-- The bytes that stand side by side. -/
def adjacentBytes : List Token → List UInt8 × List Token
  | .bytes bs :: ts => let (more, after) := adjacentBytes ts; (bs ++ more, after)
  | ts => ([], ts)

/-- The characters of the pieces that are no names. -/
def plainText (ps : List Piece) : String :=
  String.join (ps.map fun | .text s => s | .name _ => "")

/-- Does the next token belong to a text or to bytes? -/
def startsLiteral : List Token → Bool
  | .text .. :: _ | .bytes _ :: _ => true
  | _ => false

/-- What follows an argument: a comma is skipped, and a closing bracket is left. -/
def argumentEnd? (ts : List Token) : Option (List Token) :=
  match sign? "," ts with
  | some ts => some ts
  | none => (sign? ")" ts).map fun _ => ts

mutual

/-- An expression: a condition between two values, or anything tighter. -/
def expression : Nat → List Token → Option (Expr × List Token)
  | 0, _ => none
  | n + 1, ts => do
    let (e, ts) ← disjunction n ts
    match keyword? "if" ts with
    | none => some (e, ts)
    | some ts =>
      let (condition, ts) ← disjunction n ts
      let ts ← keyword? "else" ts
      let (no, ts) ← expression n ts
      some (.conditional condition e no, ts)

/-- Alternatives joined by `or`. -/
def disjunction : Nat → List Token → Option (Expr × List Token)
  | 0, _ => none
  | n + 1, ts => do
    let (e, ts) ← conjunction n ts
    match keyword? "or" ts with
    | none => some (e, ts)
    | some ts =>
      let (f, ts) ← disjunction n ts
      some (.or e f, ts)

/-- Conditions joined by `and`. -/
def conjunction : Nat → List Token → Option (Expr × List Token)
  | 0, _ => none
  | n + 1, ts => do
    let (e, ts) ← inversion n ts
    match keyword? "and" ts with
    | none => some (e, ts)
    | some ts =>
      let (f, ts) ← conjunction n ts
      some (.and e f, ts)

/-- A condition, perhaps negated. -/
def inversion : Nat → List Token → Option (Expr × List Token)
  | 0, _ => none
  | n + 1, ts =>
    match keyword? "not" ts with
    | some ts => do
      let (e, ts) ← inversion n ts
      some (.not e, ts)
    | none => do
      let (e, ts) ← sum n ts
      let (rest, ts) ← comparisons n ts
      some (if rest.isEmpty then e else .compare e rest, ts)

/-- The comparisons that follow an operand. -/
def comparisons : Nat → List Token → Option (List (CompareOp × Expr) × List Token)
  | 0, _ => none
  | n + 1, ts =>
    match comparison? ts with
    | none => some ([], ts)
    | some (op, ts) => do
      let (e, ts) ← sum n ts
      let (rest, ts) ← comparisons n ts
      some ((op, e) :: rest, ts)

/-- A sum. -/
def sum : Nat → List Token → Option (Expr × List Token)
  | 0, _ => none
  | n + 1, ts => do
    let (e, ts) ← product n ts
    sumTail n e ts

/-- What is added to a sum. -/
def sumTail : Nat → Expr → List Token → Option (Expr × List Token)
  | 0, _, _ => none
  | n + 1, e, ts =>
    match signOf? sumSign? ts with
    | none => some (e, ts)
    | some (op, ts) => do
      let (f, ts) ← product n ts
      sumTail n (.binary op e f) ts

/-- A product. -/
def product : Nat → List Token → Option (Expr × List Token)
  | 0, _ => none
  | n + 1, ts => do
    let (e, ts) ← factor n ts
    productTail n e ts

/-- What a product is multiplied or divided by. -/
def productTail : Nat → Expr → List Token → Option (Expr × List Token)
  | 0, _, _ => none
  | n + 1, e, ts =>
    match signOf? productSign? ts with
    | none => some (e, ts)
    | some (op, ts) => do
      let (f, ts) ← factor n ts
      productTail n (.binary op e f) ts

/-- A signed factor or a power. -/
def factor : Nat → List Token → Option (Expr × List Token)
  | 0, _ => none
  | n + 1, ts =>
    match signOf? unarySign? ts with
    | some (op, ts) => do
      let (e, ts) ← factor n ts
      some (.unary op e, ts)
    | none => do
      let (e, ts) ← atom n ts
      let (e, ts) ← trailers n e ts
      match sign? "**" ts with
      | none => some (e, ts)
      | some ts =>
        let (f, ts) ← factor n ts
        some (.binary .pow e f, ts)

/-- The attributes, subscripts and calls that follow an operand. -/
def trailers : Nat → Expr → List Token → Option (Expr × List Token)
  | 0, _, _ => none
  | n + 1, e, ts =>
    match sign? "." ts, sign? "[" ts, sign? "(" ts with
    | some ts, _, _ => do
      let (a, ts) ← name? ts
      trailers n (.attribute e a) ts
    | _, some ts, _ => do
      let (i, ts) ← expressions n ts
      let ts ← sign? "]" ts
      trailers n (.subscript e i) ts
    | _, _, some ts => do
      let (args, keys, ts) ← arguments n [] ts
      trailers n (.call e args keys) ts
    | none, none, none => some (e, ts)

/-- The arguments of a call up to its closing bracket, given the keywords already used: values
    first, then values under distinct keywords. -/
def arguments : Nat → List String → List Token →
    Option (List Expr × List (String × Expr) × List Token)
  | 0, _, _ => none
  | n + 1, used, ts =>
    match sign? ")" ts, argumentName? ts with
    | some ts, _ => some ([], [], ts)
    | none, some (k, ts) =>
      if used.contains k then none
      else do
        let (e, ts) ← expression n ts
        let ts ← argumentEnd? ts
        let (args, keys, ts) ← arguments n (k :: used) ts
        some (args, (k, e) :: keys, ts)
    | none, none =>
      if !used.isEmpty then none
      else do
        let (e, ts) ← expression n ts
        let ts ← argumentEnd? ts
        let (args, keys, ts) ← arguments n used ts
        some (e :: args, keys, ts)

/-- Expressions up to the closing bracket, and whether a comma stands behind the last. -/
def items : Nat → String → List Token → Option (List Expr × Bool × List Token)
  | 0, _, _ => none
  | n + 1, close, ts =>
    match sign? close ts with
    | some ts => some ([], false, ts)
    | none => item n close ts

/-- An expression and whatever follows it up to the closing bracket. -/
def item : Nat → String → List Token → Option (List Expr × Bool × List Token)
  | 0, _, _ => none
  | n + 1, close, ts => do
    let (e, ts) ← expression n ts
    match sign? "," ts with
    | some ts =>
      let (es, _, ts) ← items n close ts
      some (e :: es, true, ts)
    | none =>
      let ts ← sign? close ts
      some ([e], false, ts)

/-- What stands in braces: a dictionary if a colon follows the first expression, or else a set. -/
def braced : Nat → List Token → Option (Expr × List Token)
  | 0, _ => none
  | n + 1, ts =>
    match sign? "\x7d" ts with
    | some ts => some (.dict [], ts)
    | none => do
      let (k, ts) ← expression n ts
      match sign? ":" ts, sign? "," ts with
      | some ts, _ =>
        let (v, ts) ← expression n ts
        let (es, ts) ← entryTail n ts
        some (.dict ((k, v) :: es), ts)
      | none, some ts =>
        let (es, _, ts) ← items n "\x7d" ts
        some (.set (k :: es), ts)
      | none, none =>
        let ts ← sign? "\x7d" ts
        some (.set [k], ts)

/-- The entries of a dictionary behind its first, up to the closing brace. -/
def entryTail : Nat → List Token → Option (List (Expr × Expr) × List Token)
  | 0, _ => none
  | n + 1, ts =>
    match sign? "\x7d" ts with
    | some ts => some ([], ts)
    | none => do
      let ts ← sign? "," ts
      match sign? "\x7d" ts with
      | some ts => some ([], ts)
      | none =>
        let (k, ts) ← expression n ts
        let ts ← sign? ":" ts
        let (v, ts) ← expression n ts
        let (es, ts) ← entryTail n ts
        some ((k, v) :: es, ts)

/-- A name, a literal, or something in brackets. -/
def atom : Nat → List Token → Option (Expr × List Token)
  | 0, _ => none
  | n + 1, ts =>
    match ts with
    | .name s :: ts => some (.name s, ts)
    | .keyword k :: ts => (constant? k).map fun s => (.constant s, ts)
    | .number s :: ts => some (.constant s, ts)
    | .text .. :: _ =>
      let (formatted, ps, ts) := adjacentTexts ts
      if startsLiteral ts then none
      else some (if formatted then .formatted ps else .constant (.text (plainText ps)), ts)
    | .bytes _ :: _ =>
      let (bs, ts) := adjacentBytes ts
      if startsLiteral ts then none else some (.constant (.bytes bs), ts)
    | .sign "..." :: ts => some (.constant .ellipsis, ts)
    | .sign "(" :: ts => do
      let (es, comma, ts) ← items n ")" ts
      match es, comma with
      | [e], false => some (e, ts)
      | es, _ => some (.tuple es, ts)
    | .sign "[" :: ts => do
      let (es, _, ts) ← items n "]" ts
      some (.list es, ts)
    | .sign "\x7b" :: ts => braced n ts
    | _ => none

/-- Expressions with commas between them: one value, or a tuple. -/
def expressions : Nat → List Token → Option (Expr × List Token)
  | 0, _ => none
  | n + 1, ts => do
    let (e, ts) ← expression n ts
    match sign? "," ts with
    | none => some (e, ts)
    | some _ =>
      let (es, ts) ← expressionTail n ts
      some (.tuple (e :: es), ts)

/-- The expressions that follow commas; the last comma may have none. -/
def expressionTail : Nat → List Token → Option (List Expr × List Token)
  | 0, _ => none
  | n + 1, ts =>
    match sign? "," ts with
    | none => some ([], ts)
    | some ts =>
      if startsExpression ts then do
        let (e, ts) ← expression n ts
        let (es, ts) ← expressionTail n ts
        some (e :: es, ts)
      else some ([], ts)

end

/-- The fuel with which a list of tokens can be read to its end. -/
def fuelFor (ts : List Token) : Nat :=
  20 * (ts.length + 1)

/-- The expression that a text consists of, if it is one of those that are read here. -/
def Expr.parse? (cs : List Char) : Option Expr := do
  let ts ← tokens? cs
  let (e, ts) ← expressions (fuelFor ts) ts
  if ts.all (fun t => t matches .newline) then some e else none

/-! ## Statements -/

mutual

/-- The target that an expression writes, if it is one. -/
def Expr.target? : Expr → Option Target
  | .name n => some (.name n)
  | .tuple es => (listTargets? es).map .tuple
  | .list es => (listTargets? es).map .tuple
  | _ => none

/-- The targets that expressions write. -/
def listTargets? : List Expr → Option (List Target)
  | [] => some []
  | e :: es => do
    let t ← e.target?
    let ts ← listTargets? es
    some (t :: ts)

end

/-- The operator of an assignment that changes its target. -/
def augmentOp? (s : String) : Option BinaryOp :=
  match s with
  | "+=" => some .add | "-=" => some .sub | "*=" => some .mul | "/=" => some .div
  | "//=" => some .floorDiv | "%=" => some .mod | "**=" => some .pow
  | _ => none

/-- What is evaluated when a part of a value is annotated: the value, and the index if there is
    one. -/
def annotated? : Expr → Option Expr
  | .attribute e _ => some e
  | .subscript e i => some (.tuple [e, i])
  | _ => none

/-- The rest of an assignment: targets separated by `=`, the last of them the value.  An annotation
    may stand in place of all but the first. -/
def assignment : Nat → List Expr → List Token → Option (Stmt × List Token)
  | 0, _, _ => none
  | n + 1, before, ts => do
    let (e, ts) ← expressions n ts
    match ts with
    | .sign "=" :: ts => assignment n (e :: before) ts
    | .sign ":" :: ts =>
      let part ← if before.isEmpty then annotated? e else none
      let (_, ts) ← expression n ts
      some (.expr part, ts)
    | ts =>
      let targets ← listTargets? before.reverse
      some (if before.isEmpty then .expr e else .assign targets e, ts)

/-- Does a statement that is one line end here? -/
def endsSimple : List Token → Bool
  | .newline :: _ | .sign ";" :: _ => true
  | _ => false

/-- A statement that is one line or part of one. -/
def simple (n : Nat) (ts : List Token) : Option (Stmt × List Token) :=
  match ts with
  | .keyword "pass" :: ts => some (.pass, ts)
  | .keyword "break" :: ts => some (.stop, ts)
  | .keyword "continue" :: ts => some (.skip, ts)
  | .keyword "return" :: ts =>
    if endsSimple ts then some (.ret none, ts)
    else (expressions n ts).map fun (e, ts) => (.ret (some e), ts)
  | .keyword "raise" :: ts =>
    if endsSimple ts then some (.raise none, ts)
    else (expression n ts).map fun (e, ts) => (.raise (some e), ts)
  | .name x :: .sign ":" :: ts => do
    let (a, ts) ← expression n ts
    match ts with
    | .sign "=" :: ts =>
      let (e, ts) ← expressions n ts
      some (.annotate x a (some e), ts)
    | ts => some (.annotate x a none, ts)
  | .name x :: .sign s :: rest =>
    match augmentOp? s with
    | some op => (expressions n rest).map fun (e, ts) => (.augment x op e, ts)
    | none => assignment n [] ts
  | ts => assignment n [] ts

/-- The statements of one line, to its end. -/
def simpleLine : Nat → List Token → Option (List Stmt × List Token)
  | 0, _ => none
  | n + 1, ts => do
    let (s, ts) ← simple n ts
    match ts with
    | .newline :: ts => some ([s], ts)
    | .sign ";" :: .newline :: ts => some ([s], ts)
    | .sign ";" :: ts =>
      let (ss, ts) ← simpleLine n ts
      some (s :: ss, ts)
    | _ => none

/-- The target of a loop, up to the word `in`. -/
def loopTarget (ts : List Token) : Option (Target × List Token) := do
  let before := ts.takeWhile fun t => !(t matches .keyword "in")
  let (e, rest) ← expressions (fuelFor before) before
  let t ← e.target?
  if rest.isEmpty then some (t, ts.drop before.length) else none

mutual

/-- A statement, of one line or with blocks; a line may hold several. -/
def statement : Nat → List Token → Option (List Stmt × List Token)
  | 0, _ => none
  | n + 1, ts =>
    match ts with
    | .keyword "if" :: ts => do
      let (s, ts) ← conditional n ts
      some ([s], ts)
    | .keyword "for" :: ts => do
      let (target, ts) ← loopTarget ts
      let .keyword "in" :: ts := ts | none
      let (e, ts) ← expressions n ts
      let .sign ":" :: ts := ts | none
      let (body, ts) ← block n ts
      match ts with
      | .keyword "else" :: .sign ":" :: ts =>
        let (otherwise, ts) ← block n ts
        some ([.each target e body otherwise], ts)
      | ts => some ([.each target e body []], ts)
    | ts => simpleLine n ts

/-- A condition with its blocks, behind the word that opens it. -/
def conditional : Nat → List Token → Option (Stmt × List Token)
  | 0, _ => none
  | n + 1, ts => do
    let (condition, ts) ← expression n ts
    let .sign ":" :: ts := ts | none
    let (yes, ts) ← block n ts
    match ts with
    | .keyword "elif" :: ts =>
      let (s, ts) ← conditional n ts
      some (.branch condition yes [s], ts)
    | .keyword "else" :: .sign ":" :: ts =>
      let (no, ts) ← block n ts
      some (.branch condition yes no, ts)
    | ts => some (.branch condition yes [], ts)

/-- A block: indented statements, or the rest of the line. -/
def block : Nat → List Token → Option (List Stmt × List Token)
  | 0, _ => none
  | n + 1, ts =>
    match ts with
    | .newline :: .indent :: ts => do
      let (ss, ts) ← statements n ts
      let .dedent :: ts := ts | none
      if ss.isEmpty then none else some (ss, ts)
    | ts => simpleLine n ts

/-- Statements up to the end of their block. -/
def statements : Nat → List Token → Option (List Stmt × List Token)
  | 0, _ => none
  | n + 1, ts =>
    match ts with
    | [] => some ([], [])
    | .dedent :: _ => some ([], ts)
    | ts => do
      let (ss, ts) ← statement n ts
      let (more, ts) ← statements n ts
      some (ss ++ more, ts)

end

/-- The names of parameters, up to the closing bracket. -/
def parameters : List Token → Option (List String × List Token)
  | .sign ")" :: ts => some ([], ts)
  | .name p :: .sign ")" :: ts => some ([p], ts)
  | .name p :: .sign "," :: ts => do
    let (ps, ts) ← parameters ts
    some (p :: ps, ts)
  | _ => none

/-! ## What the grammar alone does not rule out -/

mutual

/-- Does every `return` stand in a function, and every `break` and `continue` in a loop? -/
def Stmt.wellPlaced (inFunction inLoop : Bool) : Stmt → Bool
  | .ret _ => inFunction
  | .stop | .skip => inLoop
  | .branch _ yes no =>
    listWellPlaced inFunction inLoop yes && listWellPlaced inFunction inLoop no
  | .each _ _ body otherwise =>
    listWellPlaced inFunction true body && listWellPlaced inFunction inLoop otherwise
  | _ => true

/-- All of the statements are well placed. -/
def listWellPlaced (inFunction inLoop : Bool) : List Stmt → Bool
  | [] => true
  | s :: ss => s.wellPlaced inFunction inLoop && listWellPlaced inFunction inLoop ss

end

/-- The program that a text consists of: one function, then statements.  A program outside the part of
    the language that is read here is none. -/
def Program.parse? (cs : List Char) : Option Program := do
  let ts ← tokens? cs
  let .keyword "def" :: .name name :: .sign "(" :: rest := ts | none
  let (ps, rest) ← parameters rest
  let .sign ":" :: rest := rest | none
  let (body, rest) ← block (fuelFor ts) rest
  let (trailing, rest) ← statements (fuelFor ts) rest
  if rest.isEmpty && listWellPlaced true false body && listWellPlaced false false trailing then
    some ⟨⟨name, ps, body⟩, trailing⟩
  else none

end LetTag.Script
