/-
  Values as YAML text.

  What can be written as JSON is written as YAML, in block style: an item behind `- `, an entry as
  `key: value` with its keys in order, a collection under its key, and empty collections as `[]` and
  `{}`.  A sequence under a key is not indented further.  A text is written bare if it is read back
  as that text, else in single quotes, and in double quotes if it holds anything but printable ASCII
  and line feeds.  Where a line is longer than eighty columns it is folded at the next space.
  Keys that are empty, long or of several lines stand behind `? `.

  A piece of the document is a list of lines; `margin` is the column at which they start, and only
  the lines of folded texts depend on it.
-/
import LetTag.Json.Reader
import LetTag.Json.Writer
import LetTag.Yaml.Plain

namespace LetTag.Yaml

open Number Text

/-- The column behind which lines are folded. -/
def width : Nat := 80

/-- Texts of at least that many characters are no simple keys. -/
def keyLimit : Nat := 123

/-! ## How a text is quoted -/

/-- Quotes around a scalar. -/
inductive Quotes where
  | bare | single | double
  deriving DecidableEq, Repr

/-- Is `c` a character that only double quotes can hold? -/
def isSpecial (c : Char) : Bool :=
  c != '\n' && !(32 ≤ c.toNat && c.toNat < 127)

/-- Does `c` end a line of a scalar? -/
def endsLine (c : Char) : Bool :=
  let n := c.toNat
  n == 10 || n == 0x85 || n == 0x2028 || n == 0x2029

/-- Do two characters that satisfy `p` and `q` stand side by side? -/
def adjoin (p q : Char → Bool) (s : List Char) : Bool :=
  (s.zip s.tail).any fun (a, b) => p a && q b

/-- Is there blank space, or nothing, at the start of the text? -/
def opensBlank (s : List Char) : Bool :=
  s.head?.all (· == ' ')

/-- Would the text, standing bare, begin something else than a scalar, or end as one early? -/
def hasIndicator (s : List Char) : Bool :=
  let opening : Bool := match s with
    | c :: rest =>
      "#,[]\x7b\x7d&*!|>'\"%@\x60".toList.contains c || "?:-".toList.contains c && opensBlank rest
    | [] => false
  "---".toList.isPrefixOf s || "...".toList.isPrefixOf s || opening
    || adjoin (· == ':') (· == ' ') s || s.getLast? == some ':' || adjoin (· == ' ') (· == '#') s

/-- Can the text stand in single quotes?  Line ends and spaces must not meet. -/
def allowsSingle (s : List Char) : Bool :=
  !s.any isSpecial && !adjoin endsLine (· == ' ') s && !adjoin (· == ' ') endsLine s

/-- Can the text stand bare? -/
def allowsBare (s : List Char) : Bool :=
  allowsSingle s && !s.any endsLine && s.head? != some ' ' && s.getLast? != some ' '
    && !hasIndicator s && Plain.of s == .text

/-- The quotes for a text. -/
def quotesFor (s : List Char) : Quotes :=
  if allowsBare s then .bare else if allowsSingle s then .single else .double

/-! ## Folded lines -/

/-- Puts something in front of the first of several lines. -/
def extend (start : List Char) : List (List Char) → List (List Char)
  | [] => [start]
  | line :: more => (start ++ line) :: more

/-- The runs of spaces, of line feeds and of other characters in a text. -/
def runs (s : List Char) : List (List Char) :=
  let kind (c : Char) : Nat := if c == ' ' then 0 else if c == '\n' then 1 else 2
  s.splitBy fun a b => kind a == kind b

/-- The lines of a bare text, or of one in single quotes up to the closing one, from its runs.  A
    single space behind the width becomes the end of a line; a line feed becomes two of them. -/
def foldRuns (fold : Bool) (margin column : Nat) (first : Bool) :
    List (List Char) → List (List Char)
  | [] => [[]]
  | run :: rest =>
    if run == [' '] && fold && column > width && !first && !rest.isEmpty then
      [] :: foldRuns fold margin margin false rest
    else if run.head? == some '\n' then
      [] :: List.replicate run.length [] ++ foldRuns fold margin margin false rest
    else extend run (foldRuns fold margin (column + run.length) false rest)

/-- The lines of a text that is not special. -/
def bareLines (fold : Bool) (margin column : Nat) (s : List Char) : List (List Char) :=
  foldRuns fold margin column true (runs s)

/-- The lines of a text in single quotes, a quote written twice. -/
def singleLines (fold : Bool) (margin column : Nat) (s : List Char) : List (List Char) :=
  let doubled := (runs s).map (·.flatMap fun c => if c == '\'' then [c, c] else [c])
  match (foldRuns fold margin (column + 1) true doubled).reverse with
  | [] => []
  | last :: before => extend ['\''] ((last ++ ['\'']) :: before).reverse

/-- Escapes of one letter. -/
def letterEscapes : List (Nat × Char) :=
  [(0, '0'), (7, 'a'), (8, 'b'), (9, 't'), (10, 'n'), (11, 'v'), (12, 'f'), (13, 'r'), (27, 'e'),
    (34, '"'), (92, '\\'), (0x85, 'N'), (0xA0, '_'), (0x2028, 'L'), (0x2029, 'P')]

/-- The escape of a character in double quotes, if it needs one. -/
def escape? (c : Char) : Option (List Char) :=
  let n := c.toNat
  let digits (w : Nat) : List Char := (hexDigits w n).map Char.toUpper
  match letterEscapes.lookup n with
  | some e => some ['\\', e]
  | none =>
    if 32 ≤ n && n < 127 then none
    else if n < 0x100 then some ('\\' :: 'x' :: digits 2)
    else if n < 0x10000 then some ('\\' :: 'u' :: digits 4)
    else some ('\\' :: 'U' :: digits 8)

/-- What a line that goes on inside double quotes begins with: a space there would be lost. -/
def resumption (s : List Char) : List Char :=
  if s.head? == some ' ' then ['\\'] else []

/-- The lines of a text in double quotes behind the opening one.  A line may end behind an escape,
    or before what follows it or a space. -/
def doubleFrom (fold : Bool) (margin column : Nat) (first escaped : Bool) :
    List Char → List (List Char)
  | [] => [['"']]
  | c :: rest =>
    let inside : Bool := fold && !first && !rest.isEmpty
    match escape? c with
    | some e =>
      let column := column + e.length
      if inside && column > width + 1 then
        let lead := resumption rest
        (e ++ ['\\'])
          :: extend lead (doubleFrom fold margin (margin + lead.length) false true rest)
      else extend e (doubleFrom fold margin column false true rest)
    | none =>
      if inside && (c == ' ' || escaped) && column > width then
        let lead := resumption [c] ++ [c]
        ['\\'] :: extend lead (doubleFrom fold margin (margin + lead.length) false false rest)
      else extend [c] (doubleFrom fold margin (column + 1) false false rest)

/-- The lines of a text in double quotes. -/
def doubleLines (fold : Bool) (margin column : Nat) (s : List Char) : List (List Char) :=
  extend ['"'] (doubleFrom fold margin (column + 1) true false s)

/-- The lines of a text, of which the first starts at `column`. -/
def textLines (fold : Bool) (margin column : Nat) (s : List Char) : List (List Char) :=
  match quotesFor s with
  | .bare => bareLines fold margin column s
  | .single => singleLines fold margin column s
  | .double => doubleLines fold margin column s

/-! ## Scalars -/

/-- Numbers keep their `.0`. -/
def numberLayout : Layout :=
  ⟨['.', '0'], ".inf".toList, ".nan".toList⟩

/-- The text of a double; an exponent needs a point before it. -/
def floatText (x : Float) : List Char :=
  let s := numberLayout.float x
  if s.contains '.' then s
  else s.flatMap fun c => if c == 'e' then ".0e".toList else [c]

/-- The lines of a value without parts, or of an empty collection. -/
def inlineLines (margin column : Nat) : Value → List (List Char)
  | .text s => textLines true margin column s.toList
  | .null => ["null".toList]
  | .bool b => [(if b then "true" else "false").toList]
  | .int n => [intText n]
  | .scalar (.float x) => [floatText x]
  | .list _ => ["[]".toList]
  | .dict _ => ["\x7b\x7d".toList]
  | v => textLines true margin column v.shown

/-! ## Collections -/

/-- Lines at a deeper margin; empty ones stay empty. -/
def deeper (ls : List (List Char)) : List (List Char) :=
  ls.map fun l => if l.isEmpty then l else ' ' :: ' ' :: l

/-- Lines behind an indicator of two columns. -/
def hang (indicator : Char) : List (List Char) → List (List Char)
  | [] => []
  | line :: more => (indicator :: ' ' :: line) :: deeper more

/-- Has the value lines of its own? -/
def isBlock : Value → Bool
  | .list items => !items.isEmpty
  | .dict entries => !entries.isEmpty
  | _ => false

/-- Can the key stand on the line of its value? -/
def isSimpleKey (key : List Char) : Bool :=
  !key.isEmpty && !key.any endsLine && key.length < keyLimit

/-- The lines of an entry, from its key, its value, and the lines of that value as a block of its
    own. -/
def entryLines (margin : Nat) (key : List Char) (value : Value) (block : List (List Char)) :
    List (List Char) :=
  if isSimpleKey key then
    let head := (textLines false margin margin key).flatten ++ [':']
    match value with
    | .list (_ :: _) => head :: block
    | .dict (_ :: _) => head :: deeper block
    | v =>
      match inlineLines (margin + 2) (margin + head.length + 1) v with
      | [] => [head]
      | line :: more => (head ++ ' ' :: line) :: deeper more
  else
    let behind := match value with
      | .list (_ :: _) | .dict (_ :: _) => block
      | v => inlineLines (margin + 2) (margin + 2) v
    hang '?' (textLines true (margin + 2) (margin + 2) key) ++ hang ':' behind

/-- The margin of the value in an entry: that of the entry for a sequence on lines of its own. -/
def valueMargin (margin : Nat) (key : List Char) : Value → Nat
  | .list _ => if isSimpleKey key then margin else margin + 2
  | _ => margin + 2

mutual

/-- The lines of a value. -/
def block (margin : Nat) : Value → List (List Char)
  | .list (x :: xs) => blockItems margin (x :: xs)
  | .dict (e :: es) =>
    let entries := blockEntries margin (e :: es)
    (((Json.sortByKey entries).toOption.getD entries).map Prod.snd).flatten
  | v => inlineLines margin margin v

/-- The lines of the items. -/
def blockItems (margin : Nat) : List Value → List (List Char)
  | [] => []
  | x :: xs => hang '-' (block (margin + 2) x) ++ blockItems margin xs

/-- The keys with the lines of their entries. -/
def blockEntries (margin : Nat) : List (Value × Value) → List (Value × List (List Char))
  | [] => []
  | (k, v) :: es =>
    let key := k.nameText.toList
    (k, entryLines margin key v (block (valueMargin margin key v) v)) :: blockEntries margin es

end

/-! ## Documents -/

/-- Is the value a bare scalar? -/
def isBare : Value → Bool
  | .text s => quotesFor s.toList == .bare
  | .scalar _ => true
  | _ => false

/-- The document that a value makes; behind a bare scalar its end is marked. -/
def document (v : Value) : List Char :=
  let ls := if isBlock v then block 0 v
    else match inlineLines 2 0 v with
      | [] => []
      | line :: more => line :: deeper more
  (ls ++ if isBare v then ["...".toList] else []).flatMap (· ++ ['\n'])

/-- The YAML text of the description of a value: the document of what its JSON text says. -/
def write (v : Value) : Except Json.WriteError (List Char) := do
  let text ← Json.write Json.descriptionStyle v
  .ok (document ((Json.read text).toOption.getD .null))

end LetTag.Yaml
