/-
  Values as JSON text.

  Tuples are written as arrays, and everything outside ASCII by its UTF-16 units.  Doubles keep
  their shortest digits; the three that JSON has no number for are written as words.  Keys may be
  texts, numbers, truth values or null, and become texts.  A `Style` says whether keys are sorted
  (as they are before they become texts, so they must be comparable), whether the text is spread
  over lines, and whether what JSON cannot hold is written as its text or refused.
-/
import LetTag.Value.Equal
import LetTag.Value.Shown
import LetTag.Value.Describe

namespace LetTag.Json

open Number Text

/-- Why a value has no JSON text. -/
inductive WriteError where
  | badKey (type : String)
  | mixedKeys (left right : String)
  | unsupported (type : String)
  | tooManyDigits
  deriving DecidableEq, Repr

/-- What is said about it. -/
def WriteError.message : WriteError → String
  | badKey t => "keys must be str, int, float, bool or None, not " ++ t
  | mixedKeys l r => "'<' not supported between instances of '" ++ l ++ "' and '" ++ r ++ "'"
  | unsupported t => "Object of type " ++ t ++ " is not JSON serializable"
  | tooManyDigits => "Exceeds the limit (4300 digits) for integer string conversion; "
      ++ "use sys.set_int_max_str_digits() to increase the limit"

/-- How JSON is written. -/
structure Style where
  sorted : Bool
  indented : Bool
  lenient : Bool

/-! ## Scalars -/

/-- The UTF-16 units of a character. -/
def units (c : Char) : List Nat :=
  let n := c.toNat
  if n < 0x10000 then [n] else [0xD800 + (n - 0x10000) / 0x400, 0xDC00 + (n - 0x10000) % 0x400]

/-- A character inside a JSON string. -/
def escape (c : Char) : List Char :=
  match c with
  | '"' => ['\\', '"']
  | '\\' => ['\\', '\\']
  | '\n' => ['\\', 'n']
  | '\r' => ['\\', 'r']
  | '\t' => ['\\', 't']
  | '\x08' => ['\\', 'b']
  | '\x0c' => ['\\', 'f']
  | c =>
    if 32 ≤ c.toNat && c.toNat < 127 then [c]
    else (units c).flatMap fun u => '\\' :: 'u' :: hexDigits 4 u

/-- A text as a JSON string. -/
def string (s : List Char) : List Char :=
  '"' :: s.flatMap escape ++ ['"']

/-- Numbers keep the `.0` of a whole double. -/
def numberLayout : Layout :=
  ⟨['.', '0'], "Infinity".toList, "NaN".toList⟩

/-- A scalar as JSON. -/
def scalar (style : Style) : Scalar → Except WriteError (List Char)
  | .null => .ok "null".toList
  | .bool b => .ok (if b then "true" else "false").toList
  | .int n => if withinDigitLimit n then .ok (intText n) else .error .tooManyDigits
  | .float x => .ok (numberLayout.float x)
  | .text s => .ok (string s.toList)
  | s => if style.lenient then .ok (string s.shown) else .error (.unsupported s.typeName)

/-- A key as the text of a JSON string. -/
def keyText : Value → Except WriteError (List Char)
  | .text s => .ok s.toList
  | .scalar (.builtin b) => .error (.badKey (Scalar.builtin b).typeName)
  | .scalar (.complex re im) => .error (.badKey (Scalar.complex re im).typeName)
  | .scalar (.bytes bs) => .error (.badKey (Scalar.bytes bs).typeName)
  | .scalar .ellipsis => .error (.badKey Scalar.ellipsis.typeName)
  | .scalar s => scalar ⟨false, false, false⟩ s
  | v => .error (.badKey v.typeName)

/-! ## Order of the keys -/

/-- Is one key less than another? -/
def isLess (a b : Value) : Except WriteError Bool :=
  match a.ordered .lt b with
  | .ok less => .ok less
  | .error (l, r) => .error (.mixedKeys l r)

/-- The entries in front of which each key is less than the one before (`down`), or none is; `last`
    is the key before them.  Then come the entries behind them. -/
def runFrom {α : Type} (down : Bool) (last : Value) :
    List (Value × α) → Except WriteError (List (Value × α) × List (Value × α))
  | [] => .ok ([], [])
  | (k, x) :: es => do
    if (← isLess k last) == down then
      let (run, rest) ← runFrom down k es
      .ok ((k, x) :: run, rest)
    else .ok ([], (k, x) :: es)

/-- The entries in front that are in order, or were in falling order and are turned round; and the
    entries behind them. -/
def firstRun {α : Type} :
    List (Value × α) → Except WriteError (List (Value × α) × List (Value × α))
  | (k, x) :: (l, y) :: es => do
    let down ← isLess l k
    let (run, rest) ← runFrom down l es
    let run := (k, x) :: (l, y) :: run
    .ok (if down then run.reverse else run, rest)
  | es => .ok (es, [])

/-- The place of a key among entries in order, behind those that are not greater; it is searched
    between two places by halving. -/
def placeOf {α : Type} (key : Value) (es : Array (Value × α)) :
    Nat → Nat → Nat → Except WriteError Nat
  | 0, low, _ => .ok low
  | fuel + 1, low, high => do
    let middle := (low + high) / 2
    match if low < high then es[middle]? else none with
    | none => .ok low
    | some (k, _) =>
      if ← isLess key k then placeOf key es fuel low middle
      else placeOf key es fuel (middle + 1) high

/-- The entries in the order of their keys, which must be comparable.  Keys that compare with nothing
    make no order, so it matters how it is found: each entry behind the first run is put into its
    place. -/
def sortByKey {α : Type} (es : List (Value × α)) : Except WriteError (List (Value × α)) := do
  let (run, rest) ← firstRun es
  let sorted ← rest.foldlM (fun (acc : Array (Value × α)) (k, x) => do
    let place ← placeOf k acc (acc.size + 1) 0 acc.size
    .ok ((acc.take place).push (k, x) ++ acc.drop place)) run.toArray
  .ok sorted.toList

/-! ## Values -/

/-- A line end and the indentation of a level. -/
def newline (level : Nat) : List Char :=
  '\n' :: List.replicate (2 * level) ' '

/-- Items between brackets. -/
def bracketed (style : Style) (level : Nat) (opening closing : Char) (items : List (List Char)) :
    List Char :=
  if items.isEmpty then [opening, closing]
  else if style.indented then
    opening :: newline (level + 1) ++ List.intercalate (',' :: newline (level + 1)) items
      ++ newline level ++ [closing]
  else opening :: List.intercalate [',', ' '] items ++ [closing]

/-- Entries between braces. -/
def braced (style : Style) (level : Nat) (entries : List (Value × List Char)) :
    Except WriteError (List Char) := do
  let entries ← if style.sorted then sortByKey entries else .ok entries
  let items ← entries.mapM fun (k, v) => do .ok (string (← keyText k) ++ ':' :: ' ' :: v)
  .ok (bracketed style level '\x7b' '\x7d' items)

mutual

/-- The JSON text of a value at a level of indentation. -/
def render (style : Style) (level : Nat) : Value → Except WriteError (List Char)
  | .scalar s => scalar style s
  | .list items => do
    .ok (bracketed style level '[' ']' (← renderList style (level + 1) items))
  | .tuple items => do
    .ok (bracketed style level '[' ']' (← renderList style (level + 1) items))
  | .dict entries => do braced style level (← renderEntries style (level + 1) entries)
  | v => if style.lenient then .ok (string v.shown) else .error (.unsupported v.typeName)

/-- The JSON texts of the items. -/
def renderList (style : Style) (level : Nat) : List Value → Except WriteError (List (List Char))
  | [] => .ok []
  | x :: xs => do
    let t ← render style level x
    let ts ← renderList style level xs
    .ok (t :: ts)

/-- The keys with the JSON texts of their values. -/
def renderEntries (style : Style) (level : Nat) :
    List (Value × Value) → Except WriteError (List (Value × List Char))
  | [] => .ok []
  | (k, v) :: es => do
    let t ← render style level v
    let ts ← renderEntries style level es
    .ok ((k, t) :: ts)

end

/-- The JSON text of the description of a value. -/
def write (style : Style) (v : Value) : Except WriteError (List Char) :=
  render style 0 v.describe

/-- Descriptions travel on one line with sorted keys, and hold nothing foreign to JSON. -/
def descriptionStyle : Style :=
  ⟨true, false, false⟩

/-- Results of calls too, but what JSON cannot hold is written as text. -/
def resultStyle : Style :=
  ⟨true, false, true⟩

/-- Responses keep the order of their keys. -/
def responseStyle : Style :=
  ⟨false, false, true⟩

/-- Objects are shown over several lines. -/
def shownStyle : Style :=
  ⟨false, true, true⟩

end LetTag.Json

namespace LetTag.Value

/-- The value as it would be written in a script, if it can be written. -/
def written (v : Value) : Except Json.WriteError (List Char) :=
  if v.writable then .ok v.shown else .error .tooManyDigits

/-- The value as text for a reader: a text as it is, a variable as its value, an object as its
    description, and anything else as it would be written. -/
def display : Value → Except Json.WriteError (List Char)
  | text s => .ok s.toList
  | var _ v _ => v.display
  | object i t v ms rs gs => Json.write Json.shownStyle (object i t v ms rs gs)
  | v => v.written

end LetTag.Value
