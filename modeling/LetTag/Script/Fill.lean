/-
  Texts with slots to fill: `"%s has %d items" % (name, count)`.

  A slot begins with `%`.  It may name a key of the mapping that fills the text, in parentheses;
  then come flags, a width and a precision, each of which may be a `*` that takes it from the
  values, a size that means nothing, and the letter that says how the value is written.  Slots take
  their values one by one, and all values of a tuple must be taken.
-/
import LetTag.Number.Rounded
import LetTag.Script.Arithmetic
import LetTag.Script.Part

namespace LetTag.Script

open Number Text

/-- A slot: its flags, its width, its precision and its letter. -/
structure Slot where
  left : Bool
  plus : Bool
  blank : Bool
  marked : Bool
  zeros : Bool
  width : Nat
  precision : Option Nat
  letter : Char

/-! ## Padding -/

/-- Something without a sign, padded with spaces. -/
def Slot.padText (slot : Slot) (s : List Char) : List Char :=
  let gap := List.replicate (slot.width - s.length) ' '
  if slot.left then s ++ gap else gap ++ s

/-- A number, padded with spaces or, between its sign and its digits, with zeros. -/
def Slot.padNumber (slot : Slot) (s : List Char) : List Char :=
  let (sign, s) := match s with
    | '-' :: s => (['-'], s)
    | s => (if slot.plus then ['+'] else if slot.blank then [' '] else [], s)
  let mark := if slot.marked && "oxX".toList.contains slot.letter then s.take 2 else []
  let digits := s.drop mark.length
  let gap := slot.width - (sign.length + s.length)
  if slot.zeros && !slot.left then sign ++ mark ++ List.replicate gap '0' ++ digits
  else slot.padText (sign ++ s)

/-- Something padded in one of these ways, if the width allows it. -/
def Slot.padded (slot : Slot) (pad : Slot → List Char → List Char) (s : List Char) :
    Work (List Char) :=
  if slot.width > itemLimit then fail .outOfMemory else return pad slot s

/-! ## Values -/

/-- A text as far as the precision goes. -/
def Slot.cutText (slot : Slot) (s : List Char) : List Char :=
  match slot.precision with
  | some n => s.take n
  | none => s

/-- The integer that a value becomes; doubles lose their fraction. -/
def Slot.integer (slot : Slot) (v : Value) : Work Int := do
  let refused (wanted : String) : Work Int :=
    fail (.badCall ("%" ++ String.singleton slot.letter ++ " format: " ++ wanted
      ++ " is required, not " ++ v.typeName))
  match times? v, v with
  | some n, _ => return n
  | none, .scalar (.float x) =>
    if "oxX".toList.contains slot.letter then refused "an integer"
    else ofExcept (integerPart x)
  | none, _ =>
    refused (if "oxX".toList.contains slot.letter then "an integer" else "a real number")

/-- The text of an integer, at least as many digits as the precision says. -/
def Slot.integerText (slot : Slot) (n : Int) : Work (List Char) := do
  let (base, mark) : Nat × List Char := match slot.letter with
    | 'o' => (8, ['0', 'o'])
    | 'x' | 'X' => (16, ['0', 'x'])
    | _ => (10, [])
  if base = 10 && !withinDigitLimit n then fail (.unwritable .tooManyDigits)
  let ds := Nat.toDigits base n.natAbs
  let zeros := List.replicate (slot.precision.getD 0 - ds.length) '0'
  let s := (if slot.marked then mark else []) ++ zeros ++ ds
  let s := if slot.letter = 'X' then s.map Char.toUpper else s
  return (if n < 0 then ['-'] else []) ++ s

/-- The text of a double. -/
def Slot.floatText (slot : Slot) (v : Value) : Work (List Char) := do
  let x ← match v with
    | .scalar s => match s.numeric? with
      | some (.complex ..) | none => fail (.badCall ("must be real number, not " ++ v.typeName))
      | some x => ofExcept (toFloat x)
    | _ => fail (.badCall ("must be real number, not " ++ v.typeName))
  let form : FloatForm := match slot.letter.toLower with
    | 'e' => .scientific
    | 'f' => .fixed
    | _ => .general
  let s := form.text slot.marked (slot.precision.getD 6) x
  return if slot.letter.isUpper then s.map Char.toUpper else s

/-- The character that a value is or has as its number. -/
def charFrom (v : Value) : Work Char := do
  match v, times? v with
  | .text s, _ => match s.toList with
    | [c] => return c
    | _ => fail (.badCall "%c requires int or char")
  | _, some n =>
    if 0 ≤ n ∧ n < 0x110000 then return (charOf? n.toNat).getD '\ufffd'
    else fail (.overflow "%c arg not in range(0x110000)")
  | _, none => fail (.badCall "%c requires int or char")

/-- The text of a value in a slot whose letter stands at an index. -/
def Slot.text (slot : Slot) (index : Nat) (v : Value) : Work (List Char) := do
  let w ← view v
  match slot.letter with
  | 's' => slot.padded Slot.padText (slot.cutText (← displayed v).toList)
  | 'r' => slot.padded Slot.padText (slot.cutText (← ofWriting (← whole v).written))
  | 'a' =>
    let ascii (c : Char) : List Char := if c.toNat < 128 then [c] else codeEscape c.toNat
    slot.padded Slot.padText (slot.cutText ((← ofWriting (← whole v).written).flatMap ascii))
  | 'd' | 'i' | 'u' | 'o' | 'x' | 'X' =>
    slot.padded Slot.padNumber (← slot.integerText (← slot.integer w))
  | 'e' | 'E' | 'f' | 'F' | 'g' | 'G' => slot.padded Slot.padNumber (← slot.floatText w)
  | 'c' => slot.padded Slot.padText [← charFrom w]
  | c =>
    let shown := if 31 ≤ c.toNat && c.toNat < 126 then c else '?'
    fail (.badValue ("unsupported format character '" ++ String.singleton shown ++ "' (0x"
      ++ String.ofList (Nat.toDigits 16 c.toNat) ++ ") at index " ++ toString index))

/-! ## Slots -/

/-- A filling under way: the text ahead, the values that are left, and the mapping if the text is
    filled by one. -/
structure Filling where
  ahead : List Char
  values : List Value
  mapping : Option Value

namespace Filling

/-- Takes the next value. -/
def takeValue (f : Filling) : Work (Value × Filling) :=
  match f.values with
  | v :: vs => return (v, { f with values := vs })
  | [] => fail (.badCall "not enough arguments for format string")

/-- The key behind an opening parenthesis, with `depth` more of them open, and what follows it. -/
def key? : Nat → List Char → List Char → Option (List Char × List Char)
  | _, _, [] => none
  | 0, held, ')' :: rest => some (held.reverse, rest)
  | depth + 1, held, ')' :: rest => key? depth (')' :: held) rest
  | depth, held, '(' :: rest => key? (depth + 1) ('(' :: held) rest
  | depth, held, c :: rest => key? depth (c :: held) rest

/-- Looks up the key that a slot names; what stands there is the only value left. -/
def lookUp (f : Filling) : Work Filling := do
  match f.ahead, f.mapping with
  | '(' :: _, none => fail (.badCall "format requires a mapping")
  | '(' :: rest, some m => match key? 0 [] rest with
    | none => fail (.badValue "incomplete format key")
    | some (key, rest) =>
      return ⟨rest, [← subscripted m (.text (String.ofList key))], f.mapping⟩
  | _, _ => return f

/-- A width or a precision, if one stands ahead: digits, or a value if there is a `*`. -/
def measure (f : Filling) (name type : String) (limit : Nat) : Work (Option Int × Filling) := do
  match f.ahead with
  | '*' :: rest =>
    let (v, f) ← f.takeValue
    match times? (← view v) with
    | none => fail (.badCall "* wants int")
    | some n =>
      if n > limit || n < -(limit : Int) - 1 then
        fail (.overflow ("Python int too large to convert to C " ++ type))
      return (some n, { f with ahead := rest })
  | s =>
    match s.takeWhile Char.isDigit with
    | [] => return (none, f)
    | ds =>
      if ofDigits 10 ds > limit then fail (.badValue (name ++ " too big"))
      return (some (ofDigits 10 ds), { f with ahead := s.drop ds.length })

/-- The slot ahead, behind its `%`. -/
def slot (f : Filling) : Work (Slot × Filling) := do
  let f ← f.lookUp
  let flags := f.ahead.takeWhile "-+ #0".toList.contains
  let f := { f with ahead := f.ahead.drop flags.length }
  let (width, f) ← f.measure "width" "ssize_t" (twoTo 63 - 1)
  let width := width.getD 0
  let (precision, f) ← match f.ahead with
    | '.' :: rest => do
      let (n, f) ← { f with ahead := rest }.measure "precision" "int" (twoTo 31 - 1)
      pure (some (n.getD 0).toNat, f)
    | _ => pure (none, f)
  let sized := f.ahead.head?.any "hlL".toList.contains
  match if sized then f.ahead.tail else f.ahead with
  | [] => fail (.badValue "incomplete format")
  | letter :: rest =>
    return ({ left := flags.contains '-' || width < 0, plus := flags.contains '+'
              blank := flags.contains ' ', marked := flags.contains '#'
              zeros := flags.contains '0', width := width.natAbs, precision, letter },
      { f with ahead := rest })

/-- Fills the text ahead, of which so many characters are left at most; `length` is that of the
    whole text. -/
def run (length : Nat) : Nat → Filling → Work (List Char)
  | 0, _ => return []
  | n + 1, f => match f.ahead with
    | [] =>
      if f.values.isEmpty || f.mapping.isSome then return []
      else fail (.badCall "not all arguments converted during string formatting")
    | '%' :: '%' :: rest => do
      let more ← run length n { f with ahead := rest }
      return '%' :: more
    | '%' :: rest => do
      let (slot, f) ← { f with ahead := rest }.slot
      let (v, f) ← f.takeValue
      let s ← slot.text (length - f.ahead.length - 1) v
      let more ← run length n f
      return s ++ more
    | c :: rest => do
      let more ← run length n { f with ahead := rest }
      return c :: more

end Filling

/-- The text filled with the items of a tuple, with one value, or with what a mapping holds. -/
def fill (s : List Char) (v : Value) : Work (List Char) := do
  let (values, mapping) : List Value × Option Value := match ← view v with
    | .tuple xs => (xs, none)
    | .list _ | .dict _ | .object .. | .scalar (.bytes _) => ([v], some v)
    | _ => ([v], none)
  Filling.run s.length (s.length + 1) ⟨s, values, mapping⟩

end LetTag.Script
