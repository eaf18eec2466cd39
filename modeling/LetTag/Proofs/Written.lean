/-
  What values are written as: nested texts without a separator at top level.

  A text or some bytes become a literal in which the quote, the backslash and every line end are
  escaped, and everything else that has parts stands in brackets.  So whatever is inside a value, its
  text is `Nested`, commas and colons stand only inside its brackets, and no blank stands at its ends
  (`Value.isShown`).  Nor does it begin as `object` does (`Value.shown_head`), which is all else that a
  declaration looks at.
-/
import LetTag.Proofs.Nesting
import LetTag.Value.Shown

namespace LetTag

open Text Arrow

/-! ## Quoted texts -/

namespace Text

/-- The sixteen digits. -/
def hexDigitChars : List Char :=
  "0123456789abcdef".toList

theorem mem_toDigits_hex (n : Nat) : ∀ c ∈ Nat.toDigits 16 n, c ∈ hexDigitChars := by
  have hdigit : ∀ d < 16, d.digitChar ∈ hexDigitChars := by decide
  induction n using Nat.strongRecOn with
  | ind n ih =>
    intro c hc
    by_cases hn : n < 16
    · rw [Nat.toDigits_of_lt_base hn] at hc
      rw [List.mem_singleton.mp hc]
      exact hdigit n hn
    · rw [Nat.toDigits_of_base_le (by omega) (by omega)] at hc
      rcases List.mem_append.mp hc with hc | hc
      · exact ih (n / 16) (by omega) c hc
      · rw [List.mem_singleton.mp hc]
        exact hdigit _ (Nat.mod_lt n (by omega))

theorem mem_hexDigits (width n : Nat) : ∀ c ∈ hexDigits width n, c ∈ hexDigitChars := by
  intro c hc
  rcases List.mem_append.mp hc with hc | hc
  · rw [List.eq_of_mem_replicate hc]
    decide
  · exact mem_toDigits_hex n c hc

/-- A property of every character that ends a line. -/
theorem of_isBreak {p : Char → Prop}
    (h : ∀ n ∈ [10, 11, 12, 13, 28, 29, 30, 0x85, 0x2028, 0x2029], p (Char.ofNat n)) {c : Char}
    (hc : isBreak c = true) : p c := by
  have hmem : c.toNat ∈ [10, 11, 12, 13, 28, 29, 30, 0x85, 0x2028, 0x2029] := by
    simp only [isBreak, Bool.or_eq_true, Bool.and_eq_true, decide_eq_true_eq, beq_iff_eq] at hc
    simp only [List.mem_cons, List.not_mem_nil, or_false]
    omega
  have hp := h _ hmem
  rwa [Char.ofNat_toNat] at hp

/-- No line end is printable. -/
theorem not_break_of_printable (c : Char) (h : isPrintable c = true) : isBreak c = false := by
  refine Bool.eq_false_iff.mpr fun hbreak => ?_
  rw [of_isBreak (p := fun c => isPrintable c = false) (by decide +kernel) hbreak] at h
  cases h

theorem isQuote_quoteFor (s : List Char) : Quoting.isQuote (quoteFor s) = true := by
  unfold quoteFor
  split
  · rfl
  · rfl

end Text

/-- Two texts that may stand in a literal may stand in it one behind the other. -/
theorem Arrow.Enclosed.append {q : Char} {v w : List Char} (hv : Enclosed q v) (hw : Enclosed q w) :
    Enclosed q (v ++ w) := by
  induction hv with
  | nil => exact hw
  | plain hc hfeed hquote _ ih => exact .plain hc hfeed hquote ih
  | escaped hfeed _ ih => exact .escaped hfeed ih

/-- A text without backslashes, line feeds and the quote may stand in it. -/
theorem Arrow.Enclosed.of_plain {q : Char} {w : List Char}
    (h : ∀ c ∈ w, c ≠ '\\' ∧ c ≠ '\n' ∧ c ≠ q) : Enclosed q w := by
  induction w with
  | nil => exact .nil
  | cons c w ih =>
    obtain ⟨⟨hc, hfeed, hquote⟩, hw⟩ := List.forall_mem_cons.mp h
    exact .plain hc hfeed hquote (ih hw)

/-- What stands between the quotes: closed in itself, and on one line. -/
def IsBody (q : Char) (w : List Char) : Prop :=
  Enclosed q w ∧ ∀ c ∈ w, isBreak c = false

theorem IsBody.append {q : Char} {v w : List Char} (hv : IsBody q v) (hw : IsBody q w) :
    IsBody q (v ++ w) :=
  ⟨hv.1.append hw.1, List.forall_mem_append.mpr ⟨hv.2, hw.2⟩⟩

/-- A code point is written with an escape and digits. -/
theorem isBody_codeEscape {q : Char} (hq : Quoting.isQuote q = true) (n : Nat) :
    IsBody q (codeEscape n) := by
  have hdigits : ∀ q, Quoting.isQuote q = true → ∀ c ∈ hexDigitChars,
      (c ≠ '\\' ∧ c ≠ '\n' ∧ c ≠ q) ∧ isBreak c = false := by
    intro q hq
    rcases Bool.or_eq_true_iff.mp hq with hq | hq
    · rw [eq_of_beq hq]
      decide
    · rw [eq_of_beq hq]
      decide
  have hbody : ∀ width (x : Char), x ≠ '\n' → isBreak x = false →
      IsBody q ('\\' :: x :: hexDigits width n) := by
    intro width x hfeed hbreak
    have hhex := fun c hc => hdigits q hq c (mem_hexDigits width n c hc)
    refine ⟨.escaped hfeed (.of_plain fun c hc => (hhex c hc).1), ?_⟩
    refine List.forall_mem_cons.mpr ⟨by decide, List.forall_mem_cons.mpr ⟨hbreak, ?_⟩⟩
    exact fun c hc => (hhex c hc).2
  unfold codeEscape
  split
  · exact hbody 2 'x' (by decide) (by decide)
  · split
    · exact hbody 4 'u' (by decide) (by decide)
    · exact hbody 8 'U' (by decide) (by decide)

/-- So is every other character, unless it is one that needs no escape. -/
theorem isBody_escapeIn {plain : Char → Bool} (hplain : ∀ c, plain c = true → isBreak c = false)
    {q : Char} (hq : Quoting.isQuote q = true) (c : Char) : IsBody q (escapeIn plain q c) := by
  have hbreak := (isQuote_mark hq).2.2.1
  have hescaped : ∀ x : Char, x ≠ '\n' → isBreak x = false → IsBody q ['\\', x] := by
    intro x hfeed hx
    refine ⟨.escaped hfeed .nil, ?_⟩
    exact List.forall_mem_cons.mpr ⟨by decide, List.forall_mem_singleton.mpr hx⟩
  unfold escapeIn
  split
  · rename_i hc
    rcases hc with rfl | rfl
    · refine hescaped c ?_ hbreak
      rintro rfl
      cases hbreak
    · exact hescaped '\\' (by decide) (by decide)
  · rename_i hother
    split
    · exact hescaped 'n' (by decide) (by decide)
    · rename_i hfeed
      split
      · exact hescaped 'r' (by decide) (by decide)
      · split
        · exact hescaped 't' (by decide) (by decide)
        · split
          · rename_i hc
            refine ⟨.plain (fun h => hother (Or.inr h)) hfeed (fun h => hother (Or.inl h)) .nil, ?_⟩
            exact List.forall_mem_singleton.mpr (hplain c hc)
          · exact isBody_codeEscape hq c.toNat

/-- A text whose characters are escaped one by one may stand in a literal on one line. -/
theorem isBody_flatMap {plain : Char → Bool} (hplain : ∀ c, plain c = true → isBreak c = false)
    {q : Char} (hq : Quoting.isQuote q = true) (s : List Char) :
    IsBody q (s.flatMap (escapeIn plain q)) := by
  induction s with
  | nil => exact ⟨.nil, fun c hc => absurd hc List.not_mem_nil⟩
  | cons c s ih =>
    rw [List.flatMap_cons]
    exact (isBody_escapeIn hplain hq c).append ih

theorem quoted_nested (seps s : List Char) : Nested seps (quoted s) := by
  have hq := isQuote_quoteFor s
  obtain ⟨hbody, hbreak⟩ := isBody_flatMap not_break_of_printable hq s
  have hliteral : Nested seps (quoteFor s :: (s.flatMap (escapeIn isPrintable (quoteFor s))
      ++ quoteFor s :: [])) := .literal hq hbody hbreak .nil
  exact hliteral

theorem quotedBytes_nested {seps : List Char} (hb : 'b' ∉ seps) (bs : List UInt8) :
    Nested seps (quotedBytes bs) := by
  have hq := isQuote_quoteFor (bs.map fun b => Char.ofNat b.toNat)
  have hplain : ∀ c, (isPrintable c && decide (c.toNat < 128)) = true → isBreak c = false :=
    fun c hc => not_break_of_printable c (Bool.and_eq_true_iff.mp hc).1
  obtain ⟨hbody, hbreak⟩ := isBody_flatMap hplain hq (bs.map fun b => Char.ofNat b.toNat)
  exact .plain (by decide) hb (.literal hq hbody hbreak .nil)

/-! ## Literals -/

namespace Value

mutual

/-- Is the value one that literals write: nothing, truth values, integers, texts and bytes, and lists,
    tuples and dictionaries of these? -/
def IsLiteral : Value → Prop
  | null | bool _ | int _ | text _ | scalar (.bytes _) => True
  | list xs => ItemsLiteral xs
  | tuple xs => ItemsLiteral xs
  | dict es => EntriesLiteral es
  | _ => False

/-- All items are such values. -/
def ItemsLiteral : List Value → Prop
  | [] => True
  | x :: xs => x.IsLiteral ∧ ItemsLiteral xs

/-- All keys are such values, and what they lead to. -/
def EntriesLiteral : List (Value × Value) → Prop
  | [] => True
  | (k, v) :: es => k.IsLiteral ∧ v.IsLiteral ∧ EntriesLiteral es

end
end Value

/-- The separators of lists and entries. -/
def separators : List Char :=
  [',', ':']

/-- A text in which nothing is open and no separator bare, with no blank at its ends. -/
structure IsShown (w : List Char) : Prop where
  nested : Nested separators w
  nonempty : w ≠ []
  first : ∀ c, w.head? = some c → isBlank c = false
  last : ∀ c, w.getLast? = some c → isBlank c = false

theorem IsShown.trim_eq {w : List Char} (h : IsShown w) : trim w = w :=
  trim_of_ends h.first h.last

/-- Texts without bare separators, joined with plain characters. -/
theorem Nested.join {seps sep : List Char} {ws : List (List Char)}
    (hsep : ∀ c ∈ sep, isPlain c = true ∧ c ∉ seps) (h : ∀ w ∈ ws, Nested seps w) :
    Nested seps (Text.join sep ws) := by
  induction ws with
  | nil => exact .nil
  | cons w ws ih =>
    obtain ⟨hw, hws⟩ := List.forall_mem_cons.mp h
    cases ws with
    | nil => rwa [join_singleton]
    | cons v vs =>
      rw [join_cons_cons]
      exact hw.append ((of_plain hsep).append (ih hws))

/-- Brackets around nested texts with commas between them. -/
theorem isShown_group {o c : Char} (hpair : (o, c) ∈ bracketPairs) {inner : List Char}
    (h : Nested [] inner) : IsShown (o :: inner ++ [c]) where
  nested := by
    have hgroup : Nested separators (o :: (inner ++ c :: [])) := .group hpair h .nil
    exact hgroup
  nonempty := List.cons_ne_nil _ _
  first d hd := by
    have ho : ∀ p ∈ bracketPairs, isBlank p.1 = false := by decide
    rw [← Option.some.inj hd]
    exact ho _ hpair
  last d hd := by
    have hc : ∀ p ∈ bracketPairs, isBlank p.2 = false := by decide
    rw [List.getLast?_concat] at hd
    rw [← Option.some.inj hd]
    exact hc _ hpair

/-- Plain characters that are no blanks. -/
theorem isShown_of_plain {w : List Char} (hne : w ≠ [])
    (h : ∀ c ∈ w, (isPlain c = true ∧ c ∉ separators) ∧ isBlank c = false) : IsShown w where
  nested := .of_plain fun c hc => (h c hc).1
  nonempty := hne
  first c hc := (h c (List.mem_of_mem_head? hc)).2
  last c hc := (h c (List.mem_of_getLast? hc)).2

/-- What word characters are and are not. -/
theorem isWord_plain {c : Char} (h : isWord c = true) :
    (isPlain c = true ∧ c ∉ separators) ∧ isBlank c = false := by
  have hmarks : ∀ d ∈ "'\"()[]\x7b\x7d;>,:".toList, isWord d = false := by decide
  have hmark : ∀ d, isWord d = false → c ≠ d := by
    rintro d hd rfl
    rw [h] at hd
    cases hd
  have hbreak : isBreak c = false := Bool.eq_false_iff.mpr fun hb => by
    rw [of_isBreak (p := fun c => isWord c = false) (by decide +kernel) hb] at h
    cases h
  have hblank : isBlank c = false := Bool.eq_false_iff.mpr fun hb => by
    rw [isWord_of_isBlank hb] at h
    cases h
  have hne : ∀ d ∈ "'\"()[]\x7b\x7d;>,:".toList, (c == d) = false :=
    fun d hd => beq_false_of_ne (hmark d (hmarks d hd))
  refine ⟨⟨?_, ?_⟩, hblank⟩
  · unfold isPlain Quoting.isQuote isOpener isCloser
    rw [hbreak, hne '\'' (by decide), hne '"' (by decide), hne '(' (by decide), hne '[' (by decide),
      hne '\x7b' (by decide), hne ')' (by decide), hne ']' (by decide), hne '\x7d' (by decide),
      hne ';' (by decide), hne '>' (by decide)]
    rfl
  · intro hm
    rcases List.mem_cons.mp hm with rfl | hm
    · exact hmark ',' (by decide) rfl
    · exact hmark ':' (by decide) (List.mem_singleton.mp hm)

theorem isWord_of_isDigit {c : Char} (h : c.isDigit = true) : isWord c = true :=
  isWord_of_alphanum (by rw [Char.isAlphanum, h, Bool.or_true, Bool.true_or])

theorem isWord_of_mem_toDigits {n : Nat} {c : Char} (h : c ∈ Nat.toDigits 10 n) : isWord c = true :=
  isWord_of_isDigit (Nat.isDigit_of_mem_toDigits (by omega) (by omega) h)

theorem isShown_int (n : Int) : IsShown (Number.intText n) := by
  have hdigits : ∀ c ∈ Nat.toDigits 10 n.natAbs,
      (isPlain c = true ∧ c ∉ separators) ∧ isBlank c = false :=
    fun c hc => isWord_plain (isWord_of_mem_toDigits hc)
  unfold Number.intText Number.digitsOf
  split
  · refine isShown_of_plain (List.cons_ne_nil _ _) ?_
    exact List.forall_mem_cons.mpr ⟨by decide, hdigits⟩
  · exact isShown_of_plain Nat.toDigits_ne_nil hdigits

/-- A closed literal. -/
theorem isShown_quoted (s : List Char) : IsShown (quoted s) where
  nested := quoted_nested separators s
  nonempty := List.cons_ne_nil _ _
  first c hc := by
    rw [← Option.some.inj hc]
    exact (isQuote_class (isQuote_quoteFor s)).1
  last c hc := by
    rw [quoted, List.getLast?_concat] at hc
    rw [← Option.some.inj hc]
    exact (isQuote_class (isQuote_quoteFor s)).1

theorem isShown_bytes (bs : List UInt8) : IsShown (quotedBytes bs) where
  nested := quotedBytes_nested (by decide) bs
  nonempty := List.cons_ne_nil _ _
  first c hc := by
    rw [← Option.some.inj hc]
    decide
  last c hc := by
    rw [quotedBytes, List.getLast?_concat] at hc
    rw [← Option.some.inj hc]
    exact (isQuote_class (isQuote_quoteFor _)).1

theorem comma_plain : ∀ c ∈ [',', ' '], isPlain c = true ∧ c ∉ ([] : List Char) := by
  decide

/-- Shown texts with commas between them are nested where commas may stand. -/
theorem nested_commas {ws : List (List Char)} (h : ∀ w ∈ ws, Nested [] w) :
    Nested [] (Value.commas ws) :=
  Nested.join comma_plain h

namespace Value

theorem shown_tuple_one (x : Value) : (tuple [x]).shown = '(' :: x.shown ++ [',', ')'] := rfl

/-- A tuple of more than one item has commas between its items only. -/
theorem shown_tuple_more (x y : Value) (xs : List Value) :
    (tuple (x :: y :: xs)).shown = '(' :: commas (shownList (x :: y :: xs)) ++ [')'] := rfl

mutual

/-- **The text of a literal has nothing open and nothing bare in it.** -/
theorem isShown : ∀ {v : Value}, v.IsLiteral → IsShown v.shown
  | null, _ => isShown_of_plain (by decide) (by decide)
  | bool true, _ => isShown_of_plain (by decide) (by decide)
  | bool false, _ => isShown_of_plain (by decide) (by decide)
  | int n, _ => isShown_int n
  | text s, _ => isShown_quoted s.toList
  | scalar (.bytes bs), _ => isShown_bytes bs
  | list _, h => isShown_group (by decide) (nested_commas (nested_shownList h))
  | tuple [], _ => isShown_group (by decide) .nil
  | tuple [x], h => by
    have hx : Nested [] x.shown := (isShown h.1).nested.mono fun c hc => absurd hc List.not_mem_nil
    have hinner : Nested [] (x.shown ++ [',']) := hx.append (.plain (by decide) (by decide) .nil)
    have hshown : (tuple [x]).shown = '(' :: (x.shown ++ [',']) ++ [')'] := by
      rw [List.cons_append, List.append_assoc]
      exact shown_tuple_one x
    rw [hshown]
    exact isShown_group (by decide) hinner
  | tuple (x :: y :: xs), h => by
    have hinner : Nested [] (commas (shownList (x :: y :: xs))) := nested_commas (nested_shownList h)
    rw [shown_tuple_more]
    exact isShown_group (by decide) hinner
  | dict _, h => isShown_group (by decide) (nested_commas (nested_shownEntries h))

theorem nested_shownList : ∀ {xs : List Value}, ItemsLiteral xs → ∀ w ∈ shownList xs, Nested [] w
  | [], _ => fun w hw => absurd hw List.not_mem_nil
  | x :: xs, h => by
    have hx := (isShown h.1).nested.mono fun c hc => absurd hc List.not_mem_nil
    exact List.forall_mem_cons.mpr ⟨hx, nested_shownList h.2⟩

theorem nested_shownEntries : ∀ {es : List (Value × Value)}, EntriesLiteral es →
    ∀ w ∈ shownEntries es, Nested [] w
  | [], _ => fun w hw => absurd hw List.not_mem_nil
  | (k, v) :: es, h => by
    have hk := (isShown h.1).nested.mono fun c hc => absurd hc List.not_mem_nil
    have hv := (isShown h.2.1).nested.mono fun c hc => absurd hc List.not_mem_nil
    have hentry : Nested [] (k.shown ++ ':' :: ' ' :: v.shown) :=
      hk.append (.plain (by decide) (by decide) (.plain (by decide) (by decide) hv))
    exact List.forall_mem_cons.mpr ⟨hentry, nested_shownEntries h.2.2⟩

end

/-- It does not begin as a call of `object`. -/
theorem shown_head {v : Value} (h : v.IsLiteral) : v.shown.head? ≠ some 'o' := by
  have hquote : ∀ s : List Char, (quoted s).head? ≠ some 'o' := by
    intro s he
    have hq := isQuote_quoteFor s
    rw [Option.some.inj he] at hq
    cases hq
  cases v with
  | scalar s =>
    cases s with
    | null => decide
    | bool b =>
      cases b with
      | false => decide
      | true => decide
    | int n =>
      show (Number.intText n).head? ≠ some 'o'
      unfold Number.intText
      split
      · exact fun he => absurd (Option.some.inj he) (by decide)
      · intro he
        have hdigit := Nat.isDigit_of_mem_toDigits (by omega) (by omega) (List.mem_of_mem_head? he)
        cases hdigit
    | text t => exact hquote t.toList
    | bytes bs => exact fun he => absurd (Option.some.inj he) (by decide)
    | _ => exact h.elim
  | list xs => exact fun he => absurd (Option.some.inj he) (by decide)
  | tuple xs =>
    cases xs with
    | nil => decide
    | cons x xs =>
      cases xs with
      | nil => exact fun he => absurd (Option.some.inj he) (by decide)
      | cons y ys =>
        rw [shown_tuple_more]
        exact fun he => absurd (Option.some.inj he) (by decide)
  | dict es => exact fun he => absurd (Option.some.inj he) (by decide)
  | _ => exact h.elim

end Value

end LetTag
