/-
  A JSON text that is written is read back.

  `Denotes` says what the texts of a value are when nothing is broken into lines: words, numbers and
  strings, and items and entries between brackets.  The reader gives the value of such a text
  (`valueFrom_of_denotes`), whatever stands behind it, if only that cannot belong to the text.  Its
  fuel is no concern: it is enough that it exceeds the length.  And what is written is such a text
  (`denotes_render`), of the value as JSON holds it (`Value.onWire`): tuples are lists, keys are
  texts, later entries count over earlier ones, and what JSON has no form for is a text.

  That the text of a double reads back is asked for, not proved (`ReadsBack`), as the arithmetic of
  doubles has no theory here.
-/
import LetTag.Proofs.JsonScalar
import LetTag.Proofs.Reconstruction

namespace LetTag

namespace Json

open Number

/-! ## Texts of values -/

/-- What stands between two items or entries. -/
def separator : List Char := [',', ' ']

mutual

/-- Is `t` a text of the value?  A word or a number is all that is read from it. -/
inductive Denotes : List Char → Value → Prop
  | word {t : List Char} {s : Scalar} : readWord t = .ok (.scalar s, []) → Denotes t (.scalar s)
  | text (s : List Char) : Denotes (string s) (.text (String.ofList s))
  | list {ts : List (List Char)} {xs : List Value} : ItemsDenote ts xs →
    Denotes ('[' :: List.intercalate separator ts ++ [']']) (.list xs)
  | dict {ts : List (List Char)} {es : List (Value × Value)} : EntriesDenote ts es →
    Denotes ('\x7b' :: List.intercalate separator ts ++ ['\x7d']) (.dict (Value.ofEntries es))

/-- Are these texts of the items? -/
inductive ItemsDenote : List (List Char) → List Value → Prop
  | nil : ItemsDenote [] []
  | cons {t : List Char} {x : Value} {ts : List (List Char)} {xs : List Value} : Denotes t x →
    ItemsDenote ts xs → ItemsDenote (t :: ts) (x :: xs)

/-- Are these texts of the entries, each with its key as a string in front? -/
inductive EntriesDenote : List (List Char) → List (Value × Value) → Prop
  | nil : EntriesDenote [] []
  | cons (k : List Char) {t : List Char} {v : Value} {ts : List (List Char)}
    {es : List (Value × Value)} : Denotes t v → EntriesDenote ts es →
    EntriesDenote ((string k ++ ':' :: ' ' :: t) :: ts) ((.text (String.ofList k), v) :: es)

end

/-! ## Reading -/

/-- No word and no number begins with a blank, a quote or a bracket. -/
theorem readWord_mark {c : Char}
    (hc : c ∈ [' ', '\t', '\n', '\r', '"', '[', ']', '\x7b', '\x7d']) (cs : List Char) :
    readWord (c :: cs) = .error .malformed := by
  simp only [List.mem_cons, List.not_mem_nil, or_false] at hc
  rcases hc with rfl | rfl | rfl | rfl | rfl | rfl | rfl | rfl | rfl
  all_goals rfl

/-- A word or a number begins with something else. -/
theorem exists_of_readWord {t after : List Char} {v : Value} (h : readWord t = .ok (v, after)) :
    ∃ c cs, t = c :: cs ∧ c ∉ [' ', '\t', '\n', '\r', '"', '[', ']', '\x7b', '\x7d'] := by
  cases t with
  | nil => cases h
  | cons c cs =>
    refine ⟨c, cs, rfl, fun hc => ?_⟩
    rw [readWord_mark hc] at h
    cases h

/-- A text of a value begins with no blank, and closes no bracket. -/
theorem Denotes.head {t : List Char} {v : Value} (h : Denotes t v) :
    ∃ c cs, t = c :: cs ∧ c ∉ [' ', '\t', '\n', '\r', ']', '\x7d'] := by
  cases h with
  | word hword =>
    obtain ⟨c, cs, rfl, hc⟩ := exists_of_readWord hword
    refine ⟨c, cs, rfl, ?_⟩
    simp only [List.mem_cons, List.not_mem_nil, or_false, not_or] at hc ⊢
    obtain ⟨h₁, h₂, h₃, h₄, -, -, h₅, -, h₆⟩ := hc
    exact ⟨h₁, h₂, h₃, h₄, h₅, h₆⟩
  | text s => exact ⟨'"', _, rfl, by decide⟩
  | list _ => exact ⟨'[', _, rfl, by decide⟩
  | dict _ => exact ⟨'\x7b', _, rfl, by decide⟩

/-- There is nothing to skip in front of what is no space. -/
theorem skipSpace_cons {c : Char} (hc : c ∉ [' ', '\t', '\n', '\r']) (cs : List Char) :
    skipSpace (c :: cs) = c :: cs := by
  have hspace : ¬ isSpace c = true := by
    unfold isSpace
    simp only [List.mem_cons, List.not_mem_nil, or_false, not_or] at hc
    simp [hc]
  rw [skipSpace, List.dropWhile_cons_of_neg hspace]

/-- Nothing is skipped in front of a text of a value. -/
theorem Denotes.skipSpace_append {t : List Char} {v : Value} (h : Denotes t v)
    (rest : List Char) : skipSpace (t ++ rest) = t ++ rest := by
  obtain ⟨c, cs, rfl, hc⟩ := h.head
  refine skipSpace_cons (fun hmem => hc ?_) _
  simp only [List.mem_cons, List.not_mem_nil, or_false] at hmem ⊢
  rcases hmem with h | h | h | h
  · exact .inl h
  · exact .inr (.inl h)
  · exact .inr (.inr (.inl h))
  · exact .inr (.inr (.inr (.inl h)))

/-- A closing bracket, a closing brace or a comma stops a word. -/
theorem stops_cons {c : Char} (hc : c ∈ [',', ']', '\x7d']) (cs : List Char) :
    Stops (c :: cs) := by
  intro d hd
  rw [← Option.some.inj hd]
  exact hc

theorem stops_nil : Stops [] := by
  intro c hc
  cases hc

/-- A text that does not begin a string or a bracket is read as a word. -/
theorem valueFrom_word {n : Nat} {c : Char} {cs : List Char} (hquote : c ≠ '"') (hlist : c ≠ '[')
    (hdict : c ≠ '\x7b') : valueFrom (n + 1) (c :: cs) = readWord (c :: cs) := by
  rw [valueFrom.eq_def]
  dsimp only
  split
  · rename_i heq
    exact absurd (List.cons.inj heq).1 hquote
  · rename_i heq
    exact absurd (List.cons.inj heq).1 hlist
  · rename_i heq
    exact absurd (List.cons.inj heq).1 hdict
  · rfl

/-- Items that do not close the bracket at once are read one by one. -/
theorem valueFrom_list {n : Nat} {cs after : List Char} {xs : List Value}
    (hspace : skipSpace cs = cs) (hhead : ∀ tail, cs ≠ ']' :: tail)
    (h : itemsFrom n cs = .ok (xs, after)) :
    valueFrom (n + 1) ('[' :: cs) = .ok (.list xs, after) := by
  simp only [valueFrom, hspace]
  rw [h]
  rfl

/-- So are entries that do not close the brace at once. -/
theorem valueFrom_dict {n : Nat} {cs after : List Char} {es : List (Value × Value)}
    (hspace : skipSpace cs = cs) (hhead : ∀ tail, cs ≠ '\x7d' :: tail)
    (h : entriesFrom n cs = .ok (es, after)) :
    valueFrom (n + 1) ('\x7b' :: cs) = .ok (.dict (Value.ofEntries es), after) := by
  simp only [valueFrom, hspace]
  rw [h]
  rfl

/-- A single item is read up to the bracket that closes the list. -/
theorem itemsFrom_last {n : Nat} {cs after : List Char} {x : Value}
    (h : valueFrom n cs = .ok (x, ']' :: after)) : itemsFrom (n + 1) cs = .ok ([x], after) := by
  rw [itemsFrom, h]
  rfl

/-- An item is read up to the separator, and then the other items. -/
theorem itemsFrom_next {n : Nat} {cs rest after : List Char} {x : Value} {xs : List Value}
    (h : valueFrom n cs = .ok (x, ',' :: ' ' :: rest)) (hspace : skipSpace rest = rest)
    (hrest : itemsFrom n rest = .ok (xs, after)) :
    itemsFrom (n + 1) cs = .ok (x :: xs, after) := by
  rw [itemsFrom, h]
  show (itemsFrom n (skipSpace rest)).bind _ = _
  rw [hspace, hrest]
  rfl

/-- The key of an entry is read, and then its value. -/
theorem entriesFrom_key {n : Nat} {cs : List Char} (k : List Char) (hspace : skipSpace cs = cs) :
    entriesFrom (n + 1) (string k ++ ':' :: ' ' :: cs)
      = (valueFrom n cs).bind fun r => match skipSpace r.2 with
        | '\x7d' :: after => .ok ([(.text (String.ofList k), r.1)], after)
        | ',' :: rest => (entriesFrom n (skipSpace rest)).bind fun e =>
          .ok ((.text (String.ofList k), r.1) :: e.1, e.2)
        | _ => .error .malformed := by
  have hkey : string k ++ ':' :: ' ' :: cs
      = '"' :: (k.flatMap escape ++ '"' :: ':' :: ' ' :: cs) := by
    simp only [string, List.cons_append, List.append_assoc, List.nil_append]
  rw [hkey, entriesFrom]
  show (readString (k.flatMap escape ++ '"' :: ':' :: ' ' :: cs)).bind _ = _
  rw [readString_string]
  show (valueFrom n (skipSpace cs)).bind _ = _
  rw [hspace]
  rfl

/-- An entry is read up to the brace that closes the dictionary. -/
theorem entriesFrom_last {n : Nat} {k cs after : List Char} {v : Value}
    (hspace : skipSpace cs = cs) (h : valueFrom n cs = .ok (v, '\x7d' :: after)) :
    entriesFrom (n + 1) (string k ++ ':' :: ' ' :: cs)
      = .ok ([(.text (String.ofList k), v)], after) := by
  rw [entriesFrom_key k hspace, h]
  rfl

/-- An entry is read up to the separator, and then the other entries. -/
theorem entriesFrom_next {n : Nat} {k cs rest after : List Char} {v : Value}
    {es : List (Value × Value)} (hspace : skipSpace cs = cs)
    (h : valueFrom n cs = .ok (v, ',' :: ' ' :: rest)) (hspace' : skipSpace rest = rest)
    (hrest : entriesFrom n rest = .ok (es, after)) :
    entriesFrom (n + 1) (string k ++ ':' :: ' ' :: cs)
      = .ok ((.text (String.ofList k), v) :: es, after) := by
  rw [entriesFrom_key k hspace, h]
  show (entriesFrom n (skipSpace rest)).bind _ = _
  rw [hspace', hrest]
  rfl

/-- Nothing is skipped in front of the texts of items, and they do not close the bracket. -/
theorem ItemsDenote.head {ts : List (List Char)} {xs : List Value} (h : ItemsDenote ts xs)
    (hne : ts ≠ []) (rest : List Char) :
    skipSpace (List.intercalate separator ts ++ rest) = List.intercalate separator ts ++ rest
      ∧ ∀ tail, List.intercalate separator ts ++ rest ≠ ']' :: tail := by
  cases h with
  | nil => exact absurd rfl hne
  | @cons t x ts xs ht hts =>
    obtain ⟨more, hmore⟩ : ∃ more, List.intercalate separator (t :: ts) = t ++ more := by
      cases ts with
      | nil => exact ⟨[], by rw [List.intercalate_singleton, List.append_nil]⟩
      | cons t' ts => exact ⟨_, by rw [List.intercalate_cons_cons, List.append_assoc]⟩
    rw [hmore, List.append_assoc]
    refine ⟨ht.skipSpace_append _, fun tail heq => ?_⟩
    obtain ⟨c, cs, rfl, hc⟩ := ht.head
    rw [(List.cons.inj heq).1] at hc
    exact hc (by decide)

/-- Nor in front of the texts of entries, which begin with a quote. -/
theorem EntriesDenote.head {ts : List (List Char)} {es : List (Value × Value)}
    (h : EntriesDenote ts es) (hne : ts ≠ []) (rest : List Char) :
    skipSpace (List.intercalate separator ts ++ rest) = List.intercalate separator ts ++ rest
      ∧ ∀ tail, List.intercalate separator ts ++ rest ≠ '\x7d' :: tail := by
  obtain ⟨more, hmore⟩ : ∃ more, List.intercalate separator ts ++ rest = '"' :: more := by
    cases h with
    | nil => exact absurd rfl hne
    | @cons k t v ts es _ _ =>
      cases ts with
      | nil => exact ⟨_, rfl⟩
      | cons t' ts =>
        rw [List.intercalate_cons_cons]
        exact ⟨_, rfl⟩
  rw [hmore]
  refine ⟨rfl, fun tail heq => ?_⟩
  exact absurd (List.cons.inj heq).1 (by decide)

mutual

/-- A text of a value is read as the value, if there is more fuel than text. -/
theorem valueFrom_of_denotes : ∀ {n : Nat} {t : List Char} {v : Value} {rest : List Char},
    Denotes t v → Stops rest → t.length < n → valueFrom n (t ++ rest) = .ok (v, rest)
  | 0, _, _, _, _, _, hn => absurd hn (Nat.not_lt_zero _)
  | n + 1, _, _, rest, .word h, hrest, _ => by
    obtain ⟨c, cs, rfl, hc⟩ := exists_of_readWord h
    simp only [List.mem_cons, List.not_mem_nil, or_false, not_or] at hc
    obtain ⟨-, -, -, -, hquote, hlist, -, hdict, -⟩ := hc
    rw [List.cons_append, valueFrom_word hquote hlist hdict]
    exact readWord_append hrest h
  | n + 1, _, _, rest, .text s, _, _ => by
    have hstring : string s ++ rest = '"' :: (s.flatMap escape ++ '"' :: rest) := by
      simp only [string, List.cons_append, List.append_assoc, List.nil_append]
    rw [hstring, valueFrom]
    show (readString (s.flatMap escape ++ '"' :: rest)).bind _ = _
    rw [readString_string]
    rfl
  | n + 1, _, _, rest, @Denotes.list ts _ h, _, hn => by
    cases ts with
    | nil =>
      cases h
      rfl
    | cons t ts =>
      obtain ⟨hspace, hhead⟩ := h.head (List.cons_ne_nil _ _) (']' :: rest)
      rw [List.cons_append, List.cons_append, List.append_assoc, List.singleton_append]
      refine valueFrom_list hspace hhead (itemsFrom_of_denote h (List.cons_ne_nil _ _) ?_)
      simp only [List.length_cons, List.length_append, List.length_nil] at hn
      omega
  | n + 1, _, _, rest, @Denotes.dict ts _ h, _, hn => by
    cases ts with
    | nil =>
      cases h
      rfl
    | cons t ts =>
      obtain ⟨hspace, hhead⟩ := h.head (List.cons_ne_nil _ _) ('\x7d' :: rest)
      rw [List.cons_append, List.cons_append, List.append_assoc, List.singleton_append]
      refine valueFrom_dict hspace hhead (entriesFrom_of_denote h (List.cons_ne_nil _ _) ?_)
      simp only [List.length_cons, List.length_append, List.length_nil] at hn
      omega

/-- So are the texts of items.  They need fuel for one step more than their length, which the brackets
    around them provide. -/
theorem itemsFrom_of_denote : ∀ {n : Nat} {ts : List (List Char)} {xs : List Value}
    {rest : List Char}, ItemsDenote ts xs → ts ≠ [] →
    (List.intercalate separator ts).length + 1 < n →
    itemsFrom n (List.intercalate separator ts ++ ']' :: rest) = .ok (xs, rest)
  | _, _, _, _, .nil, hne, _ => absurd rfl hne
  | 0, _, _, _, .cons _ _, _, hn => absurd hn (Nat.not_lt_zero _)
  | n + 1, _, _, rest, @ItemsDenote.cons t _ ts _ ht hts, _, hn => by
    cases ts with
    | nil =>
      cases hts
      rw [List.intercalate_singleton] at hn ⊢
      exact itemsFrom_last (valueFrom_of_denotes ht (stops_cons (by decide) _) (by omega))
    | cons t' ts =>
      have hne : t' :: ts ≠ [] := List.cons_ne_nil _ _
      rw [List.intercalate_cons_cons] at hn ⊢
      simp only [separator, List.length_append, List.length_cons, List.length_nil] at hn
      rw [List.append_assoc, List.append_assoc]
      refine itemsFrom_next (valueFrom_of_denotes ht (stops_cons (by decide) _) (by omega))
        (hts.head hne _).1 (itemsFrom_of_denote hts hne ?_)
      rw [separator]
      omega

/-- So are the texts of entries. -/
theorem entriesFrom_of_denote : ∀ {n : Nat} {ts : List (List Char)} {es : List (Value × Value)}
    {rest : List Char}, EntriesDenote ts es → ts ≠ [] →
    (List.intercalate separator ts).length + 1 < n →
    entriesFrom n (List.intercalate separator ts ++ '\x7d' :: rest) = .ok (es, rest)
  | _, _, _, _, .nil, hne, _ => absurd rfl hne
  | 0, _, _, _, .cons _ _ _, _, hn => absurd hn (Nat.not_lt_zero _)
  | n + 1, _, _, rest, @EntriesDenote.cons k t _ ts _ ht hts, _, hn => by
    cases ts with
    | nil =>
      cases hts
      rw [List.intercalate_singleton] at hn ⊢
      simp only [List.length_append, List.length_cons] at hn
      rw [List.append_assoc]
      exact entriesFrom_last (ht.skipSpace_append _)
        (valueFrom_of_denotes ht (stops_cons (by decide) _) (by omega))
    | cons t' ts =>
      have hne : t' :: ts ≠ [] := List.cons_ne_nil _ _
      rw [List.intercalate_cons_cons] at hn ⊢
      simp only [separator, List.length_append, List.length_cons, List.length_nil] at hn
      rw [List.append_assoc, List.append_assoc, List.append_assoc]
      refine entriesFrom_next (ht.skipSpace_append _)
        (valueFrom_of_denotes ht (stops_cons (by decide) _) (by omega))
        (hts.head hne _).1 (entriesFrom_of_denote hts hne ?_)
      rw [separator]
      omega

end

/-- **A text of a value is read as the value.** -/
theorem read_of_denotes {t : List Char} {v : Value} (h : Denotes t v) : read t = .ok v := by
  have hspace := h.skipSpace_append []
  have hvalue := valueFrom_of_denotes (n := 2 * t.length + 2) h stops_nil (by omega)
  rw [List.append_nil] at hspace hvalue
  rw [read, hspace]
  show (valueFrom (2 * t.length + 2) t).bind _ = _
  rw [hvalue]
  rfl

end Json

/-! ## Values on the wire -/

namespace Value

open Json

mutual

/-- The value as JSON holds it. -/
def onWire : Value → Value
  | scalar s => match s with
    | .null | .bool _ | .int _ | .float _ | .text _ => scalar s
    | s => text (String.ofList s.shown)
  | list xs => list (listOnWire xs)
  | tuple xs => list (listOnWire xs)
  | dict es => dict (ofEntries (entriesOnWire es))
  | v => text (String.ofList v.shown)

/-- The items as JSON holds them. -/
def listOnWire : List Value → List Value
  | [] => []
  | x :: xs => x.onWire :: listOnWire xs

/-- The entries as JSON holds them: their keys are texts. -/
def entriesOnWire : List (Value × Value) → List (Value × Value)
  | [] => []
  | (k, v) :: es =>
    (text (String.ofList ((keyText k).toOption.getD [])), v.onWire) :: entriesOnWire es

end

mutual

/-- The doubles that are written for a value. -/
def doubles : Value → List Float
  | scalar (.float x) => [x]
  | list xs => listDoubles xs
  | tuple xs => listDoubles xs
  | dict es => entriesDoubles es
  | _ => []

/-- Those of the items. -/
def listDoubles : List Value → List Float
  | [] => []
  | x :: xs => x.doubles ++ listDoubles xs

/-- Those of the entries, keys apart. -/
def entriesDoubles : List (Value × Value) → List Float
  | [] => []
  | (_, v) :: es => v.doubles ++ entriesDoubles es

end

end Value

namespace Json

open Number

/-- Does the text of the double read back? -/
def ReadsBack (x : Float) : Prop :=
  readWord (numberLayout.float x) = .ok (.scalar (.float x), [])

/-! ## Writing -/

/-- What JSON has no form for is written as a text, or not at all. -/
theorem denotes_foreign {style : Style} {shown t : List Char} {e : WriteError}
    (h : (if style.lenient then .ok (string shown) else .error e) = Except.ok t) :
    Denotes t (.text (String.ofList shown)) := by
  split at h
  · rw [← Except.ok.inj h]
    exact .text shown
  · cases h

/-- What a scalar is written as is a text of it. -/
theorem denotes_scalar {style : Style} {s : Scalar} {t : List Char}
    (h : scalar style s = .ok t) (hdoubles : ∀ x ∈ (Value.scalar s).doubles, ReadsBack x) :
    Denotes t (Value.scalar s).onWire := by
  cases s with
  | null =>
    rw [← Except.ok.inj h]
    exact .word rfl
  | bool b =>
    rw [← Except.ok.inj h]
    cases b with
    | true => exact .word rfl
    | false => exact .word rfl
  | int n =>
    rw [scalar] at h
    split at h
    · rename_i hn
      rw [← Except.ok.inj h]
      exact .word (readWord_int hn)
    · cases h
  | float x =>
    rw [← Except.ok.inj h]
    exact .word (hdoubles x List.mem_cons_self)
  | text s =>
    rw [← Except.ok.inj h]
    have htext : Denotes (string s.toList) (.text (String.ofList s.toList)) := .text _
    rw [String.ofList_toList] at htext
    exact htext
  | complex re im => exact denotes_foreign h
  | bytes bs => exact denotes_foreign h
  | ellipsis => exact denotes_foreign h
  | builtin b => exact denotes_foreign h

/-- On one line, items stand between brackets with separators between them. -/
theorem bracketed_eq {style : Style} (hlines : style.indented = false) (level : Nat)
    (opening closing : Char) (ts : List (List Char)) :
    bracketed style level opening closing ts
      = opening :: List.intercalate separator ts ++ [closing] := by
  cases ts with
  | nil => rfl
  | cons t ts =>
    show (if style.indented = true then _ else _) = _
    rw [hlines, if_neg Bool.false_ne_true]
    rfl

/-- An entry with its key as a string in front. -/
def entryText (e : Value × List Char) : Except WriteError (List Char) := do
  .ok (string (← keyText e.1) ++ ':' :: ' ' :: e.2)

/-- Entries that are not sorted stand between the braces as they come. -/
theorem exists_of_braced {style : Style} (hsorted : style.sorted = false)
    (hlines : style.indented = false) {level : Nat} {entries : List (Value × List Char)}
    {t : List Char} (h : braced style level entries = .ok t) : ∃ ts,
    entries.mapM entryText = .ok ts
      ∧ t = '\x7b' :: List.intercalate separator ts ++ ['\x7d'] := by
  rw [braced, hsorted, if_neg Bool.false_ne_true] at h
  obtain ⟨ts, hts, h⟩ : ∃ ts, entries.mapM entryText = .ok ts
      ∧ Except.ok (bracketed style level '\x7b' '\x7d' ts) = .ok t := exists_of_bind h
  rw [← Except.ok.inj h, bracketed_eq hlines]
  exact ⟨ts, hts, rfl⟩

mutual

/-- What a value is written as is a text of the value on the wire. -/
theorem denotes_render {style : Style} (hsorted : style.sorted = false)
    (hlines : style.indented = false) : ∀ {level : Nat} {v : Value} {t : List Char},
    render style level v = .ok t → (∀ x ∈ v.doubles, ReadsBack x) → Denotes t v.onWire
  | _, .scalar _, _, h, hdoubles => denotes_scalar h hdoubles
  | level, .list xs, _, h, hdoubles => by
    obtain ⟨ts, hts, h⟩ := exists_of_bind h
    rw [← Except.ok.inj h, bracketed_eq hlines]
    exact .list (itemsDenote_render hsorted hlines hts hdoubles)
  | level, .tuple xs, _, h, hdoubles => by
    obtain ⟨ts, hts, h⟩ := exists_of_bind h
    rw [← Except.ok.inj h, bracketed_eq hlines]
    exact .list (itemsDenote_render hsorted hlines hts hdoubles)
  | level, .dict es, _, h, hdoubles => by
    obtain ⟨entries, hentries, h⟩ := exists_of_bind h
    obtain ⟨ts, hts, rfl⟩ := exists_of_braced hsorted hlines h
    exact .dict (entriesDenote_render hsorted hlines hentries hts hdoubles)
  | _, .var .., _, h, _ => denotes_foreign h
  | _, .object .., _, h, _ => denotes_foreign h
  | _, .record .., _, h, _ => denotes_foreign h
  | _, .ref _, _, h, _ => denotes_foreign h

/-- What items are written as are texts of the items on the wire. -/
theorem itemsDenote_render {style : Style} (hsorted : style.sorted = false)
    (hlines : style.indented = false) : ∀ {level : Nat} {xs : List Value} {ts : List (List Char)},
    renderList style level xs = .ok ts → (∀ x ∈ Value.listDoubles xs, ReadsBack x) →
    ItemsDenote ts (Value.listOnWire xs)
  | _, [], _, h, _ => by
    rw [← Except.ok.inj h]
    exact .nil
  | _, x :: xs, _, h, hdoubles => by
    obtain ⟨t, ht, h⟩ := exists_of_bind h
    obtain ⟨ts, hts, h⟩ := exists_of_bind h
    rw [← Except.ok.inj h]
    exact .cons
      (denotes_render hsorted hlines ht fun x hx => hdoubles x (List.mem_append_left _ hx))
      (itemsDenote_render hsorted hlines hts fun x hx => hdoubles x (List.mem_append_right _ hx))

/-- What entries are written as are texts of the entries on the wire. -/
theorem entriesDenote_render {style : Style} (hsorted : style.sorted = false)
    (hlines : style.indented = false) : ∀ {level : Nat} {es : List (Value × Value)}
    {entries : List (Value × List Char)} {ts : List (List Char)},
    renderEntries style level es = .ok entries →
    entries.mapM entryText = .ok ts → (∀ x ∈ Value.entriesDoubles es, ReadsBack x) → EntriesDenote ts (Value.entriesOnWire es)
  | _, [], _, _, h, hts, _ => by
    rw [← Except.ok.inj h] at hts
    rw [← Except.ok.inj hts]
    exact .nil
  | _, (k, v) :: es, _, _, h, hts, hdoubles => by
    obtain ⟨t, ht, h⟩ := exists_of_bind h
    obtain ⟨entries, hentries, h⟩ := exists_of_bind h
    rw [← Except.ok.inj h, List.mapM_cons] at hts
    obtain ⟨first, hfirst, hts⟩ := exists_of_bind hts
    obtain ⟨key, hkey, hfirst⟩ := exists_of_bind hfirst
    obtain ⟨ts, hrest, hts⟩ := exists_of_bind hts
    rw [← Except.ok.inj hts, ← Except.ok.inj hfirst, Value.entriesOnWire, hkey]
    exact .cons key
      (denotes_render hsorted hlines ht fun x hx => hdoubles x (List.mem_append_left _ hx))
      (entriesDenote_render hsorted hlines hentries hrest fun x hx =>
        hdoubles x (List.mem_append_right _ hx))

end

/-- **What is written is read back**, as JSON holds the description of the value: on one line, in the
    order of the keys as they are, if the texts of its doubles read back. -/
theorem read_write {style : Style} (hsorted : style.sorted = false)
    (hlines : style.indented = false) {v : Value} {t : List Char} (h : write style v = .ok t)
    (hdoubles : ∀ x ∈ v.describe.doubles, ReadsBack x) : read t = .ok v.describe.onWire :=
  read_of_denotes (denotes_render hsorted hlines h hdoubles)

end Json

/-! ## Data of JSON -/

namespace Value

open Json Number

mutual

/-- Is the value data of JSON?  The keys of its dictionaries are names, and its integers have no more
    digits than can be written. -/
def IsJson : Value → Prop
  | scalar s => match s with
    | .null | .bool _ | .float _ | .text _ => True
    | .int n => withinDigitLimit n = true
    | _ => False
  | list xs => ItemsJson xs
  | dict es => NamedApart es ∧ EntriesJson es
  | _ => False

/-- The items are data of JSON. -/
def ItemsJson : List Value → Prop
  | [] => True
  | x :: xs => x.IsJson ∧ ItemsJson xs

/-- What the keys lead to is data of JSON. -/
def EntriesJson : List (Value × Value) → Prop
  | [] => True
  | (_, v) :: es => v.IsJson ∧ EntriesJson es

end

mutual

theorem isData_of_isJson : ∀ {v : Value}, v.IsJson → v.IsData
  | scalar _, _ => trivial
  | list _, h => itemsData_of_json h
  | dict _, h => entriesData_of_json h.2

theorem itemsData_of_json : ∀ {xs : List Value}, ItemsJson xs → ItemsData xs
  | [], _ => trivial
  | _ :: _, h => ⟨isData_of_isJson h.1, itemsData_of_json h.2⟩

theorem entriesData_of_json : ∀ {es : List (Value × Value)}, EntriesJson es → EntriesData es
  | [], _ => trivial
  | (_, _) :: _, h => ⟨isData_of_isJson h.1, entriesData_of_json h.2⟩

end

mutual

theorem isContent_of_isJson : ∀ {v : Value}, v.IsJson → v.IsContent
  | scalar _, _ => trivial
  | list _, h => itemsData_of_json h
  | dict _, h => ⟨h.1, entriesContent_of_json h.2⟩

theorem entriesContent_of_json : ∀ {es : List (Value × Value)}, EntriesJson es → EntriesContent es
  | [], _ => trivial
  | (_, _) :: _, h => ⟨isContent_of_isJson h.1, entriesContent_of_json h.2⟩

end

/-- Entries with distinct names are put behind those that have none of them. -/
theorem foldl_put_of_namedApart : ∀ {es before : List (Value × Value)}, NamedApart es →
    (∀ f ∈ before, ∀ e ∈ es, f.1.equal e.1 = false) →
    es.foldl (fun acc e => put e.1 e.2 acc) before = before ++ es
  | [], before, _, _ => (List.append_nil before).symm
  | (k, v) :: es, before, hnames, hnew => by
    obtain ⟨name, rfl, hnames, hdistinct⟩ := hnames.cons
    have hput : put (text name) v before = before ++ [(text name, v)] :=
      put_of_new fun f hf => hnew f hf _ List.mem_cons_self
    have hnew' : ∀ f ∈ before ++ [(text name, v)], ∀ e ∈ es, f.1.equal e.1 = false := by
      intro f hf e he
      rcases List.mem_append.mp hf with hf | hf
      · exact hnew f hf e (List.mem_cons_of_mem _ he)
      · rw [List.mem_singleton.mp hf]
        exact hdistinct e he
    rw [List.foldl_cons, hput, foldl_put_of_namedApart hnames hnew', List.append_assoc]
    rfl

/-- Entries under distinct texts are a dictionary as they are. -/
theorem ofEntries_of_namedApart {es : List (Value × Value)} (h : NamedApart es) :
    ofEntries es = es :=
  foldl_put_of_namedApart h fun _ hf => absurd hf List.not_mem_nil

/-- A dictionary with names for its keys keeps them on the wire. -/
theorem onWire_dict {es : List (Value × Value)} (h : NamedApart es) :
    (dict es).onWire = dict (es.map fun e => (e.1, e.2.onWire)) := by
  have hentries : ∀ {es : List (Value × Value)}, NamedApart es →
      entriesOnWire es = es.map fun e => (e.1, e.2.onWire) := by
    intro es
    induction es with
    | nil => exact fun _ => rfl
    | cons e es ih =>
      intro h
      obtain ⟨k, v⟩ := e
      obtain ⟨name, rfl, hnames, -⟩ := h.cons
      have hkey : (keyText (text name)).toOption.getD [] = name.toList := rfl
      rw [entriesOnWire, hkey, String.ofList_toList, ih hnames]
      rfl
  have hnames : NamedApart (es.map fun e => (e.1, e.2.onWire)) := by
    obtain ⟨names, hnodup, hkeys⟩ := h
    exact ⟨names, hnodup, by rw [List.map_map, ← hkeys]; rfl⟩
  rw [onWire, hentries h, ofEntries_of_namedApart hnames]

mutual

/-- Data of JSON is the same on the wire. -/
theorem onWire_of_isJson : ∀ {v : Value}, v.IsJson → v.onWire = v
  | scalar s, h => by
    cases s with
    | null | bool _ | int _ | float _ | text _ => rfl
    | complex _ _ | bytes _ | ellipsis | builtin _ => exact absurd h id
  | list _, h => congrArg list (listOnWire_of_json h)
  | dict _, h => by
    rw [onWire_dict h.1, map_onWire_of_json h.2]

/-- Items that JSON can hold do not change on the wire. -/
theorem listOnWire_of_json : ∀ {xs : List Value}, ItemsJson xs → listOnWire xs = xs
  | [], _ => rfl
  | _ :: _, h => by
    rw [listOnWire, onWire_of_isJson h.1, listOnWire_of_json h.2]

theorem map_onWire_of_json : ∀ {es : List (Value × Value)}, EntriesJson es →
    es.map (fun e => (e.1, e.2.onWire)) = es
  | [], _ => rfl
  | (_, _) :: _, h => by
    rw [List.map_cons, onWire_of_isJson h.1, map_onWire_of_json h.2]

end

end Value

namespace Json

open Number

/-- A dictionary with names for its keys can be written if its values can. -/
theorem exists_render_dict {style : Style} (hsorted : style.sorted = false)
    {es : List (Value × Value)} (hnames : Value.NamedApart es)
    (h : ∀ e ∈ es, ∀ level, ∃ t, render style level e.2 = .ok t) (level : Nat) :
    ∃ t, render style level (.dict es) = .ok t := by
  obtain ⟨entries, ts, hentries, hts⟩ : ∃ entries ts,
      renderEntries style (level + 1) es = .ok entries ∧ entries.mapM entryText = .ok ts := by
    induction es with
    | nil => exact ⟨_, _, rfl, rfl⟩
    | cons e es ih =>
      obtain ⟨k, v⟩ := e
      obtain ⟨hv, hes⟩ := List.forall_mem_cons.mp h
      obtain ⟨name, rfl, hnames, -⟩ := hnames.cons
      obtain ⟨t, ht⟩ := hv (level + 1)
      obtain ⟨entries, ts, hentries, hts⟩ := ih hnames hes
      refine ⟨(.text name, t) :: entries, (string name.toList ++ ':' :: ' ' :: t) :: ts, ?_, ?_⟩
      · rw [renderEntries, ht, hentries]
        rfl
      · rw [List.mapM_cons, hts]
        rfl
  have hbraced : braced style level entries = .ok (bracketed style level '\x7b' '\x7d' ts) := by
    rw [braced, hsorted, if_neg Bool.false_ne_true]
    show (entries.mapM entryText).bind _ = _
    rw [hts]
    rfl
  rw [render, hentries]
  exact ⟨_, hbraced⟩

mutual

/-- Data of JSON can be written. -/
theorem exists_render {style : Style} (hsorted : style.sorted = false) :
    ∀ {v : Value}, v.IsJson → ∀ level, ∃ t, render style level v = .ok t
  | .scalar s, h, _ => by
    cases s with
    | null | bool _ | float _ | text _ => exact ⟨_, rfl⟩
    | int n =>
      have hn : withinDigitLimit n = true := h
      refine ⟨intText n, ?_⟩
      rw [render, scalar, if_pos hn]
    | complex _ _ | bytes _ | ellipsis | builtin _ => exact absurd h id
  | .list _, h, level => by
    obtain ⟨ts, hts⟩ := exists_renderList hsorted h (level + 1)
    rw [render, hts]
    exact ⟨_, rfl⟩
  | .dict _, h, level => exists_render_dict hsorted h.1 (exists_render_values hsorted h.2) level

/-- All items that JSON can hold are written, at any depth. -/
theorem exists_renderList {style : Style} (hsorted : style.sorted = false) :
    ∀ {xs : List Value}, Value.ItemsJson xs → ∀ level,
    ∃ ts, renderList style level xs = .ok ts
  | [], _, _ => ⟨_, rfl⟩
  | _ :: _, h, level => by
    obtain ⟨t, ht⟩ := exists_render hsorted h.1 level
    obtain ⟨ts, hts⟩ := exists_renderList hsorted h.2 level
    rw [renderList, ht, hts]
    exact ⟨_, rfl⟩

theorem exists_render_values {style : Style} (hsorted : style.sorted = false) :
    ∀ {es : List (Value × Value)}, Value.EntriesJson es → ∀ e ∈ es, ∀ level,
    ∃ t, render style level e.2 = .ok t
  | [], _, _, he, _ => absurd he List.not_mem_nil
  | (_, _) :: _, h, _, he, level => by
    rcases List.mem_cons.mp he with rfl | he
    · exact exists_render hsorted h.1 level
    · exact exists_render_values hsorted h.2 _ he level

end

mutual

/-- Where nothing is broken into lines, the level does not matter. -/
theorem render_level {style : Style} (hlines : style.indented = false) :
    ∀ (level level' : Nat) (v : Value), render style level v = render style level' v
  | level, level', .list xs => by
    rw [render, render, renderList_level hlines (level + 1) (level' + 1) xs]
    simp only [bracketed_eq hlines]
  | level, level', .tuple xs => by
    rw [render, render, renderList_level hlines (level + 1) (level' + 1) xs]
    simp only [bracketed_eq hlines]
  | level, level', .dict es => by
    rw [render, render, renderEntries_level hlines (level + 1) (level' + 1) es]
    simp only [braced, bracketed_eq hlines]
  | _, _, .scalar _ | _, _, .var .. | _, _, .object .. | _, _, .record .. | _, _, .ref _ => rfl

/-- On one line, the depth makes no difference to how items are written. -/
theorem renderList_level {style : Style} (hlines : style.indented = false) :
    ∀ (level level' : Nat) (xs : List Value), renderList style level xs = renderList style level' xs
  | _, _, [] => rfl
  | level, level', x :: xs => by
    rw [renderList, renderList, render_level hlines level level' x,
      renderList_level hlines level level' xs]

theorem renderEntries_level {style : Style} (hlines : style.indented = false) :
    ∀ (level level' : Nat) (es : List (Value × Value)),
    renderEntries style level es = renderEntries style level' es
  | _, _, [] => rfl
  | level, level', (k, v) :: es => by
    rw [renderEntries, renderEntries, render_level hlines level level' v,
      renderEntries_level hlines level level' es]

end

/-- **Data of JSON comes back**: it can be written, and is read as it was. -/
theorem read_write_of_isJson {style : Style} (hsorted : style.sorted = false)
    (hlines : style.indented = false) {v : Value} (h : v.IsJson)
    (hdoubles : ∀ x ∈ v.doubles, ReadsBack x) : ∃ t, write style v = .ok t ∧ read t = .ok v := by
  have hdescribe := Value.describe_of_isData (Value.isData_of_isJson h)
  obtain ⟨t, ht⟩ := exists_render hsorted h 0
  have hwrite : write style v = .ok t := by
    rw [write, hdescribe, ht]
  refine ⟨t, hwrite, ?_⟩
  rw [read_write hsorted hlines hwrite (hdescribe.symm ▸ hdoubles), hdescribe,
    Value.onWire_of_isJson h]

end Json
end LetTag
