/-
  The fields of a record: which argument lists are read, and what is read from them.

  An argument list is cut at its commas and each entry at its colons, blank parts left out.  An entry
  is read if two parts are left, the key and the value (`IsEntry`); a key is taken as it stands,
  whatever it is, unless it starts with a quote.  Each entry is read for itself: it is an entry, or
  there is a reason why it is none (`isEntry_or_isRefused`), and both go through the list by one
  induction each.  The fields are a table, so putting them one after the other keeps the place of the
  first and the value of the last (`putAll_nil`).

  Entries as they should be written have one colon, and a word or the literal of a text in front
  of it (`IsRegular`).  All of them are read; but others are read too, and some are refused with the
  error of a number instead of one that names the entry.
-/
import LetTag.Literal
import LetTag.Proofs.Reconstruction
import LetTag.Proofs.Table
import LetTag.Proofs.TopLevel
import Mathlib.Data.List.Forall2

namespace LetTag

open Text

/-! ## Entries -/

/-- The value that a key writes: what stands there, unless it starts with a quote. -/
inductive KeyWrites : List Char → Value → Prop where
  | bare {key : List Char} : key.head?.any Quoting.isQuote = false →
    KeyWrites key (.text (String.ofList key))
  | quoted {key : List Char} {v : Value} : key.head?.any Quoting.isQuote = true →
    evaluate key = .ok v → KeyWrites key v

/-- An entry, with the name and the value that it gives to a field. -/
inductive IsEntry : List Char → String × Value → Prop where
  | of {entry key raw : List Char} {name v : Value} : HasParts ':' entry [key, raw] →
    KeyWrites key name → evaluate raw = .ok v → name.writable = true →
    IsEntry entry (name.nameText, v)

/-- Why a text is no entry. -/
inductive IsRefused : List Char → EvaluationError → Prop where
  | parts {entry : List Char} : (∀ key raw, ¬ HasParts ':' entry [key, raw]) →
    IsRefused entry (.invalidField (String.ofList entry))
  | key {entry key raw : List Char} {e : EvaluationError} : HasParts ':' entry [key, raw] →
    key.head?.any Quoting.isQuote = true → evaluate key = .error e → IsRefused entry e
  | value {entry key raw : List Char} {name : Value} {e : EvaluationError} :
    HasParts ':' entry [key, raw] → KeyWrites key name → evaluate raw = .error e →
    IsRefused entry e
  | name {entry key raw : List Char} {name v : Value} : HasParts ':' entry [key, raw] →
    KeyWrites key name → evaluate raw = .ok v → name.writable = false →
    IsRefused entry .unwritableName

/-- The value that a key is read as. -/
def readKey (key : List Char) : Except EvaluationError Value :=
  if key.head?.any Quoting.isQuote then evaluate key else .ok (.text (String.ofList key))

theorem readKey_eq_ok_iff {key : List Char} {v : Value} :
    readKey key = .ok v ↔ KeyWrites key v := by
  unfold readKey
  constructor
  · intro h
    split at h
    · rename_i hquote
      exact .quoted hquote h
    · rename_i hquote
      cases h
      exact .bare (Bool.eq_false_iff.mpr hquote)
  · intro h
    cases h with
    | bare hquote => exact if_neg (Bool.eq_false_iff.mp hquote)
    | quoted hquote hv => rw [if_pos hquote, hv]

/-- A key is refused only if it starts with a quote and is no value. -/
theorem readKey_eq_error_iff {key : List Char} {e : EvaluationError} :
    readKey key = .error e ↔ key.head?.any Quoting.isQuote = true ∧ evaluate key = .error e := by
  unfold readKey
  constructor
  · intro h
    split at h
    · rename_i hquote
      exact ⟨hquote, h⟩
    · cases h
  · rintro ⟨hquote, he⟩
    rw [if_pos hquote, he]

/-- The reader of an entry with two parts. -/
theorem readField_of_parts {entry key raw : List Char} (h : HasParts ':' entry [key, raw])
    (fields : List (Value × Value)) : readField fields entry = (do
      let name ← readKey key
      let v ← evaluate raw
      if name.writable then .ok (Value.put (.text name.nameText) v fields)
      else .error .unwritableName) := by
  unfold readField readKey
  rw [(topLevelParts_eq_iff isSeparator_colon).mpr h]
  dsimp only
  split
  · rfl
  · rfl

/-- The reader of an entry with more or fewer. -/
theorem readField_of_no_parts {entry : List Char} (h : ∀ key raw, ¬ HasParts ':' entry [key, raw])
    (fields : List (Value × Value)) :
    readField fields entry = .error (.invalidField (String.ofList entry)) := by
  unfold readField
  split
  · rename_i key raw hparts
    exact absurd ((topLevelParts_eq_iff isSeparator_colon).mp hparts) (h key raw)
  · rfl

theorem IsEntry.readField {entry : List Char} {field : String × Value} (h : IsEntry entry field)
    (fields : List (Value × Value)) :
    readField fields entry = .ok (Value.put (.text field.1) field.2 fields) := by
  obtain ⟨hparts, hkey, hvalue, hname⟩ := h
  rw [readField_of_parts hparts, readKey_eq_ok_iff.mpr hkey, hvalue]
  exact if_pos hname

/-- A refused entry has its error, whatever was read before. -/
theorem IsRefused.readField {entry : List Char} {e : EvaluationError} (h : IsRefused entry e)
    (fields : List (Value × Value)) : readField fields entry = .error e := by
  cases h with
  | parts hparts => exact readField_of_no_parts hparts fields
  | key hparts hquote he =>
    rw [readField_of_parts hparts, readKey_eq_error_iff.mpr ⟨hquote, he⟩]
    rfl
  | value hparts hkey he =>
    rw [readField_of_parts hparts, readKey_eq_ok_iff.mpr hkey, he]
    rfl
  | name hparts hkey hvalue hname =>
    rw [readField_of_parts hparts, readKey_eq_ok_iff.mpr hkey, hvalue]
    exact if_neg (Bool.eq_false_iff.mp hname)

/-- A text is an entry, or there is a reason why it is none. -/
theorem isEntry_or_isRefused (entry : List Char) :
    (∃ field, IsEntry entry field) ∨ ∃ e, IsRefused entry e := by
  by_cases hparts : ∃ key raw, HasParts ':' entry [key, raw]
  · obtain ⟨key, raw, hparts⟩ := hparts
    cases hkey : readKey key with
    | error e =>
      obtain ⟨hquote, he⟩ := readKey_eq_error_iff.mp hkey
      exact Or.inr ⟨e, .key hparts hquote he⟩
    | ok name =>
      have hwrites := readKey_eq_ok_iff.mp hkey
      cases hvalue : evaluate raw with
      | error e => exact Or.inr ⟨e, .value hparts hwrites hvalue⟩
      | ok v => cases hname : name.writable with
        | false => exact Or.inr ⟨_, .name hparts hwrites hvalue hname⟩
        | true => exact Or.inl ⟨_, .of hparts hwrites hvalue hname⟩
  · exact Or.inr ⟨_, .parts fun key raw h => hparts ⟨key, raw, h⟩⟩

/-! ## The list of entries -/

/-- Fields put one after the other behind those that are there. -/
def putAll (fields : List (Value × Value)) (entries : Table Value) : List (Value × Value) :=
  entries.foldl (fun fields e => Value.put (.text e.1) e.2 fields) fields

/-- The entries are read if each of them is one. -/
theorem foldlM_readField_eq_ok_iff (texts : List (List Char)) :
    ∀ {fields out : List (Value × Value)}, texts.foldlM readField fields = .ok out ↔
      ∃ entries, List.Forall₂ IsEntry texts entries ∧ out = putAll fields entries := by
  induction texts with
  | nil =>
    intro fields out
    constructor
    · intro h
      cases h
      exact ⟨[], .nil, rfl⟩
    · rintro ⟨entries, hentries, rfl⟩
      cases hentries
      rfl
  | cons t texts ih =>
    intro fields out
    rw [List.foldlM_cons]
    constructor
    · intro h
      rcases isEntry_or_isRefused t with ⟨field, ht⟩ | ⟨e, ht⟩
      · rw [ht.readField] at h
        obtain ⟨entries, hentries, hout⟩ := ih.mp h
        exact ⟨field :: entries, .cons ht hentries, hout⟩
      · rw [ht.readField] at h
        cases h
    · rintro ⟨_ | ⟨field, entries⟩, hentries, rfl⟩
      · cases hentries
      · cases hentries with
        | cons ht hentries =>
          rw [ht.readField]
          exact ih.mpr ⟨entries, hentries, rfl⟩

/-- The reader fails at the first text that is no entry, for the reason that keeps it from being
    one. -/
theorem foldlM_readField_eq_error_iff (texts : List (List Char)) {e : EvaluationError} :
    ∀ {fields : List (Value × Value)}, texts.foldlM readField fields = .error e ↔
      ∃ before t after entries, texts = before ++ t :: after
        ∧ List.Forall₂ IsEntry before entries ∧ IsRefused t e := by
  induction texts with
  | nil =>
    intro fields
    constructor
    · intro h
      cases h
    · rintro ⟨before, t, after, entries, h, -⟩
      cases before with
      | nil => cases h
      | cons _ _ => cases h
  | cons t texts ih =>
    intro fields
    rw [List.foldlM_cons]
    constructor
    · intro h
      rcases isEntry_or_isRefused t with ⟨field, ht⟩ | ⟨e', ht⟩
      · rw [ht.readField] at h
        obtain ⟨before, u, after, entries, rfl, hentries, hu⟩ := ih.mp h
        exact ⟨t :: before, u, after, field :: entries, rfl, .cons ht hentries, hu⟩
      · rw [ht.readField] at h
        cases h
        exact ⟨[], t, texts, [], rfl, .nil, ht⟩
    · rintro ⟨before, u, after, entries, heq, hentries, hu⟩
      cases hentries with
      | nil =>
        obtain ⟨rfl, rfl⟩ := List.cons.inj heq
        rw [hu.readField]
        rfl
      | @cons _ field before entries ht hentries =>
        obtain ⟨rfl, rfl⟩ := List.cons.inj heq
        rw [ht.readField]
        exact ih.mpr ⟨before, u, after, entries, rfl, hentries, hu⟩

/-! ## The fields -/

/-- The fields that entries give: the names in the order in which they first come, each with the
    value that comes last under it. -/
def byName (entries : Table Value) : List (Value × Value) :=
  (Table.names entries).eraseDups.map fun n =>
    (.text n, (Table.get? n entries.reverse).getD .null)

/-- A table as fields. -/
def asFields (t : Table Value) : List (Value × Value) :=
  t.map fun e => (.text e.1, e.2)

/-- Putting a field among fields by name is putting it into the table. -/
theorem put_asFields (name : String) (v : Value) (t : Table Value) :
    Value.put (.text name) v (asFields t) = asFields (Table.put name v t) := by
  induction t with
  | nil => rfl
  | cons e t ih =>
    obtain ⟨n, w⟩ := e
    show (if (Value.text n).equal (.text name) then _ else _) = asFields (if n = name then _ else _)
    rw [Value.equal_text]
    by_cases hn : n = name
    · rw [if_pos (beq_iff_eq.mpr hn), if_pos hn]
      rfl
    · rw [if_neg fun h => hn (beq_iff_eq.mp h), if_neg hn]
      exact congrArg ((Value.text n, w) :: ·) ih

theorem putAll_asFields (entries : Table Value) : ∀ t : Table Value,
    putAll (asFields t) entries
      = asFields (entries.foldl (fun t e => Table.put e.1 e.2 t) t) := by
  induction entries with
  | nil => exact fun t => rfl
  | cons e entries ih =>
    intro t
    show putAll (Value.put (.text e.1) e.2 (asFields t)) entries = _
    rw [put_asFields, ih]
    rfl

/-- Entries that are put into nothing are the table that they write. -/
theorem putAll_nil (entries : Table Value) : putAll [] entries = byName entries := by
  refine (putAll_asFields entries []).trans ?_
  rw [Table.foldl_put_nil entries .null, asFields, List.map_map]
  rfl

/-! ## Entries as they should be written -/

/-- `<word>: <literal>` or `"<text>": <literal>`: one separator at the top, a word or the literal of
    a text before it, and the literal of a value behind it. -/
def IsRegular (entry : List Char) (field : String × Value) : Prop :=
  ∃ key raw, Bracketing.Cuts ':' .top entry [key, raw]
    ∧ ((trim key ≠ [] ∧ (∀ c ∈ trim key, isWord c = true) ∧ field.1 = String.ofList (trim key))
      ∨ (trim key).head?.any Quoting.isQuote = true ∧ evaluate (trim key) = .ok (.text field.1))
    ∧ evaluate raw = .ok field.2

/-- Blanks around an expression make no difference. -/
theorem evaluate_trim (expr : List Char) : evaluate (trim expr) = evaluate expr := by
  unfold evaluate
  rw [trim_trim]

/-- What is blank is the literal of nothing. -/
theorem trim_ne_nil_of_evaluate {raw : List Char} {v : Value} (h : evaluate raw = .ok v) :
    trim raw ≠ [] := by
  intro hraw
  have hnone : Script.Expr.parse? (trim []) = none :=
    Option.isNone_iff_eq_none.mp (by decide)
  rw [← evaluate_trim, hraw, evaluate, Literal.parse, hnone] at h
  cases h

/-- An entry as it should be written is one. -/
theorem IsRegular.isEntry {entry : List Char} {field : String × Value} (h : IsRegular entry field) :
    IsEntry entry field := by
  obtain ⟨key, raw, hcuts, hkey, hvalue⟩ := h
  obtain ⟨name, v⟩ := field
  have hraw := trim_ne_nil_of_evaluate hvalue
  have hwrites : trim key ≠ [] ∧ KeyWrites (trim key) (.text name) := by
    rcases hkey with ⟨hne, hword, hname⟩ | ⟨hquote, heval⟩
    · obtain rfl : name = String.ofList (trim key) := hname
      refine ⟨hne, .bare (Bool.eq_false_iff.mpr fun hquote => ?_)⟩
      obtain ⟨c, hc, hcquote⟩ := (Option.any_eq_true _ _).mp hquote
      have hcword := hword c (List.mem_of_mem_head? hc)
      rcases Bool.or_eq_true_iff.mp hcquote with hc | hc
      · rw [beq_iff_eq.mp hc] at hcword
        exact absurd hcword (by decide)
      · rw [beq_iff_eq.mp hc] at hcword
        exact absurd hcword (by decide)
    · exact ⟨trim_trim key ▸ trim_ne_nil_of_evaluate heval, .quoted hquote heval⟩
  have hparts : HasParts ':' entry [trim key, trim raw] := by
    refine ⟨_, hcuts, ?_⟩
    simp [hwrites.1, hraw]
  exact .of hparts hwrites.2 ((evaluate_trim raw).trans hvalue) rfl

/-- A literal can be tested to be that of a given value. -/
theorem evaluate_eq_ok_of_same {raw : List Char} {v : Value}
    (h : (evaluate raw).toOption.any (·.same v) = true) : evaluate raw = .ok v := by
  cases hraw : evaluate raw with
  | error e =>
    rw [hraw] at h
    cases h
  | ok w =>
    rw [hraw] at h
    exact congrArg _ (Value.eq_of_same h)

/-- **What is read from the arguments of a record.**  The fields are read exactly if every part
    between the commas is an entry: it has two parts between its colons, the second is the literal of a
    value, and the first stands for itself or is a literal in quotes; they are the names in the order in
    which they first come, each with its last value.  Otherwise the reader fails at the first part
    that is no entry, for the reason that keeps it from being one.  Parts with one colon, a word or the
    literal of a text before it and the literal of a value behind it are all entries. -/
theorem readFields_outcome (args : List Char) :
    (∀ fields, readFields args = .ok fields ↔ ∃ texts entries, HasParts ',' args texts
        ∧ List.Forall₂ IsEntry texts entries ∧ fields = byName entries)
      ∧ (∀ e, readFields args = .error e ↔ ∃ before t after entries,
          HasParts ',' args (before ++ t :: after) ∧ List.Forall₂ IsEntry before entries
            ∧ IsRefused t e)
      ∧ ∀ texts entries, HasParts ',' args texts → List.Forall₂ IsRegular texts entries →
          readFields args = .ok (byName entries) := by
  have hok : ∀ fields, readFields args = .ok fields ↔ ∃ texts entries, HasParts ',' args texts
      ∧ List.Forall₂ IsEntry texts entries ∧ fields = byName entries := by
    intro fields
    rw [readFields, foldlM_readField_eq_ok_iff]
    constructor
    · rintro ⟨entries, hentries, rfl⟩
      exact ⟨_, entries, (topLevelParts_eq_iff isSeparator_comma).mp rfl, hentries,
        putAll_nil entries⟩
    · rintro ⟨texts, entries, hparts, hentries, rfl⟩
      rw [(topLevelParts_eq_iff isSeparator_comma).mpr hparts]
      exact ⟨entries, hentries, (putAll_nil entries).symm⟩
  refine ⟨hok, ?_, ?_⟩
  · intro e
    rw [readFields, foldlM_readField_eq_error_iff]
    constructor
    · rintro ⟨before, t, after, entries, htexts, hentries, ht⟩
      exact ⟨before, t, after, entries, (topLevelParts_eq_iff isSeparator_comma).mp htexts, hentries,
        ht⟩
    · rintro ⟨before, t, after, entries, hparts, hentries, ht⟩
      exact ⟨before, t, after, entries, (topLevelParts_eq_iff isSeparator_comma).mpr hparts,
        hentries, ht⟩
  · intro texts entries hparts hregular
    exact (hok _).mpr ⟨texts, entries, hparts, hregular.imp fun _ _ h => h.isEntry, rfl⟩

/-- A separator in a text, a key in quotes, a blank entry, and a name that comes twice. -/
theorem readFields_sample :
    ∃ texts entries, HasParts ',' "name: \"x, y\", 'k:': [1, 2], , name: 3".toList texts
      ∧ List.Forall₂ IsRegular texts entries
      ∧ readFields "name: \"x, y\", 'k:': [1, 2], , name: 3".toList = .ok (byName entries)
      ∧ byName entries = [(.text "name", .int 3), (.text "k:", .list [.int 1, .int 2])] := by
  have hparts : HasParts ',' "name: \"x, y\", 'k:': [1, 2], , name: 3".toList
      ["name: \"x, y\"".toList, "'k:': [1, 2]".toList, "name: 3".toList] :=
    (topLevelParts_eq_iff isSeparator_comma).mp (by decide)
  have hregular : List.Forall₂ IsRegular
      ["name: \"x, y\"".toList, "'k:': [1, 2]".toList, "name: 3".toList]
      [("name", .text "x, y"), ("k:", .list [.int 1, .int 2]), ("name", .int 3)] := by
    refine .cons ?_ (.cons ?_ (.cons ?_ .nil))
    · exact ⟨"name".toList, " \"x, y\"".toList,
        (Bracketing.pieces_eq_iff isSeparator_colon).mp (by decide),
        Or.inl (by decide +kernel), evaluate_eq_ok_of_same (by decide +kernel)⟩
    · exact ⟨"'k:'".toList, " [1, 2]".toList,
        (Bracketing.pieces_eq_iff isSeparator_colon).mp (by decide),
        Or.inr ⟨by decide, evaluate_eq_ok_of_same (by decide)⟩,
        evaluate_eq_ok_of_same (by decide +kernel)⟩
    · exact ⟨"name".toList, " 3".toList,
        (Bracketing.pieces_eq_iff isSeparator_colon).mp (by decide),
        Or.inl (by decide), evaluate_eq_ok_of_same (by decide)⟩
  exact ⟨_, _, hparts, hregular, (readFields_outcome _).2.2 _ _ hparts hregular, rfl⟩

/-- The key of `1 + 2: 3` is neither a word nor a text in quotes, and the entry is read. -/
theorem readFields_sum_as_key :
    readFields "1 + 2: 3".toList = .ok [(.text "1 + 2", .int 3)]
      ∧ HasParts ',' "1 + 2: 3".toList ["1 + 2: 3".toList]
      ∧ ∀ field, ¬ IsRegular "1 + 2: 3".toList field := by
  have hcuts : Bracketing.Cuts ':' .top "1 + 2: 3".toList ["1 + 2".toList, " 3".toList] :=
    (Bracketing.pieces_eq_iff isSeparator_colon).mp (by decide)
  have hparts : HasParts ',' "1 + 2: 3".toList ["1 + 2: 3".toList] :=
    (topLevelParts_eq_iff isSeparator_comma).mp (by decide)
  refine ⟨?_, hparts, ?_⟩
  · have hentry : IsEntry "1 + 2: 3".toList ("1 + 2", .int 3) :=
      have hsides : HasParts ':' "1 + 2: 3".toList ["1 + 2".toList, "3".toList] :=
        ⟨_, hcuts, by decide⟩
      .of hsides (.bare (by decide)) (evaluate_eq_ok_of_same (by decide)) rfl
    have htexts := (topLevelParts_eq_iff isSeparator_comma).mpr hparts
    rw [readFields, htexts]
    exact (foldlM_readField_eq_ok_iff _).mpr ⟨[_], .cons hentry .nil, rfl⟩
  · rintro field ⟨key, raw, hkey, hname, -⟩
    have hsame := ((Bracketing.pieces_eq_iff isSeparator_colon).mpr hkey).symm.trans
      ((Bracketing.pieces_eq_iff isSeparator_colon).mpr hcuts)
    obtain ⟨rfl, -⟩ := List.cons.inj hsame
    rcases hname with ⟨-, hword, -⟩ | ⟨hquote, -⟩
    · exact absurd hword (by decide)
    · exact absurd hquote (by decide)

end LetTag
