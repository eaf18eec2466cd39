/-
  Which objects the wire format carries.

  The description of an object travels as JSON with sorted keys, and not every value has such a text:
  JSON has no form for bytes, complex numbers and the ellipsis, integers are written only up to a
  number of digits, and keys must be texts, numbers or null of which any two compare
  (`LetTag.Proofs.KeyOrder`).  `Value.carried` computes whether a value has a text, and
  `exists_render_iff` says that it does.

  Nothing of this is asked when an object is declared: of the literals only sets are refused.  So an
  object has a description that cannot be sent if the value of its definition is such
  (`Registry.exists_write_describe_iff`).  In a definition of fields the mappings become objects, whose
  keys become names; so the keys of these mappings do not matter, but those of dictionaries in lists do.
-/
import LetTag.Proofs.KeyOrder
import LetTag.Proofs.Requests

namespace LetTag

open Text

/-! ## Texts of dictionaries -/

namespace Json

section

variable {ε α β γ : Type}

/-- Two steps succeed if the first does, and the second on what it gives. -/
theorem exists_bind_iff {x : Except ε α} {f : α → Except ε β} :
    (∃ b, x >>= f = .ok b) ↔ ∃ a, x = .ok a ∧ ∃ b, f a = .ok b := by
  constructor
  · rintro ⟨b, h⟩
    obtain ⟨a, ha, hb⟩ := exists_of_bind h
    exact ⟨a, ha, b, hb⟩
  · rintro ⟨a, ha, b, hb⟩
    refine ⟨b, ?_⟩
    rw [ha]
    exact hb

/-- What is made of a value is there if the value is. -/
theorem exists_bind_ok_iff {x : Except ε α} {f : α → β} :
    (∃ b, (x >>= fun a => .ok (f a)) = .ok b) ↔ ∃ a, x = .ok a := by
  rw [exists_bind_iff]
  constructor
  · rintro ⟨a, ha, -⟩
    exact ⟨a, ha⟩
  · rintro ⟨a, ha⟩
    exact ⟨a, ha, f a, rfl⟩

/-- Two steps succeed if each of them does. -/
theorem exists_both_iff {x : Except ε α} {y : Except ε β} {f : α → β → γ} :
    (∃ c, (x >>= fun a => y >>= fun b => .ok (f a b)) = .ok c)
      ↔ (∃ a, x = .ok a) ∧ ∃ b, y = .ok b := by
  rw [exists_bind_iff]
  constructor
  · rintro ⟨a, ha, h⟩
    exact ⟨⟨a, ha⟩, exists_bind_ok_iff.mp h⟩
  · rintro ⟨⟨a, ha⟩, hb⟩
    exact ⟨a, ha, exists_bind_ok_iff.mpr hb⟩

/-- A step for each item succeeds if each of the steps does. -/
theorem exists_mapM_iff {f : α → Except ε β} {as : List α} :
    (∃ bs, as.mapM f = .ok bs) ↔ ∀ a ∈ as, ∃ b, f a = .ok b := by
  induction as with
  | nil => exact iff_of_true ⟨[], rfl⟩ (by simp)
  | cons a as ih =>
    rw [List.mapM_cons, List.forall_mem_cons, ← ih]
    exact exists_both_iff

end

/-- Can a dictionary with these keys be written?  Each of them can, and they have an order. -/
def keysCarried (keys : List Value) : Bool :=
  keys.all keyCarried
    && (decide (keys.length < 2)
      || [KeyKind.text, .number].any fun kind => keys.all fun k => keyKind? k == some kind)

/-- Keys can be carried if each of them can, and they can be sorted: there are fewer than two, or all
    are of one kind. -/
theorem keysCarried_iff {α : Type} (es : List (Value × α)) :
    keysCarried (es.map Prod.fst) = true ↔ (∀ e ∈ es, keyCarried e.1 = true)
      ∧ (es.length < 2 ∨ ∃ kind, ∀ e ∈ es, keyKind? e.1 = some kind) := by
  have hkinds : (∃ kind ∈ [KeyKind.text, .number], ∀ e ∈ es, keyKind? e.1 = some kind)
      ↔ ∃ kind, ∀ e ∈ es, keyKind? e.1 = some kind := by
    constructor
    · rintro ⟨kind, -, h⟩
      exact ⟨kind, h⟩
    · rintro ⟨kind, h⟩
      refine ⟨kind, ?_, h⟩
      cases kind with
      | text => simp
      | number => simp
  rw [← hkinds]
  simp only [keysCarried, Bool.and_eq_true, Bool.or_eq_true, List.all_eq_true, List.any_eq_true,
    decide_eq_true_eq, beq_iff_eq, List.length_map, List.forall_mem_map]

theorem exists_entryText_iff (e : Value × List Char) :
    (∃ t, entryText e = .ok t) ↔ keyCarried e.1 = true := by
  rw [← exists_keyText_iff]
  exact exists_bind_ok_iff

/-- A mapping is written by sorting its entries and writing them one by one. -/
theorem braced_eq (level : Nat) (entries : List (Value × List Char)) :
    braced descriptionStyle level entries = (do
      let sorted ← sortByKey entries
      let items ← sorted.mapM entryText
      .ok (bracketed descriptionStyle level '\x7b' '\x7d' items)) := rfl

/-- Whether entries can be written depends on their keys alone. -/
theorem exists_braced_iff (level : Nat) (entries : List (Value × List Char)) :
    (∃ t, braced descriptionStyle level entries = .ok t)
      ↔ keysCarried (entries.map Prod.fst) = true := by
  rw [braced_eq, keysCarried_iff]
  constructor
  · intro h
    obtain ⟨sorted, hsorted, h⟩ := exists_bind_iff.mp h
    obtain ⟨items, hitems, -⟩ := exists_bind_iff.mp h
    -- all keys were written, but in the other order
    have hkeys : ∀ e ∈ entries, keyCarried e.1 = true := by
      intro e he
      have he' : e ∈ sorted := (sortByKey_spec hsorted).1.mem_iff.mpr he
      exact (exists_entryText_iff e).mp (exists_mapM_iff.mp ⟨items, hitems⟩ e he')
    exact ⟨hkeys, (exists_sortByKey_iff hkeys).mp ⟨sorted, hsorted⟩⟩
  · rintro ⟨hkeys, hkinds⟩
    obtain ⟨sorted, hsorted⟩ := (exists_sortByKey_iff hkeys).mpr hkinds
    obtain ⟨items, hitems⟩ : ∃ items, sorted.mapM entryText = .ok items := by
      refine exists_mapM_iff.mpr fun e he => (exists_entryText_iff e).mpr (hkeys e ?_)
      exact (sortByKey_spec hsorted).1.mem_iff.mp he
    exact exists_bind_iff.mpr ⟨sorted, hsorted, exists_bind_iff.mpr ⟨items, hitems, _, rfl⟩⟩

/-- The keys of entries are not written with their values. -/
theorem renderEntries_keys {style : Style} {level : Nat} : ∀ {es : List (Value × Value)}
    {ts : List (Value × List Char)}, renderEntries style level es = .ok ts →
    ts.map Prod.fst = es.map Prod.fst
  | [], _, h => by
    cases h
    rfl
  | (k, v) :: es, _, h => by
    obtain ⟨t, -, h⟩ := exists_of_bind h
    obtain ⟨ts, hts, h⟩ := exists_of_bind h
    cases h
    rw [List.map_cons, List.map_cons, renderEntries_keys hts]

/-- If it is by their keys that entries can stand between braces, a dictionary can be written by its
    keys and the texts of its values. -/
theorem exists_render_dict_iff (good : List Value → Bool) {style : Style} {level : Nat}
    (hbraced : ∀ ts, (∃ t, braced style level ts = .ok t) ↔ good (ts.map Prod.fst) = true)
    (es : List (Value × Value)) : (∃ t, render style level (.dict es) = .ok t)
      ↔ good (es.map Prod.fst) = true ∧ ∃ ts, renderEntries style (level + 1) es = .ok ts := by
  rw [render, exists_bind_iff]
  constructor
  · rintro ⟨ts, hts, ht⟩
    rw [hbraced, renderEntries_keys hts] at ht
    exact ⟨ht, ts, hts⟩
  · rintro ⟨hkeys, ts, hts⟩
    refine ⟨ts, hts, ?_⟩
    rw [hbraced, renderEntries_keys hts]
    exact hkeys

end Json

/-! ## Texts of values -/

open Json

namespace Value

mutual

/-- Does the wire format carry the value? -/
def carried : Value → Bool
  | scalar s => scalarCarried s
  | list items => listCarried items
  | tuple items => listCarried items
  | dict entries => keysCarried (entries.map Prod.fst) && entriesCarried entries
  | _ => false

/-- Does it carry the items? -/
def listCarried : List Value → Bool
  | [] => true
  | x :: xs => x.carried && listCarried xs

/-- Does it carry what the keys lead to? -/
def entriesCarried : List (Value × Value) → Bool
  | [] => true
  | (_, v) :: es => v.carried && entriesCarried es

end

end Value

namespace Json

open Value

/-- A scalar is written exactly if it can be carried. -/
theorem exists_scalar_iff (s : Scalar) :
    (∃ t, scalar descriptionStyle s = .ok t) ↔ scalarCarried s = true := by
  cases s with
  | null => exact iff_of_true ⟨_, rfl⟩ rfl
  | bool b => exact iff_of_true ⟨_, rfl⟩ rfl
  | float x => exact iff_of_true ⟨_, rfl⟩ rfl
  | text s => exact iff_of_true ⟨_, rfl⟩ rfl
  | int n => exact exists_keyText_iff (.int n)
  | complex re im => exact iff_of_false not_exists_ok Bool.false_ne_true
  | bytes bs => exact iff_of_false not_exists_ok Bool.false_ne_true
  | ellipsis => exact iff_of_false not_exists_ok Bool.false_ne_true
  | builtin b => exact iff_of_false not_exists_ok Bool.false_ne_true

mutual

/-- **A value has a text** exactly if the wire format carries it. -/
theorem exists_render_iff : ∀ (level : Nat) (v : Value),
    (∃ t, render descriptionStyle level v = .ok t) ↔ v.carried = true
  | _, .scalar s => exists_scalar_iff s
  | level, .list xs | level, .tuple xs => by
    rw [render, exists_bind_ok_iff, carried, exists_renderList_iff (level + 1) xs]
  | level, .dict es => by
    rw [exists_render_dict_iff keysCarried (exists_braced_iff level), carried, Bool.and_eq_true,
      exists_renderEntries_iff (level + 1) es]
  | _, .var _ _ _ | _, .object _ _ _ _ _ _ | _, .record _ _ | _, .ref _ => by
    exact iff_of_false not_exists_ok Bool.false_ne_true

/-- All items of a list are written exactly if each of them can be carried. -/
theorem exists_renderList_iff : ∀ (level : Nat) (xs : List Value),
    (∃ ts, renderList descriptionStyle level xs = .ok ts) ↔ listCarried xs = true
  | _, [] => iff_of_true ⟨[], rfl⟩ rfl
  | level, x :: xs => by
    rw [renderList, exists_both_iff, listCarried, Bool.and_eq_true, exists_render_iff level x,
      exists_renderList_iff level xs]

theorem exists_renderEntries_iff : ∀ (level : Nat) (es : List (Value × Value)),
    (∃ ts, renderEntries descriptionStyle level es = .ok ts) ↔ entriesCarried es = true
  | _, [] => iff_of_true ⟨[], rfl⟩ rfl
  | level, (k, v) :: es => by
    rw [renderEntries, exists_both_iff, entriesCarried, Bool.and_eq_true,
      exists_render_iff level v, exists_renderEntries_iff level es]

end

/-- What is sent of an object is the description of its description. -/
theorem exists_write_iff (v : Value) :
    (∃ t, write descriptionStyle v = .ok t) ↔ v.describe.carried = true :=
  exists_render_iff 0 v.describe

end Json

/-! ## Descriptions of objects -/

namespace Value

theorem keysCarried_texts (names : List String) : keysCarried (names.map text) = true := by
  have hkeys : ∀ k ∈ names.map text, keyCarried k = true ∧ keyKind? k = some .text := by
    intro k hk
    obtain ⟨name, -, rfl⟩ := List.mem_map.mp hk
    exact ⟨rfl, rfl⟩
  simp only [keysCarried, Bool.and_eq_true, Bool.or_eq_true, List.all_eq_true, List.any_eq_true,
    beq_iff_eq]
  exact ⟨fun k hk => (hkeys k hk).1, Or.inr ⟨.text, by simp, fun k hk => (hkeys k hk).2⟩⟩

theorem carried_describe_texts (ss : List String) : (texts ss).describe.carried = true := by
  show listCarried (describeList (ss.map text)) = true
  induction ss with
  | nil => rfl
  | cons s ss ih => exact ih

/-- What is described keeps its keys. -/
theorem describeEntries_keys (es : List (Value × Value)) :
    (describeEntries es).map Prod.fst = es.map Prod.fst := by
  induction es with
  | nil => rfl
  | cons e es ih => rw [describeEntries, List.map_cons, List.map_cons, ih]

/-- The kinds of the relations are the keys of their description. -/
theorem describeRelations_keys : ∀ rs : List (String × List Value),
    (describeRelations rs).map Prod.fst = (rs.map Prod.fst).map text
  | [] => rfl
  | (kind, xs) :: rs => by
    rw [describeRelations, List.map_cons, List.map_cons, List.map_cons, describeRelations_keys rs]

/-- The description of relations can be carried if those of all members can. -/
theorem entriesCarried_relations : ∀ rs : List (String × List Value),
    entriesCarried (describeEntries (describeRelations rs))
      = rs.all fun r => listCarried (describeList (describeList r.2))
  | [] => rfl
  | (kind, xs) :: rs => by
    rw [describeRelations, describeEntries, entriesCarried, List.all_cons,
      entriesCarried_relations rs]
    rfl

end Value

open Value

/-- Of an object only its value and what it is related to can keep it from being sent. -/
theorem Entity.carried_describe (e : Entity) : e.describe.describe.carried
    = ((e.relations.all fun r => listCarried (describeList (describeList r.2)))
      && e.value.describe.describe.carried) := by
  have hdescribe : e.describe.describe = dict [
      (text "id", text e.id), (text "type", text e.type), (text "tags", (texts e.tags).describe),
      (text "methods", (texts (e.methods.map Prod.fst)).describe),
      (text "relations", dict (describeEntries (describeRelations e.relations))),
      (text "value", e.value.describe.describe)] := rfl
  have hkeys : keysCarried (["id", "type", "tags", "methods", "relations", "value"].map text) = true :=
    keysCarried_texts _
  have hrelations : (dict (describeEntries (describeRelations e.relations))).carried
      = e.relations.all fun r => listCarried (describeList (describeList r.2)) := by
    rw [carried, describeEntries_keys, describeRelations_keys, keysCarried_texts, Bool.true_and,
      entriesCarried_relations]
  rw [hdescribe, carried]
  show (keysCarried (["id", "type", "tags", "methods", "relations", "value"].map text)
    && (true && (true && ((texts e.tags).describe.carried
      && ((texts (e.methods.map Prod.fst)).describe.carried
        && ((dict (describeEntries (describeRelations e.relations))).carried
          && (e.value.describe.describe.carried && true))))))) = _
  rw [hkeys, carried_describe_texts, carried_describe_texts, hrelations]
  simp only [Bool.true_and, Bool.and_true]

namespace Value

mutual

/-- Does the wire format carry the value of a field?  A mapping is an object there, with a variable of
    that type for each key. -/
def carriedAsField (type : Value) : Value → Bool
  | dict entries => fieldsCarried type entries
  | v => v.carried

/-- Does it carry the fields? -/
def fieldsCarried (type : Value) : List (Value × Value) → Bool
  | [] => true
  | (_, v) :: es => carriedAsField type v && type.carried && fieldsCarried type es

end

mutual

/-- Bound data is sent as the value of a field. -/
theorem carried_bound (type : Value) (name : String) : ∀ {v : Value}, v.IsData →
    (bound type name v).describe.describe.carried = carriedAsField type.describe v
  | dict es, h => by
    have hobject : bound type name (dict es) = (Entity.ofMapping name es type).toValue := rfl
    rw [hobject]
    show (Entity.ofMapping name es type).describe.describe.carried = fieldsCarried type.describe es
    rw [Entity.carried_describe, ← carried_boundFields type h]
    show ((listCarried (describeList (describeList (boundFields type es))) && true) && true) = _
    rw [Bool.and_true, Bool.and_true]
  | scalar _, _ => rfl
  | list xs, h => by
    show listCarried (describeList (describeList xs)) = listCarried xs
    rw [describeList_of_itemsData h, describeList_of_itemsData h]
  | tuple xs, h => by
    show listCarried (describeList (describeList xs)) = listCarried xs
    rw [describeList_of_itemsData h, describeList_of_itemsData h]

/-- The variables of a record can be carried exactly if its fields can. -/
theorem carried_boundFields (type : Value) : ∀ {es : List (Value × Value)}, EntriesData es →
    listCarried (describeList (describeList (boundFields type es)))
      = fieldsCarried type.describe es
  | [], _ => rfl
  | (k, v) :: es, h => by
    have hvar : (var (text k.nameText) (bound type k.nameText v) type).describe.describe.carried
        = ((bound type k.nameText v).describe.describe.carried && type.describe.carried) := by
      show (true && (true && ((bound type k.nameText v).describe.describe.carried
        && (type.describe.carried && true)))) = _
      simp only [Bool.true_and, Bool.and_true]
    rw [boundFields, describeList, describeList, listCarried, hvar, fieldsCarried,
      carried_bound type k.nameText h.1, carried_boundFields type h.2]

end

/-! ## Values that statements write -/

/-- What holds of a new value and of those that are there holds of all values. -/
theorem forall_put {P : Value → Prop} {key value : Value} (hvalue : P value) :
    ∀ {es : List (Value × Value)}, (∀ e ∈ es, P e.2) → ∀ e ∈ put key value es, P e.2
  | [], _ => by
    intro e he
    rw [List.mem_singleton.mp he]
    exact hvalue
  | (k, v) :: es, h => by
    obtain ⟨hv, hes⟩ := List.forall_mem_cons.mp h
    rw [put]
    split
    · exact List.forall_mem_cons.mpr ⟨hvalue, hes⟩
    · exact List.forall_mem_cons.mpr ⟨hv, forall_put hvalue hes⟩

/-- What holds of all values in a list of entries holds of those in the dictionary that they write. -/
theorem forall_ofEntries {P : Value → Prop} {es : List (Value × Value)} (h : ∀ e ∈ es, P e.2) :
    ∀ e ∈ ofEntries es, P e.2 := by
  have hfold : ∀ acc : List (Value × Value), (∀ e ∈ acc, P e.2) →
      ∀ e ∈ es.foldl (fun acc e => put e.1 e.2 acc) acc, P e.2 := by
    induction es with
    | nil => exact fun _ hacc => hacc
    | cons e es ih =>
      obtain ⟨he, hes⟩ := List.forall_mem_cons.mp h
      exact fun acc hacc => ih hes _ (forall_put he hacc)
  exact hfold [] fun _ he => absurd he List.not_mem_nil

end Value

namespace Literal

mutual

/-- Literals write plain data. -/
theorem isData_of_value? : ∀ {l : Literal} {v : Value}, l.value? = some v → v.IsData
  | scalar _, _, h => by
    cases h
    trivial
  | list xs, _, h => by
    obtain ⟨vs, hvs, rfl⟩ := Option.map_eq_some_iff.mp h
    exact itemsData_of_values? hvs
  | tuple xs, _, h => by
    obtain ⟨vs, hvs, rfl⟩ := Option.map_eq_some_iff.mp h
    exact itemsData_of_values? hvs
  | dict es, _, h => by
    obtain ⟨vs, hvs, rfl⟩ := Option.map_eq_some_iff.mp h
    exact entriesData_iff.mpr (forall_ofEntries (entriesData_iff.mp (entriesData_of_entryValues? hvs)))

/-- The items that literals write are plain data. -/
theorem itemsData_of_values? : ∀ {ls : List Literal} {vs : List Value}, values? ls = some vs →
    ItemsData vs
  | [], _, h => by
    cases h
    trivial
  | l :: ls, _, h => by
    obtain ⟨v, hv, h⟩ := Option.bind_eq_some_iff.mp h
    obtain ⟨vs, hvs, h⟩ := Option.bind_eq_some_iff.mp h
    cases h
    exact ⟨isData_of_value? hv, itemsData_of_values? hvs⟩

theorem entriesData_of_entryValues? : ∀ {ls : List (Literal × Literal)}
    {es : List (Value × Value)}, entryValues? ls = some es → EntriesData es
  | [], _, h => by
    cases h
    trivial
  | (k, l) :: ls, _, h => by
    obtain ⟨x, -, h⟩ := Option.bind_eq_some_iff.mp h
    obtain ⟨es, hes, h⟩ := Option.bind_eq_some_iff.mp h
    obtain ⟨v, hv, h⟩ := Option.bind_eq_some_iff.mp h
    cases h
    have hrest := entriesData_of_entryValues? hes
    refine ⟨?_, hrest⟩
    rcases Option.or_eq_some_iff.mp hv with hlater | ⟨-, hv⟩
    · obtain ⟨e, hfind, rfl⟩ := Option.map_eq_some_iff.mp hlater
      exact entriesData_iff.mp hrest e (List.mem_of_find?_eq_some hfind)
    · exact isData_of_value? hv

end

end Literal

/-- What an expression evaluates to is what a literal writes. -/
theorem exists_of_evaluate {expr : List Char} {v : Value} (h : evaluate expr = .ok v) :
    ∃ l : Literal, l.value? = some v := by
  unfold evaluate at h
  dsimp only at h
  split at h
  · cases h
  · cases h
  · split at h
    · rename_i hw
      cases h
      exact ⟨_, hw⟩
    · cases h

/-- What an expression evaluates to is plain data. -/
theorem isData_of_evaluate {expr : List Char} {v : Value} (h : evaluate expr = .ok v) :
    v.IsData := by
  obtain ⟨l, hl⟩ := exists_of_evaluate h
  exact Literal.isData_of_value? hl

section

variable {P : Value → Prop} (hP : ∀ {expr v}, evaluate expr = .ok v → P v)
include hP

/-- What holds of the values of fields that were read, and of every evaluated value, holds behind one
    more field. -/
theorem forall_readField {fields fields' : List (Value × Value)} {entry : List Char}
    (hfields : ∀ e ∈ fields, P e.2) (h : readField fields entry = .ok fields') :
    ∀ e ∈ fields', P e.2 := by
  unfold readField at h
  split at h
  · rename_i key raw _
    have hput : ∃ k : Value, (do
        let value ← evaluate raw
        if k.writable then .ok (put (.text k.nameText) value fields)
        else .error .unwritableName) = (.ok fields' : Except EvaluationError _) := by
      dsimp only at h
      split at h
      · obtain ⟨k, -, h⟩ := exists_of_bind h
        exact ⟨k, h⟩
      · exact ⟨_, h⟩
    obtain ⟨k, hput⟩ := hput
    obtain ⟨value, hvalue, hput⟩ := exists_of_bind hput
    split at hput
    · cases hput
      exact forall_put (hP hvalue) hfields
    · cases hput
  · cases h

/-- What holds of every value that an expression evaluates to holds of all fields. -/
theorem forall_readFields {args : List Char} {fields : List (Value × Value)}
    (h : readFields args = .ok fields) : ∀ e ∈ fields, P e.2 := by
  have hfold : ∀ {entries : List (List Char)} {before after : List (Value × Value)},
      (∀ e ∈ before, P e.2) → entries.foldlM readField before = .ok after → ∀ e ∈ after, P e.2 := by
    intro entries
    induction entries with
    | nil =>
      intro before after hbefore h
      cases h
      exact hbefore
    | cons entry entries ih =>
      intro before after hbefore h
      rw [List.foldlM_cons] at h
      obtain ⟨fields, hfields, h⟩ := exists_of_bind h
      exact ih (forall_readField hP hbefore hfields) h
  exact hfold (fun _ he => absurd he List.not_mem_nil) h

end

theorem entriesData_of_readFields {args : List Char} {fields : List (Value × Value)}
    (h : readFields args = .ok fields) : EntriesData fields :=
  entriesData_iff.mpr (forall_readFields isData_of_evaluate h)

/-! ## Declared objects -/

/-- Does the wire format carry what the expression of a definition declares?  It carries every function;
    fields by their values; and any other value as it is. -/
def Carries (settings : Settings) (expr : List Char) : Prop :=
  if occursUnquoted expr "=>".toList then True
  else match recordArguments? expr with
    | some args => ∃ fields, readFields args = .ok fields
      ∧ fieldsCarried settings.sourceType.describe fields = true
    | none => ∃ v, evaluate expr = .ok v ∧ v.carried = true

section

variable {settings : Settings} {expr : List Char}

/-- A function can always be carried: there is no value in its description. -/
theorem carries_arrow (h : occursUnquoted expr "=>".toList = true) : Carries settings expr := by
  rw [Carries, if_pos h]
  trivial

/-- The object of a record can be carried exactly if its fields can. -/
theorem carries_record_iff {args : List Char} {fields : List (Value × Value)}
    (h : ¬ occursUnquoted expr "=>".toList = true) (hargs : recordArguments? expr = some args)
    (hfields : readFields args = .ok fields) :
    Carries settings expr ↔ fieldsCarried settings.sourceType.describe fields = true := by
  rw [Carries, if_neg h, hargs]
  constructor
  · rintro ⟨fields', hfields', hcarried⟩
    rw [hfields] at hfields'
    cases hfields'
    exact hcarried
  · intro hcarried
    exact ⟨fields, hfields, hcarried⟩

/-- The object of a literal can be carried exactly if its value can. -/
theorem carries_literal_iff {v : Value} (h : ¬ occursUnquoted expr "=>".toList = true)
    (hargs : recordArguments? expr = none) (hv : evaluate expr = .ok v) :
    Carries settings expr ↔ v.carried = true := by
  rw [Carries, if_neg h, hargs]
  constructor
  · rintro ⟨v', hv', hcarried⟩
    rw [hv] at hv'
    cases hv'
    exact hcarried
  · intro hcarried
    exact ⟨v, hv, hcarried⟩

/-- The object that a definition makes is sent exactly if what the definition writes is. -/
theorem carried_define {id : String} {e : Entity} (h : define settings id expr = .ok e) :
    e.describe.describe.carried = true ↔ Carries settings expr := by
  rw [Entity.carried_describe]
  unfold define at h
  split at h
  · -- an arrow
    rename_i harrow
    obtain ⟨c, -, h⟩ := exists_of_bind h
    cases h
    exact iff_of_true rfl (carries_arrow harrow)
  · rename_i harrow
    split at h
    · -- a record
      rename_i args hargs
      split at h
      · rename_i fields hfields
        obtain ⟨built, hbuilt, h⟩ := exists_of_bind h
        cases h
        rw [Entity.build] at hbuilt
        split at hbuilt
        · cases hbuilt
          rw [carries_record_iff harrow hargs hfields,
            ← carried_boundFields settings.sourceType (entriesData_of_readFields hfields)]
          show ((listCarried (describeList (describeList (boundFields settings.sourceType fields)))
            && true) && true) = true ↔ _
          rw [Bool.and_true, Bool.and_true]
        · cases hbuilt
      · cases h
    · -- a literal
      rename_i hargs
      split at h
      · rename_i v hv
        cases h
        have hdata := isData_of_evaluate hv
        rw [carries_literal_iff harrow hargs hv]
        show (true && v.describe.describe.carried) = true ↔ _
        rw [Bool.true_and, describe_of_isData hdata, describe_of_isData hdata]
      · cases h

end

/-- The expression of the last definition of `id` that succeeds. -/
def LastDefinition (settings : Settings) (ss : List (List Char)) (id : String)
    (expr : List Char) : Prop :=
  ∃ before s after made, ss = before ++ s :: after ∧ Declaration.parse s = .define id expr
    ∧ define settings id expr = .ok made
    ∧ ∀ t ∈ after, ∀ later, declared? settings t ≠ some (id, later)

section

variable {settings : Settings} {ss : List (List Char)} {id : String}

/-- Of the object under an id it is the last definition that decides whether it is sent: tags are
    texts, and these are carried. -/
theorem carried_of_standing {e : Entity} (h : Standing settings ss id e) :
    ∃ expr, LastDefinition settings ss id expr
      ∧ (e.describe.describe.carried = true ↔ Carries settings expr) := by
  obtain ⟨before, s, after, made, hss, hmade, hafter, rfl⟩ := h
  unfold declared? at hmade
  split at hmade
  · rename_i id' expr hparse
    cases hdefine : define settings id' expr with
    | error x =>
      rw [hdefine] at hmade
      cases hmade
    | ok made' =>
      rw [hdefine] at hmade
      cases hmade
      refine ⟨expr, ⟨before, s, after, made, hss, hparse, hdefine, hafter⟩, ?_⟩
      rw [← carried_define hdefine, Entity.carried_describe, Entity.carried_describe made]
  · cases hmade

/-- There is an object under every id with a last definition. -/
theorem LastDefinition.standing {expr : List Char} (h : LastDefinition settings ss id expr) :
    ∃ e, Standing settings ss id e ∧ (e.describe.describe.carried = true ↔ Carries settings expr) := by
  obtain ⟨before, s, after, made, hss, hparse, hdefine, hafter⟩ := h
  have hmade : declared? settings s = some (id, made) := by
    rw [declared?, hparse]
    dsimp only
    rw [hdefine]
    rfl
  refine ⟨_, ⟨before, s, after, made, hss, hmade, hafter, rfl⟩, ?_⟩
  rw [← carried_define hdefine, Entity.carried_describe, Entity.carried_describe made]

end

namespace Registry

/-- **An object of a registry that passes filled can be sent** exactly if the wire format carries what
    the last successful definition of its id writes. -/
theorem exists_write_describe_iff {settings : Settings} {ss : List (List Char)} {r : Registry}
    (h : Reached settings ss r) (id : String) :
    (∃ t, Json.write Json.descriptionStyle (r.describe id) = .ok t)
      ↔ ∀ expr, LastDefinition settings ss id expr → Carries settings expr := by
  rw [Json.exists_write_iff, describe]
  constructor
  · intro hcarried expr hlast
    obtain ⟨e, he, hiff⟩ := hlast.standing
    rw [(h.follows.objects id e).mpr he] at hcarried
    exact hiff.mp hcarried
  · intro hall
    cases hget : Table.get? id r.objects with
    | none => rfl
    | some e =>
      obtain ⟨expr, hlast, hiff⟩ := carried_of_standing ((h.follows.objects id e).mp hget)
      exact hiff.mpr (hall expr hlast)

/-- A list of numbers can be sent, and a list with bytes in it cannot. -/
theorem exists_write_describe_iff_lists :
    let c := (empty .default).compile "let a = [1, 2]; let b = [b'x']".toList false
    ∃ ss, Reached .default ss c.registry
      ∧ (∀ expr, LastDefinition .default ss "a" expr → Carries .default expr)
      ∧ ¬ ∀ expr, LastDefinition .default ss "b" expr → Carries .default expr := by
  intro c
  have hrun : c.outcome.toOption.isSome = true
      ∧ (Json.write Json.descriptionStyle (c.registry.describe "a")).toOption.isSome = true
      ∧ (Json.write Json.descriptionStyle (c.registry.describe "b")).toOption.isSome = false := by
    decide +kernel
  obtain ⟨hok, ha, hb⟩ := hrun
  obtain ⟨_, hok⟩ := exists_of_toOption hok
  have hreached : Reached .default _ c.registry := .compile _ false .empty hok
  refine ⟨_, hreached, (exists_write_describe_iff hreached "a").mp (exists_of_toOption ha), ?_⟩
  intro hall
  obtain ⟨t, ht⟩ := (exists_write_describe_iff hreached "b").mpr hall
  rw [ht] at hb
  cases hb

/-- Bytes are declared without a word, and then have no text. -/
theorem write_describe_bytes :
    let c := (empty .default).compile "let b = b\"x\"".toList false
    c.outcome = .ok [] ∧ Table.names c.registry.objects = ["b"]
      ∧ ¬ ∃ t, Json.write Json.descriptionStyle (c.registry.describe "b") = .ok t := by
  intro c
  have hrun : c.outcome.toOption = some [] ∧ Table.names c.registry.objects = ["b"]
      ∧ (Json.write Json.descriptionStyle (c.registry.describe "b")).toOption = none := by
    decide +kernel
  obtain ⟨houtcome, hnames, hwrite⟩ := hrun
  refine ⟨?_, hnames, ?_⟩
  · cases hc : c.outcome with
    | error e =>
      rw [hc] at houtcome
      cases houtcome
    | ok ds =>
      rw [hc] at houtcome
      exact congrArg _ (Option.some.inj houtcome)
  · rintro ⟨t, ht⟩
    rw [ht] at hwrite
    cases hwrite

end Registry
end LetTag
