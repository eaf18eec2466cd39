/-
  Descriptions come back from the wire.

  What is described of a value is plain data again: scalars, lists and tuples, and dictionaries whose
  keys are names.  Sorting loses no entry of these, and names never clash, so of such data the reader
  gives everything back but two things (`ReadAs`): a tuple comes as a list, and the entries of a
  dictionary come in the order of their keys.

  Writing fails for one reason only.  An integer has a text up to a number of digits, and a value
  comes back exactly if each integer in it has one (`decodes_iff`).
-/
import LetTag.Proofs.Encoding
import Mathlib.Data.List.Perm.Basic

namespace LetTag

open Json

namespace Value

/-! ## Values that are described -/

mutual

/-- Is the value made of scalars that JSON has a form for, lists, tuples, dictionaries with names for
    keys, variables and objects?  Names, types and tags are texts, and no kind of relation is there
    twice. -/
def IsPayload : Value → Prop
  | scalar s => match s with
    | .null | .bool _ | .int _ | .float _ | .text _ => True
    | _ => False
  | list xs => ItemsPayload xs
  | tuple xs => ItemsPayload xs
  | dict es => NamedApart es ∧ EntriesPayload es
  | var n v t => (∃ name, n = text name) ∧ v.IsPayload ∧ ∃ type, t = text type
  | object _ _ v _ rs gs => v.IsPayload ∧ (rs.map Prod.fst).Nodup ∧ RelationsPayload rs
    ∧ ∃ tags, gs = texts tags
  | record _ _ | ref _ => False

/-- The items are such values. -/
def ItemsPayload : List Value → Prop
  | [] => True
  | x :: xs => x.IsPayload ∧ ItemsPayload xs

/-- What the keys lead to are such values. -/
def EntriesPayload : List (Value × Value) → Prop
  | [] => True
  | (_, v) :: es => v.IsPayload ∧ EntriesPayload es

/-- The related entities of each kind are such values. -/
def RelationsPayload : List (String × List Value) → Prop
  | [] => True
  | (_, xs) :: rs => ItemsPayload xs ∧ RelationsPayload rs

end

theorem itemsPayload_texts (ss : List String) : ItemsPayload (ss.map text) := by
  induction ss with
  | nil => trivial
  | cons s ss ih => exact ⟨trivial, ih⟩

mutual

/-- The description of such a value is one. -/
theorem isPayload_describe : ∀ {v : Value}, v.IsPayload → v.describe.IsPayload
  | scalar _, h => h
  | list _, h => itemsPayload_describe h
  | tuple _, h => itemsPayload_describe h
  | dict es, ⟨⟨names, hnodup, hkeys⟩, hes⟩ => by
    refine ⟨⟨names, hnodup, ?_⟩, entriesPayload_describe hes⟩
    rw [describeEntries_keys, hkeys]
  | var _ _ _, ⟨⟨_, hname⟩, hv, ⟨_, htype⟩⟩ => by
    subst hname htype
    exact ⟨⟨["name", "value", "type"], by decide, rfl⟩, trivial, isPayload_describe hv, trivial,
      trivial⟩
  | object _ _ _ ms rs _, ⟨hv, hkinds, hrs, ⟨tags, htags⟩⟩ => by
    subst htags
    have hrelations : (dict (describeRelations rs)).IsPayload :=
      ⟨⟨rs.map Prod.fst, hkinds, describeRelations_keys rs⟩, relationsPayload_describe hrs⟩
    exact ⟨⟨["id", "type", "tags", "methods", "relations", "value"], by decide, rfl⟩, trivial,
      trivial, itemsPayload_texts tags, itemsPayload_texts (ms.map Prod.fst), hrelations,
      isPayload_describe hv, trivial⟩

/-- Describing a list of payloads gives payloads. -/
theorem itemsPayload_describe : ∀ {xs : List Value}, ItemsPayload xs →
    ItemsPayload (describeList xs)
  | [], _ => trivial
  | _ :: _, h => ⟨isPayload_describe h.1, itemsPayload_describe h.2⟩

theorem entriesPayload_describe : ∀ {es : List (Value × Value)}, EntriesPayload es →
    EntriesPayload (describeEntries es)
  | [], _ => trivial
  | (_, _) :: _, h => ⟨isPayload_describe h.1, entriesPayload_describe h.2⟩

theorem relationsPayload_describe : ∀ {rs : List (String × List Value)}, RelationsPayload rs →
    EntriesPayload (describeRelations rs)
  | [], _ => trivial
  | (_, _) :: _, h => ⟨itemsPayload_describe h.1, relationsPayload_describe h.2⟩

end

theorem itemsData_texts (ss : List String) : ItemsData (ss.map text) := by
  induction ss with
  | nil => trivial
  | cons s ss ih => exact ⟨trivial, ih⟩

mutual

/-- The description of such a value holds no variable and no object. -/
theorem isData_describe : ∀ {v : Value}, v.IsPayload → v.describe.IsData
  | scalar _, _ => trivial
  | list _, h => itemsData_describe h
  | tuple _, h => itemsData_describe h
  | dict _, h => entriesData_describe h.2
  | var _ _ _, ⟨⟨_, hname⟩, hv, ⟨_, htype⟩⟩ => by
    subst hname htype
    exact ⟨trivial, isData_describe hv, trivial, trivial⟩
  | object _ _ _ ms _ _, ⟨hv, _, hrs, ⟨tags, htags⟩⟩ => by
    subst htags
    exact ⟨trivial, trivial, itemsData_texts tags, itemsData_texts (ms.map Prod.fst),
      relationsData_describe hrs, isData_describe hv, trivial⟩

/-- The description of a list of payloads is plain data. -/
theorem itemsData_describe : ∀ {xs : List Value}, ItemsPayload xs → ItemsData (describeList xs)
  | [], _ => trivial
  | _ :: _, h => ⟨isData_describe h.1, itemsData_describe h.2⟩

theorem entriesData_describe : ∀ {es : List (Value × Value)}, EntriesPayload es →
    EntriesData (describeEntries es)
  | [], _ => trivial
  | (_, _) :: _, h => ⟨isData_describe h.1, entriesData_describe h.2⟩

theorem relationsData_describe : ∀ {rs : List (String × List Value)}, RelationsPayload rs →
    EntriesData (describeRelations rs)
  | [], _ => trivial
  | (_, _) :: _, h => ⟨itemsData_describe h.1, relationsData_describe h.2⟩

end

/-! ## What can be written -/

theorem listCarried_texts (ss : List String) : listCarried (ss.map text) = true := by
  induction ss with
  | nil => rfl
  | cons s ss ih => exact ih

theorem listWritable_texts (ss : List String) : listWritable (ss.map text) = true := by
  induction ss with
  | nil => rfl
  | cons s ss ih => exact ih

mutual

/-- Only its integers can keep such a value from being sent. -/
theorem carried_describe : ∀ {v : Value}, v.IsPayload → v.describe.carried = v.writable
  | scalar s, h => by
    cases s with
    | null | bool _ | int _ | float _ | text _ => rfl
    | complex _ _ | bytes _ | ellipsis | builtin _ => exact absurd h id
  | list _, h => listCarried_describe h
  | tuple _, h => listCarried_describe h
  | dict es, ⟨hnames, hes⟩ => by
    have hkeys : keysCarried ((describeEntries es).map Prod.fst) = true := by
      obtain ⟨names, -, hkeys⟩ := hnames
      rw [describeEntries_keys, hkeys, keysCarried_texts]
    rw [describe, carried, hkeys, Bool.true_and, entriesCarried_describe hnames hes]
    rfl
  | var _ v _, ⟨⟨_, hname⟩, hv, ⟨_, htype⟩⟩ => by
    subst hname htype
    have hkeys : keysCarried (["name", "value", "type"].map text) = true := keysCarried_texts _
    show (keysCarried (["name", "value", "type"].map text)
      && (true && (v.describe.carried && (true && true)))) = (true && v.writable && true)
    rw [hkeys, carried_describe hv]
    simp only [Bool.true_and, Bool.and_true]
  | object _ _ v ms rs _, ⟨hv, hkinds, hrs, ⟨tags, htags⟩⟩ => by
    subst htags
    have hkeys : keysCarried (["id", "type", "tags", "methods", "relations", "value"].map text)
        = true := keysCarried_texts _
    have hrelations : (dict (describeRelations rs)).carried = relationsWritable rs := by
      rw [carried, describeRelations_keys, keysCarried_texts, relationsCarried_describe hrs]
      rfl
    show (keysCarried (["id", "type", "tags", "methods", "relations", "value"].map text)
      && (true && (true && (listCarried (tags.map text)
        && (listCarried ((ms.map Prod.fst).map text)
          && ((dict (describeRelations rs)).carried && (v.describe.carried && true)))))))
      = (v.writable && relationsWritable rs && listWritable (tags.map text))
    rw [hkeys, listCarried_texts, listCarried_texts, listWritable_texts, hrelations,
      carried_describe hv]
    simp only [Bool.true_and, Bool.and_comm]

/-- The descriptions of the items can be carried exactly if all items can be written. -/
theorem listCarried_describe : ∀ {xs : List Value}, ItemsPayload xs →
    listCarried (describeList xs) = listWritable xs
  | [], _ => rfl
  | _ :: _, h => by
    rw [describeList, listCarried, carried_describe h.1, listCarried_describe h.2, listWritable]

/-- Described entries can be carried exactly if the entries can be written, where the keys are distinct
    texts. -/
theorem entriesCarried_describe : ∀ {es : List (Value × Value)}, NamedApart es →
    EntriesPayload es → entriesCarried (describeEntries es) = entriesWritable es
  | [], _, _ => rfl
  | (_, _) :: _, hnames, h => by
    obtain ⟨name, rfl, hnames, -⟩ := hnames.cons
    rw [describeEntries, entriesCarried, carried_describe h.1, entriesCarried_describe hnames h.2]
    rfl

/-- Described relations can be carried exactly if their members can be written: the kinds are texts. -/
theorem relationsCarried_describe : ∀ {rs : List (String × List Value)}, RelationsPayload rs →
    entriesCarried (describeRelations rs) = relationsWritable rs
  | [], _ => rfl
  | (_, _) :: _, h => by
    rw [describeRelations, entriesCarried, relationsCarried_describe h.2, relationsWritable, carried,
      listCarried_describe h.1]

end

/-! ## What is read -/

mutual

/-- Is the second value what is read where the first was sent?  Tuples are lists there, and the
    entries of a dictionary stand in any order. -/
inductive ReadAs : Value → Value → Prop
  | scalar (s : Scalar) : ReadAs (scalar s) (scalar s)
  | list {xs ys : List Value} : ItemsReadAs xs ys → ReadAs (list xs) (list ys)
  | tuple {xs ys : List Value} : ItemsReadAs xs ys → ReadAs (tuple xs) (list ys)
  | dict {es fs gs : List (Value × Value)} : EntriesReadAs es fs → gs.Perm fs →
    ReadAs (dict es) (dict gs)

/-- The items are read one by one. -/
inductive ItemsReadAs : List Value → List Value → Prop
  | nil : ItemsReadAs [] []
  | cons {x y : Value} {xs ys : List Value} : ReadAs x y → ItemsReadAs xs ys →
    ItemsReadAs (x :: xs) (y :: ys)

/-- The values of the entries are read one by one, under the same keys. -/
inductive EntriesReadAs : List (Value × Value) → List (Value × Value) → Prop
  | nil : EntriesReadAs [] []
  | cons (k : Value) {v w : Value} {es fs : List (Value × Value)} : ReadAs v w →
    EntriesReadAs es fs → EntriesReadAs ((k, v) :: es) ((k, w) :: fs)

end

/-- What is read back has the keys of what was written, in their order. -/
theorem EntriesReadAs.keys {es fs : List (Value × Value)} (h : EntriesReadAs es fs) :
    fs.map Prod.fst = es.map Prod.fst := by
  induction es generalizing fs with
  | nil =>
    cases h
    rfl
  | cons e es ih =>
    cases h with
    | cons k _ hrest => rw [List.map_cons, List.map_cons, ih hrest]

/-- Names stay apart in another order. -/
theorem NamedApart.perm {es fs : List (Value × Value)} (h : NamedApart es) (hperm : fs.Perm es) :
    NamedApart fs := by
  obtain ⟨names, hnodup, hkeys⟩ := h
  have hnames : (fs.map fun e => e.1.nameText).Perm names := by
    have hback : es.map (fun e => e.1.nameText) = names := by
      have hmap := congrArg (List.map nameText) hkeys
      rw [List.map_map, List.map_map] at hmap
      exact hmap.trans (List.map_id names)
    rw [← hback]
    exact hperm.map _
  refine ⟨_, hnames.nodup_iff.mpr hnodup, ?_⟩
  rw [List.map_map]
  refine List.map_congr_left fun e he => ?_
  have hkey : e.1 ∈ names.map text := hkeys ▸ List.mem_map_of_mem (hperm.mem_iff.mp he)
  obtain ⟨name, -, hname⟩ := List.mem_map.mp hkey
  rw [Function.comp, ← hname]
  rfl

end Value

open Value

namespace Json

/-- The texts of entries are those of what is read, under the same keys. -/
def EntriesText : List (Value × List Char) → List (Value × Value) → Prop :=
  List.Forall₂ fun e f => e.1 = f.1 ∧ Denotes e.2 f.2

/-- Entries with names for keys are texts behind their names. -/
theorem entriesDenote_of_text {entries : List (Value × List Char)} {fs : List (Value × Value)}
    (h : EntriesText entries fs) : ∀ {ts : List (List Char)}, NamedApart fs →
    entries.mapM entryText = .ok ts → EntriesDenote ts fs := by
  induction h with
  | nil =>
    intro ts _ hts
    cases hts
    exact .nil
  | @cons e f entries fs hef _ ih =>
    intro ts hnames hts
    obtain ⟨k, t⟩ := e
    obtain ⟨k', w⟩ := f
    obtain ⟨rfl, ht⟩ := hef
    obtain ⟨name, rfl, hnames, -⟩ := hnames.cons
    rw [List.mapM_cons] at hts
    obtain ⟨first, hfirst, hts⟩ := exists_of_bind hts
    obtain ⟨rest, hrest, hts⟩ := exists_of_bind hts
    cases hfirst
    cases hts
    have hentry := EntriesDenote.cons name.toList ht (ih hnames hrest)
    rw [String.ofList_toList] at hentry
    exact hentry

/-- Sorted entries are texts of a dictionary with the same entries. -/
theorem denotes_of_braced {level : Nat} {entries : List (Value × List Char)}
    {fs : List (Value × Value)} {t : List Char} (hentries : EntriesText entries fs)
    (hnames : NamedApart fs) (h : braced descriptionStyle level entries = .ok t) :
    ∃ gs, gs.Perm fs ∧ Denotes t (.dict gs) := by
  rw [braced_eq] at h
  obtain ⟨sorted, hsorted, h⟩ := exists_of_bind h
  obtain ⟨ts, hts, h⟩ := exists_of_bind h
  cases h
  -- what is read of the entries goes along with them when they are sorted
  obtain ⟨gs, hgs, hperm⟩ := List.perm_comp_forall₂ (sortByKey_spec hsorted).1 hentries
  have hnames' := hnames.perm hperm
  refine ⟨gs, hperm, ?_⟩
  have hdict := Denotes.dict (entriesDenote_of_text hgs hnames' hts)
  rw [ofEntries_of_namedApart hnames'] at hdict
  rw [bracketed_eq rfl]
  exact hdict

mutual

/-- What is written of plain data is a text of what is read. -/
theorem denotes_of_render : ∀ {level : Nat} {v : Value} {t : List Char}, v.IsPayload →
    render descriptionStyle level v = .ok t → (∀ x ∈ v.doubles, ReadsBack x) →
    ∃ w, Denotes t w ∧ v.ReadAs w
  | _, .scalar s, _, hv, h, hdoubles => by
    have hscalar := denotes_scalar h hdoubles
    refine ⟨_, hscalar, ?_⟩
    cases s with
    | null | bool _ | int _ | float _ | text _ => exact .scalar _
    | complex _ _ | bytes _ | ellipsis | builtin _ => exact absurd hv id
  | _, .list _, _, hv, h, hdoubles => by
    obtain ⟨ts, hts, h⟩ := exists_of_bind h
    obtain ⟨ys, hys, hread⟩ := itemsDenote_of_render hv hts hdoubles
    cases h
    rw [bracketed_eq rfl]
    exact ⟨_, .list hys, .list hread⟩
  | _, .tuple _, _, hv, h, hdoubles => by
    obtain ⟨ts, hts, h⟩ := exists_of_bind h
    obtain ⟨ys, hys, hread⟩ := itemsDenote_of_render hv hts hdoubles
    cases h
    rw [bracketed_eq rfl]
    exact ⟨_, .list hys, .tuple hread⟩
  | _, .dict es, _, ⟨⟨names, hnodup, hkeys⟩, hv⟩, h, hdoubles => by
    obtain ⟨entries, hentries, h⟩ := exists_of_bind h
    obtain ⟨fs, hfs, hread⟩ := entriesText_of_render hv hentries hdoubles
    have hnames : NamedApart fs := ⟨names, hnodup, hread.keys.trans hkeys⟩
    obtain ⟨gs, hperm, hgs⟩ := denotes_of_braced hfs hnames h
    exact ⟨_, hgs, .dict hread hperm⟩
  | _, .var .., _, _, h, _ | _, .object .., _, _, h, _ | _, .record .., _, _, h, _
  | _, .ref _, _, _, h, _ => nomatch h

/-- So are the texts of the items. -/
theorem itemsDenote_of_render : ∀ {level : Nat} {xs : List Value} {ts : List (List Char)},
    ItemsPayload xs → renderList descriptionStyle level xs = .ok ts →
    (∀ x ∈ listDoubles xs, ReadsBack x) → ∃ ys, ItemsDenote ts ys ∧ ItemsReadAs xs ys
  | _, [], _, _, h, _ => by
    cases h
    exact ⟨[], .nil, .nil⟩
  | _, x :: xs, _, hxs, h, hdoubles => by
    obtain ⟨t, ht, h⟩ := exists_of_bind h
    obtain ⟨ts, hts, h⟩ := exists_of_bind h
    cases h
    obtain ⟨hx, hxs'⟩ := List.forall_mem_append.mp hdoubles
    obtain ⟨y, hy, hread⟩ := denotes_of_render hxs.1 ht hx
    obtain ⟨ys, hys, hreads⟩ := itemsDenote_of_render hxs.2 hts hxs'
    exact ⟨y :: ys, .cons hy hys, .cons hread hreads⟩

/-- So are the texts of the values of the entries, each with its key. -/
theorem entriesText_of_render : ∀ {level : Nat} {es : List (Value × Value)}
    {entries : List (Value × List Char)}, EntriesPayload es →
    renderEntries descriptionStyle level es = .ok entries →
    (∀ x ∈ entriesDoubles es, ReadsBack x) → ∃ fs, EntriesText entries fs ∧ EntriesReadAs es fs
  | _, [], _, _, h, _ => by
    cases h
    exact ⟨[], .nil, .nil⟩
  | _, (k, v) :: es, _, hes, h, hdoubles => by
    obtain ⟨t, ht, h⟩ := exists_of_bind h
    obtain ⟨entries, hentries, h⟩ := exists_of_bind h
    cases h
    obtain ⟨hv, hes'⟩ := List.forall_mem_append.mp hdoubles
    obtain ⟨w, hw, hread⟩ := denotes_of_render hes.1 ht hv
    obtain ⟨fs, hfs, hreads⟩ := entriesText_of_render hes.2 hentries hes'
    exact ⟨(k, w) :: fs, .cons ⟨rfl, hw⟩ hfs, .cons k hread hreads⟩

end

/-! ## What cannot be written -/

mutual

/-- Of plain data, only an integer with too many digits has no text. -/
theorem tooManyDigits_of_render : ∀ {level : Nat} {v : Value} {e : WriteError}, v.IsPayload →
    v.IsData → render descriptionStyle level v = .error e → e = .tooManyDigits
  | _, .scalar s, _, hv, _, h => by
    cases s with
    | int n =>
      unfold render scalar at h
      dsimp only at h
      split at h
      · cases h
      · cases h
        rfl
    | null | bool _ | float _ | text _ => cases h
    | complex _ _ | bytes _ | ellipsis | builtin _ => exact absurd hv id
  | _, .list _, _, hv, hdata, h | _, .tuple _, _, hv, hdata, h => by
    obtain h | ⟨_, -, h⟩ := error_of_bind h
    · exact tooManyDigits_of_renderList hv hdata h
    · cases h
  | level, .dict es, _, ⟨hnames, hes⟩, hdata, h => by
    obtain h | ⟨ts, hts, h⟩ := error_of_bind h
    · exact tooManyDigits_of_renderEntries hes hdata h
    · -- names can be sorted, and each of them is a text
      obtain ⟨names, -, hkeys⟩ := hnames
      obtain ⟨t, ht⟩ : ∃ t, braced descriptionStyle level ts = .ok t := by
        rw [exists_braced_iff, renderEntries_keys hts, hkeys, keysCarried_texts]
      rw [ht] at h
      cases h
  | _, .var .., _, _, hdata, _ | _, .object .., _, _, hdata, _ | _, .record .., _, _, hdata, _
  | _, .ref _, _, _, hdata, _ => absurd hdata id

/-- So it is among the items. -/
theorem tooManyDigits_of_renderList : ∀ {level : Nat} {xs : List Value} {e : WriteError},
    ItemsPayload xs → ItemsData xs → renderList descriptionStyle level xs = .error e →
    e = .tooManyDigits
  | _, [], _, _, _, h => by cases h
  | _, _ :: _, _, hxs, hdata, h => by
    obtain h | ⟨_, -, h⟩ := error_of_bind h
    · exact tooManyDigits_of_render hxs.1 hdata.1 h
    · obtain h | ⟨_, -, h⟩ := error_of_bind h
      · exact tooManyDigits_of_renderList hxs.2 hdata.2 h
      · cases h

/-- So it is among what the keys lead to. -/
theorem tooManyDigits_of_renderEntries : ∀ {level : Nat} {es : List (Value × Value)}
    {e : WriteError}, EntriesPayload es → EntriesData es →
    renderEntries descriptionStyle level es = .error e → e = .tooManyDigits
  | _, [], _, _, _, h => by cases h
  | _, (_, _) :: _, _, hes, hdata, h => by
    obtain h | ⟨_, -, h⟩ := error_of_bind h
    · exact tooManyDigits_of_render hes.1 hdata.1 h
    · obtain h | ⟨_, -, h⟩ := error_of_bind h
      · exact tooManyDigits_of_renderEntries hes.2 hdata.2 h
      · cases h

end

/-- Writing has one error, and has it exactly if an integer is too long. -/
theorem write_error_iff {v : Value} (h : v.IsPayload) (e : WriteError) :
    write descriptionStyle v = .error e ↔ v.writable = false ∧ e = .tooManyDigits := by
  have hok := exists_write_iff v
  rw [carried_describe h] at hok
  constructor
  · intro herror
    refine ⟨?_, tooManyDigits_of_render (isPayload_describe h) (isData_describe h) herror⟩
    refine Bool.eq_false_iff.mpr fun hwritable => ?_
    obtain ⟨t, ht⟩ := hok.mpr hwritable
    rw [ht] at herror
    cases herror
  · rintro ⟨hlong, rfl⟩
    cases hwrite : write descriptionStyle v with
    | ok t =>
      rw [hok.mp ⟨t, hwrite⟩] at hlong
      cases hlong
    | error e =>
      rw [tooManyDigits_of_render (isPayload_describe h) (isData_describe h) hwrite]

/-- **A description comes back**, with tuples as lists and up to the order of keys, exactly if no
    integer in the value is too long to be written.  If one is, writing says so, and it fails in no
    other way. -/
theorem decodes_iff {v : Value} (h : v.IsPayload)
    (hdoubles : ∀ x ∈ v.describe.doubles, ReadsBack x) :
    ((∃ t w, write descriptionStyle v = .ok t ∧ read t = .ok w ∧ v.describe.ReadAs w)
        ↔ v.writable = true)
      ∧ ∀ e, write descriptionStyle v = .error e ↔ v.writable = false ∧ e = .tooManyDigits := by
  refine ⟨?_, write_error_iff h⟩
  rw [← carried_describe h, ← exists_write_iff]
  constructor
  · rintro ⟨t, -, ht, -⟩
    exact ⟨t, ht⟩
  · rintro ⟨t, ht⟩
    obtain ⟨w, hw, hread⟩ := denotes_of_render (isPayload_describe h) ht hdoubles
    exact ⟨t, w, ht, read_of_denotes hw, hread⟩

/-- An object with a tag, whose field holds a list, a tuple and a dictionary that is not sorted. -/
def sample : Value :=
  .object "p" "generic" .null []
    [("field", [.var (.text "n") (.list [.tuple [.int 1, .null],
      .dict [(.text "b", .text "é"), (.text "a", .bool true)]]) (.text "mixed")])] (.texts ["t"])

/-- It comes back. -/
theorem decodes_sample : sample.IsPayload ∧ (∀ x ∈ sample.describe.doubles, ReadsBack x)
    ∧ ∃ t w, write descriptionStyle sample = .ok t ∧ read t = .ok w ∧ sample.describe.ReadAs w := by
  have hdict : (Value.dict [(.text "b", .text "é"), (.text "a", .bool true)]).IsPayload :=
    ⟨⟨["b", "a"], by decide, rfl⟩, trivial, trivial, trivial⟩
  have hfield : (Value.var (.text "n") (.list [.tuple [.int 1, .null],
      .dict [(.text "b", .text "é"), (.text "a", .bool true)]]) (.text "mixed")).IsPayload :=
    ⟨⟨"n", rfl⟩, ⟨⟨trivial, trivial, trivial⟩, hdict, trivial⟩, ⟨"mixed", rfl⟩⟩
  have hsample : sample.IsPayload :=
    ⟨trivial, by decide, ⟨⟨hfield, trivial⟩, trivial⟩, ⟨["t"], rfl⟩⟩
  have hdoubles : ∀ x ∈ sample.describe.doubles, ReadsBack x := fun _ hx => nomatch hx
  have hone : Number.withinDigitLimit 1 = true := by decide +kernel
  have hwritable : sample.writable = true := by
    simp only [sample, texts, List.map, writable, relationsWritable, listWritable, entriesWritable,
      hone, Bool.and_self]
  exact ⟨hsample, hdoubles, (decodes_iff hsample hdoubles).1.mpr hwritable⟩

/-- The least integer with a digit more than can be written has no text. -/
theorem not_written_long : (Value.int (Number.tenTo Number.digitLimit)).IsPayload
    ∧ (Value.int (Number.tenTo Number.digitLimit)).describe.doubles = []
    ∧ write descriptionStyle (.int (Number.tenTo Number.digitLimit)) = .error .tooManyDigits := by
  refine ⟨trivial, rfl, ?_⟩
  have hlong : Number.withinDigitLimit (Number.tenTo Number.digitLimit) = false := by
    rw [Number.withinDigitLimit, Int.natAbs_natCast, decide_eq_false_iff_not]
    exact Nat.lt_irrefl _
  rw [write, describe, render, scalar, hlong]
  rfl

end Json
end LetTag
