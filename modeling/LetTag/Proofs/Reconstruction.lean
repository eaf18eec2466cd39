/-
  Mappings come back from the descriptions of the objects made of them.

  Four functions meet here: a mapping becomes an object (`Value.bound`), the object a description
  (`Value.describe`), the description a record (`rebuildValue`), and the record a mapping again
  (`Value.plain`).  Each recurs on its own kind of tree, and what joins them is one relation,
  `Value.Mirrors`: a record mirrors a mapping if it has one field for each entry, in order and under
  the same name, and the fields mirror the entries' values in turn.

  Mappings and dictionaries are the same data, and what tells them apart is where they stand.  A
  dictionary that is the value of an entry is a mapping and becomes a record; one in a list stays what
  it is, even if it looks like a description.
-/
import LetTag.Record

namespace LetTag

section

variable {ε α β : Type} {x : Except ε α} {b : β}

/-- A value that comes of two steps comes of a value of the first. -/
theorem exists_of_bind {f : α → Except ε β} (h : x >>= f = .ok b) :
    ∃ a, x = .ok a ∧ f a = .ok b := by
  cases x with
  | error e => cases h
  | ok a => exact ⟨a, rfl, h⟩

/-- An error of two steps comes of the first, or of the second behind a value of the first. -/
theorem error_of_bind {f : α → Except ε β} {e : ε} (h : x >>= f = .error e) :
    x = .error e ∨ ∃ a, x = .ok a ∧ f a = .error e := by
  cases x with
  | error e' =>
    cases h
    exact Or.inl rfl
  | ok a => exact Or.inr ⟨a, rfl, h⟩

/-- A result that is made of another comes from one. -/
theorem exists_of_map {f : α → β} (h : x.map f = .ok b) : ∃ a, x = .ok a ∧ f a = b := by
  cases x with
  | error e => cases h
  | ok a => exact ⟨a, rfl, Except.ok.inj h⟩

theorem exists_map_iff {f : α → β} : (∃ b, x.map f = .ok b) ↔ ∃ a, x = .ok a := by
  constructor
  · rintro ⟨b, h⟩
    obtain ⟨a, ha, -⟩ := exists_of_map h
    exact ⟨a, ha⟩
  · rintro ⟨a, rfl⟩
    exact ⟨f a, rfl⟩

end

/-- Are these the same scalar?  Doubles are never found to be. -/
def Scalar.same : Scalar → Scalar → Bool
  | .null, .null => true
  | .bool a, .bool b => a == b
  | .int m, .int n => m == n
  | .text s, .text t => s == t
  | .bytes as, .bytes bs => as == bs
  | _, _ => false

/-- The test for sameness finds the same scalars only. -/
theorem Scalar.eq_of_same {s t : Scalar} (h : s.same t = true) : s = t := by
  unfold same at h
  split at h
  · rfl
  all_goals first | exact congrArg _ (eq_of_beq h) | cases h

namespace Value

/-! ## Plain data -/

mutual

/-- Is the value made of scalars, lists, tuples and dictionaries alone? -/
def IsData : Value → Prop
  | scalar _ => True
  | list xs => ItemsData xs
  | tuple xs => ItemsData xs
  | dict es => EntriesData es
  | _ => False

/-- The items are plain data. -/
def ItemsData : List Value → Prop
  | [] => True
  | x :: xs => x.IsData ∧ ItemsData xs

/-- What the keys lead to is plain data. -/
def EntriesData : List (Value × Value) → Prop
  | [] => True
  | (_, v) :: es => v.IsData ∧ EntriesData es

end

theorem entriesData_iff {es : List (Value × Value)} : EntriesData es ↔ ∀ e ∈ es, e.2.IsData := by
  induction es with
  | nil => exact iff_of_true trivial fun _ he => absurd he List.not_mem_nil
  | cons e es ih => rw [EntriesData, ih, List.forall_mem_cons]

mutual

/-- Plain data is its own description. -/
theorem describe_of_isData : ∀ {v : Value}, v.IsData → v.describe = v
  | scalar _, _ => rfl
  | list _, h => congrArg list (describeList_of_itemsData h)
  | tuple _, h => congrArg tuple (describeList_of_itemsData h)
  | dict _, h => congrArg dict (describeEntries_of_entriesData h)

/-- Items that are data are described by themselves. -/
theorem describeList_of_itemsData : ∀ {xs : List Value}, ItemsData xs → describeList xs = xs
  | [], _ => rfl
  | _ :: _, h => by
    rw [describeList, describe_of_isData h.1, describeList_of_itemsData h.2]

theorem describeEntries_of_entriesData :
    ∀ {es : List (Value × Value)}, EntriesData es → describeEntries es = es
  | [], _ => rfl
  | (_, _) :: _, h => by
    rw [describeEntries, describe_of_isData h.1, describeEntries_of_entriesData h.2]

end

mutual

/-- Are these the same data? -/
def same : Value → Value → Bool
  | scalar s, scalar t => s.same t
  | list xs, list ys => sameItems xs ys
  | tuple xs, tuple ys => sameItems xs ys
  | dict es, dict fs => sameEntries es fs
  | _, _ => false

/-- Are these the same items, one by one? -/
def sameItems : List Value → List Value → Bool
  | [], [] => true
  | x :: xs, y :: ys => x.same y && sameItems xs ys
  | _, _ => false

/-- Are these the same entries, one by one? -/
def sameEntries : List (Value × Value) → List (Value × Value) → Bool
  | [], [] => true
  | (k, v) :: es, (l, w) :: fs => k.same l && v.same w && sameEntries es fs
  | _, _ => false

end

mutual

/-- The test for sameness finds the same values only. -/
theorem eq_of_same : ∀ {v w : Value}, v.same w = true → v = w
  | scalar _, scalar _, h => congrArg scalar (Scalar.eq_of_same h)
  | list _, list _, h => congrArg list (eq_of_sameItems h)
  | tuple _, tuple _, h => congrArg tuple (eq_of_sameItems h)
  | dict _, dict _, h => congrArg dict (eq_of_sameEntries h)

theorem eq_of_sameItems : ∀ {xs ys : List Value}, sameItems xs ys = true → xs = ys
  | [], [], _ => rfl
  | _ :: _, _ :: _, h => by
    obtain ⟨hx, hxs⟩ := Bool.and_eq_true_iff.mp h
    rw [eq_of_same hx, eq_of_sameItems hxs]

theorem eq_of_sameEntries : ∀ {es fs : List (Value × Value)}, sameEntries es fs = true → es = fs
  | [], [], _ => rfl
  | (_, _) :: _, (_, _) :: _, h => by
    obtain ⟨hkv, hes⟩ := Bool.and_eq_true_iff.mp h
    obtain ⟨hk, hv⟩ := Bool.and_eq_true_iff.mp hkv
    rw [eq_of_same hk, eq_of_same hv, eq_of_sameEntries hes]

end

/-! ## Mappings -/

/-- The keys are texts, each of them there once. -/
def NamedApart (entries : List (Value × Value)) : Prop :=
  ∃ names : List String, names.Nodup ∧ entries.map Prod.fst = names.map text

mutual

/-- Is the value plain data in which the mappings, to any depth, have distinct names for their keys?
    What stands in lists and tuples is no mapping. -/
def IsContent : Value → Prop
  | dict entries => NamedApart entries ∧ EntriesContent entries
  | v => v.IsData

/-- What the names lead to is such data. -/
def EntriesContent : List (Value × Value) → Prop
  | [] => True
  | (_, v) :: es => v.IsContent ∧ EntriesContent es

end

/-- Texts are equal as keys exactly if they are the same. -/
theorem equal_text (a b : String) : (text a).equal (text b) = (a == b) := by
  rw [equal]
  rfl

theorem undefinedAlike_text (v : Value) (s : String) : undefinedAlike v (text s) = false := by
  cases v with
  | scalar x =>
    have hs : (Scalar.text s).equal (.text s) = true := beq_self_eq_true s
    rw [undefinedAlike, hs, Bool.not_true, Bool.and_false]
  | _ => rfl

/-- Looking for a text compares it with the first key, and goes on behind that. -/
theorem lookup?_cons (key k : String) (v : Value) (es : List (Value × Value)) :
    lookup? key ((text k, v) :: es) = if k == key then some v else lookup? key es := by
  unfold lookup? find?
  rw [List.find?_cons, equal_text, undefinedAlike_text, Bool.or_false]
  cases k == key <;> rfl

/-- The first of some distinct texts is none of the others. -/
theorem NamedApart.cons {k v : Value} {es : List (Value × Value)} (h : NamedApart ((k, v) :: es)) :
    ∃ name, k = text name ∧ NamedApart es ∧ ∀ e ∈ es, k.equal e.1 = false := by
  obtain ⟨names, hnodup, hkeys⟩ := h
  cases names with
  | nil => cases hkeys
  | cons name names =>
    obtain ⟨hk, hes⟩ := List.cons_eq_cons.mp hkeys
    obtain ⟨hname, hnodup⟩ := List.nodup_cons.mp hnodup
    refine ⟨name, hk, ⟨names, hnodup, hes⟩, ?_⟩
    intro e he
    have hkey : e.1 ∈ names.map text := hes ▸ List.mem_map_of_mem he
    obtain ⟨other, hother, heq⟩ := List.mem_map.mp hkey
    have hne : name ≠ other := fun h => hname (h ▸ hother)
    rw [show k = text name from hk, ← heq, equal_text]
    exact beq_false_of_ne hne

/-- A name that is new is put last. -/
theorem put_of_new {key value : Value} {es : List (Value × Value)}
    (h : ∀ e ∈ es, e.1.equal key = false) : put key value es = es ++ [(key, value)] := by
  induction es with
  | nil => rfl
  | cons e es ih =>
    obtain ⟨hkey, hes⟩ := List.forall_mem_cons.mp h
    rw [put, hkey, if_neg Bool.false_ne_true, ih hes]
    rfl

mutual

/-- Names can be written as names of fields. -/
theorem nameable_of_isContent : ∀ {v : Value}, v.IsContent → v.nameable = true
  | dict _, h => entriesNameable_of_content h.1 h.2
  | scalar _, _ | list _, _ | tuple _, _ => rfl

/-- The keys of content are texts, so they can be names. -/
theorem entriesNameable_of_content : ∀ {es : List (Value × Value)}, NamedApart es →
    EntriesContent es → entriesNameable es = true
  | [], _, _ => rfl
  | (k, v) :: es, hnames, h => by
    obtain ⟨name, rfl, hnames, -⟩ := hnames.cons
    rw [entriesNameable, nameable_of_isContent h.1, entriesNameable_of_content hnames h.2]
    rfl

end

/-! ## Records that mirror mappings -/

mutual

/-- Is `w` what becomes of the content `v` of a field `name`?  A mapping is a record of that name,
    and other data is as it was. -/
def Mirrors (type : Value) (name : String) : Value → Value → Prop
  | dict entries, w => ∃ fields, w = record name fields ∧ FieldsMirror type entries fields
  | v, w => w = v

/-- The fields mirror the entries: they have the same names in the same order, and all have the
    same type. -/
def FieldsMirror (type : Value) : List (Value × Value) → List (Value × Value) → Prop
  | [], fields => fields = []
  | (k, v) :: es, fields => ∃ name w rest, k = text name
      ∧ fields = (text name, var (text name) w type) :: rest
      ∧ Mirrors type name v w ∧ FieldsMirror type es rest

end

mutual

/-- What mirrors some content is that content again as a plain mapping. -/
theorem plain_of_mirrors {type : Value} {name : String} :
    ∀ {v w : Value}, v.IsContent → Mirrors type name v w → w.plain = v
  | dict _, _, hv, h => by
    obtain ⟨fields, rfl, hfields⟩ := h
    rw [plain, plainFields_of_mirror hv.2 hfields]
  | scalar _, _, _, h | list _, _, _, h | tuple _, _, _, h => by
    rw [show _ = _ from h]
    rfl

/-- Fields that mirror entries are these entries again. -/
theorem plainFields_of_mirror {type : Value} : ∀ {es fields : List (Value × Value)},
    EntriesContent es → FieldsMirror type es fields → plainFields fields = es
  | [], _, _, h => by
    rw [show _ = _ from h]
    rfl
  | (_, _) :: _, _, hes, h => by
    obtain ⟨name, w, rest, rfl, rfl, hw, hrest⟩ := h
    rw [plainFields, plain_of_mirrors hes.1 hw, plainFields_of_mirror hes.2 hrest]

end

end Value

open Value

/-! ## Rebuilding -/

theorem isKey_text (a b : String) : isKey (text a) b = (a == b) :=
  equal_text a b

/-- The object made from a mapping, with tags. -/
def objectOf (tags type : Value) (name : String) (es : List (Value × Value)) : Value :=
  object name recordType null [] [(fieldKind, boundFields type es)] tags

/-- The entries of its description. -/
def objectEntries (tags type : Value) (name : String) (es : List (Value × Value)) :
    List (Value × Value) :=
  [(text "id", text name), (text "type", text recordType), (text "tags", tags),
    (text "methods", texts []),
    (text "relations", dict [(text fieldKind, list (describeList (boundFields type es)))]),
    (text "value", null)]

/-- The description of the object that a record is bound as. -/
theorem describe_objectOf (tags type : Value) (name : String) (es : List (Value × Value)) :
    (objectOf tags type name es).describe = dict (objectEntries tags type name es) := rfl

section

variable (tags type : Value) (name : String) (es : List (Value × Value))

theorem describesRecord_object : describesRecord (objectEntries tags type name es) = true := by
  unfold describesRecord objectEntries
  simp only [lookup?_cons, String.reduceBEq, Bool.false_eq_true, if_false, if_true, Option.any_some,
    Option.isSome_some, equal_text, beq_self_eq_true, Bool.and_self]

theorem lookup?_id_object : lookup? "id" (objectEntries tags type name es) = some (text name) := by
  rw [objectEntries, lookup?_cons, if_pos (beq_self_eq_true _)]

theorem lookup?_relations_object : lookup? "relations" (objectEntries tags type name es)
    = some (dict [(text fieldKind, list (describeList (boundFields type es)))]) := by
  unfold objectEntries
  simp only [lookup?_cons, String.reduceBEq, Bool.false_eq_true, if_false, if_true]

theorem relationsOf_object (id : String) : relationsOf id (objectEntries tags type name es)
    = addMembers id [] (describeList (boundFields type es)) := by
  unfold objectEntries
  simp only [relationsOf, isKey_text, String.reduceBEq, Bool.false_eq_true, if_false, if_true]
  rw [fieldsOf, fieldEntry, isKey_text, if_pos (beq_self_eq_true _), members]

end

/-- Adding a described variable: its value is rebuilt and put under its name. -/
theorem addMember_describe (id : String) (type value : Value) (name : String)
    (fields : List (Value × Value)) : addMember id fields (var (text name) value type).describe
      = (rebuildValue (text name) value.describe).map
        fun w => put (text name) (var (text name) w type) fields := by
  have hname : lookup? "name" [(text "name", text name), (text "value", value.describe),
      (text "type", type)] = some (text name) := by
    rw [lookup?_cons]
    rfl
  have htype : lookup? "type" [(text "name", text name), (text "value", value.describe),
      (text "type", type)] = some type := by
    rw [lookup?_cons, lookup?_cons, lookup?_cons]
    rfl
  rw [describe, addMember, hname]
  dsimp only
  rw [valueEntry, isKey_text, if_neg (by decide), valueEntry, isKey_text,
    if_pos (beq_self_eq_true _), htype]
  cases rebuildValue (text name) value.describe with
  | error e => rfl
  | ok w =>
    show addField (text name) w type fields = _
    rw [addField, show (text name).unhashable? = none from rfl]
    rfl

/-- Adding the described variable of a new field. -/
theorem addMember_var (id : String) (type : Value) {name : String} {value w : Value}
    {fields : List (Value × Value)}
    (hvalue : rebuildValue (text name) value.describe = .ok w)
    (hnew : ∀ f ∈ fields, f.1.equal (text name) = false) :
    addMember id fields (var (text name) value type).describe
      = .ok (fields ++ [(text name, var (text name) w type)]) := by
  rw [addMember_describe, hvalue]
  exact congrArg Except.ok (put_of_new hnew)

/-- Inside a description the object made from a mapping is a record with the members for fields. -/
theorem rebuildValue_objectOf (outer tags type : Value) (name : String) (es : List (Value × Value)) :
    rebuildValue outer (objectOf tags type name es).describe
      = (addMembers name [] (describeList (boundFields type es))).map (record name ·) := by
  rw [describe_objectOf, rebuildValue, if_pos (describesRecord_object tags type name es),
    lookup?_id_object]
  show (relationsOf name (objectEntries tags type name es) >>=
    fun fields => .ok (record name fields)) = _
  rw [relationsOf_object]
  cases addMembers name [] (describeList (boundFields type es)) <;> rfl

/-- So it is by itself, unless it has no name. -/
theorem ofDescription_describe_objectOf {name : String} (hname : name ≠ "") (tags type : Value)
    (es : List (Value × Value)) : Value.ofDescription (objectOf tags type name es).describe
      = (addMembers name [] (describeList (boundFields type es))).map (record name ·) := by
  have htruthy : (text name).truthy = true := by
    show (!name.isEmpty) = true
    simpa using hname
  have hid : ((dict (objectEntries tags type name es)).field? "id").filter truthy
      = some (text name) := by
    rw [field?, lookup?_id_object, Option.filter_some, if_pos htruthy]
  have hmembers : ((dict (objectEntries tags type name es)).field? "relations").bind
      (field? fieldKind) = some (list (describeList (boundFields type es))) := by
    rw [field?, lookup?_relations_object, Option.bind_some, field?, lookup?_cons,
      if_pos (beq_self_eq_true _)]
  rw [describe_objectOf, Value.ofDescription, hid]
  dsimp only
  rw [hmembers]
  show (members name _).map _ = _
  rw [members]
  rfl

mutual

/-- The described content of a field is rebuilt to what mirrors it. -/
theorem rebuildValue_bound (type : Value) (name : String) : ∀ {v : Value}, v.IsContent →
    ∃ w, rebuildValue (text name) (bound type name v).describe = .ok w ∧ Mirrors type name v w
  | dict es, h => by
    obtain ⟨fields, hfields, hmirror⟩ := addMembers_bound type name [] h.1 h.2
      fun f hf => absurd hf List.not_mem_nil
    refine ⟨record name fields, ?_, fields, rfl, hmirror⟩
    show rebuildValue (text name) (objectOf (texts []) type name es).describe = _
    rw [rebuildValue_objectOf, hfields]
    rfl
  | scalar _, _ => ⟨_, rfl, rfl⟩
  | list _, h => ⟨_, rfl, congrArg list (describeList_of_itemsData h)⟩
  | tuple _, h => ⟨_, rfl, congrArg tuple (describeList_of_itemsData h)⟩

/-- The described fields of a mapping are added behind the fields that are there. -/
theorem addMembers_bound (type : Value) (id : String) : ∀ {es : List (Value × Value)}
    (before : List (Value × Value)), NamedApart es → EntriesContent es →
    (∀ f ∈ before, ∀ e ∈ es, f.1.equal e.1 = false) →
    ∃ fields, addMembers id before (describeList (boundFields type es)) = .ok (before ++ fields)
      ∧ FieldsMirror type es fields
  | [], before, _, _, _ => ⟨[], by rw [List.append_nil]; rfl, rfl⟩
  | (k, v) :: es, before, hnames, h, hnew => by
    obtain ⟨name, rfl, hnames, hdistinct⟩ := hnames.cons
    obtain ⟨w, hw, hmirror⟩ := rebuildValue_bound type name h.1
    have hmember := addMember_var id type hw
      fun f hf => hnew f hf _ List.mem_cons_self
    have hnew' : ∀ f ∈ before ++ [(text name, var (text name) w type)], ∀ e ∈ es,
        f.1.equal e.1 = false := by
      intro f hf e he
      rcases List.mem_append.mp hf with hf | hf
      · exact hnew f hf e (List.mem_cons_of_mem _ he)
      · rw [List.mem_singleton.mp hf]
        exact hdistinct e he
    obtain ⟨rest, hrest, hmirrors⟩ := addMembers_bound type id _ hnames h.2 hnew'
    refine ⟨(text name, var (text name) w type) :: rest, ?_, name, w, rest, rfl, rfl, hmirror,
      hmirrors⟩
    rw [boundFields, describeList, addMembers]
    show (addMember id before (var (text name) (bound type name v) type).describe >>=
      fun fields => addMembers id fields (describeList (boundFields type es))) = _
    rw [hmember]
    show addMembers id _ _ = _
    rw [hrest, List.append_assoc]
    rfl

end

/-- The description of an object made from a mapping gives a record that mirrors the mapping. -/
theorem ofDescription_objectOf {name : String} (hname : name ≠ "") {es : List (Value × Value)}
    (hes : (dict es).IsContent) (tags type : Value) : ∃ fields,
    Value.ofDescription (objectOf tags type name es).describe = .ok (record name fields)
      ∧ FieldsMirror type es fields := by
  obtain ⟨fields, hfields, hmirror⟩ := addMembers_bound type name [] hes.1 hes.2
    fun f hf => absurd hf List.not_mem_nil
  refine ⟨fields, ?_, hmirror⟩
  rw [ofDescription_describe_objectOf hname, hfields]
  rfl

/-- **Nothing of a mapping is lost on the way through its description**: the object made from it is
    described and rebuilt to a record that has the name for its id, that is the mapping again when it
    is read as one, and whose fields at every level have the names of the mapping in their order and
    the type that was asked for. -/
theorem mapping_of_description {name : String} (hname : name ≠ "") {es : List (Value × Value)}
    (hes : (dict es).IsContent) (type : Value) : ∃ e fields, Entity.build name es type = .ok e
      ∧ Value.ofDescription e.describe = .ok (record name fields)
      ∧ (record name fields).plain = dict es ∧ FieldsMirror type es fields := by
  obtain ⟨fields, hfields, hmirror⟩ := ofDescription_objectOf hname hes (texts []) type
  refine ⟨.ofMapping name es type, fields, ?_, hfields, ?_, hmirror⟩
  · rw [Entity.build, if_pos (entriesNameable_of_content hes.1 hes.2)]
  · rw [plain, plainFields_of_mirror hes.2 hmirror]

/-- A mapping with what is easily taken for something else: no value, no name, mappings with and
    without entries, and lists that hold a number as a key and a description of nothing. -/
def person : List (Value × Value) :=
  [(text "name", text "Ada"), (text "", null), (text "notes", dict []),
    (text "home", dict [(text "city", dict [(text "id", int 1)]), (text "open", bool true)]),
    (text "log", list [dict [(text "id", text "x"), (text "type", text recordType),
      (text "relations", dict [(text fieldKind, list [])])], tuple [dict [(int 2, null)]]])]

theorem mapping_of_person : "person" ≠ "" ∧ (dict person).IsContent
    ∧ ∃ e fields, Entity.build "person" person (text "json") = .ok e
      ∧ Value.ofDescription e.describe = .ok (record "person" fields)
      ∧ (record "person" fields).plain = dict person ∧ FieldsMirror (text "json") person fields := by
  have hname : "person" ≠ "" := by decide
  have hcity : (dict [(text "id", int 1)]).IsContent := ⟨⟨["id"], by decide, rfl⟩, trivial, trivial⟩
  have hhome : (dict [(text "city", dict [(text "id", int 1)]), (text "open", bool true)]).IsContent :=
    ⟨⟨["city", "open"], by decide, rfl⟩, hcity, trivial, trivial⟩
  have hnotes : (dict []).IsContent := ⟨⟨[], List.nodup_nil, rfl⟩, trivial⟩
  have hlog : (list [dict [(text "id", text "x"), (text "type", text recordType),
      (text "relations", dict [(text fieldKind, list [])])], tuple [dict [(int 2, null)]]]).IsContent :=
    ⟨⟨trivial, trivial, ⟨trivial, trivial⟩, trivial⟩, ⟨⟨trivial, trivial⟩, trivial⟩, trivial⟩
  have hperson : (dict person).IsContent :=
    ⟨⟨["name", "", "notes", "home", "log"], by decide, rfl⟩,
      trivial, trivial, hnotes, hhome, hlog, trivial⟩
  exact ⟨hname, hperson, mapping_of_description hname hperson (text "json")⟩

end LetTag
