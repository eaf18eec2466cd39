/-
  The names of the fields that a mapping gives, and what is found under them on either side.

  A key becomes the name of a field by its text, so keys that differ can become one name, as `1` and
  `"1"` do.  The object made from a mapping keeps a field for each key, and what is asked for by name
  is the first of them.  The record rebuilt from the object's description has one field for each name,
  and that holds the last.  So both sides find the same if no name is there twice, and this depends on
  the texts of the keys alone.

  What stands under a name is given by `boundUnder`: of this list the object finds the first
  (`get_ofMapping`) and the record, rebuilt, the last (`rebuilt_fieldValue`).
-/
import LetTag.Proofs.Rebuilding
import Mathlib.Data.List.Induction

namespace LetTag

namespace Value

/-! ## Names -/

/-- The name of a variable. -/
def name? : Value → Option Value
  | var n _ _ => some n
  | _ => none

/-- The names of the fields that relations list. -/
def fieldNames (relations : List (String × List Value)) : List Value :=
  ((relations.lookup fieldKind).getD []).filterMap name?

/-- No two of the values are equal. -/
def Apart (vs : List Value) : Prop :=
  vs.Pairwise fun v w => v.equal w = false

mutual

/-- Has every object in the value, to any depth, fields with different names? -/
def FieldsApart : Value → Prop
  | list xs | tuple xs => ItemsFieldsApart xs
  | dict es => EntriesFieldsApart es
  | var _ v _ => v.FieldsApart
  | object _ _ v _ rs _ => Apart (fieldNames rs) ∧ v.FieldsApart ∧ RelationsFieldsApart rs
  | record _ fs => EntriesFieldsApart fs
  | scalar _ | ref _ => True

/-- Has every object in the items? -/
def ItemsFieldsApart : List Value → Prop
  | [] => True
  | x :: xs => x.FieldsApart ∧ ItemsFieldsApart xs

/-- Has every object in what the keys lead to? -/
def EntriesFieldsApart : List (Value × Value) → Prop
  | [] => True
  | (_, v) :: es => v.FieldsApart ∧ EntriesFieldsApart es

/-- Has every object in the related entities? -/
def RelationsFieldsApart : List (String × List Value) → Prop
  | [] => True
  | (_, xs) :: rs => ItemsFieldsApart xs ∧ RelationsFieldsApart rs

end

/-- The texts of the keys. -/
def keyTexts (es : List (Value × Value)) : List String :=
  es.map fun e => e.1.nameText

mutual

/-- Have the keys of a mapping, and of the mappings in it, different texts?  Any other value has to be
    such already. -/
def KeysApart : Value → Prop
  | dict es => (keyTexts es).Nodup ∧ EntriesKeysApart es
  | v => v.FieldsApart

/-- Have the mappings among what the keys lead to? -/
def EntriesKeysApart : List (Value × Value) → Prop
  | [] => True
  | (_, v) :: es => v.KeysApart ∧ EntriesKeysApart es

end

theorem apart_texts (names : List String) : Apart (names.map text) ↔ names.Nodup := by
  unfold Apart List.Nodup
  rw [List.pairwise_map]
  refine List.Pairwise.iff ?_
  intro a b
  rw [equal_text, beq_eq_false_iff_ne]

/-- The variables of a record are named by the texts of its keys, in order. -/
theorem name?_boundFields (type : Value) (es : List (Value × Value)) :
    (boundFields type es).filterMap name? = (keyTexts es).map text := by
  induction es with
  | nil => rfl
  | cons e es ih => exact congrArg (text e.1.nameText :: ·) ih

mutual

/-- What is bound to a name has fields with different names exactly if the keys have different
    texts. -/
theorem fieldsApart_bound (type : Value) (name : String) : ∀ {v : Value},
    (bound type name v).FieldsApart ↔ v.KeysApart
  | dict es => by
    have hnames : fieldNames [(fieldKind, boundFields type es)] = (keyTexts es).map text := by
      rw [← name?_boundFields type es]
      rfl
    rw [bound, FieldsApart, KeysApart, hnames, apart_texts, FieldsApart, true_and,
      RelationsFieldsApart, RelationsFieldsApart, and_true, itemsFieldsApart_boundFields type]
  | scalar _ | list _ | tuple _ | var .. | object .. | record .. | ref _ => Iff.rfl

/-- The variables of a mapping have names apart, at every depth, exactly if its keys have texts apart.
    -/
theorem itemsFieldsApart_boundFields (type : Value) : ∀ {es : List (Value × Value)},
    ItemsFieldsApart (boundFields type es) ↔ EntriesKeysApart es
  | [] => Iff.rfl
  | (k, _) :: _ => and_congr (fieldsApart_bound type k.nameText) (itemsFieldsApart_boundFields type)

end

/-! ## What the object finds -/

/-- Nothing but the text itself is equal to a text. -/
theorem equal_text_iff {s : String} {v : Value} : (text s).equal v = true ↔ v = text s := by
  constructor
  · intro h
    unfold equal at h
    cases v with
    | scalar t =>
      cases t with
      | text t => rw [eq_of_beq h]
      | _ => cases h
    | _ => cases h
  · rintro rfl
    rw [equal_text, beq_self_eq_true]

/-- What stands under a name, as it is bound. -/
def boundUnder (type key : Value) (es : List (Value × Value)) : List Value :=
  (es.filter fun e => (text e.1.nameText).equal key).map fun e => bound type e.1.nameText e.2

/-- Under a key, two lists of entries bind what the first one binds and then what the second one does.
    -/
theorem boundUnder_append (type key : Value) (es fs : List (Value × Value)) :
    boundUnder type key (es ++ fs) = boundUnder type key es ++ boundUnder type key fs := by
  unfold boundUnder
  rw [List.filter_append, List.map_append]

/-- One entry is bound under a key if its text is that key. -/
theorem boundUnder_singleton (type key k v : Value) : boundUnder type key [(k, v)]
    = if (text k.nameText).equal key then [bound type k.nameText v] else [] := by
  unfold boundUnder
  rw [List.filter_cons, List.filter_nil]
  dsimp only
  split <;> rfl

end Value

open Value

/-- The object finds the first value of a name. -/
theorem Entity.get_ofMapping (name : String) (type key : Value) (es : List (Value × Value)) :
    (Entity.ofMapping name es type).get key = (boundUnder type key es).head?.getD null := by
  show ((boundFields type es).findSome? fun m => match m with
    | var n v _ => if n.equal key then some v else none
    | _ => none).getD null = _
  congr 1
  induction es with
  | nil => rfl
  | cons e es ih =>
    obtain ⟨k, v⟩ := e
    rw [← List.singleton_append, boundUnder_append, boundUnder_singleton, List.singleton_append,
      boundFields, List.findSome?_cons]
    dsimp only
    cases (text k.nameText).equal key with
    | true => rfl
    | false => exact ih

/-! ## What the record finds -/

/-- Names come from keys, so those of a record made from a mapping are texts. -/
def TextNames (fields : List (Value × Value)) : Prop :=
  ∀ f ∈ fields, ∃ s, f.1 = text s

/-- A field that is put under a text leaves all names texts. -/
theorem TextNames.put {fields : List (Value × Value)} (h : TextNames fields) (name : String)
    (v : Value) : TextNames (put (text name) v fields) := by
  induction fields with
  | nil =>
    intro f hf
    obtain rfl := List.mem_singleton.mp hf
    exact ⟨name, rfl⟩
  | cons f fields ih =>
    obtain ⟨hf, hfields⟩ := List.forall_mem_cons.mp h
    rw [Value.put]
    split
    · exact List.forall_mem_cons.mpr ⟨hf, hfields⟩
    · exact List.forall_mem_cons.mpr ⟨hf, ih hfields⟩

/-- Looking for a key compares it with the first name, and goes on behind that. -/
theorem find?_cons_text (key : Value) (s : String) (v : Value) (fields : List (Value × Value)) :
    find? key ((text s, v) :: fields)
      = if (text s).equal key then some v else find? key fields := by
  have halike : undefinedAlike (text s) key = false := by
    cases key with
    | scalar x =>
      have hs : (Scalar.text s).equal (.text s) = true := beq_self_eq_true s
      rw [undefinedAlike, hs, Bool.not_true, Bool.and_false, Bool.false_and]
    | _ => rfl
  unfold find?
  rw [List.find?_cons, halike, Bool.or_false]
  cases (text s).equal key <;> rfl

/-- What is put under a name is found under it, and nothing else changes. -/
theorem find?_put {fields : List (Value × Value)} (h : TextNames fields) (key : Value)
    (name : String) (v : Value) : find? key (put (text name) v fields)
      = if (text name).equal key then some v else find? key fields := by
  induction fields with
  | nil => exact find?_cons_text key name v []
  | cons f fields ih =>
    obtain ⟨k, w⟩ := f
    obtain ⟨⟨s, rfl⟩, hfields⟩ := List.forall_mem_cons.mp h
    rw [put, equal_text]
    cases hname : s == name with
    | true =>
      obtain rfl := eq_of_beq hname
      rw [if_pos rfl, find?_cons_text, find?_cons_text]
      cases (text s).equal key <;> rfl
    | false =>
      rw [if_neg Bool.false_ne_true, find?_cons_text, find?_cons_text, ih hfields]
      -- the key can be one of the two names only
      cases hkey : (text s).equal key with
      | false => rfl
      | true =>
        have hother : (text name).equal key = false := by
          rw [equal_text_iff.mp hkey, equal_text]
          exact beq_false_of_ne fun heq => ne_of_beq_false hname heq.symm
        rw [hother]
        rfl

/-- A field that was put is found under its name, and every other one as before. -/
theorem fieldValue_put {fields : List (Value × Value)} (h : TextNames fields) (id : String)
    (key : Value) (name : String) (w type : Value) :
    (record id (put (text name) (var (text name) w type) fields)).fieldValue key
      = if (text name).equal key then w else (record id fields).fieldValue key := by
  unfold fieldValue
  dsimp only
  rw [find?_put h]
  cases (text name).equal key <;> rfl

/-- The variables of two lists of entries stand one behind the other. -/
theorem boundFields_append (type : Value) (es fs : List (Value × Value)) :
    boundFields type (es ++ fs) = boundFields type es ++ boundFields type fs := by
  induction es with
  | nil => rfl
  | cons e es ih => exact congrArg (_ :: ·) ih

theorem describeList_append (xs ys : List Value) :
    describeList (xs ++ ys) = describeList xs ++ describeList ys := by
  induction xs with
  | nil => rfl
  | cons x xs ih => exact congrArg (_ :: ·) ih

theorem addMembers_append (id : String) (ms ns : List Value) : ∀ fields : List (Value × Value),
    addMembers id fields (ms ++ ns) = addMembers id fields ms >>= (addMembers id · ns) := by
  induction ms with
  | nil => exact fun _ => rfl
  | cons m ms ih =>
    intro fields
    rw [List.cons_append, addMembers, addMembers]
    cases addMember id fields m with
    | error e => rfl
    | ok fields => exact ih fields

/-- The record finds the last value of a name, rebuilt from its description. -/
theorem rebuilt_fieldValue (id : String) (type key : Value) {es fields : List (Value × Value)}
    (h : addMembers id [] (describeList (boundFields type es)) = .ok fields) :
    TextNames fields ∧ rebuildValue key ((boundUnder type key es).getLast?.getD null).describe
      = .ok ((record id fields).fieldValue key) := by
  -- by the last entry, since it is the one that wins
  induction es using List.reverseRecOn generalizing fields with
  | nil =>
    cases h
    exact ⟨fun _ hf => absurd hf List.not_mem_nil, rfl⟩
  | append_singleton es e ih =>
    obtain ⟨k, v⟩ := e
    rw [boundFields_append, describeList_append, addMembers_append] at h
    obtain ⟨before, hbefore, h⟩ := exists_of_bind h
    obtain ⟨htexts, hfound⟩ := ih hbefore
    replace h : addMember id before (var (text k.nameText) (bound type k.nameText v) type).describe
        >>= (addMembers id · []) = .ok fields := h
    rw [addMember_describe] at h
    obtain ⟨after, hafter, h⟩ := exists_of_bind h
    obtain ⟨w, hw, rfl⟩ := exists_of_map hafter
    cases h
    refine ⟨htexts.put k.nameText _, ?_⟩
    rw [fieldValue_put htexts, boundUnder_append, boundUnder_singleton]
    cases hkey : (text k.nameText).equal key with
    | true =>
      rw [if_pos rfl, if_pos rfl, List.getLast?_concat, equal_text_iff.mp hkey]
      exact hw
    | false =>
      rw [if_neg Bool.false_ne_true, if_neg Bool.false_ne_true, List.append_nil]
      exact hfound

/-! ## What can be rebuilt -/

namespace Value

mutual

/-- Can what is bound to the name be rebuilt?  This is a matter of the objects that a mapping holds
    already. -/
def Rebuildable (name : String) : Value → Prop
  | dict es => EntriesRebuildable es
  | v => ∃ w, rebuildValue (text name) v.describe = .ok w

/-- Can what is bound to each key be rebuilt? -/
def EntriesRebuildable : List (Value × Value) → Prop
  | [] => True
  | (k, v) :: es => v.Rebuildable k.nameText ∧ EntriesRebuildable es

end

end Value

mutual

/-- A variable is rebuilt exactly if its value can be. -/
theorem exists_rebuildValue_bound (type : Value) (name : String) : ∀ {v : Value},
    (∃ w, rebuildValue (text name) (bound type name v).describe = .ok w) ↔ v.Rebuildable name
  | dict es => by
    show (∃ w, rebuildValue (text name) (objectOf (texts []) type name es).describe = .ok w) ↔ _
    rw [rebuildValue_objectOf, exists_map_iff, exists_addMembers_boundFields type name []]
    rfl
  | scalar _ | list _ | tuple _ | var .. | object .. | record .. | ref _ => Iff.rfl

/-- All variables of a record are rebuilt exactly if all their values can be. -/
theorem exists_addMembers_boundFields (type : Value) (id : String) :
    ∀ (before : List (Value × Value)) {es : List (Value × Value)},
    (∃ fields, addMembers id before (describeList (boundFields type es)) = .ok fields)
      ↔ EntriesRebuildable es
  | before, [] => iff_of_true ⟨before, rfl⟩ trivial
  | before, (k, v) :: es => by
    -- a name that is there already is no obstacle: its field is changed
    rw [EntriesRebuildable, ← exists_rebuildValue_bound type k.nameText]
    show (∃ fields, addMember id before
        (var (text k.nameText) (bound type k.nameText v) type).describe
      >>= (addMembers id · (describeList (boundFields type es))) = .ok fields) ↔ _
    rw [addMember_describe]
    constructor
    · rintro ⟨fields, h⟩
      obtain ⟨after, hafter, hrest⟩ := exists_of_bind h
      obtain ⟨w, hw, -⟩ := exists_of_map hafter
      exact ⟨⟨w, hw⟩, (exists_addMembers_boundFields type id after).mp ⟨fields, hrest⟩⟩
    · rintro ⟨⟨w, hw⟩, hes⟩
      rw [hw]
      exact (exists_addMembers_boundFields type id _).mpr hes

end

mutual

theorem rebuildable_of_isData (name : String) : ∀ {v : Value}, v.IsData → v.Rebuildable name
  | dict _, h => entriesRebuildable_of_entriesData h
  | scalar _, _ | list _, _ | tuple _, _ => ⟨_, rfl⟩

theorem entriesRebuildable_of_entriesData : ∀ {es : List (Value × Value)}, EntriesData es →
    EntriesRebuildable es
  | [], _ => trivial
  | (k, _) :: _, h => ⟨rebuildable_of_isData k.nameText h.1, entriesRebuildable_of_entriesData h.2⟩

end

/-! ## Both sides -/

/-- Is `w` what a receiver has for `v`?  It is the same, or for an object the record that the object's
    description gives. -/
def Corresponds (v w : Value) : Prop :=
  v = w ∨ ∃ e : Entity, v = e.toValue ∧ rebuildValue (text e.id) e.describe = .ok w
    ∧ (e.id ≠ "" → Value.ofDescription e.describe = .ok w)

/-- What is bound to a name corresponds to what is rebuilt of it. -/
theorem corresponds_bound {type w : Value} {name : String} {v : Value} (hv : v.IsData)
    (h : rebuildValue (text name) (bound type name v).describe = .ok w) :
    Corresponds (bound type name v) w := by
  have hdescribe := describe_of_isData hv
  cases v with
  | dict es =>
    refine Or.inr ⟨.ofMapping name es type, rfl, h, ?_⟩
    intro hname
    replace hname : name ≠ "" := hname
    replace h : rebuildValue (text name) (objectOf (texts []) type name es).describe = .ok w := h
    show Value.ofDescription (objectOf (texts []) type name es).describe = .ok w
    rw [ofDescription_describe_objectOf hname, ← rebuildValue_objectOf (text name), h]
  | scalar s => exact Or.inl (Except.ok.inj h)
  | list xs =>
    rw [show bound type name (list xs) = list xs from rfl, hdescribe] at h
    exact Or.inl (Except.ok.inj h)
  | tuple xs =>
    rw [show bound type name (tuple xs) = tuple xs from rfl, hdescribe] at h
    exact Or.inl (Except.ok.inj h)
  | _ => cases hv

/-- A name that stands for one key alone has one value. -/
theorem boundUnder_of_nodup (type key : Value) {es : List (Value × Value)}
    (hnames : (keyTexts es).Nodup) : boundUnder type key es = []
      ∨ ∃ e ∈ es, key = text e.1.nameText
        ∧ boundUnder type key es = [bound type e.1.nameText e.2] := by
  induction es with
  | nil => exact Or.inl rfl
  | cons e es ih =>
    obtain ⟨k, v⟩ := e
    obtain ⟨hname, hnames⟩ := List.nodup_cons.mp hnames
    rw [← List.singleton_append, boundUnder_append, boundUnder_singleton]
    cases hkey : (text k.nameText).equal key with
    | false =>
      rw [if_neg Bool.false_ne_true, List.nil_append]
      refine (ih hnames).imp_right ?_
      rintro ⟨e, he, hfound⟩
      exact ⟨e, List.mem_cons_of_mem _ he, hfound⟩
    | true =>
      obtain rfl := equal_text_iff.mp hkey
      refine Or.inr ⟨(k, v), List.mem_cons_self, rfl, ?_⟩
      rcases ih hnames with hnone | ⟨e, he, heq, -⟩
      · rw [hnone]
        rfl
      · have hmem : e.1.nameText ∈ keyTexts es := List.mem_map_of_mem he
        rw [← Scalar.text.inj (scalar.inj heq)] at hmem
        exact absurd hmem hname

/-- **Names of fields, and what both sides find under them.**  In the object made from a mapping the
    fields of every object, to any depth, have different names exactly if the keys of the mapping, and
    of the mappings in it, have different texts.  Whatever can be the key of a dictionary is looked up
    on both sides: the object finds the first of the values whose keys have this text, and the rebuilt
    record the last, rebuilt.  So they find what corresponds if the keys have different texts.  A
    mapping in the mapping is bound as an object made from it, of which the same can be said. -/
theorem names_of_mapping {name : String} {es : List (Value × Value)} {type : Value} {e : Entity}
    (h : Entity.build name es type = .ok e) :
    (e.toValue.FieldsApart ↔ (dict es).KeysApart)
      ∧ (name ≠ "" → ((∃ r, Value.ofDescription e.describe = .ok r) ↔ EntriesRebuildable es)
        ∧ ∀ r, Value.ofDescription e.describe = .ok r → ∀ key, key.unhashable? = none →
          e.get key = (boundUnder type key es).head?.getD null
          ∧ rebuildValue key ((boundUnder type key es).getLast?.getD null).describe
            = .ok (r.fieldValue key)
          ∧ ((keyTexts es).Nodup → rebuildValue key (e.get key).describe = .ok (r.fieldValue key)
            ∧ (EntriesData es → Corresponds (e.get key) (r.fieldValue key))))
      ∧ (EntriesData es → EntriesRebuildable es) := by
  obtain rfl : Entity.ofMapping name es type = e := by
    unfold Entity.build at h
    split at h
    · exact Except.ok.inj h
    · cases h
  refine ⟨fieldsApart_bound type name (v := dict es), fun hname => ?_,
    entriesRebuildable_of_entriesData⟩
  have hdescribe : Value.ofDescription (Entity.ofMapping name es type).describe
      = (addMembers name [] (describeList (boundFields type es))).map (record name ·) :=
    ofDescription_describe_objectOf hname (texts []) type es
  rw [hdescribe]
  refine ⟨exists_map_iff.trans (exists_addMembers_boundFields type name []), ?_⟩
  intro r hr key _
  obtain ⟨fields, hfields, rfl⟩ := exists_of_map hr
  obtain ⟨-, hlast⟩ := rebuilt_fieldValue name type key hfields
  have hfirst := Entity.get_ofMapping name type key es
  refine ⟨hfirst, hlast, fun hnames => ?_⟩
  -- under a name that is there once, the first value is the last
  rcases boundUnder_of_nodup type key hnames with hnone | ⟨e, he, rfl, hone⟩
  · rw [hnone] at hfirst hlast
    rw [hfirst]
    exact ⟨hlast, fun _ => Or.inl (Except.ok.inj hlast)⟩
  · rw [hone] at hfirst hlast
    rw [hfirst]
    exact ⟨hlast, fun hes => corresponds_bound (entriesData_iff.mp hes e he) hlast⟩

/-- A mapping with keys of many kinds, which have different texts on each level. -/
def mixture : List (Value × Value) :=
  [(int 1, text "a"), (tuple [int 1, null], list [dict [(int 1, null), (text "1", null)]]),
    (text "b", dict [(null, int 2), (text "1", dict []), (text "", bool true)])]

theorem names_of_mixture : ∃ e r, Entity.build "m" mixture (text "json") = .ok e
    ∧ Value.ofDescription e.describe = .ok r ∧ e.toValue.FieldsApart
    ∧ ∀ key, key.unhashable? = none → Corresponds (e.get key) (r.fieldValue key) := by
  have hbuild : Entity.build "m" mixture (text "json")
      = .ok (Entity.ofMapping "m" mixture (text "json")) := by
    rw [Entity.build, if_pos (by decide +kernel)]
  have hdata : EntriesData mixture :=
    ⟨trivial, ⟨⟨trivial, trivial, trivial⟩, trivial⟩, ⟨trivial, trivial, trivial, trivial⟩, trivial⟩
  have hnames : (keyTexts mixture).Nodup := by decide
  have hinner : (keyTexts [(null, int 2), (text "1", dict []), (text "", bool true)]).Nodup := by
    decide
  have hkeys : (dict mixture).KeysApart :=
    ⟨hnames, trivial, ⟨⟨trivial, trivial, trivial⟩, trivial⟩,
      ⟨hinner, trivial, ⟨List.nodup_nil, trivial⟩, trivial, trivial⟩, trivial⟩
  obtain ⟨hapart, hboth, hrebuildable⟩ := names_of_mapping hbuild
  obtain ⟨hrebuilt, hfound⟩ := hboth (by decide)
  obtain ⟨r, hr⟩ := hrebuilt.mpr (hrebuildable hdata)
  exact ⟨_, r, hbuild, hr, hapart.mpr hkeys,
    fun key hkey => ((hfound r hr key hkey).2.2 hnames).2 hdata⟩

/-- A number and its text are two keys of a mapping, but one name. -/
def numbered : List (Value × Value) :=
  [(int 1, text "a"), (text "1", text "b")]

/-- The object has two fields of the name; it finds the one, and the record the other. -/
theorem names_of_numbered : ∃ e r, Entity.build "o" numbered (text "mixed") = .ok e
    ∧ Value.ofDescription e.describe = .ok r ∧ ¬ e.toValue.FieldsApart
    ∧ e.get (text "1") = text "a" ∧ r.fieldValue (text "1") = text "b"
    ∧ ¬ Corresponds (text "a") (text "b") := by
  have hbuild : Entity.build "o" numbered (text "mixed")
      = .ok (Entity.ofMapping "o" numbered (text "mixed")) := by
    rw [Entity.build, if_pos (by decide +kernel)]
  have hnames : ¬ (keyTexts numbered).Nodup := by decide
  have happart : ¬ (Entity.ofMapping "o" numbered (text "mixed")).toValue.FieldsApart :=
    fun h => hnames ((fieldsApart_bound (text "mixed") "o" (v := dict numbered)).mp h).1
  have hunder : boundUnder (text "mixed") (text "1") numbered = [text "a", text "b"] := by
    have hone : (text (int 1).nameText).equal (text "1") = true := equal_text_iff.mpr rfl
    have htext : (text (text "1").nameText).equal (text "1") = true := equal_text_iff.mpr rfl
    show boundUnder _ _ ([(int 1, text "a")] ++ [(text "1", text "b")]) = _
    rw [boundUnder_append, boundUnder_singleton, boundUnder_singleton, if_pos hone, if_pos htext]
    rfl
  have hdata : EntriesData numbered := ⟨trivial, trivial, trivial⟩
  obtain ⟨fields, hfields⟩ := (exists_addMembers_boundFields (text "mixed") "o" []).mpr
    (entriesRebuildable_of_entriesData hdata)
  obtain ⟨-, hlast⟩ := rebuilt_fieldValue "o" (text "mixed") (text "1") hfields
  rw [hunder] at hlast
  refine ⟨_, record "o" fields, hbuild, ?_, happart, ?_, (Except.ok.inj hlast).symm, ?_⟩
  · show Value.ofDescription (objectOf (texts []) (text "mixed") "o" numbered).describe = _
    rw [ofDescription_describe_objectOf (by decide), hfields]
    rfl
  · rw [Entity.get_ofMapping, hunder]
    rfl
  · rintro (heq | ⟨e, he, -⟩)
    · exact absurd (Scalar.text.inj (scalar.inj heq)) (by decide)
    · cases he

end LetTag
