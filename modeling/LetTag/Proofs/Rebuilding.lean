/-
  Which descriptions are rebuilt, and which break the rebuilding off.

  What can be rebuilt is said without the functions that do it: `IsField`, `HoldsValue` and
  `HasFields` describe the members of a description, the values of members and the relations that
  list them, to any depth.  A description that is none of this is reported with an error of its own,
  unless the rebuilding comes to something that it takes for granted: relations that are no
  dictionary, a name that cannot be a key, an integer too long to be shown (`BreaksAt`, `BreaksIn`,
  `BreaksFields`).  It goes from left to right and into the depth first, so of all that is wrong with
  a description the first thing counts.

  Each function is followed by itself: it succeeds exactly if one thing holds, and is broken off
  exactly if another does (`Settles`).
-/
import LetTag.Proofs.Reconstruction

namespace LetTag

open Value ReconstructionError

/-- Is the error one that the rebuilding reports? -/
def ReconstructionError.isReported : ReconstructionError → Bool
  | noId | noFields _ | notAList _ | unknownMember .. => true
  | _ => false

/-! ## Descriptions that are rebuilt -/

mutual

/-- A member that gives a field: a name alone, or a dictionary with a name that can be a key. -/
inductive IsField : Value → Prop
  | bare (s : String) : IsField (text s)
  | named {entries : List (Value × Value)} {name : Value} : lookup? "name" entries = some name →
    name.unhashable? = none → HoldsValue name ((lookup? "value" entries).getD null) →
    IsField (dict entries)

/-- The value of a member: any, but if it describes a record it has fields in turn. -/
inductive HoldsValue : Value → Value → Prop
  | plain (name : Value) {v : Value} : (∀ es, v = dict es → describesRecord es = false) →
    HoldsValue name v
  | record {name relations : Value} {es : List (Value × Value)} : describesRecord es = true →
    ((lookup? "id" es).getD name).writable = true → lookup? "relations" es = some relations →
    HasFields relations → HoldsValue name (dict es)

/-- Relations that are a dictionary, with a list of members for their fields or without fields. -/
inductive HasFields : Value → Prop
  | none {rs : List (Value × Value)} : lookup? fieldKind rs = none → HasFields (dict rs)
  | listed {rs : List (Value × Value)} {ms : List Value} : lookup? fieldKind rs = some (list ms) →
    (∀ m ∈ ms, IsField m) → HasFields (dict rs)

end

/-- A description that is rebuilt. -/
def IsDescription (d : Value) : Prop :=
  ∃ id ms, d.field? "id" = some id ∧ id.truthy = true ∧ id.writable = true
    ∧ (d.field? "relations").bind (field? fieldKind) = some (list ms) ∧ ∀ m ∈ ms, IsField m

/-! ## Descriptions at which the rebuilding is broken off -/

mutual

/-- A member that cannot be shown, has a value that breaks, or a name that cannot be a key. -/
inductive BreaksAt : Value → Prop
  | strange {m : Value} : (∀ s, m ≠ text s) → m.field? "name" = none → m.writable = false →
    BreaksAt m
  | value {entries : List (Value × Value)} {name : Value} : lookup? "name" entries = some name →
    BreaksIn name ((lookup? "value" entries).getD null) → BreaksAt (dict entries)
  | name {entries : List (Value × Value)} {name : Value} : lookup? "name" entries = some name →
    HoldsValue name ((lookup? "value" entries).getD null) → name.unhashable? ≠ none →
    BreaksAt (dict entries)

/-- A value that describes a record, but has an id that cannot be shown or relations that break. -/
inductive BreaksIn : Value → Value → Prop
  | id {name : Value} {es : List (Value × Value)} : describesRecord es = true →
    ((lookup? "id" es).getD name).writable = false → BreaksIn name (dict es)
  | relations {name relations : Value} {es : List (Value × Value)} : describesRecord es = true →
    ((lookup? "id" es).getD name).writable = true → lookup? "relations" es = some relations →
    BreaksFields relations → BreaksIn name (dict es)

/-- Relations that are no dictionary, or list a member that breaks behind members that do not. -/
inductive BreaksFields : Value → Prop
  | shape {v : Value} : (∀ rs, v ≠ dict rs) → BreaksFields v
  | member {rs : List (Value × Value)} {before after : List Value} {m : Value} :
    lookup? fieldKind rs = some (list (before ++ m :: after)) → (∀ b ∈ before, IsField b) →
    BreaksAt m → BreaksFields (dict rs)

end

/-- A description with an id that cannot be shown, or with a member that breaks. -/
def BreaksDescription (d : Value) : Prop :=
  ∃ id, d.field? "id" = some id ∧ id.truthy = true ∧ (id.writable = false ∨ id.writable = true
    ∧ ∃ before m after, (d.field? "relations").bind (field? fieldKind)
        = some (list (before ++ m :: after))
      ∧ (∀ b ∈ before, IsField b) ∧ BreaksAt m)

/-! ## What the rules come to for a value of a known form -/

section

variable {rs es entries : List (Value × Value)} {v name relations : Value}

/-- Relations without fields have none to rebuild. -/
theorem hasFields_none (h : lookup? fieldKind rs = none) :
    HasFields (dict rs) ∧ ¬ BreaksFields (dict rs) := by
  refine ⟨.none h, fun hbad => ?_⟩
  cases hbad with
  | shape hshape => exact hshape rs rfl
  | member hlist =>
    rw [h] at hlist
    cases hlist

/-- The fields are a list, and each member of it is a field. -/
theorem hasFields_iff (h : lookup? fieldKind rs = some v) :
    HasFields (dict rs) ↔ ∃ ms, v = list ms ∧ ∀ m ∈ ms, IsField m := by
  constructor
  · intro hgood
    cases hgood with
    | none hnone =>
      rw [h] at hnone
      cases hnone
    | listed hlist hms =>
      rw [h] at hlist
      exact ⟨_, Option.some.inj hlist, hms⟩
  · rintro ⟨ms, rfl, hms⟩
    exact .listed h hms

/-- Fields break the rebuilding at the first member that does, behind members that are fields. -/
theorem breaksFields_iff (h : lookup? fieldKind rs = some v) : BreaksFields (dict rs) ↔
    ∃ before m after, v = list (before ++ m :: after) ∧ (∀ b ∈ before, IsField b) ∧ BreaksAt m := by
  constructor
  · intro hbad
    cases hbad with
    | shape hshape => exact absurd rfl (hshape rs)
    | member hlist hbefore hm =>
      rw [h] at hlist
      exact ⟨_, _, _, Option.some.inj hlist, hbefore, hm⟩
  · rintro ⟨before, m, after, rfl, hbefore, hm⟩
    exact .member h hbefore hm

/-- A record is a value if its id can be written and its relations have fields. -/
theorem holdsValue_record_iff (hes : describesRecord es = true)
    (h : lookup? "relations" es = some relations) : HoldsValue name (dict es) ↔
      ((lookup? "id" es).getD name).writable = true ∧ HasFields relations := by
  constructor
  · intro hgood
    cases hgood with
    | plain _ hplain =>
      rw [hplain es rfl] at hes
      cases hes
    | record _ hwritable hrel hgood =>
      rw [h] at hrel
      cases hrel
      exact ⟨hwritable, hgood⟩
  · rintro ⟨hwritable, hgood⟩
    exact .record hes hwritable h hgood

/-- A record breaks the rebuilding if its id cannot be written, or else if its relations do. -/
theorem breaksIn_record_iff (hes : describesRecord es = true)
    (h : lookup? "relations" es = some relations) : BreaksIn name (dict es) ↔
      ((lookup? "id" es).getD name).writable = false
        ∨ ((lookup? "id" es).getD name).writable = true ∧ BreaksFields relations := by
  constructor
  · intro hbad
    cases hbad with
    | id _ hwritable => exact Or.inl hwritable
    | relations _ hwritable hrel hbad =>
      rw [h] at hrel
      cases hrel
      exact Or.inr ⟨hwritable, hbad⟩
  · rintro (hwritable | ⟨hwritable, hbad⟩)
    · exact .id hes hwritable
    · exact .relations hes hwritable h hbad

/-- A value that describes no record is held as it is. -/
theorem not_breaksIn (hplain : ∀ es, v = dict es → describesRecord es = false) :
    ¬ BreaksIn name v := by
  intro hbad
  cases hbad with
  | id hes =>
    rw [hplain _ rfl] at hes
    cases hes
  | relations hes =>
    rw [hplain _ rfl] at hes
    cases hes

/-- A member with a name is a field if its value can be rebuilt and its name be looked up. -/
theorem isField_named_iff (h : lookup? "name" entries = some name) : IsField (dict entries) ↔
    HoldsValue name ((lookup? "value" entries).getD null) ∧ name.unhashable? = none := by
  constructor
  · intro hgood
    cases hgood with
    | named hname hhash hholds =>
      rw [h] at hname
      cases hname
      exact ⟨hholds, hhash⟩
  · rintro ⟨hholds, hhash⟩
    exact .named h hhash hholds

/-- A member breaks the rebuilding in its value, or else with a name that cannot be looked up. -/
theorem breaksAt_named_iff (h : lookup? "name" entries = some name) : BreaksAt (dict entries) ↔
    BreaksIn name ((lookup? "value" entries).getD null)
      ∨ HoldsValue name ((lookup? "value" entries).getD null) ∧ name.unhashable? ≠ none := by
  constructor
  · intro hbad
    cases hbad with
    | strange _ hnone =>
      rw [field?, h] at hnone
      cases hnone
    | value hname hbad =>
      rw [h] at hname
      cases hname
      exact Or.inl hbad
    | name hname hholds hhash =>
      rw [h] at hname
      cases hname
      exact Or.inr ⟨hholds, hhash⟩
  · rintro (hbad | ⟨hholds, hhash⟩)
    · exact .value h hbad
    · exact .name h hholds hhash

theorem not_isField (htext : ∀ s, v ≠ text s) (hname : v.field? "name" = none) : ¬ IsField v := by
  intro hgood
  cases hgood with
  | bare s => exact htext s rfl
  | named hlookup =>
    rw [field?, hlookup] at hname
    cases hname

/-- A member without a name breaks the rebuilding only if it cannot be written into the message. -/
theorem breaksAt_strange_iff (htext : ∀ s, v ≠ text s) (hname : v.field? "name" = none) :
    BreaksAt v ↔ v.writable = false := by
  constructor
  · intro hbad
    cases hbad with
    | strange _ _ hwritable => exact hwritable
    | value hlookup =>
      rw [field?, hlookup] at hname
      cases hname
    | name hlookup =>
      rw [field?, hlookup] at hname
      cases hname
  · exact .strange htext hname

end

/-! ## Outcomes -/

/-- The outcome is a success exactly if `good` holds, and broken off exactly if `bad` does. -/
def Settles {α : Type} (x : Except ReconstructionError α) (good bad : Prop) : Prop :=
  ((∃ a, x = .ok a) ↔ good) ∧ ((∃ e, x = .error e ∧ e.isReported = false) ↔ bad)

namespace Settles

variable {α β : Type} {good bad good' bad' : Prop}

/-- A result settles that all is good and nothing bad. -/
theorem ok_iff (a : α) : Settles (.ok a) good bad ↔ good ∧ ¬ bad := by
  have hgood : ∃ b, (.ok a : Except ReconstructionError α) = .ok b := ⟨a, rfl⟩
  have hbad : ¬ ∃ e, (.ok a : Except ReconstructionError α) = .error e ∧ e.isReported = false := by
    rintro ⟨e, he, -⟩
    cases he
  constructor
  · rintro ⟨hg, hb⟩
    exact ⟨hg.mp hgood, fun h => hbad (hb.mpr h)⟩
  · rintro ⟨hg, hb⟩
    exact ⟨iff_of_true hgood hg, iff_of_false hbad hb⟩

/-- An error settles that not all is good, and is one of the documented ones unless something is bad. -/
theorem error_iff (e : ReconstructionError) : Settles (.error e : Except ReconstructionError α) good bad
    ↔ ¬ good ∧ (e.isReported = false ↔ bad) := by
  have hgood : ¬ ∃ a, (.error e : Except ReconstructionError α) = .ok a := by
    rintro ⟨a, ha⟩
    cases ha
  have hbad : (∃ e', (.error e : Except ReconstructionError α) = .error e' ∧ e'.isReported = false)
      ↔ e.isReported = false := by
    constructor
    · rintro ⟨e', he, hreported⟩
      cases he
      exact hreported
    · intro h
      exact ⟨e, rfl, h⟩
  constructor
  · rintro ⟨hg, hb⟩
    exact ⟨fun h => hgood (hg.mpr h), hbad.symm.trans hb⟩
  · rintro ⟨hg, hb⟩
    exact ⟨iff_of_false hgood hg, hbad.trans hb⟩

variable {x : Except ReconstructionError α}

theorem congr (h : Settles x good bad) (hgood : good ↔ good') (hbad : bad ↔ bad') :
    Settles x good' bad' :=
  ⟨h.1.trans hgood, h.2.trans hbad⟩

/-- What two steps settle: the second counts only if all is good in the first. -/
theorem bind (h : Settles x good bad) {f : α → Except ReconstructionError β}
    (hf : ∀ a, Settles (f a) good' bad') :
    Settles (x >>= f) (good ∧ good') (bad ∨ good ∧ bad') := by
  cases x with
  | ok a =>
    obtain ⟨hgood, hbad⟩ := (ok_iff a).mp h
    exact (hf a).congr (by simp [hgood]) (by simp [hgood, hbad])
  | error e =>
    obtain ⟨hgood, hbad⟩ := (error_iff e).mp h
    exact (error_iff e).mpr ⟨by simp [hgood], by simp [hgood, hbad]⟩

/-- What is made of a result does not change what it settles. -/
theorem map (h : Settles x good bad) (f : α → β) : Settles (x.map f) good bad := by
  cases x with
  | ok a => exact (ok_iff (f a)).mpr ((ok_iff a).mp h)
  | error e => exact (error_iff e).mpr ((error_iff e).mp h)

end Settles

/-! ## What is looked up -/

/-- Looking for a text compares it with the first key, and goes on behind that. -/
theorem lookup?_entry (key : String) (k v : Value) (es : List (Value × Value)) :
    lookup? key ((k, v) :: es) = if isKey k key then some v else lookup? key es := by
  unfold lookup? find? isKey
  rw [List.find?_cons, undefinedAlike_text, Bool.or_false]
  cases k.equal (text key) <;> rfl

/-- A value in a mapping is smaller than the mapping. -/
theorem sizeOf_lookup? {key : String} {v : Value} {es : List (Value × Value)}
    (h : lookup? key es = some v) : sizeOf v < sizeOf es := by
  induction es with
  | nil => cases h
  | cons e es ih =>
    obtain ⟨k, w⟩ := e
    rw [lookup?_entry] at h
    split at h
    · cases h
      simp only [List.cons.sizeOf_spec, Prod.mk.sizeOf_spec]
      omega
    · have hlt := ih h
      simp only [List.cons.sizeOf_spec]
      omega

/-- A member has the value null unless it says another. -/
theorem valueEntry_eq (name : Value) (es : List (Value × Value)) :
    valueEntry name es = rebuildValue name ((lookup? "value" es).getD null) := by
  induction es with
  | nil => rfl
  | cons e es ih =>
    obtain ⟨k, v⟩ := e
    rw [valueEntry, lookup?_entry]
    split
    · rfl
    · exact ih

/-- The relations of a record are those that it says. -/
theorem relationsOf_eq (id : String) {es : List (Value × Value)} {relations : Value}
    (h : lookup? "relations" es = some relations) : relationsOf id es = fieldsOf id relations := by
  induction es with
  | nil => cases h
  | cons e es ih =>
    obtain ⟨k, v⟩ := e
    rw [lookup?_entry] at h
    rw [relationsOf]
    split at h
    · rename_i hkey
      cases h
      rw [if_pos hkey]
    · rename_i hkey
      rw [if_neg hkey]
      exact ih h

/-- A record without fields has an empty list of them. -/
theorem fieldEntry_eq (id : String) (rs : List (Value × Value)) : fieldEntry id rs
    = ((lookup? fieldKind rs).map (members id)).getD (.ok []) := by
  induction rs with
  | nil => rfl
  | cons e rs ih =>
    obtain ⟨k, v⟩ := e
    rw [fieldEntry, lookup?_entry]
    split
    · rfl
    · exact ih

/-! ## What the parts of the rebuilding settle -/

theorem settles_idText (id : Value) :
    Settles (idText id) (id.writable = true) (id.writable = false) := by
  unfold idText
  cases id.writable with
  | true => exact (Settles.ok_iff _).mpr ⟨rfl, by simp⟩
  | false => exact (Settles.error_iff _).mpr ⟨by simp, by simp [isReported]⟩

/-- A field is added exactly if its name can be looked up, and any other name breaks the rebuilding. -/
theorem settles_addField (name value type : Value) (fields : List (Value × Value)) :
    Settles (addField name value type fields) (name.unhashable? = none)
      (name.unhashable? ≠ none) := by
  unfold addField
  cases name.unhashable? with
  | none => exact (Settles.ok_iff _).mpr ⟨rfl, by simp⟩
  | some t => exact (Settles.error_iff _).mpr ⟨by simp, by simp [isReported]⟩

/-- A strange member is reported, unless it cannot be written. -/
theorem isReported_strange (id : String) (m : Value) :
    (strange id m).isReported = false ↔ m.writable = false := by
  unfold strange written
  cases m.writable with
  | true => simp [isReported]
  | false => simp [isReported]

/-- Members are added one by one until one of them is none. -/
theorem settles_addMembers {id : String} {ms : List Value}
    (h : ∀ m ∈ ms, ∀ fields, Settles (addMember id fields m) (IsField m) (BreaksAt m)) :
    ∀ fields, Settles (addMembers id fields ms) (∀ m ∈ ms, IsField m)
      (∃ before m after, ms = before ++ m :: after ∧ (∀ b ∈ before, IsField b) ∧ BreaksAt m) := by
  induction ms with
  | nil =>
    intro fields
    exact (Settles.ok_iff fields).mpr ⟨by simp, by simp⟩
  | cons m ms ih =>
    intro fields
    have hm := h m List.mem_cons_self fields
    have hms := ih fun m' hm' => h m' (List.mem_cons_of_mem m hm')
    rw [addMembers]
    refine (hm.bind hms).congr ?_ ?_
    · rw [List.forall_mem_cons]
    · constructor
      · rintro (hbad | ⟨hgood, before, m', after, rfl, hbefore, hbad⟩)
        · exact ⟨[], m, ms, rfl, by simp, hbad⟩
        · refine ⟨m :: before, m', after, rfl, ?_, hbad⟩
          rw [List.forall_mem_cons]
          exact ⟨hgood, hbefore⟩
      · rintro ⟨before, m', after, heq, hbefore, hbad⟩
        cases before with
        | nil =>
          obtain ⟨rfl, -⟩ := List.cons.inj heq
          exact Or.inl hbad
        | cons b before =>
          obtain ⟨rfl, rfl⟩ := List.cons.inj heq
          rw [List.forall_mem_cons] at hbefore
          exact Or.inr ⟨hbefore.1, before, m', after, rfl, hbefore.2, hbad⟩

/-- The members of a value that is a list. -/
theorem settles_members (id : String) {v : Value}
    (h : ∀ ms, v = list ms → ∀ m ∈ ms, ∀ id fields,
      Settles (addMember id fields m) (IsField m) (BreaksAt m)) :
    Settles (members id v) (∃ ms, v = list ms ∧ ∀ m ∈ ms, IsField m)
      (∃ before m after, v = list (before ++ m :: after) ∧ (∀ b ∈ before, IsField b)
        ∧ BreaksAt m) := by
  by_cases hlist : ∃ ms, v = list ms
  · obtain ⟨ms, rfl⟩ := hlist
    rw [members]
    refine (settles_addMembers (h ms rfl · · id) []).congr ?_ ?_
    · simp
    · simp
  · have hmembers : members id v = .error (notAList id) := by
      unfold members
      split
      · exact absurd ⟨_, rfl⟩ hlist
      · rfl
    rw [hmembers]
    refine (Settles.error_iff _).mpr ⟨?_, ?_⟩
    · rintro ⟨ms, rfl, -⟩
      exact hlist ⟨ms, rfl⟩
    · refine iff_of_false (by simp [isReported]) ?_
      rintro ⟨before, m, after, rfl, -⟩
      exact hlist ⟨_, rfl⟩

/-- The fields of relations are settled if their members are. -/
theorem settles_fieldsOf (id : String) {relations : Value}
    (h : ∀ rs ms, relations = dict rs → lookup? fieldKind rs = some (list ms) → ∀ m ∈ ms,
      ∀ id fields, Settles (addMember id fields m) (IsField m) (BreaksAt m)) :
    Settles (fieldsOf id relations) (HasFields relations) (BreaksFields relations) := by
  by_cases hdict : ∃ rs, relations = dict rs
  · obtain ⟨rs, rfl⟩ := hdict
    rw [fieldsOf, fieldEntry_eq]
    cases hfield : lookup? fieldKind rs with
    | none => exact (Settles.ok_iff []).mpr (hasFields_none hfield)
    | some v =>
      have hmembers := settles_members id (v := v) fun ms hv =>
        h rs ms rfl (hfield.trans (congrArg some hv))
      exact hmembers.congr (hasFields_iff hfield).symm (breaksFields_iff hfield).symm
  · have hfields : fieldsOf id relations = .error (notAMapping relations.typeName) := by
      unfold fieldsOf
      split
      · exact absurd ⟨_, rfl⟩ hdict
      · rfl
    rw [hfields]
    refine (Settles.error_iff _).mpr ⟨?_, ?_⟩
    · intro hgood
      cases hgood with
      | none => exact hdict ⟨_, rfl⟩
      | listed => exact hdict ⟨_, rfl⟩
    · exact iff_of_true rfl (.shape fun rs hrs => hdict ⟨rs, hrs⟩)

theorem settles_rebuildValue (name : Value) {v : Value}
    (h : ∀ es rs ms, v = dict es → lookup? "relations" es = some (dict rs) →
      lookup? fieldKind rs = some (list ms) → ∀ m ∈ ms, ∀ id fields,
      Settles (addMember id fields m) (IsField m) (BreaksAt m)) :
    Settles (rebuildValue name v) (HoldsValue name v) (BreaksIn name v) := by
  by_cases hrecord : ∃ es, v = dict es ∧ describesRecord es = true
  · obtain ⟨es, rfl, hes⟩ := hrecord
    obtain ⟨relations, hrelations⟩ : ∃ relations, lookup? "relations" es = some relations := by
      unfold describesRecord at hes
      exact Option.isSome_iff_exists.mp (Bool.and_eq_true_iff.mp hes).2
    rw [rebuildValue, if_pos hes]
    have hid := settles_idText ((lookup? "id" es).getD name)
    have hfields : ∀ id : String, Settles
        (relationsOf id es >>= fun fields => .ok (record id fields))
        (HasFields relations) (BreaksFields relations) := by
      intro id
      rw [relationsOf_eq id hrelations]
      have hrel : Settles (fieldsOf id relations) (HasFields relations) (BreaksFields relations) :=
        settles_fieldsOf id fun rs ms hrs => h es rs ms rfl (hrelations.trans (congrArg some hrs))
      have hok : ∀ fields, Settles (.ok (record id fields)) True False :=
        fun fields => (Settles.ok_iff _).mpr ⟨trivial, not_false⟩
      exact (hrel.bind hok).congr (by simp) (by simp)
    exact (hid.bind hfields).congr (holdsValue_record_iff hes hrelations).symm
      (breaksIn_record_iff hes hrelations).symm
  · have hplain : ∀ es, v = dict es → describesRecord es = false := by
      intro es hv
      exact Bool.eq_false_iff.mpr fun hes => hrecord ⟨es, hv, hes⟩
    have hvalue : rebuildValue name v = .ok v := by
      unfold rebuildValue
      split
      · rw [hplain _ rfl]
        rfl
      · rfl
    rw [hvalue]
    exact (Settles.ok_iff v).mpr ⟨.plain name hplain, not_breaksIn hplain⟩

/-- What is neither a text nor a mapping is a strange member. -/
theorem addMember_other {m : Value} (htext : ∀ s, m ≠ text s) (hdict : ∀ es, m ≠ dict es)
    (id : String) (fields : List (Value × Value)) :
    addMember id fields m = .error (strange id m) := by
  unfold addMember
  split
  · exact absurd rfl (hdict _)
  · exact absurd rfl (htext _)
  · rfl

theorem settles_strange {α : Type} {id : String} {m : Value} (htext : ∀ s, m ≠ text s)
    (hname : m.field? "name" = none) :
    Settles (.error (strange id m) : Except ReconstructionError α) (IsField m) (BreaksAt m) := by
  refine (Settles.error_iff _).mpr ⟨not_isField htext hname, ?_⟩
  rw [isReported_strange, breaksAt_strange_iff htext hname]

/-- A member with a name: first its value, then the name as a key. -/
theorem settles_named {id : String} {entries : List (Value × Value)} {name : Value}
    (hname : lookup? "name" entries = some name)
    (h : ∀ es rs ms, lookup? "value" entries = some (dict es) →
      lookup? "relations" es = some (dict rs) → lookup? fieldKind rs = some (list ms) →
      ∀ m ∈ ms, ∀ id fields, Settles (addMember id fields m) (IsField m) (BreaksAt m))
    (fields : List (Value × Value)) :
    Settles (addMember id fields (dict entries)) (IsField (dict entries))
      (BreaksAt (dict entries)) := by
  have hvalue : Settles (rebuildValue name ((lookup? "value" entries).getD null))
      (HoldsValue name ((lookup? "value" entries).getD null))
      (BreaksIn name ((lookup? "value" entries).getD null)) := by
    refine settles_rebuildValue name fun es rs ms hv hrs hms => ?_
    refine h es rs ms ?_ hrs hms
    cases hl : lookup? "value" entries with
    | none =>
      rw [hl] at hv
      cases hv
    | some w =>
      rw [hl] at hv
      exact congrArg some hv
  rw [addMember, hname]
  dsimp only
  rw [valueEntry_eq]
  exact (hvalue.bind fun w => settles_addField name w _ fields).congr (isField_named_iff hname).symm
    (breaksAt_named_iff hname).symm

/-- **A member is a field, or breaks, or is reported**, whatever is in it: the members of a value that
    is a record are smaller. -/
theorem settles_addMember (m : Value) : ∀ (id : String) (fields : List (Value × Value)),
    Settles (addMember id fields m) (IsField m) (BreaksAt m) := by
  induction hsize : sizeOf m using Nat.strongRecOn generalizing m with
  | ind n ih =>
  subst hsize
  intro id fields
  by_cases htext : ∃ s, m = text s
  · obtain ⟨s, rfl⟩ := htext
    rw [addMember]
    refine (Settles.ok_iff _).mpr ⟨.bare s, ?_⟩
    intro hbad
    cases hbad with
    | strange hne => exact hne s rfl
  have hs : ∀ s, m ≠ text s := fun s hs => htext ⟨s, hs⟩
  by_cases hdict : ∃ entries, m = dict entries
  · obtain ⟨entries, rfl⟩ := hdict
    cases hname : lookup? "name" entries with
    | none =>
      rw [addMember, hname]
      exact settles_strange hs hname
    | some name =>
      refine settles_named hname (fun es rs ms hv hrs hms m' hm' id' fields' => ?_) fields
      -- the member is deeper in the value than the value of the member around it
      have h1 := sizeOf_lookup? hv
      have h2 := sizeOf_lookup? hrs
      have h3 := sizeOf_lookup? hms
      have h4 := List.sizeOf_lt_of_mem hm'
      simp only [dict.sizeOf_spec, list.sizeOf_spec] at h1 h2 h3
      have hsmaller : sizeOf m' < sizeOf (dict entries) := by
        simp only [dict.sizeOf_spec]
        omega
      exact ih (sizeOf m') hsmaller m' rfl id' fields'
  · have hm : ∀ es, m ≠ dict es := fun es hes => hdict ⟨es, hes⟩
    rw [addMember_other hs hm]
    refine settles_strange hs ?_
    cases m with
    | dict es => exact absurd rfl (hm es)
    | _ => rfl

/-! ## Descriptions -/

/-- A name that is no tuple can be a key exactly if it is a scalar: neither a list nor a dictionary. -/
theorem unhashable?_eq_none_iff {name : Value} (h : ∀ xs, name ≠ tuple xs) :
    name.unhashable? = none ↔ ∃ s, name = scalar s := by
  cases name with
  | scalar s => exact iff_of_true rfl ⟨s, rfl⟩
  | tuple xs => exact absurd rfl (h xs)
  | _ =>
    refine iff_of_false (fun hnone => by cases hnone) ?_
    rintro ⟨s, hs⟩
    cases hs

/-- **Rebuilding settles what a description is**, and what is wrong with it if it is none. -/
theorem settles_ofDescription (d : Value) :
    Settles (Value.ofDescription d) (IsDescription d) (BreaksDescription d) := by
  unfold Value.ofDescription
  cases hid : (d.field? "id").filter truthy with
  | none =>
    -- no id, or one that counts as none
    have hnone : ¬ ∃ id, d.field? "id" = some id ∧ id.truthy = true := by
      rintro ⟨id, hd, htruthy⟩
      rw [hd, Option.filter_some, if_pos htruthy] at hid
      cases hid
    refine (Settles.error_iff _).mpr ⟨?_, ?_⟩
    · rintro ⟨id, ms, hd, htruthy, -⟩
      exact hnone ⟨id, hd, htruthy⟩
    · refine iff_of_false (by simp [isReported]) ?_
      rintro ⟨id, hd, htruthy, -⟩
      exact hnone ⟨id, hd, htruthy⟩
  | some id =>
    -- first the text of the id, then the members one after another
    obtain ⟨hd, htruthy⟩ := Option.filter_eq_some_iff.mp hid
    have hsame : ∀ {id'}, d.field? "id" = some id' → id' = id := by
      intro id' hd'
      exact Option.some.inj (hd'.symm.trans hd)
    dsimp only
    refine Settles.congr ((settles_idText id).bind fun name => (?_ : Settles _
      (∃ ms, (d.field? "relations").bind (field? fieldKind) = some (list ms) ∧ ∀ m ∈ ms, IsField m)
      (∃ before m after, (d.field? "relations").bind (field? fieldKind)
        = some (list (before ++ m :: after)) ∧ (∀ b ∈ before, IsField b) ∧ BreaksAt m))) ?_ ?_
    · cases (d.field? "relations").bind (field? fieldKind) with
      | none => exact (Settles.error_iff _).mpr ⟨by simp, by simp [isReported]⟩
      | some v =>
        have hmembers := settles_members name (v := v)
          fun ms _ m _ id fields => settles_addMember m id fields
        exact (hmembers.map (record name ·)).congr (by simp) (by simp)
    · constructor
      · rintro ⟨hwritable, ms, hms, hall⟩
        exact ⟨id, ms, hd, htruthy, hwritable, hms, hall⟩
      · rintro ⟨id', ms, hd', -, hwritable, hms, hall⟩
        rw [hsame hd'] at hwritable
        exact ⟨hwritable, ms, hms, hall⟩
    · constructor
      · intro hbad
        exact ⟨id, hd, htruthy, hbad⟩
      · rintro ⟨id', hd', -, hbad⟩
        rw [hsame hd'] at hbad
        exact hbad

/-- What is rebuilt is a record with the text of the id for its id. -/
theorem record_of_ofDescription {d w : Value} (h : Value.ofDescription d = .ok w) :
    ∃ id fields, d.field? "id" = some id ∧ w = record id.nameText fields := by
  unfold Value.ofDescription at h
  cases hid : (d.field? "id").filter truthy with
  | none =>
    rw [hid] at h
    cases h
  | some id =>
    have hd := (Option.filter_eq_some_iff.mp hid).1
    rw [hid] at h
    dsimp only at h
    unfold idText at h
    split at h
    · cases hrelations : (d.field? "relations").bind (field? fieldKind) with
      | none =>
        rw [hrelations] at h
        cases h
      | some ms =>
        rw [hrelations] at h
        replace h : (members id.nameText ms).map (record id.nameText ·) = .ok w := h
        cases hms : members id.nameText ms with
        | error e =>
          rw [hms] at h
          cases h
        | ok fields =>
          rw [hms] at h
          cases h
          exact ⟨id, fields, hd, rfl⟩
    · cases h

/-- **What becomes of a description.**  It is rebuilt exactly if it is a dictionary with an id that
    counts as true and a list of fields under `relations.field`, to any depth; then the record has the
    text of the id for its id.  And what goes wrong is reported, unless the first thing that goes
    wrong is one that breaks the rebuilding off.  A name can be a key, if it is no tuple, exactly if it
    is neither a list nor a dictionary. -/
theorem ofDescription_outcome (d : Value) :
    ((∃ w, Value.ofDescription d = .ok w) ↔ IsDescription d)
      ∧ ((∃ e, Value.ofDescription d = .error e ∧ e.isReported = false) ↔ BreaksDescription d)
      ∧ (∀ w, Value.ofDescription d = .ok w → ∃ id fields, d.field? "id" = some id
        ∧ w = record id.nameText fields)
      ∧ ∀ name : Value, (∀ xs, name ≠ tuple xs) →
        (name.unhashable? = none ↔ ∃ s, name = scalar s) := by
  obtain ⟨hgood, hbad⟩ := settles_ofDescription d
  exact ⟨hgood, hbad, fun w => record_of_ofDescription, fun name => unhashable?_eq_none_iff⟩

/-- A description with one member. -/
def describing (m : List (Value × Value)) : Value :=
  dict [(text "id", text "a"), (text "relations", dict [(text fieldKind, list [dict m])])]

/-- The description of a record with relations that are a list. -/
def misshapen : List (Value × Value) :=
  [(text "type", text recordType), (text "relations", list [])]

/-- Relations that are no dictionary are reported for the record itself, but break the rebuilding off
    for a record inside it; so does a name that is a list. -/
theorem ofDescription_misshapen :
    (∃ e, Value.ofDescription (describing [(text "name", text "n"), (text "value", dict misshapen)])
        = .error e ∧ e.isReported = false)
      ∧ (∃ e, Value.ofDescription (describing [(text "name", list [])]) = .error e
        ∧ e.isReported = false)
      ∧ ∃ e, Value.ofDescription (dict ((text "id", text "a") :: misshapen)) = .error e
        ∧ e.isReported = true := by
  have hmember : ∀ m, BreaksAt (dict m) → ∃ e, Value.ofDescription (describing m) = .error e
      ∧ e.isReported = false := by
    intro m hm
    refine (settles_ofDescription (describing m)).2.mpr ⟨text "a", ?_, rfl, Or.inr ⟨rfl, ?_⟩⟩
    · simp only [describing, field?, lookup?_cons, String.reduceBEq, if_true]
    · refine ⟨[], dict m, [], ?_, by simp, hm⟩
      simp only [describing, field?, lookup?_cons, String.reduceBEq, Bool.false_eq_true, if_false,
        if_true, Option.bind_some, beq_self_eq_true, List.nil_append]
  have hrelations : ∀ es, lookup? "relations" ((text "type", text recordType)
      :: (text "relations", list []) :: es) = some (list []) := by
    intro es
    simp only [lookup?_cons, String.reduceBEq, Bool.false_eq_true, if_false, if_true]
  refine ⟨hmember _ ?_, hmember _ ?_, noFields "a", ?_, rfl⟩
  · have hname : lookup? "name" [(text "name", text "n"), (text "value", dict misshapen)]
        = some (text "n") := by
      simp only [lookup?_cons, String.reduceBEq, if_true]
    have hvalue : lookup? "value" [(text "name", text "n"), (text "value", dict misshapen)]
        = some (dict misshapen) := by
      simp only [lookup?_cons, String.reduceBEq, Bool.false_eq_true, if_false, if_true]
    have hrecord : describesRecord misshapen = true := by
      simp only [misshapen, describesRecord, lookup?_cons, String.reduceBEq, Bool.false_eq_true,
        if_false, if_true, Option.any_some, equal_text, beq_self_eq_true, Option.isSome_some,
        Bool.and_self]
    have hid : lookup? "id" misshapen = none := by
      simp only [misshapen, lookup?_cons, String.reduceBEq, Bool.false_eq_true, if_false]
      rfl
    have hbreaks : BreaksIn (text "n") (dict misshapen) := by
      refine .relations hrecord ?_ (hrelations []) (.shape fun rs hrs => by cases hrs)
      rw [hid]
      rfl
    refine .value hname ?_
    rw [hvalue]
    exact hbreaks
  · have hname : lookup? "name" [(text "name", list [])] = some (list []) := by
      simp only [lookup?_cons, String.reduceBEq, if_true]
    have hvalue : lookup? "value" [(text "name", list [])] = none := by
      simp only [lookup?_cons, String.reduceBEq, Bool.false_eq_true, if_false]
      rfl
    refine .name hname ?_ fun hnone => by cases hnone
    rw [hvalue]
    exact .plain _ fun es hes => by cases hes
  · have hid : lookup? "id" ((text "id", text "a") :: misshapen) = some (text "a") := by
      rw [lookup?_cons]
      rfl
    have hlist : lookup? "relations" ((text "id", text "a") :: misshapen) = some (list []) := by
      rw [lookup?_cons]
      exact hrelations []
    unfold Value.ofDescription field?
    dsimp only
    rw [hid, hlist]
    rfl

end LetTag
