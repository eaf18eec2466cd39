/-
  Binding one object into another.

  To bind an object into another one gives this one its operations and its tags.  Operations keep the
  place that they have and lose their content to the newcomer; tags keep both.  So names are merged as
  tags are, lookups ask the newcomer first, and a table without repeated names is determined by these
  two (`Table.eq_of_get?`).  The laws of merging follow from those of `addTags` and of `Option.or`:
  it is associative (`Entity.bind_assoc`), and an object has nothing to gain from itself
  (`Entity.bind_self`).

  In a store, objects have places and tags have places of their own, and it is only the object that
  gains and its tags that change (`HoldsObject.getElem?_update`).  Objects that share one list of tags
  see each other's, which makes no difference here: a list that gains what it holds stays as it is.
-/
import LetTag.Entity
import LetTag.Proofs.Table

namespace LetTag

namespace Entity

variable {a b c e : Entity}

/-! ## Operations and tags of the result -/

/-- The operations of the second object are added to those of the first, like tags. -/
theorem names_bind (a b : Entity) :
    Table.names (a.bind b).methods = addTags (Table.names a.methods) (Table.names b.methods) :=
  Table.names_foldl_put b.methods a.methods

/-- An operation is looked up in the object that was bound, and then in the one it was bound into. -/
theorem get?_bind (a : Entity) (hb : (Table.names b.methods).Nodup) (name : String) :
    Table.get? name (a.bind b).methods
      = (Table.get? name b.methods).or (Table.get? name a.methods) := by
  have h := Table.get?_foldl_put name b.methods a.methods
  rwa [Table.get?_reverse hb] at h

theorem nodup_bind (ha : (Table.names a.methods).Nodup) (b : Entity) :
    (Table.names (a.bind b).methods).Nodup :=
  Table.nodup_names_foldl_put b.methods ha

/-! ## The laws -/

/-- **Binding is associative.** -/
theorem bind_assoc (ha : (Table.names a.methods).Nodup) (hb : (Table.names b.methods).Nodup)
    (hc : (Table.names c.methods).Nodup) : (a.bind b).bind c = a.bind (b.bind c) := by
  have hmethods : ((a.bind b).bind c).methods = (a.bind (b.bind c)).methods := by
    refine Table.eq_of_get? (nodup_bind (nodup_bind ha b) c) ?_ fun name => ?_
    · rw [names_bind, names_bind, names_bind, names_bind, addTags_addTags, addTags_of_added]
    · rw [get?_bind _ hc, get?_bind _ hb, get?_bind _ (nodup_bind hb c), get?_bind _ hc,
        Option.or_assoc]
  have htags : ((a.bind b).bind c).tags = (a.bind (b.bind c)).tags := by
    show addTags (addTags a.tags b.tags) c.tags = addTags a.tags (addTags b.tags c.tags)
    rw [addTags_addTags, addTags_of_added]
  show { a with methods := ((a.bind b).bind c).methods, tags := ((a.bind b).bind c).tags } = _
  rw [hmethods, htags]
  rfl

/-- An object gains nothing from itself. -/
theorem bind_self (ha : (Table.names a.methods).Nodup) : a.bind a = a := by
  have hmethods : (a.bind a).methods = a.methods := by
    refine Table.eq_of_get? (nodup_bind ha a) ?_ fun name => ?_
    · rw [names_bind, addTags_of_subset fun _ h => h]
    · rw [get?_bind _ ha, Option.or_self]
  have htags : (a.bind a).tags = a.tags := addTags_of_subset fun _ h => h
  show { a with methods := (a.bind a).methods, tags := (a.bind a).tags } = _
  rw [hmethods, htags]

/-- It gains nothing from another one for the second time. -/
theorem bind_bind_self (ha : (Table.names a.methods).Nodup) (hb : (Table.names b.methods).Nodup) :
    (a.bind b).bind b = a.bind b := by
  rw [bind_assoc ha hb hb, bind_self hb]

/-- Of the tags of the object that is bound, only those that are new matter. -/
theorem bind_tags {tags : List String} (h : ∀ t ∈ tags, t ∈ a.tags) (hb : ∀ t ∈ b.tags, t ∈ a.tags) :
    a.bind { b with tags := tags } = a.bind b := by
  show { a with methods := (a.bind b).methods, tags := addTags a.tags tags }
    = { a with methods := (a.bind b).methods, tags := addTags a.tags b.tags }
  rw [addTags_of_subset h, addTags_of_subset hb]

end Entity

/-! ## Objects in a store -/

namespace Store

/-- The object in place `a` gets the operations and the tags of the object in place `b`. -/
def bindAt (s : Store) (a b : Nat) : Store :=
  match s.entity? b with
  | some other => s.update a (·.bind other)
  | none => s

/-- In the place there is an object, with its tags in a place of their own. -/
structure HoldsObject (s : Store) (place tags : Nat) (e : Entity) : Prop where
  object : s.cells[place]? = some (.object e.id e.type e.value e.methods e.relations (.ref tags))
  tags : s.cells[tags]? = some (.texts e.tags)
  methods : (Table.names e.methods).Nodup

/-- Tags are read out of the place that they were put into. -/
theorem textItems_texts (ts : List String) : (Value.texts ts).textItems = ts := by
  show (ts.map Value.text).filterMap _ = ts
  rw [List.filterMap_map]
  exact List.filterMap_some

theorem texts_injective {ts us : List String} (h : Value.texts ts = Value.texts us) : ts = us := by
  rw [← textItems_texts ts, h, textItems_texts]

/-- What is in a cell is what a pointer to it finds. -/
theorem content_of_getElem? {s : Store} {p : Nat} {v : Value} (h : s.cells[p]? = some v) :
    s.content (.ref p) = v := by
  show s.cells.getD p .null = v
  rw [Array.getD_eq_getD_getElem?, h, Option.getD_some]

namespace HoldsObject

variable {s : Store} {a b c x ta tb tc tx : Nat} {e ea eb ec ex : Entity}

theorem entity? (h : s.HoldsObject a ta e) : s.entity? a = some e := by
  unfold Store.entity?
  rw [content_of_getElem? h.object]
  dsimp only
  rw [content_of_getElem? h.tags, textItems_texts]

/-- The place of an object is not that of some tags. -/
theorem place_ne (h : s.HoldsObject a ta ea) (hx : s.HoldsObject x tx ex) : a ≠ tx := by
  rintro rfl
  have hsame := h.object.symm.trans hx.tags
  cases hsame

/-- Objects that share their tags have the same ones. -/
theorem tags_eq (h : s.HoldsObject a ta ea) (hx : s.HoldsObject x tx ex) (hshared : tx = ta) :
    ex.tags = ea.tags := by
  subst hshared
  exact texts_injective (Option.some.inj (hx.tags.symm.trans h.tags))

/-! ### Changing an object -/

variable (f : Entity → Entity)

/-- A change of an object shows in its place and in that of its tags. -/
theorem getElem?_update (h : s.HoldsObject a ta e) (p : Nat) : (s.update a f).cells[p]?
    = if p = a then some (.object (f e).id (f e).type (f e).value (f e).methods (f e).relations (.ref ta))
      else if p = ta then some (.texts (f e).tags) else s.cells[p]? := by
  have hchange : s.update a f = (s.set ta (.texts (f e).tags)).set a
      (.object (f e).id (f e).type (f e).value (f e).methods (f e).relations (.ref ta)) := by
    unfold update
    rw [h.entity?, content_of_getElem? h.object]
  obtain ⟨ha, -⟩ := Array.getElem?_eq_some_iff.mp h.object
  obtain ⟨hta, -⟩ := Array.getElem?_eq_some_iff.mp h.tags
  rw [hchange]
  show ((s.cells.setIfInBounds ta _).setIfInBounds a _)[p]? = _
  rw [Array.getElem?_setIfInBounds, Array.getElem?_setIfInBounds, Array.size_setIfInBounds, if_pos ha,
    if_pos hta]
  simp only [eq_comm]

/-- A change of an object is found where the object is held. -/
theorem update_self (h : s.HoldsObject a ta e) (hf : (Table.names (f e).methods).Nodup) :
    (s.update a f).HoldsObject a ta (f e) where
  object := by rw [h.getElem?_update, if_pos rfl]
  tags := by rw [h.getElem?_update, if_neg (h.place_ne h).symm, if_pos rfl]
  methods := hf

/-- Another object stays as it is, unless it shares the list of tags. -/
theorem update_other (h : s.HoldsObject a ta e) (hx : s.HoldsObject x tx ex) (hne : x ≠ a) :
    (s.update a f).HoldsObject x tx (if tx = ta then { ex with tags := (f e).tags } else ex) := by
  have hobject : (s.update a f).cells[x]? = s.cells[x]? := by
    rw [h.getElem?_update, if_neg hne, if_neg (hx.place_ne h)]
  have htags : (s.update a f).cells[tx]?
      = if tx = ta then some (.texts (f e).tags) else s.cells[tx]? := by
    rw [h.getElem?_update, if_neg (h.place_ne hx).symm]
  split
  · rename_i hshared
    rw [if_pos hshared] at htags
    exact ⟨hobject.trans hx.object, htags, hx.methods⟩
  · rename_i hown
    rw [if_neg hown] at htags
    exact ⟨hobject.trans hx.object, htags.trans hx.tags, hx.methods⟩

/-- An object that does not change leaves the store as it was. -/
theorem update_of_eq (h : s.HoldsObject a ta e) (hf : f e = e) : s.update a f = s := by
  have hcells : (s.update a f).cells = s.cells := by
    refine Array.ext_getElem? fun p => ?_
    rw [h.getElem?_update, hf]
    split
    · rename_i hp
      rw [hp, h.object]
    · split
      · rename_i hp
        rw [hp, h.tags]
      · rfl
  exact congrArg Store.mk hcells

/-! ### Binding -/

/-- Binding two objects that are held changes the first as binding does. -/
theorem bindAt_eq (hb : s.HoldsObject b tb eb) (a : Nat) :
    s.bindAt a b = s.update a (·.bind eb) := by
  unfold bindAt
  rw [hb.entity?]

theorem bindAt_self (ha : s.HoldsObject a ta ea) (hb : s.HoldsObject b tb eb) :
    (s.bindAt a b).HoldsObject a ta (ea.bind eb) := by
  rw [hb.bindAt_eq]
  exact ha.update_self _ (Entity.nodup_bind ha.methods eb)

/-- Any other object stays as it is, but for tags that it shares with the first. -/
theorem bindAt_other (ha : s.HoldsObject a ta ea) (hb : s.HoldsObject b tb eb)
    (hx : s.HoldsObject x tx ex) (hne : x ≠ a) : (s.bindAt a b).HoldsObject x tx
      (if tx = ta then { ex with tags := (ea.bind eb).tags } else ex) := by
  rw [hb.bindAt_eq]
  exact ha.update_other _ hx hne

/-- The object that is bound stays as it is, whether the list of tags is shared or not. -/
theorem bindAt_bound (ha : s.HoldsObject a ta ea) (hb : s.HoldsObject b tb eb) (hne : b ≠ a) :
    (s.bindAt a b).HoldsObject b tb eb := by
  have h := ha.bindAt_other hb hb hne
  split at h
  · rename_i hshared
    have htags : (ea.bind eb).tags = eb.tags := by
      show addTags ea.tags eb.tags = eb.tags
      rw [ha.tags_eq hb hshared, addTags_of_subset fun _ ht => ht]
    rw [htags] at h
    exact h
  · exact h

/-- Two objects bound into one, one after the other. -/
theorem bindAt_bindAt (ha : s.HoldsObject a ta ea) (hb : s.HoldsObject b tb eb)
    (hc : s.HoldsObject c tc ec) (hne : c ≠ a) :
    ((s.bindAt a b).bindAt a c).HoldsObject a ta ((ea.bind eb).bind ec) := by
  have h := (ha.bindAt_self hb).bindAt_self (ha.bindAt_other hb hc hne)
  split at h
  · rename_i hshared
    -- what the list held before is still in it
    have hold : ∀ t ∈ ec.tags, t ∈ (ea.bind eb).tags := by
      intro t ht
      rw [ha.tags_eq hc hshared] at ht
      exact (mem_addTags ea.tags eb.tags).mpr (Or.inl ht)
    rwa [Entity.bind_tags (fun _ ht => ht) hold] at h
  · exact h

/-- An object bound into one that has got another bound into it. -/
theorem bindAt_of_bound (ha : s.HoldsObject a ta ea) (hb : s.HoldsObject b tb eb)
    (hc : s.HoldsObject c tc ec) (hne : a ≠ b) :
    ((s.bindAt b c).bindAt a b).HoldsObject a ta (ea.bind (eb.bind ec)) := by
  have h := (hb.bindAt_other hc ha hne).bindAt_self (hb.bindAt_self hc)
  split at h
  · rename_i hshared
    -- both have the tags that the list has gained
    have htags : addTags (eb.bind ec).tags (eb.bind ec).tags = addTags ea.tags (eb.bind ec).tags := by
      show _ = addTags ea.tags (addTags eb.tags ec.tags)
      rw [addTags_of_added, ← addTags_addTags, hb.tags_eq ha hshared, addTags_of_subset fun _ ht => ht,
        addTags_of_subset fun _ ht => ht]
      rfl
    have hsame : Entity.bind { ea with tags := (eb.bind ec).tags } (eb.bind ec)
        = ea.bind (eb.bind ec) := by
      show { ea with methods := (ea.bind (eb.bind ec)).methods, tags := _ } = _
      rw [htags]
      rfl
    rwa [hsame] at h
  · exact h

end HoldsObject

/-- **The algebra of binding.**  Take three objects in different places of a store, and let the second
    be bound into the first.
    * Binding the third one too gives what binding the second gives if the third is bound into that
      one before: the same object, its operations and its tags in the same order.
    * To bind the second one again, or an object into itself, changes nothing in the store.
    * The first object gets the names of operations and the tags that it does not have behind its own,
      each once; under a name that both have stands the operation of the second.
    * Its id, its type, its value and its relations stay, and so do the second object and every place
      but those of the first one and of its tags. -/
theorem bind_algebra {s : Store} {a b c ta tb tc : Nat} {ea eb ec : Entity}
    (ha : s.HoldsObject a ta ea) (hb : s.HoldsObject b tb eb) (hc : s.HoldsObject c tc ec)
    (hab : a ≠ b) (hac : a ≠ c) :
    (∃ e, ((s.bindAt a b).bindAt a c).entity? a = some e
        ∧ ((s.bindAt b c).bindAt a b).entity? a = some e)
      ∧ (s.bindAt a b).bindAt a b = s.bindAt a b
      ∧ s.bindAt a a = s
      ∧ (∃ e, (s.bindAt a b).HoldsObject a ta e
        ∧ e.id = ea.id ∧ e.type = ea.type ∧ e.value = ea.value ∧ e.relations = ea.relations
        ∧ Table.names e.methods = addTags (Table.names ea.methods) (Table.names eb.methods)
        ∧ (∀ name, Table.get? name e.methods
          = (Table.get? name eb.methods).or (Table.get? name ea.methods))
        ∧ ea.tags <+: e.tags ∧ (∀ t, t ∈ e.tags ↔ t ∈ ea.tags ∨ t ∈ eb.tags)
        ∧ (ea.tags.Nodup → e.tags.Nodup))
      ∧ (s.bindAt a b).entity? b = some eb
      ∧ ∀ p, p ≠ a → p ≠ ta → (s.bindAt a b).cells[p]? = s.cells[p]? := by
  obtain ⟨hbegins, hnodup, -⟩ := addTags_spec eb.tags ea.tags
  have hbound := ha.bindAt_self hb
  refine ⟨⟨ea.bind (eb.bind ec), ?_, ?_⟩, ?_, ?_, ⟨ea.bind eb, hbound, rfl, rfl, rfl, rfl, ?_, ?_,
    hbegins, fun _ => mem_addTags _ _, hnodup⟩, ?_, ?_⟩
  · rw [← Entity.bind_assoc ha.methods hb.methods hc.methods]
    exact (ha.bindAt_bindAt hb hc hac.symm).entity?
  · exact (ha.bindAt_of_bound hb hc hab).entity?
  · rw [(ha.bindAt_bound hb hab.symm).bindAt_eq]
    exact hbound.update_of_eq _ (Entity.bind_bind_self ha.methods hb.methods)
  · rw [ha.bindAt_eq]
    exact ha.update_of_eq _ (Entity.bind_self ha.methods)
  · exact Entity.names_bind ea eb
  · exact Entity.get?_bind ea hb.methods
  · exact (ha.bindAt_bound hb hab.symm).entity?
  · intro p hp hpt
    rw [hb.bindAt_eq, ha.getElem?_update, if_neg hp, if_neg hpt]

/-- An object without value and relations. -/
def plainObject (id : String) (methods : Table Method) (tags : List String) : Entity :=
  ⟨id, "generic", .null, methods, [], tags⟩

/-- Objects that have names of operations and tags in common, each with its tags three places behind. -/
def threeObjects : Store :=
  ⟨#[.object "a" "generic" .null [("run", .reference 2), ("go", .reference 1)] [] (.ref 3),
    .object "b" "generic" .null [("go", .reference 0), ("stop", .reference 0)] [] (.ref 4),
    .object "c" "generic" .null [("stop", .reference 1), ("run", .reference 1)] [] (.ref 5),
    .texts ["x"], .texts ["y", "x"], .texts ["z", "y"]]⟩

/-- The order of names and tags is that in which they first came, whichever way the three are bound. -/
theorem bind_algebra_three : ∃ e, threeObjects.HoldsObject 0 3
      (plainObject "a" [("run", .reference 2), ("go", .reference 1)] ["x"])
    ∧ threeObjects.HoldsObject 1 4
      (plainObject "b" [("go", .reference 0), ("stop", .reference 0)] ["y", "x"])
    ∧ threeObjects.HoldsObject 2 5
      (plainObject "c" [("stop", .reference 1), ("run", .reference 1)] ["z", "y"])
    ∧ ((threeObjects.bindAt 0 1).bindAt 0 2).entity? 0 = some e
    ∧ ((threeObjects.bindAt 1 2).bindAt 0 1).entity? 0 = some e
    ∧ Table.names e.methods = ["run", "go", "stop"] ∧ e.tags = ["x", "y", "z"] := by
  have ha : threeObjects.HoldsObject 0 3
      (plainObject "a" [("run", .reference 2), ("go", .reference 1)] ["x"]) :=
    ⟨rfl, rfl, by decide⟩
  have hb : threeObjects.HoldsObject 1 4
      (plainObject "b" [("go", .reference 0), ("stop", .reference 0)] ["y", "x"]) :=
    ⟨rfl, rfl, by decide⟩
  have hc : threeObjects.HoldsObject 2 5
      (plainObject "c" [("stop", .reference 1), ("run", .reference 1)] ["z", "y"]) :=
    ⟨rfl, rfl, by decide⟩
  have hshown : (((threeObjects.bindAt 0 1).bindAt 0 2).entity? 0).map
      (fun e => (Table.names e.methods, e.tags)) = some (["run", "go", "stop"], ["x", "y", "z"]) := by
    decide
  obtain ⟨e, he, he'⟩ := (bind_algebra ha hb hc (by decide) (by decide)).1
  rw [he, Option.map_some] at hshown
  obtain ⟨hnames, htags⟩ := Prod.mk.inj (Option.some.inj hshown)
  exact ⟨e, ha, hb, hc, he, he', hnames, htags⟩

end Store
end LetTag
