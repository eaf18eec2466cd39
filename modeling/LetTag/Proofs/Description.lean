/-
  What descriptions are made of.

  A description is plain: scalars, lists, tuples and dictionaries, with no variable or object at any
  depth, keys included.  Plain values are their own descriptions, so describing twice is describing
  once.

  Where the parts of a value come to stand is said by paths.  A `Step` leads from a value to one of its
  parts: to an item or an entry of a container, to the value of a variable or an object, or to one of
  the values that an object is related to.  A step in a container is the same in the description, and a
  step into an entity becomes steps in the dictionary that describes it (`Step.described`).  So what
  stands at a path is described at the path described (`holds_describe`), and whatever a description
  holds is the description of a part or a piece of the description of an entity
  (`of_holds_describe`).
-/
import LetTag.Proofs.Reconstruction

namespace LetTag.Value

/-! ## Values without entities -/

/-- Is the value a variable or an object? -/
def isEntity : Value → Bool
  | var .. | object .. => true
  | _ => false

mutual

/-- Is the value made of scalars, lists, tuples and dictionaries alone, keys included? -/
def isPlain : Value → Bool
  | scalar _ => true
  | list items => listPlain items
  | tuple items => listPlain items
  | dict entries => entriesPlain entries
  | _ => false

/-- Are the items? -/
def listPlain : List Value → Bool
  | [] => true
  | x :: xs => x.isPlain && listPlain xs

/-- Are the keys and what they lead to? -/
def entriesPlain : List (Value × Value) → Bool
  | [] => true
  | (k, v) :: es => k.isPlain && v.isPlain && entriesPlain es

end

mutual

/-- Is the value built from scalars, lists, tuples, dictionaries, variables and objects?  Keys can be
    hashed, and the names and types of variables and the tags of objects are plain. -/
def isComposed : Value → Bool
  | scalar _ => true
  | list items => listComposed items
  | tuple items => listComposed items
  | dict entries => (entries.all fun e => e.1.unhashable?.isNone) && entriesComposed entries
  | var n v t => n.isPlain && v.isComposed && t.isPlain
  | object _ _ v _ rs gs => v.isComposed && relationsComposed rs && gs.isPlain
  | record .. | ref _ => false

/-- Are the items? -/
def listComposed : List Value → Bool
  | [] => true
  | x :: xs => x.isComposed && listComposed xs

/-- Is what the keys lead to? -/
def entriesComposed : List (Value × Value) → Bool
  | [] => true
  | (_, v) :: es => v.isComposed && entriesComposed es

/-- Are the related values? -/
def relationsComposed : List (String × List Value) → Bool
  | [] => true
  | (_, xs) :: rs => listComposed xs && relationsComposed rs

end

mutual

/-- A key holds no entity: what can be hashed is a scalar, or a tuple of such. -/
theorem isPlain_of_hashable : ∀ {v : Value}, v.unhashable? = none → v.isPlain = true
  | scalar _, _ => rfl
  | tuple _, h => listPlain_of_hashable h
  | list _, h | dict _, h | var .., h | object .., h | record .., h | ref _, h => nomatch h

/-- The items of a key are plain, since a key is. -/
theorem listPlain_of_hashable : ∀ {xs : List Value}, listUnhashable? xs = none →
    listPlain xs = true
  | [], _ => rfl
  | x :: xs, h => by
    rw [listUnhashable?] at h
    cases hx : x.unhashable? with
    | some t =>
      rw [hx] at h
      cases h
    | none =>
      rw [hx] at h
      rw [listPlain, isPlain_of_hashable hx, listPlain_of_hashable h]
      rfl

end

theorem listPlain_texts (ss : List String) : listPlain (ss.map text) = true := by
  induction ss with
  | nil => rfl
  | cons s ss ih => exact ih

mutual

/-- Descriptions are plain. -/
theorem isPlain_describe : ∀ {v : Value}, v.isComposed = true → v.describe.isPlain = true
  | scalar _, _ => rfl
  | list _, h => listPlain_describe h
  | tuple _, h => listPlain_describe h
  | dict es, h => by
    obtain ⟨hkeys, hes⟩ := Bool.and_eq_true_iff.mp h
    refine entriesPlain_describe (fun e he => ?_) hes
    exact Option.isNone_iff_eq_none.mp (List.all_eq_true.mp hkeys e he)
  | var n v t, h => by
    rw [isComposed, Bool.and_eq_true, Bool.and_eq_true] at h
    obtain ⟨⟨hn, hv⟩, ht⟩ := h
    show (true && n.isPlain && (true && v.describe.isPlain && (true && t.isPlain && true))) = true
    rw [hn, isPlain_describe hv, ht]
    rfl
  | object i t v ms rs gs, h => by
    rw [isComposed, Bool.and_eq_true, Bool.and_eq_true] at h
    obtain ⟨⟨hv, hrs⟩, hgs⟩ := h
    show (true && (true && (true && gs.isPlain && (true && listPlain ((ms.map Prod.fst).map text)
      && (true && entriesPlain (describeRelations rs) && (true && v.describe.isPlain && true))))))
      = true
    rw [hgs, listPlain_texts, relationsPlain_describe hrs, isPlain_describe hv]
    rfl

/-- The descriptions of the items of a list are plain. -/
theorem listPlain_describe : ∀ {xs : List Value}, listComposed xs = true →
    listPlain (describeList xs) = true
  | [], _ => rfl
  | x :: xs, h => by
    obtain ⟨hx, hxs⟩ := Bool.and_eq_true_iff.mp h
    rw [describeList, listPlain, isPlain_describe hx, listPlain_describe hxs]
    rfl

theorem entriesPlain_describe : ∀ {es : List (Value × Value)},
    (∀ e ∈ es, e.1.unhashable? = none) → entriesComposed es = true →
    entriesPlain (describeEntries es) = true
  | [], _, _ => rfl
  | (k, v) :: es, hkeys, h => by
    obtain ⟨hk, hkeys⟩ := List.forall_mem_cons.mp hkeys
    obtain ⟨hv, hes⟩ := Bool.and_eq_true_iff.mp h
    rw [describeEntries, entriesPlain, isPlain_of_hashable hk, isPlain_describe hv,
      entriesPlain_describe hkeys hes]
    rfl

theorem relationsPlain_describe : ∀ {rs : List (String × List Value)},
    relationsComposed rs = true → entriesPlain (describeRelations rs) = true
  | [], _ => rfl
  | (kind, xs) :: rs, h => by
    obtain ⟨hxs, hrs⟩ := Bool.and_eq_true_iff.mp h
    show (true && listPlain (describeList xs) && entriesPlain (describeRelations rs)) = true
    rw [listPlain_describe hxs, relationsPlain_describe hrs]
    rfl

end

mutual

theorem isData_of_isPlain : ∀ {v : Value}, v.isPlain = true → v.IsData
  | scalar _, _ => trivial
  | list _, h => itemsData_of_plain h
  | tuple _, h => itemsData_of_plain h
  | dict _, h => entriesData_of_plain h
  | var .., h | object .., h | record .., h | ref _, h => nomatch h

theorem itemsData_of_plain : ∀ {xs : List Value}, listPlain xs = true → ItemsData xs
  | [], _ => trivial
  | _ :: _, h => by
    obtain ⟨hx, hxs⟩ := Bool.and_eq_true_iff.mp h
    exact ⟨isData_of_isPlain hx, itemsData_of_plain hxs⟩

theorem entriesData_of_plain : ∀ {es : List (Value × Value)}, entriesPlain es = true →
    EntriesData es
  | [], _ => trivial
  | (_, _) :: _, h => by
    obtain ⟨hkv, hes⟩ := Bool.and_eq_true_iff.mp h
    exact ⟨isData_of_isPlain (Bool.and_eq_true_iff.mp hkv).2, entriesData_of_plain hes⟩

end

/-! ## Parts and paths -/

/-- A step from a value to one of its parts. -/
inductive Step where
  /-- the item at an index of a list or a tuple -/
  | item (n : Nat)
  /-- what the key of the entry at an index of a dictionary leads to -/
  | entry (n : Nat) (key : Value)
  /-- the value of a variable -/
  | varValue
  /-- the value of an object -/
  | objectValue
  /-- what is related to an object: the kind with its index, and the index among those of the kind -/
  | related (m : Nat) (kind : String) (n : Nat)

/-- Does the step stay in lists, tuples and dictionaries? -/
def Step.inContainer : Step → Bool
  | item _ | entry .. => true
  | _ => false

/-- The steps in a description that lead where the step leads in the value.  In a container it is the
    same step. -/
def Step.described : Step → List Step
  | item n => [item n]
  | entry n key => [entry n key]
  | varValue => [entry 1 (text "value")]
  | objectValue => [entry 5 (text "value")]
  | related m kind n => [entry 4 (text "relations"), entry m (text kind), item n]

/-- The part of a value to which a step leads. -/
inductive Part : Value → Step → Value → Prop
  | listItem {items : List Value} {n : Nat} {x : Value} : items[n]? = some x →
    Part (list items) (.item n) x
  | tupleItem {items : List Value} {n : Nat} {x : Value} : items[n]? = some x →
    Part (tuple items) (.item n) x
  | entry {entries : List (Value × Value)} {n : Nat} {key x : Value} :
    entries[n]? = some (key, x) → Part (dict entries) (.entry n key) x
  | varValue {name v type : Value} : Part (var name v type) .varValue v
  | objectValue {id type : String} {v : Value} {methods : List (String × Method)}
    {relations : List (String × List Value)} {tags : Value} :
    Part (object id type v methods relations tags) .objectValue v
  | related {id type : String} {v : Value} {methods : List (String × Method)}
    {relations : List (String × List Value)} {tags : Value} {m n : Nat} {kind : String}
    {xs : List Value} {x : Value} : relations[m]? = some (kind, xs) → xs[n]? = some x →
    Part (object id type v methods relations tags) (.related m kind n) x

/-- Does the value hold `x` at the end of a path? -/
def Holds : Value → List Step → Value → Prop
  | v, [], x => x = v
  | v, s :: path, x => ∃ part, v.Part s part ∧ part.Holds path x

/-- A path leads on from where its first part leads to. -/
theorem holds_append {p q : List Step} : ∀ {v x : Value},
    v.Holds (p ++ q) x ↔ ∃ y, v.Holds p y ∧ y.Holds q x := by
  induction p with
  | nil =>
    intro v x
    constructor
    · exact fun h => ⟨v, rfl, h⟩
    · rintro ⟨y, rfl, h⟩
      exact h
  | cons s p ih =>
    intro v x
    constructor
    · rintro ⟨part, hpart, h⟩
      obtain ⟨y, hy, hx⟩ := ih.mp h
      exact ⟨y, ⟨part, hpart, hy⟩, hx⟩
    · rintro ⟨y, ⟨part, hpart, hy⟩, hx⟩
      exact ⟨part, hpart, ih.mpr ⟨y, hy, hx⟩⟩

theorem holds_step {s : Step} {v x : Value} (h : v.Part s x) : v.Holds [s] x :=
  ⟨x, h, rfl⟩

/-! ## Where the parts come to stand -/

theorem describeList_eq_map (xs : List Value) : describeList xs = xs.map describe := by
  induction xs with
  | nil => rfl
  | cons x xs ih => rw [describeList, List.map_cons, ih]

/-- A mapping is described value by value; its keys stay. -/
theorem describeEntries_eq_map (es : List (Value × Value)) :
    describeEntries es = es.map fun e => (e.1, e.2.describe) := by
  induction es with
  | nil => rfl
  | cons e es ih => rw [describeEntries, List.map_cons, ih]

/-- Relations are described as a mapping from kinds to lists. -/
theorem describeRelations_eq_map (rs : List (String × List Value)) :
    describeRelations rs = rs.map fun r => (text r.1, list (describeList r.2)) := by
  induction rs with
  | nil => rfl
  | cons r rs ih => rw [describeRelations, List.map_cons, ih]

/-- What a step leads to is described where the step leads in the description. -/
theorem Part.describe {s : Step} {v x : Value} (h : v.Part s x) :
    v.describe.Holds s.described x.describe := by
  cases h with
  | listItem hx =>
    refine holds_step (.listItem ?_)
    rw [describeList_eq_map, List.getElem?_map, hx]
    rfl
  | tupleItem hx =>
    refine holds_step (.tupleItem ?_)
    rw [describeList_eq_map, List.getElem?_map, hx]
    rfl
  | entry hx =>
    refine holds_step (.entry ?_)
    rw [describeEntries_eq_map, List.getElem?_map, hx]
    rfl
  | varValue => exact holds_step (.entry rfl)
  | objectValue => exact holds_step (.entry rfl)
  | @related id type v methods relations tags m n kind xs x hkind hx =>
    have hkind' : (describeRelations relations)[m]? = some (text kind, list (describeList xs)) := by
      rw [describeRelations_eq_map, List.getElem?_map, hkind]
      rfl
    have hx' : (describeList xs)[n]? = some x.describe := by
      rw [describeList_eq_map, List.getElem?_map, hx]
      rfl
    exact ⟨dict (describeRelations relations), .entry rfl, list (describeList xs), .entry hkind',
      holds_step (.listItem hx')⟩

/-- What stands at a path is described at the path described. -/
theorem holds_describe {path : List Step} : ∀ {v x : Value}, v.Holds path x →
    v.describe.Holds (path.flatMap Step.described) x.describe := by
  induction path with
  | nil =>
    rintro v x rfl
    rfl
  | cons s path ih =>
    rintro v x ⟨part, hpart, h⟩
    exact holds_append.mpr ⟨part.describe, hpart.describe, ih h⟩

/-- A path in containers is described by itself. -/
theorem flatMap_described {path : List Step} (h : ∀ s ∈ path, s.inContainer = true) :
    path.flatMap Step.described = path := by
  induction path with
  | nil => rfl
  | cons s path ih =>
    obtain ⟨hs, hpath⟩ := List.forall_mem_cons.mp h
    rw [List.flatMap_cons, ih hpath]
    cases s with
    | item n => rfl
    | entry n key => rfl
    | varValue | objectValue | related m kind n => cases hs

/-- A part of the description of a value that is no entity describes a part of the value. -/
theorem part_of_describe {s : Step} {v y : Value} (hv : v.isEntity = false)
    (h : v.describe.Part s y) : ∃ x, v.Part s x ∧ y = x.describe := by
  cases v with
  | scalar _ | record _ _ | ref _ => cases h
  | var _ _ _ | object _ _ _ _ _ _ => cases hv
  | list xs =>
    rw [describe] at h
    cases h with
    | listItem hy =>
      rw [describeList_eq_map, List.getElem?_map] at hy
      obtain ⟨x, hx, rfl⟩ := Option.map_eq_some_iff.mp hy
      exact ⟨x, .listItem hx, rfl⟩
  | tuple xs =>
    rw [describe] at h
    cases h with
    | tupleItem hy =>
      rw [describeList_eq_map, List.getElem?_map] at hy
      obtain ⟨x, hx, rfl⟩ := Option.map_eq_some_iff.mp hy
      exact ⟨x, .tupleItem hx, rfl⟩
  | dict es =>
    rw [describe] at h
    cases h with
    | entry hy =>
      rw [describeEntries_eq_map, List.getElem?_map] at hy
      obtain ⟨⟨key, x⟩, hx, heq⟩ := Option.map_eq_some_iff.mp hy
      obtain ⟨rfl, rfl⟩ := Prod.mk.inj heq
      exact ⟨x, .entry hx, rfl⟩

/-- Whatever a description holds describes a part of the value, or belongs to the description of an
    entity in it. -/
theorem of_holds_describe {path : List Step} : ∀ {v y : Value}, v.describe.Holds path y →
    (∃ x, v.Holds path x ∧ y = x.describe)
      ∨ ∃ front back e, path = front ++ back ∧ back ≠ [] ∧ e.isEntity = true ∧ v.Holds front e
        ∧ e.describe.Holds back y := by
  induction path with
  | nil =>
    rintro v y rfl
    exact Or.inl ⟨v, rfl, rfl⟩
  | cons s path ih =>
    intro v y h
    cases hv : v.isEntity with
    | true => exact Or.inr ⟨[], s :: path, v, rfl, List.cons_ne_nil s path, hv, rfl, h⟩
    | false =>
      obtain ⟨part, hpart, hy⟩ := h
      obtain ⟨x, hx, rfl⟩ := part_of_describe hv hpart
      rcases ih hy with ⟨z, hz, rfl⟩ | ⟨front, back, e, rfl, hback, he, hfront, hin⟩
      · exact Or.inl ⟨z, ⟨x, hx, hz⟩, rfl⟩
      · exact Or.inr ⟨s :: front, back, e, rfl, hback, he, ⟨x, hx, hfront⟩, hin⟩

/-- **Descriptions are plain and stable**, and keep the places of what they describe.  The description
    of a value holds no variable or object, is its own description, and is the value itself if that is
    plain.  It has the description of each part of the value where the part stands: at the same path as
    far as that leads through containers, and in the dictionaries of the entities on the way.  There
    is nothing else in it, but for the rest of these dictionaries. -/
theorem description_of_composed {v : Value} (h : v.isComposed = true) :
    v.describe.isPlain = true ∧ v.describe.describe = v.describe
      ∧ (v.isPlain = true → v.describe = v)
      ∧ (∀ path x, v.Holds path x → v.describe.Holds (path.flatMap Step.described) x.describe
        ∧ ((∀ s ∈ path, s.inContainer = true) → v.describe.Holds path x.describe))
      ∧ ∀ path y, v.describe.Holds path y → (∃ x, v.Holds path x ∧ y = x.describe)
        ∨ ∃ front back e, path = front ++ back ∧ back ≠ [] ∧ e.isEntity = true ∧ v.Holds front e
          ∧ e.describe.Holds back y := by
  have hplain := isPlain_describe h
  refine ⟨hplain, describe_of_isData (isData_of_isPlain hplain),
    fun hv => describe_of_isData (isData_of_isPlain hv), fun path x hx => ?_,
    fun path y hy => of_holds_describe hy⟩
  have hdescribed := holds_describe hx
  refine ⟨hdescribed, fun hpath => ?_⟩
  rwa [flatMap_described hpath] at hdescribed

/-- A tuple in a list, and in it a variable that holds an object with a variable as its field. -/
def crew : Value :=
  .list [.int 1, .tuple [.null, .var (.text "lead") (.object "ann" "generic" .null []
    [("field", [.var (.text "age") (.int 41) (.text "mixed")])] (.texts ["api"])) (.text "mixed")]]

/-- The variable stands at its place in the tuple, described, and its object at `value` in it. -/
theorem description_of_crew : crew.isComposed = true ∧ crew.describe.isPlain = true
    ∧ crew.describe.describe = crew.describe
    ∧ crew.describe.Holds [.item 1, .item 1, .entry 1 (text "value"), .entry 4 (text "relations"),
      .entry 0 (text "field"), .item 0]
      (dict [(text "name", text "age"), (text "value", int 41), (text "type", text "mixed")]) := by
  have hcrew : crew.isComposed = true := rfl
  obtain ⟨hplain, hstable, -, hplaces, -⟩ := description_of_composed hcrew
  refine ⟨hcrew, hplain, hstable, ?_⟩
  have hage : crew.Holds [.item 1, .item 1, .varValue, .related 0 "field" 0]
      (.var (.text "age") (.int 41) (.text "mixed")) :=
    ⟨_, .listItem rfl, _, .tupleItem rfl, _, .varValue, _, .related rfl rfl, rfl⟩
  exact (hplaces _ _ hage).1

end LetTag.Value
