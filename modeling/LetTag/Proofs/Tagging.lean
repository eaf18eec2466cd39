/-
  The order in which statements tag objects.

  A statement that begins with `tag` gives tags to an object, or leaves a report; it declares nothing,
  so a list of such statements can be read off all at once.  Every object gets the tags that the
  statements give to its id, in their order and each once (`Registry.tagged`), and every statement that
  is malformed or names no object is reported (`Registry.tagReport`).  Both are functions of what each
  statement says by itself, which is why the order of the statements shows in nothing but the order of
  tags and of reports, and why repetitions show in reports only.

  Routes read tags in two ways.  Most tags are looked for, which takes no notice of their order; the
  path is that of the first tag that gives one, so there the order matters, unless an object has no two
  paths (`Entity.Alike.pathOf_eq`).
-/
import LetTag.Proofs.Recognition
import LetTag.Proofs.Requests
import Mathlib.Data.List.Forall2

namespace LetTag

/-! ## Statements that tag -/

/-- A statement that begins with `tag`, whether or not it is well-formed. -/
def IsTagStatement (s : List Char) : Prop :=
  "tag".toList <+: s

/-- It says which tags to give to which id, or it is malformed. -/
theorem IsTagStatement.parse {s : List Char} (h : IsTagStatement s) :
    (∃ id tags, Declaration.parse s = .tag id tags)
      ∨ Declaration.parse s = .malformed .malformedTag := by
  have htag : "tag".toList.isPrefixOf s = true := List.isPrefixOf_iff_prefix.mpr h
  obtain ⟨rest, rfl⟩ := h
  have hswitch : Declaration.debugSwitch? ("tag".toList ++ rest) = none :=
    Declaration.debugSwitch?_eq_none (c := 't') rfl (by decide)
  have hlet : ¬ "let".toList.isPrefixOf ("tag".toList ++ rest) = true := by
    rw [List.isPrefixOf_iff_prefix]
    rintro ⟨more, hmore⟩
    exact absurd (List.cons.inj hmore).1 (by decide)
  unfold Declaration.parse
  rw [hswitch]
  dsimp only
  rw [if_neg hlet, if_pos htag]
  cases Declaration.tagging? ("tag".toList ++ rest) with
  | none => exact Or.inr rfl
  | some found => exact Or.inl ⟨_, _, rfl⟩

/-- Where no name comes twice, a value put under a name that is there takes the place of one entry. -/
theorem Table.put_eq_map {α : Type} {name : String} {old new : α} : ∀ {t : Table α},
    (names t).Nodup → get? name t = some old →
    put name new t = t.map fun o => (o.1, if o.1 = name then new else o.2) := by
  intro t
  induction t with
  | nil => exact fun _ h => nomatch h
  | cons entry rest ih =>
    intro hnodup hget
    obtain ⟨n, v⟩ := entry
    obtain ⟨hn, hrest⟩ := List.nodup_cons.mp hnodup
    rw [put, List.map_cons]
    split
    · rename_i hname
      refine congrArg ((n, new) :: ·) ?_
      refine ((List.map_congr_left fun o ho => ?_).trans (List.map_id _)).symm
      have hne : o.1 ≠ name := by
        rintro rfl
        exact hn (hname ▸ List.mem_map.mpr ⟨o, ho, rfl⟩)
      rw [if_neg hne]
      rfl
    · rename_i hname
      rw [get?_cons, if_neg fun he => hname he.symm] at hget
      rw [ih hrest hget]

namespace Registry

variable {r r' : Registry} {s : List Char} {ss : List (List Char)}

/-! ## Registries with ids -/

/-- Every object has its id for its name, and no name comes twice. -/
structure Keyed (r : Registry) : Prop where
  names : (Table.names r.objects).Nodup
  ids : ∀ id e, (id, e) ∈ r.objects → e.id = id

namespace Keyed

/-- An empty registry has no entries to be keyed. -/
theorem empty (settings : Settings) : (Registry.empty settings).Keyed where
  names := List.nodup_nil
  ids _ _ h := absurd h List.not_mem_nil

/-- Whatever a statement does keeps objects under their ids. -/
theorem apply (h : r.Keyed) (f : Effect) : (f.apply r).Keyed := by
  cases f with
  | switch on => exact ⟨h.names, h.ids⟩
  | problem p => exact h
  | stop e => exact h
  | put e =>
    refine ⟨Table.nodup_names_put e.id e h.names, fun id x hx => ?_⟩
    rcases Table.mem_put hx with ⟨rfl, rfl⟩ | hx
    · rfl
    · exact h.ids id x hx

/-- Every pass keeps it so. -/
theorem compile (h : r.Keyed) (code : List Char) (reset : Bool) :
    (r.compile code reset).registry.Keyed := by
  refine compile_keeps (fun r ds hr => ⟨hr.names, hr.ids⟩) (fun s _ r hr => hr.apply (r.effect s)) ?_
  unfold atStart
  split
  · exact empty r.settings
  · exact h

end Keyed

/-! ## What tag statements do -/

/-- The registry with the tags that the statements give to its ids. -/
def tagged (r : Registry) (ss : List (List Char)) : Registry :=
  { r with objects := r.objects.map fun o => (o.1, o.2.tag (ss.flatMap (tagsFor o.1))) }

theorem names_tagged (r : Registry) (ss : List (List Char)) :
    Table.names (r.tagged ss).objects = Table.names r.objects :=
  List.map_map

theorem tagged_of_none (h : ∀ o ∈ r.objects, ss.flatMap (tagsFor o.1) = []) : r.tagged ss = r := by
  have hobjects : (r.objects.map fun o => (o.1, o.2.tag (ss.flatMap (tagsFor o.1)))) = r.objects := by
    refine (List.map_congr_left fun o ho => ?_).trans (List.map_id _)
    rw [h o ho]
    rfl
  unfold tagged
  rw [hobjects]

/-- Tagging twice is tagging with the statements of both. -/
theorem tagged_tagged (r : Registry) (ss more : List (List Char)) :
    (r.tagged ss).tagged more = r.tagged (ss ++ more) := by
  have hobjects : (r.tagged ss).objects.map (fun o => (o.1, o.2.tag (more.flatMap (tagsFor o.1))))
      = r.objects.map fun o => (o.1, o.2.tag ((ss ++ more).flatMap (tagsFor o.1))) := by
    show (r.objects.map _).map _ = _
    rw [List.map_map]
    refine List.map_congr_left fun o _ => ?_
    rw [List.flatMap_append, ← tag_tag]
    rfl
  exact congrArg (fun objects => { r with objects := objects }) hobjects

/-- Following a tagging is tagging the object that it names. -/
theorem follow_of_tag (hr : r.Keyed) (hs : IsTagStatement s) : r.follow s = r.tagged [s] := by
  have hone (id : String) : [s].flatMap (tagsFor id) = tagsFor id s := List.flatMap_singleton _ _
  unfold follow effect
  rcases hs.parse with ⟨id, tags, hparse⟩ | hparse
  · rw [hparse]
    have htags (other : String) : tagsFor other s = if id = other then tags else [] := by
      simp [tagsFor, hparse]
    dsimp only
    unfold taggingEffect
    cases hget : Table.get? id r.objects with
    | none =>
      refine (tagged_of_none fun o ho => ?_).symm
      have hne : ¬ id = o.1 := by
        rintro rfl
        exact (Table.get?_eq_none_iff _ _).mp hget (List.mem_map.mpr ⟨o, ho, rfl⟩)
      rw [hone, htags, if_neg hne]
    | some e =>
      obtain rfl : e.id = id := hr.ids id e (Table.mem_of_get? hget)
      show { r with objects := Table.put e.id (e.tag tags) r.objects } = _
      rw [Table.put_eq_map hr.names hget]
      unfold tagged
      refine congrArg (fun objects => { r with objects := objects }) ?_
      refine List.map_congr_left fun o ho => ?_
      rw [hone, htags]
      by_cases hid : o.1 = e.id
      · -- the one object with this id
        obtain ⟨id, x⟩ := o
        obtain rfl : id = e.id := hid
        have hsame := Table.get?_of_mem hr.names ho
        rw [hget] at hsame
        rw [if_pos rfl, if_pos rfl, Option.some.inj hsame]
      · rw [if_neg hid, if_neg fun he => hid he.symm]
        rfl
  · rw [hparse]
    refine (tagged_of_none fun o _ => ?_).symm
    rw [hone]
    simp [tagsFor, hparse]

theorem Keyed.tagged (h : r.Keyed) (ss : List (List Char)) : (r.tagged ss).Keyed where
  names := by
    rw [names_tagged]
    exact h.names
  ids := by
    intro id e he
    obtain ⟨o, ho, heq⟩ := List.mem_map.mp he
    obtain ⟨rfl, rfl⟩ := Prod.mk.inj heq
    exact h.ids o.1 o.2 ho

/-- **Tag statements give every object the tags that they name for its id.** -/
theorem foldl_follow_of_tags (hr : r.Keyed) (hss : ∀ s ∈ ss, IsTagStatement s) :
    ss.foldl follow r = r.tagged ss := by
  induction ss generalizing r with
  | nil => exact (tagged_of_none fun _ _ => rfl).symm
  | cons s ss ih =>
    obtain ⟨hs, hss⟩ := List.forall_mem_cons.mp hss
    rw [List.foldl_cons, follow_of_tag hr hs, ih (hr.tagged [s]) hss, tagged_tagged]
    rfl

/-! ## What they report -/

/-- The report that a statement leaves, if it leaves one. -/
def tagReport (r : Registry) (s : List Char) : List Diagnostic :=
  ((r.effect s).problem?.map fun d => ⟨d, s⟩).toList

/-- It depends on the ids in the registry only. -/
theorem tagReport_congr (h : Table.names r'.objects = Table.names r.objects)
    (hs : IsTagStatement s) : r'.tagReport s = r.tagReport s := by
  unfold tagReport effect
  rcases hs.parse with ⟨id, tags, hparse⟩ | hparse
  · rw [hparse]
    dsimp only
    unfold taggingEffect
    have hthere : Table.get? id r'.objects = none ↔ Table.get? id r.objects = none := by
      rw [Table.get?_eq_none_iff, Table.get?_eq_none_iff, h]
    cases hget : Table.get? id r.objects with
    | none => rw [hthere.mpr hget]
    | some e =>
      cases hget' : Table.get? id r'.objects with
      | none =>
        rw [hthere.mp hget'] at hget
        cases hget
      | some e' => rfl
  · rw [hparse]

/-- A report names the statement, which is malformed or names an id that is not there. -/
theorem of_mem_tagReport (hs : IsTagStatement s) {d : Diagnostic} (hd : d ∈ r.tagReport s) :
    d.statement = s ∧ (d.problem = .malformedTag ∨ ∃ id, d.problem = .missingObject id) := by
  unfold tagReport effect at hd
  rcases hs.parse with ⟨id, tags, hparse⟩ | hparse
  · rw [hparse] at hd
    dsimp only at hd
    unfold taggingEffect at hd
    cases hget : Table.get? id r.objects with
    | none =>
      rw [hget] at hd
      rw [List.mem_singleton.mp hd]
      exact ⟨rfl, Or.inr ⟨id, rfl⟩⟩
    | some e =>
      rw [hget] at hd
      exact absurd hd List.not_mem_nil
  · rw [hparse] at hd
    rw [List.mem_singleton.mp hd]
    exact ⟨rfl, Or.inl rfl⟩

/-- Taggings leave diagnostics for the ids that are not there, and no others. -/
theorem diagnosed_of_tags (hr : r.Keyed) (hss : ∀ s ∈ ss, IsTagStatement s) :
    Pass.diagnosed r ss = ss.flatMap r.tagReport := by
  induction ss generalizing r with
  | nil => rfl
  | cons s ss ih =>
    obtain ⟨hs, hss⟩ := List.forall_mem_cons.mp hss
    have hrest : ss.flatMap (r.tagged [s]).tagReport = ss.flatMap r.tagReport :=
      List.flatMap_congr fun t ht => tagReport_congr (names_tagged r [s]) (hss t ht)
    rw [Pass.diagnosed, follow_of_tag hr hs, ih (hr.tagged [s]) hss, hrest, List.flatMap_cons]
    rfl

theorem stopped?_of_tags (hss : ∀ s ∈ ss, IsTagStatement s) : Pass.stopped? r ss = none := by
  induction ss generalizing r with
  | nil => rfl
  | cons s ss ih =>
    obtain ⟨hs, hss⟩ := List.forall_mem_cons.mp hss
    rw [Pass.stopped?, ih hss, Option.or_none]
    unfold effect
    rcases hs.parse with ⟨id, tags, hparse⟩ | hparse
    · rw [hparse]
      dsimp only
      unfold taggingEffect
      cases Table.get? id r.objects with
      | none => rfl
      | some e => rfl
    · rw [hparse]
      rfl

end Registry

/-- What a run of tag statements leaves. -/
theorem Pass.run_of_tags {p : Pass} (hr : p.registry.Keyed) {ss : List (List Char)}
    (hss : ∀ s ∈ ss, IsTagStatement s) : (p.run ss).2 = none
      ∧ (p.run ss).1.registry = p.registry.tagged ss
      ∧ (p.run ss).1.diagnostics = p.diagnostics ++ ss.flatMap p.registry.tagReport := by
  have hstop : Pass.stopped? p.registry ss = none := Registry.stopped?_of_tags hss
  obtain ⟨hreg, hds⟩ := Pass.run_complete ss hstop
  refine ⟨(Pass.run_error ss p).trans hstop, ?_, ?_⟩
  · rw [hreg, Registry.foldl_follow_of_tags hr hss]
  · rw [hds, Registry.diagnosed_of_tags hr hss]

/-! ## Objects with the same tags -/

/-- The tags that give a path are one and the same. -/
def Entity.HasOnePath (e : Entity) : Prop :=
  ∀ t ∈ e.tags, ∀ u ∈ e.tags, "path:".toList <+: t.toList → "path:".toList <+: u.toList → t = u

/-- The objects are equal but for the order of their tags. -/
structure Entity.Alike (e e' : Entity) : Prop where
  rest : { e with tags := e'.tags } = e'
  tags : ∀ t, t ∈ e.tags ↔ t ∈ e'.tags

/-- The path and the method of a route, and the id of the object that answers. -/
def Route.entry (ρ : Route) : String × String × String :=
  (ρ.path, ρ.method, ρ.handler.id)

namespace Entity.Alike

variable {e e' : Entity}

/-- Tags in another order make the objects alike. -/
theorem tag (e : Entity) {new new' : List String} (h : ∀ t, t ∈ new ↔ t ∈ new') :
    (e.tag new).Alike (e.tag new') where
  rest := rfl
  tags t := by
    show t ∈ addTags e.tags new ↔ t ∈ addTags e.tags new'
    rw [mem_addTags, mem_addTags, h t]

/-- With one path at most it does not matter where among the tags it stands. -/
theorem pathOf_eq (h : e.Alike e') (hone : e.HasOnePath) : pathOf e.tags = pathOf e'.tags := by
  have hbegins (path : String) : "path:".toList <+: ("path:" ++ path).toList := by
    rw [String.toList_append]
    exact List.prefix_append _ _
  cases hpath : pathOf e.tags with
  | some path =>
    obtain ⟨before, after, htags, -⟩ := (pathOf_eq_some_iff _ _).mp hpath
    have hmem : "path:" ++ path ∈ e.tags := htags ▸ List.mem_append_right _ List.mem_cons_self
    cases hpath' : pathOf e'.tags with
    | some path' =>
      obtain ⟨before', after', htags', -⟩ := (pathOf_eq_some_iff _ _).mp hpath'
      have hmem' : "path:" ++ path' ∈ e.tags :=
        (h.tags _).mpr (htags' ▸ List.mem_append_right _ List.mem_cons_self)
      have hsame := hone _ hmem _ hmem' (hbegins path) (hbegins path')
      rw [String.append_right_inj] at hsame
      rw [hsame]
    | none =>
      have hnone := List.findSome?_eq_none_iff.mp hpath' _ ((h.tags _).mp hmem)
      exact absurd (hbegins path) ((behind?_eq_none_iff _ _).mp hnone)
  | none =>
    refine (List.findSome?_eq_none_iff.mpr fun t ht => ?_).symm
    exact List.findSome?_eq_none_iff.mp hpath t ((h.tags t).mpr ht)

theorem hasTag_eq (h : e.Alike e') (t : String) : e.hasTag t = e'.hasTag t := by
  unfold hasTag
  rw [Bool.eq_iff_iff, List.contains_iff_mem, List.contains_iff_mem, h.tags t]

/-- Objects that are alike have the same route, if there is one path at most. -/
theorem route_eq (h : e.Alike e') (hone : e.HasOnePath) :
    e.route?.map Route.entry = e'.route?.map Route.entry := by
  have hid : e.id = e'.id := by rw [← h.rest]
  unfold Entity.route?
  rw [h.hasTag_eq "api", h.hasTag_eq "post", h.pathOf_eq hone]
  split
  · rw [Option.map_map, Option.map_map]
    show Option.map (fun path => (path, _, e.id)) _ = Option.map (fun path => (path, _, e'.id)) _
    rw [hid]
  · rfl

end Entity.Alike

/-- Objects that are alike, in the same order, have the same routes. -/
theorem Registry.routes_of_alike {r r' : Registry}
    (h : List.Forall₂ (fun o o' => o.1 = o'.1 ∧ o.2.Alike o'.2) r.objects r'.objects)
    (hone : ∀ o ∈ r.objects, o.2.HasOnePath) :
    r.routes.map Route.entry = r'.routes.map Route.entry := by
  have hshown (r : Registry) :
      r.routes.map Route.entry = r.objects.filterMap fun o => o.2.route?.map Route.entry := by
    unfold routes LetTag.routes
    rw [List.map_filterMap, List.filterMap_map]
    rfl
  rw [hshown, hshown]
  clear hshown
  revert hone
  generalize r.objects = objects at h ⊢
  generalize r'.objects = objects' at h ⊢
  induction h with
  | nil => exact fun _ => rfl
  | cons ho _ ih =>
    intro hone
    obtain ⟨hfirst, hrest⟩ := List.forall_mem_cons.mp hone
    rw [List.filterMap_cons, List.filterMap_cons, ho.2.route_eq hfirst, ih hrest]

/-! ## Permuted and repeated statements -/

namespace Registry

/-- The tags for an id depend on which statements there are, not on their order. -/
theorem mem_flatMap_congr {xs ys : List (List Char)} (h : ∀ s, s ∈ xs ↔ s ∈ ys) (id t : String) :
    t ∈ xs.flatMap (tagsFor id) ↔ t ∈ ys.flatMap (tagsFor id) := by
  simp only [List.mem_flatMap, h]

theorem tagged_alike (r : Registry) {xs ys : List (List Char)} (h : ∀ s, s ∈ xs ↔ s ∈ ys) :
    List.Forall₂ (fun o o' => o.1 = o'.1 ∧ o.2.Alike o'.2) (r.tagged xs).objects
      (r.tagged ys).objects := by
  show List.Forall₂ _ (r.objects.map _) (r.objects.map _)
  rw [List.forall₂_map_left_iff, List.forall₂_map_right_iff]
  exact List.forall₂_same.mpr fun o _ => ⟨rfl, .tag o.2 (mem_flatMap_congr h o.1)⟩

/-- Statements that come again behind those that they repeat change no tags. -/
theorem tagged_again (r : Registry) {before again : List (List Char)}
    (h : ∀ s ∈ again, s ∈ before) (after : List (List Char)) :
    r.tagged (before ++ (again ++ after)) = r.tagged (before ++ after) := by
  unfold tagged
  refine congrArg (fun objects => { r with objects := objects }) ?_
  refine List.map_congr_left fun o _ => ?_
  have hthere : ∀ t ∈ again.flatMap (tagsFor o.1),
      t ∈ addTags o.2.tags (before.flatMap (tagsFor o.1)) := by
    intro t ht
    obtain ⟨s, hs, ht⟩ := List.mem_flatMap.mp ht
    exact (mem_addTags _ _).mpr (Or.inr (List.mem_flatMap.mpr ⟨s, h s hs, ht⟩))
  have hsame : (o.2.tag (before.flatMap (tagsFor o.1))).tag (again.flatMap (tagsFor o.1))
      = o.2.tag (before.flatMap (tagsFor o.1)) := by
    exact congrArg (fun tags => { o.2 with tags := tags }) (addTags_of_subset hthere)
  rw [List.flatMap_append, List.flatMap_append, List.flatMap_append, ← tag_tag, ← tag_tag, hsame,
    tag_tag]

end Registry

/-- **The routes do not depend on the order of tagging.**  Permuted tag statements are carried out to
    the end and leave the same objects in the same order, but for the order of the tags of each, and the
    same diagnostics in some order.  If no object ends with two different paths, they leave the same
    routes in the same order.  Statements that are repeated, in any number and anywhere behind those
    that they repeat, change nothing in the registry, and the diagnostics that they add are those of
    malformed statements and of ids that are not there. -/
theorem Pass.routes_of_permuted {p : Pass} (hr : p.registry.Keyed) {xs ys : List (List Char)}
    (hxs : ∀ s ∈ xs, IsTagStatement s) (hperm : xs.Perm ys) :
    let first := p.run xs
    let second := p.run ys
    (first.2 = none ∧ second.2 = none)
      ∧ first.1.registry.settings = second.1.registry.settings
      ∧ List.Forall₂ (fun o o' => o.1 = o'.1 ∧ o.2.Alike o'.2) first.1.registry.objects
        second.1.registry.objects
      ∧ first.1.diagnostics.Perm second.1.diagnostics
      ∧ ((∀ o ∈ first.1.registry.objects, o.2.HasOnePath) →
        first.1.registry.routes.map Route.entry = second.1.registry.routes.map Route.entry)
      ∧ ∀ before again after, xs = before ++ after → (∀ s ∈ again, s ∈ before) →
        let repeated := p.run (before ++ (again ++ after))
        repeated.2 = none ∧ repeated.1.registry = first.1.registry
          ∧ ∃ more, repeated.1.diagnostics.Perm (first.1.diagnostics ++ more)
            ∧ ∀ d ∈ more, d.statement ∈ again
              ∧ (d.problem = .malformedTag ∨ ∃ id, d.problem = .missingObject id) := by
  intro first second
  have hys : ∀ s ∈ ys, IsTagStatement s := fun s hs => hxs s (hperm.mem_iff.mpr hs)
  obtain ⟨hend, hreg, hds⟩ := Pass.run_of_tags hr hxs
  obtain ⟨hend', hreg', hds'⟩ := Pass.run_of_tags hr hys
  have halike : List.Forall₂ (fun o o' => o.1 = o'.1 ∧ o.2.Alike o'.2) first.1.registry.objects
      second.1.registry.objects := by
    rw [hreg, hreg']
    exact p.registry.tagged_alike fun _ => hperm.mem_iff
  refine ⟨⟨hend, hend'⟩, by rw [hreg, hreg']; rfl, halike, ?_, Registry.routes_of_alike halike, ?_⟩
  · rw [hds, hds']
    exact (hperm.flatMap_right _).append_left p.diagnostics
  · rintro before again after rfl hagain
    have hagain' : ∀ s ∈ again, IsTagStatement s :=
      fun s hs => hxs s (List.mem_append_left _ (hagain s hs))
    have hall : ∀ s ∈ before ++ (again ++ after), IsTagStatement s := by
      intro s hs
      simp only [List.mem_append] at hs
      rcases hs with hs | hs | hs
      · exact hxs s (List.mem_append_left _ hs)
      · exact hagain' s hs
      · exact hxs s (List.mem_append_right _ hs)
    obtain ⟨hend'', hreg'', hds''⟩ := Pass.run_of_tags hr hall
    refine ⟨hend'', ?_, again.flatMap p.registry.tagReport, ?_, ?_⟩
    · rw [hreg, hreg'', Registry.tagged_again _ hagain]
    · -- the reports of the repeated statements stand between the others
      have hmoved : (before ++ (again ++ after)).Perm ((before ++ after) ++ again) := by
        rw [List.append_assoc]
        exact List.perm_append_comm.append_left before
      rw [hds, hds'', List.append_assoc, ← List.flatMap_append]
      exact (hmoved.flatMap_right _).append_left p.diagnostics
    · intro d hd
      obtain ⟨s, hs, hd⟩ := List.mem_flatMap.mp hd
      obtain ⟨rfl, hproblem⟩ := Registry.of_mem_tagReport (hagain' s hs) hd
      exact ⟨hs, hproblem⟩

/-- A pass over a registry with a function and a value. -/
def twoObjects : Pass where
  registry := ((Registry.empty .default).compile "let f = (x) => x; let v = 1".toList false).registry
  diagnostics := []
  log := []

/-- Statements that tag both, one of them twice over, one that names no object and one without tags. -/
def mixedTags : List (List Char) :=
  ["tag f as api, path:/f".toList, "tag v as api".toList, "tag u as x".toList,
    "tag f as post, api".toList, "tag ?".toList]

/-- From the last to the first they leave the one route and the two reports, and once more after that
    they add the two reports only. -/
theorem Pass.routes_of_reversed :
    twoObjects.registry.Keyed ∧ (∀ s ∈ mixedTags, IsTagStatement s)
      ∧ (twoObjects.run mixedTags).1.registry.routes.map Route.entry = [("/f", "POST", "f")]
      ∧ (twoObjects.run mixedTags.reverse).1.registry.routes.map Route.entry = [("/f", "POST", "f")]
      ∧ (twoObjects.run mixedTags).1.diagnostics.length = 2
      ∧ (twoObjects.run mixedTags.reverse).1.diagnostics.length = 2
      ∧ (twoObjects.run (mixedTags ++ mixedTags)).1.registry
        = (twoObjects.run mixedTags).1.registry
      ∧ (twoObjects.run (mixedTags ++ mixedTags)).1.diagnostics.length = 4 := by
  have hkeyed : twoObjects.registry.Keyed := by
    unfold twoObjects
    dsimp only
    exact (Registry.Keyed.empty .default).compile "let f = (x) => x; let v = 1".toList false
  have hstatements : ∀ s ∈ mixedTags, IsTagStatement s := by
    show ∀ s ∈ mixedTags, "tag".toList <+: s
    decide
  have hone : ∀ o ∈ (twoObjects.run mixedTags).1.registry.objects, o.2.HasOnePath := by
    show ∀ o ∈ (twoObjects.run mixedTags).1.registry.objects, ∀ t ∈ o.2.tags, ∀ u ∈ o.2.tags,
      "path:".toList <+: t.toList → "path:".toList <+: u.toList → t = u
    decide +kernel
  have hroutes : (twoObjects.run mixedTags).1.registry.routes.map Route.entry
      = [("/f", "POST", "f")] := by
    decide +kernel
  have hreports : (twoObjects.run mixedTags).1.diagnostics.length = 2 := by
    decide +kernel
  obtain ⟨-, -, -, hperm, hsame, hagain⟩ :=
    Pass.routes_of_permuted hkeyed hstatements (List.reverse_perm mixedTags).symm
  obtain ⟨-, hregistry, -⟩ := hagain mixedTags mixedTags [] (List.append_nil _).symm fun _ h => h
  rw [List.append_nil] at hregistry
  refine ⟨hkeyed, hstatements, hroutes, (hsame hone).symm.trans hroutes, hreports,
    hperm.length_eq.symm.trans hreports, hregistry, ?_⟩
  decide +kernel

end LetTag
