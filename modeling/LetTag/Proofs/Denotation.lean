/-
  What a registry holds after any number of passes, read off the statements alone.

  A registry is filled by a long fold: definitions replace objects, taggings change them in place,
  failures are skipped, and ids keep the place of their first definition.  None of this history
  matters in the end.  With all statements of all passes in one list,

  * the ids are those of the definitions that succeed, in the order of their first ones;
  * the object under an id is what its last successful definition makes, and its tags are the tag
    of its form and the tags given to that id behind this definition, each once.

  `Standing` states the second point for one id.  It is carried along the list from its end:
  `standing_append` says what one more statement does to it, `Follows` says that a registry agrees
  with a list of statements, and `Follows.step` is the one case analysis on what a statement says.
  `compileAll` makes passes one after the other.
-/
import LetTag.Proofs.Pass
import LetTag.Proofs.Table

namespace LetTag

/-! ## What statements declare -/

/-- The id and the object of a definition that succeeds. -/
def declared? (settings : Settings) (s : List Char) : Option (String × Entity) :=
  match Declaration.parse s with
  | .define id expr => (define settings id expr).toOption.map fun e => (id, e)
  | _ => none

/-- The tags that a statement gives to an id. -/
def tagsFor (id : String) (s : List Char) : List String :=
  match Declaration.parse s with
  | .tag other tags => if other = id then tags else []
  | _ => []

/-- The tag that an object has from the form of its definition. -/
def formTag (type : String) : String :=
  if type = "function" then "callable" else if type = recordType then "object" else "value"

/-- The ids that statements declare, in the order of their first successful definitions. -/
def declaredIds (settings : Settings) (ss : List (List Char)) : List String :=
  (ss.filterMap fun s => (declared? settings s).map Prod.fst).eraseDups

/-- The object that statements leave under an id: what its last successful definition makes, with
    the tag of its form and then the tags given to it behind that definition, each once. -/
def Standing (settings : Settings) (ss : List (List Char)) (id : String) (e : Entity) : Prop :=
  ∃ before s after made,
    ss = before ++ s :: after
      ∧ declared? settings s = some (id, made)
      ∧ (∀ t ∈ after, ∀ later, declared? settings t ≠ some (id, later))
      ∧ e = { made with tags := (formTag made.type :: after.flatMap (tagsFor id)).eraseDups }

/-- The object of a definition has the id of the definition and the tag of its form. -/
theorem define_ok {settings : Settings} {id : String} {expr : List Char} {e : Entity}
    (h : define settings id expr = .ok e) : e.id = id ∧ e.tags = [formTag e.type] := by
  unfold define at h
  split at h
  · -- an arrow
    cases hc : Closure.compile id expr with
    | error x =>
      rw [hc] at h
      cases h
    | ok c =>
      rw [hc] at h
      cases h
      exact ⟨rfl, rfl⟩
  · split at h
    · -- a record
      split at h
      · rename_i fields hfields
        rw [Entity.build] at h
        split at h
        · cases h
          exact ⟨rfl, rfl⟩
        · cases h
      · cases h
    · -- a literal
      split at h
      · cases h
        exact ⟨rfl, rfl⟩
      · cases h

/-- What a definition makes has the id of the definition and the tag of its form. -/
theorem declared?_ok {settings : Settings} {s : List Char} {id : String} {e : Entity}
    (h : declared? settings s = some (id, e)) : e.id = id ∧ e.tags = [formTag e.type] := by
  unfold declared? at h
  split at h
  · rename_i id' expr _
    cases hd : define settings id' expr with
    | error x =>
      rw [hd] at h
      cases h
    | ok made =>
      rw [hd] at h
      cases h
      exact define_ok hd
  · cases h

/-- Tags given in two goes. -/
theorem tag_tag (e : Entity) (new more : List String) :
    (e.tag new).tag more = e.tag (new ++ more) := by
  show { e with tags := addTags (addTags e.tags new) more } = _
  rw [addTags_addTags]
  rfl

/-- An object that comes from a definition, with tags added. -/
theorem declared?_tag {settings : Settings} {s : List Char} {id : String} {made : Entity}
    (h : declared? settings s = some (id, made)) (new : List String) :
    made.tag new = { made with tags := (formTag made.type :: new).eraseDups } := by
  have htags := (declared?_ok h).2
  have hone : made.tags.eraseDups = made.tags := by
    rw [htags]
    rfl
  show { made with tags := addTags made.tags new } = _
  rw [addTags_eq_eraseDups new hone, htags]
  rfl

/-- One more statement: if it declares the id, what it makes stands; if not, what stood before
    stands, with the tags that it gives to the id. -/
theorem standing_append (settings : Settings) (ss : List (List Char)) (s : List Char) (id : String)
    (e : Entity) :
    Standing settings (ss ++ [s]) id e ↔
      declared? settings s = some (id, e)
        ∨ (∀ made, declared? settings s ≠ some (id, made))
          ∧ ∃ old, Standing settings ss id old ∧ e = old.tag (tagsFor id s) := by
  constructor
  · rintro ⟨before, d, after, made, hss, hd, hafter, rfl⟩
    rcases List.eq_nil_or_concat after with rfl | ⟨init, last, rfl⟩
    · -- the definition is the new statement
      obtain ⟨-, rfl⟩ : ss = before ∧ s = d := by simpa using hss
      left
      rw [hd, List.flatMap_nil, ← declared?_tag hd []]
      rfl
    · rw [List.concat_eq_append] at hss hafter ⊢
      have hsplit : ss ++ [s] = (before ++ d :: init) ++ [last] := by simpa using hss
      obtain ⟨rfl, hlast⟩ := List.append_inj' hsplit rfl
      obtain rfl : s = last := by simpa using hlast
      right
      refine ⟨fun m => hafter s (by simp) m, _, ⟨before, d, init, made, rfl, hd, ?_, rfl⟩, ?_⟩
      · exact fun t ht => hafter t (List.mem_append_left _ ht)
      · rw [← declared?_tag hd, ← declared?_tag hd, tag_tag, List.flatMap_append,
          List.flatMap_singleton]
  · rintro (hd | ⟨hnone, old, ⟨before, d, after, made, rfl, hd, hafter, rfl⟩, rfl⟩)
    · refine ⟨ss, s, [], e, rfl, hd, by simp, ?_⟩
      rw [List.flatMap_nil, ← declared?_tag hd []]
      rfl
    · refine ⟨before, d, after ++ [s], made, by simp, hd, ?_, ?_⟩
      · intro t ht later
        rcases List.mem_append.mp ht with ht | ht
        · exact hafter t ht later
        · obtain rfl : t = s := by simpa using ht
          exact hnone later
      · rw [← declared?_tag hd, ← declared?_tag hd, tag_tag, List.flatMap_append,
          List.flatMap_singleton]

/-- The object that stands under an id has this id. -/
theorem standing_id {settings : Settings} {ss : List (List Char)} {id : String} {e : Entity}
    (h : Standing settings ss id e) : e.id = id := by
  obtain ⟨_, _, _, made, _, hd, _, rfl⟩ := h
  exact (declared?_ok hd).1

/-- One more statement adds its id behind the others, unless it is there or the statement fails. -/
theorem declaredIds_append (settings : Settings) (ss : List (List Char)) (s : List Char) :
    declaredIds settings (ss ++ [s]) = match declared? settings s with
      | some (id, _) =>
        if id ∈ declaredIds settings ss then declaredIds settings ss
        else declaredIds settings ss ++ [id]
      | none => declaredIds settings ss := by
  unfold declaredIds
  rw [List.filterMap_append, List.eraseDups_append]
  cases hd : declared? settings s with
  | none => simp [hd]
  | some p =>
    by_cases hm : p.1 ∈ ss.filterMap fun s => (declared? settings s).map Prod.fst
    · have hm' := List.mem_eraseDups.mpr hm
      simp only [List.filterMap_cons, hd, Option.map_some, List.filterMap_nil, if_pos hm']
      simp [List.removeAll, hm]
    · have hm' := mt List.mem_eraseDups.mp hm
      simp only [List.filterMap_cons, hd, Option.map_some, List.filterMap_nil, if_neg hm']
      simp [List.removeAll, hm, List.eraseDups_cons]

/-! ## Registries and their statements -/

/-- The registry holds what the statements declare. -/
structure Follows (settings : Settings) (ss : List (List Char)) (r : Registry) : Prop where
  sourceType : r.settings.sourceType = settings.sourceType
  resetOnCompile : r.settings.resetOnCompile = settings.resetOnCompile
  names : Table.names r.objects = declaredIds settings ss
  objects : ∀ id e, Table.get? id r.objects = some e ↔ Standing settings ss id e

namespace Follows

variable {settings : Settings} {ss : List (List Char)} {r : Registry}

/-- The empty registry is what no statements leave. -/
theorem empty (settings : Settings) : Follows settings [] (Registry.empty settings) where
  sourceType := rfl
  resetOnCompile := rfl
  names := rfl
  objects id e := by
    constructor
    · intro h
      cases h
    · rintro ⟨before, s, after, _, h, _⟩
      simp at h

/-- A statement that neither declares an object nor gives tags to one that is there. -/
theorem keep (h : Follows settings ss r) {s : List Char} {r' : Registry}
    (hd : declared? settings s = none)
    (ht : ∀ id e, Table.get? id r.objects = some e → tagsFor id s = [])
    (hs : r'.settings.sourceType = r.settings.sourceType)
    (hr : r'.settings.resetOnCompile = r.settings.resetOnCompile)
    (ho : r'.objects = r.objects) : Follows settings (ss ++ [s]) r' where
  sourceType := hs.trans h.sourceType
  resetOnCompile := hr.trans h.resetOnCompile
  names := by rw [declaredIds_append, hd, ho, h.names]
  objects id e := by
    rw [standing_append, hd, ho]
    constructor
    · intro hg
      refine Or.inr ⟨by simp, e, (h.objects id e).mp hg, ?_⟩
      rw [ht id e hg]
      rfl
    · rintro (hc | ⟨-, old, hold, rfl⟩)
      · cases hc
      · have hg := (h.objects id old).mpr hold
        rw [ht id old hg]
        exact hg

/-- A definition that succeeds: its object stands under the id, with no tags but that of its form. -/
theorem declared (h : Follows settings ss r) {s : List Char} {id : String} {made : Entity}
    (hd : declared? settings s = some (id, made)) (ht : ∀ other, tagsFor other s = []) :
    Follows settings (ss ++ [s]) { r with objects := Table.put made.id made r.objects } where
  sourceType := h.sourceType
  resetOnCompile := h.resetOnCompile
  names := by
    show Table.names (Table.put made.id made r.objects) = _
    rw [Table.names_put, declaredIds_append, hd, (declared?_ok hd).1, h.names]
  objects other e := by
    show Table.get? other (Table.put made.id made r.objects) = some e ↔ _
    rw [Table.get?_put, standing_append, hd, (declared?_ok hd).1]
    by_cases ho : other = id
    · simp [ho]
    · have hne : ¬ id = other := fun he => ho he.symm
      simp only [if_neg ho, ht other]
      rw [h.objects other e]
      simp [hne, Entity.tag, addTags]

/-- Tags for an object that is there: it keeps its place, and every other object is as it was. -/
theorem tagged (h : Follows settings ss r) {s : List Char} {id : String} {old : Entity}
    {tags : List String} (hg : Table.get? id r.objects = some old)
    (hnone : declared? settings s = none)
    (ht : ∀ other, tagsFor other s = if id = other then tags else []) :
    Follows settings (ss ++ [s])
      { r with objects := Table.put old.id (old.tag tags) r.objects } := by
  have hold := (h.objects id old).mp hg
  have hid : old.id = id := standing_id hold
  have hthere : id ∈ Table.names r.objects := by
    refine Decidable.byContradiction fun hn => ?_
    rw [(Table.get?_eq_none_iff id r.objects).mpr hn] at hg
    cases hg
  constructor
  · exact h.sourceType
  · exact h.resetOnCompile
  · show Table.names (Table.put old.id (old.tag tags) r.objects) = _
    rw [Table.names_put, declaredIds_append, hnone, hid, if_pos hthere, h.names]
  · intro other e
    show Table.get? other (Table.put old.id (old.tag tags) r.objects) = some e ↔ _
    rw [Table.get?_put, standing_append, hnone, hid, ht other]
    by_cases ho : other = id
    · subst ho
      rw [if_pos rfl, if_pos rfl]
      constructor
      · intro he
        exact Or.inr ⟨by simp, old, hold, (Option.some.inj he).symm⟩
      · rintro (hc | ⟨-, old', hold', rfl⟩)
        · cases hc
        · have hsame := (h.objects other old').mpr hold'
          rw [hg] at hsame
          rw [Option.some.inj hsame]
    · have hne : ¬ id = other := fun he => ho he.symm
      rw [if_neg ho, if_neg hne, h.objects other e]
      simp [Entity.tag, addTags]

/-- What one statement does, by what it says. -/
theorem step (h : Follows settings ss r) (s : List Char) :
    Follows settings (ss ++ [s]) (r.follow s) := by
  unfold Registry.follow Registry.effect
  cases hp : Declaration.parse s with
  | debug on =>
    exact h.keep (by simp [declared?, hp]) (by simp [tagsFor, hp]) rfl rfl rfl
  | malformed problem =>
    exact h.keep (by simp [declared?, hp]) (by simp [tagsFor, hp]) rfl rfl rfl
  | define id expr =>
    have hdef : define r.settings id expr = define settings id expr :=
      define_congr h.sourceType id expr
    have htags : ∀ other, tagsFor other s = [] := by
      intro other
      simp [tagsFor, hp]
    show Follows settings (ss ++ [s]) ((definitionEffect r.settings id expr).apply r)
    unfold definitionEffect
    rw [hdef]
    cases hd : define settings id expr with
    | error x =>
      -- a definition that fails leaves what its name stood for
      have hnone : declared? settings s = none := by
        simp only [declared?, hp, hd]
        rfl
      dsimp only
      cases problemOf? id x with
      | some problem => exact h.keep hnone (fun other _ _ => htags other) rfl rfl rfl
      | none => exact h.keep hnone (fun other _ _ => htags other) rfl rfl rfl
    | ok made =>
      have hsome : declared? settings s = some (id, made) := by
        simp only [declared?, hp, hd]
        rfl
      exact h.declared hsome htags
  | tag id tags =>
    have hnone : declared? settings s = none := by simp [declared?, hp]
    have htags : ∀ other, tagsFor other s = if id = other then tags else [] := by
      intro other
      simp [tagsFor, hp]
    show Follows settings (ss ++ [s]) ((taggingEffect r.objects id tags).apply r)
    unfold taggingEffect
    cases hg : Table.get? id r.objects with
    | none =>
      -- no object has the id, so no tag is added to any
      refine h.keep hnone ?_ rfl rfl rfl
      intro other e ho
      have hne : ¬ id = other := by
        rintro rfl
        rw [hg] at ho
        cases ho
      rw [htags other, if_neg hne]
    | some old => exact h.tagged hg hnone htags

/-- A registry that has followed some statements follows more of them when it is led through these. -/
theorem run (new : List (List Char)) : ∀ {ss : List (List Char)} {r : Registry},
    Follows settings ss r → Follows settings (ss ++ new) (new.foldl Registry.follow r) := by
  induction new with
  | nil =>
    intro ss r h
    rw [List.append_nil]
    exact h
  | cons s new ih =>
    intro ss r h
    have hnext := ih (h.step s)
    rwa [List.append_assoc] at hnext

/-- A pass that does not end early adds its statements to the list. -/
theorem compile (h : Follows settings ss r) (hkeep : settings.resetOnCompile.truthy = false)
    {code : List Char} {ds : List Diagnostic} (hok : (r.compile code false).outcome = .ok ds) :
    Follows settings (ss ++ (Statements.ofText code).all) (r.compile code false).registry := by
  have hstart : r.atStart false = r := by
    simp [Registry.atStart, h.resetOnCompile, hkeep]
  cases hs : Pass.stopped? (r.atStart false) (Statements.ofText code).all with
  | some e =>
    rw [Registry.compile_of_stopped hs] at hok
    cases hok
  | none =>
    rw [(Registry.compile_of_complete hs).2, hstart]
    have hrun := h.run (Statements.ofText code).all
    exact ⟨hrun.sourceType, hrun.resetOnCompile, hrun.names, hrun.objects⟩

end Follows

/-! ## Passes one after the other -/

/-- The registry after passes over the texts, if none of them ends early. -/
def Registry.compileAll (r : Registry) : List (List Char) → Option Registry
  | [] => some r
  | code :: texts =>
    let c := r.compile code false
    match c.outcome with
    | .ok _ => c.registry.compileAll texts
    | .error _ => none

/-- The statements of all texts. -/
def allStatements (texts : List (List Char)) : List (List Char) :=
  texts.flatMap fun code => (Statements.ofText code).all

/-- Texts that are compiled to their end lead to a registry that has followed their statements too. -/
theorem Follows.compileAll {settings : Settings} (hkeep : settings.resetOnCompile.truthy = false)
    (texts : List (List Char)) : ∀ {ss : List (List Char)} {r r' : Registry},
    Follows settings ss r → r.compileAll texts = some r' →
      Follows settings (ss ++ allStatements texts) r' := by
  induction texts with
  | nil =>
    intro ss r r' h hr
    cases hr
    rw [allStatements, List.flatMap_nil, List.append_nil]
    exact h
  | cons code texts ih =>
    intro ss r r' h hr
    rw [Registry.compileAll] at hr
    cases hc : (r.compile code false).outcome with
    | error e => simp [hc] at hr
    | ok ds =>
      simp only [hc] at hr
      have hnext := ih (h.compile hkeep hc) hr
      rwa [List.append_assoc] at hnext

/-- **The registry is what the statements declare.**  After passes from an empty registry, none of
    which resets it or ends early: the ids are those of the successful definitions in the order of
    their first ones, the object under each is what its last successful definition makes with the
    tags given to it since, and no statement that leaves a diagnostic changes any object. -/
theorem objects_of_statements (settings : Settings) (texts : List (List Char)) (r : Registry)
    (hkeep : settings.resetOnCompile.truthy = false)
    (hr : (Registry.empty settings).compileAll texts = some r) :
    Table.names r.objects = declaredIds settings (allStatements texts)
      ∧ (∀ id e, Table.get? id r.objects = some e ↔ Standing settings (allStatements texts) id e)
      ∧ ∀ (p : Pass) (s : List Char), (p.step s).1.diagnostics ≠ p.diagnostics →
          (p.step s).1.registry.objects = p.registry.objects := by
  have h := (Follows.empty settings).compileAll hkeep texts hr
  refine ⟨h.names, h.objects, ?_⟩
  intro p s hchanged
  rw [Pass.step_diagnostics] at hchanged
  rw [Pass.step_registry, Registry.follow]
  cases hf : p.registry.effect s with
  | switch on => simp [hf, Effect.problem?] at hchanged
  | put e => simp [hf, Effect.problem?] at hchanged
  | problem q => rfl
  | stop e => rfl

/-- A redeclaration with tags before and behind it, over two passes, the second of which also fails
    to redeclare an object and to tag one that is not there. -/
theorem objects_of_redeclaration :
    let texts := ["let v = 1; let w = 'a'; tag v as api; let v = 2".toList,
      "tag v as x, value; let w = ?; tag u as y".toList]
    Settings.default.resetOnCompile.truthy = false
      ∧ ∃ r, (Registry.empty .default).compileAll texts = some r
        ∧ Table.names r.objects = ["v", "w"]
        ∧ ∃ e, Table.get? "v" r.objects = some e ∧ e.tags = ["value", "x"]
          ∧ Standing .default (allStatements texts) "v" e := by
  intro texts
  have htags : ((Registry.empty .default).compileAll texts).map
      (fun r => (Table.get? "v" r.objects).map Entity.tags) = some (some ["value", "x"]) := by
    decide +kernel
  have hids : declaredIds .default (allStatements texts) = ["v", "w"] := by
    decide +kernel
  obtain ⟨r, hr, hv⟩ := Option.map_eq_some_iff.mp htags
  obtain ⟨e, he, htag⟩ := Option.map_eq_some_iff.mp hv
  have h := objects_of_statements .default texts r rfl hr
  exact ⟨rfl, r, hr, h.1.trans hids, e, he, htag, (h.2.1 "v" e).mp he⟩

end LetTag
