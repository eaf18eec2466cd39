/-
  The shape of what a registry holds.

  Whatever is done to a registry, each object in it is one of three things: a function, a record or a
  literal, with tags that begin with the tag of its form.  `Entity.Shaped` says what that is, and
  `Registry.Shaped` says it of all objects.  Only two statements change objects.  A definition puts in a
  new one, and its shape is read off the form of the expression (`shaped_of_define`); a tagging adds
  tags, and a tagging never spans lines (`isTag_of_tagging`).  So every statement keeps the shape
  (`Registry.Shaped.follow`), every pass does, whether it comes to its end or not, and with them every
  way to go on (`shape_of_reachable`).

  What is called in a function is the function of its source if nothing in the source is outside of
  it; otherwise a line of the body may have put something else under its name
  (`shape_of_reachable_spilled`).
-/
import LetTag.Proofs.Calling
import LetTag.Proofs.Confinement
import LetTag.Proofs.Encoding
import LetTag.Proofs.Recognition
import LetTag.Proofs.Rereading

namespace LetTag

open Script Text

/-! ## Literals -/

namespace Literal

mutual

/-- Is there no set in the literal, at any depth, keys included? -/
def setFree : Literal → Bool
  | scalar _ => true
  | list items | tuple items => listSetFree items
  | dict entries => entriesSetFree entries
  | set _ => false

def listSetFree : List Literal → Bool
  | [] => true
  | x :: xs => x.setFree && listSetFree xs

def entriesSetFree : List (Literal × Literal) → Bool
  | [] => true
  | (k, v) :: es => k.setFree && v.setFree && entriesSetFree es

end

mutual

/-- What a literal writes, one without sets writes too: a set that is left stands under a key that
    comes again, and anything else may stand there. -/
theorem exists_setFree : ∀ {l : Literal} {v : Value}, l.value? = some v →
    ∃ l' : Literal, l'.setFree = true ∧ l'.value? = some v
  | scalar s, _, h => ⟨scalar s, rfl, h⟩
  | list _, _, h => by
    obtain ⟨vs, hvs, rfl⟩ := Option.map_eq_some_iff.mp h
    obtain ⟨ls, hfree, hls⟩ := exists_listSetFree hvs
    exact ⟨list ls, hfree, Option.map_eq_some_iff.mpr ⟨vs, hls, rfl⟩⟩
  | tuple _, _, h => by
    obtain ⟨vs, hvs, rfl⟩ := Option.map_eq_some_iff.mp h
    obtain ⟨ls, hfree, hls⟩ := exists_listSetFree hvs
    exact ⟨tuple ls, hfree, Option.map_eq_some_iff.mpr ⟨vs, hls, rfl⟩⟩
  | dict _, _, h => by
    obtain ⟨es, hes, rfl⟩ := Option.map_eq_some_iff.mp h
    obtain ⟨ls, hfree, hls⟩ := exists_entriesSetFree hes
    exact ⟨dict ls, hfree, Option.map_eq_some_iff.mpr ⟨es, hls, rfl⟩⟩
  | set _, _, h => nomatch h

theorem exists_listSetFree : ∀ {ls : List Literal} {vs : List Value}, values? ls = some vs →
    ∃ ls', listSetFree ls' = true ∧ values? ls' = some vs
  | [], _, h => ⟨[], rfl, h⟩
  | _ :: _, _, h => by
    obtain ⟨v, hv, h⟩ := Option.bind_eq_some_iff.mp h
    obtain ⟨vs, hvs, h⟩ := Option.bind_eq_some_iff.mp h
    obtain ⟨l, hfree, hl⟩ := exists_setFree hv
    obtain ⟨ls, hfrees, hls⟩ := exists_listSetFree hvs
    refine ⟨l :: ls, Bool.and_eq_true_iff.mpr ⟨hfree, hfrees⟩, ?_⟩
    exact Option.bind_eq_some_iff.mpr ⟨v, hl, Option.bind_eq_some_iff.mpr ⟨vs, hls, h⟩⟩

theorem exists_entriesSetFree : ∀ {ls : List (Literal × Literal)} {es : List (Value × Value)},
    entryValues? ls = some es → ∃ ls', entriesSetFree ls' = true ∧ entryValues? ls' = some es
  | [], _, h => ⟨[], rfl, h⟩
  | (_, _) :: _, _, h => by
    obtain ⟨x, hx, h⟩ := Option.bind_eq_some_iff.mp h
    obtain ⟨rest, hrest, h⟩ := Option.bind_eq_some_iff.mp h
    obtain ⟨v, hv, h⟩ := Option.bind_eq_some_iff.mp h
    obtain ⟨k, hk, hkey⟩ := exists_setFree hx
    obtain ⟨ls, hfrees, hls⟩ := exists_entriesSetFree hrest
    obtain ⟨l, hfree, hl⟩ : ∃ l : Literal, l.setFree = true
        ∧ ((rest.find? fun e => x.equal e.1).map Prod.snd).or l.value? = some v := by
      rcases Option.or_eq_some_iff.mp hv with hlater | ⟨hnone, hv⟩
      · exact ⟨scalar .null, rfl, Option.or_eq_some_iff.mpr (Or.inl hlater)⟩
      · obtain ⟨l, hfree, hl⟩ := exists_setFree hv
        exact ⟨l, hfree, Option.or_eq_some_iff.mpr (Or.inr ⟨hnone, hl⟩)⟩
    refine ⟨(k, l) :: ls, ?_, ?_⟩
    · rw [entriesSetFree, hk, hfree, hfrees]
      rfl
    · exact Option.bind_eq_some_iff.mpr ⟨x, hkey, Option.bind_eq_some_iff.mpr ⟨rest, hls,
        Option.bind_eq_some_iff.mpr ⟨v, hl, h⟩⟩⟩

end

end Literal

namespace Value

/-- The value is what a literal without sets writes. -/
def IsWritten (v : Value) : Prop :=
  ∃ l : Literal, l.setFree = true ∧ l.value? = some v

/-- What an expression evaluates to is written by a literal without sets. -/
theorem isWritten_of_evaluate {expr : List Char} {v : Value} (h : evaluate expr = .ok v) :
    v.IsWritten := by
  obtain ⟨l, hl⟩ := exists_of_evaluate h
  exact Literal.exists_setFree hl

/-- The values in a mapping are literals if the mapping is one. -/
theorem IsWritten.entries {es : List (Value × Value)} (h : (dict es).IsWritten) :
    ∀ e ∈ es, e.2.IsWritten := by
  obtain ⟨l, -, hl⟩ := h
  have hvalues : ∀ {ls : List (Literal × Literal)} {es : List (Value × Value)},
      Literal.entryValues? ls = some es → ∀ e ∈ es, e.2.IsWritten := by
    intro ls
    induction ls with
    | nil =>
      intro es h
      cases h
      exact fun _ he => absurd he List.not_mem_nil
    | cons l ls ih =>
      intro es h
      obtain ⟨_, -, h⟩ := Option.bind_eq_some_iff.mp h
      obtain ⟨rest, hrest, h⟩ := Option.bind_eq_some_iff.mp h
      obtain ⟨v, hv, h⟩ := Option.bind_eq_some_iff.mp h
      cases h
      refine List.forall_mem_cons.mpr ⟨?_, ih hrest⟩
      rcases Option.or_eq_some_iff.mp hv with hlater | ⟨-, hv⟩
      · obtain ⟨e, hfind, rfl⟩ := Option.map_eq_some_iff.mp hlater
        exact ih hrest e (List.mem_of_find?_eq_some hfind)
      · exact Literal.exists_setFree hv
  cases l with
  | dict ls =>
    obtain ⟨vs, hvs, he⟩ := Option.map_eq_some_iff.mp hl
    obtain rfl : ofEntries vs = es := Value.dict.inj he
    exact forall_ofEntries (hvalues hvs)
  | scalar s => cases hl
  | list ls =>
    obtain ⟨_, -, he⟩ := Option.map_eq_some_iff.mp hl
    cases he
  | tuple ls =>
    obtain ⟨_, -, he⟩ := Option.map_eq_some_iff.mp hl
    cases he
  | set ls => cases hl

/-! ## Fields -/

/-- A variable with that type tag, which holds a literal that is no mapping, or a record of its own
    name, without tags, whose fields are such variables. -/
inductive IsField (type : Value) : Value → Prop
  | literal (name : String) {v : Value} : v.IsWritten → (∀ es, v ≠ dict es) →
    IsField type (var (text name) v type)
  | record (name : String) {fields : List Value} : (∀ v ∈ fields, IsField type v) →
    IsField type
      (var (text name) (object name recordType null [] [(fieldKind, fields)] (texts [])) type)

mutual

/-- A literal is bound as a field. -/
theorem isField_bound (type : Value) (name : String) : ∀ {v : Value}, v.IsWritten →
    IsField type (var (text name) (bound type name v) type)
  | dict _, h => .record name (isField_boundFields type h.entries)
  | scalar _, h => .literal name h nofun
  | list _, h => .literal name h nofun
  | tuple _, h => .literal name h nofun
  | var .., h => .literal name h nofun
  | object .., h => .literal name h nofun
  | record .., h => .literal name h nofun
  | ref _, h => .literal name h nofun

/-- The entries of a mapping are bound as fields. -/
theorem isField_boundFields (type : Value) : ∀ {es : List (Value × Value)},
    (∀ e ∈ es, e.2.IsWritten) → ∀ v ∈ boundFields type es, IsField type v
  | [], _ => fun _ hv => absurd hv List.not_mem_nil
  | (k, _) :: _, h => by
    obtain ⟨hv, hes⟩ := List.forall_mem_cons.mp h
    exact List.forall_mem_cons.mpr ⟨isField_bound type k.nameText hv, isField_boundFields type hes⟩

end

end Value

/-! ## Functions -/

/-- The closure that a definition makes: its parameters are names, no two of them equal, and the
    function of its source has them, marked, in their order.  This function is called unless something
    outside of it takes its name; and nothing is outside of it if the source keeps its lines inside. -/
structure Closure.Shaped (c : Closure) : Prop where
  distinct : c.parameters.Nodup
  names : ∀ p ∈ c.parameters, Arrow.isParameter p.toList = true
  marked : c.program.function.parameters
    = c.parameters.map (String.ofList Arrow.parameterMark ++ ·)
  called : ∀ globals, Table.get? (String.ofList Arrow.functionName) globals = none →
    c.TakesDeclared globals
  alone : ∀ source, c.source = some source → staysInside source.toList = true →
    ∀ s, c.globals s = ([], s)

/-- **A compiled definition is a closure of its shape.** -/
theorem Closure.shaped_of_compile {name : String} {expr : List Char} {c : Closure}
    (h : Closure.compile name expr = .ok c) : c.Shaped := by
  obtain ⟨a, ha, hparameters, hprogram, hsource⟩ := Closure.of_compile h
  obtain ⟨_, _, -, -, -, hnames, -, hsourceOf⟩ := Arrow.parts_of_ofText ha
  have hread := hsourceOf ▸ hprogram
  obtain ⟨hname, hmarked, -⟩ := program_of_sourceOf hnames hread
  have hmap : c.program.function.parameters
      = c.parameters.map (String.ofList Arrow.parameterMark ++ ·) := by
    rw [hmarked, hparameters, List.map_map]
    exact List.map_congr_left fun _ _ => String.ofList_append
  obtain ⟨hdistinct, hnamed⟩ := Closure.names_of_compile h
  refine ⟨hdistinct, hnamed, hmap, fun globals hglobals => ?_, ?_⟩
  · have hlength : c.program.function.parameters.length = c.parameters.length := by
      rw [hmap, List.length_map]
    exact Closure.takesDeclared hname hlength (hname ▸ hglobals)
  · intro source hs hinside
    obtain rfl : String.ofList a.source = source := Option.some.inj (hsource.symm.trans hs)
    rw [String.toList_ofList, hsourceOf] at hinside
    intro s
    show ((c.program.start.run s).1.toOption.getD [], (c.program.start.run s).2) = _
    rw [c.program.start_of_trailing (trailing_of_staysInside hnames hread hinside)]
    rfl

/-! ## Tags -/

/-- What a list of tags can name: not empty, without blanks at its ends, on one line, without
    commas. -/
structure IsTag (t : String) : Prop where
  nonempty : t ≠ ""
  trimmed : trim t.toList = t.toList
  line : ∀ c ∈ t.toList, isBreak c = false
  single : ',' ∉ t.toList

/-- The tags of a list on one line. -/
theorem isTag_of_mem_tagList {s : List Char} (hs : ∀ c ∈ s, isBreak c = false) :
    ∀ t ∈ Declaration.tagList s, IsTag t := by
  intro t ht
  obtain ⟨u, hu, rfl⟩ := List.mem_map.mp ht
  obtain ⟨hu, hne⟩ := List.mem_filter.mp hu
  obtain ⟨piece, hpiece, rfl⟩ := List.mem_map.mp hu
  have hin : ∀ c ∈ trim piece, c ∈ piece := fun c hc => mem_of_mem_trim hc
  refine ⟨?_, ?_, ?_, ?_⟩
  · intro hempty
    rw [String.ofList_eq_empty_iff.mp hempty] at hne
    cases hne
  · rw [String.toList_ofList]
    exact trim_trim piece
  · rw [String.toList_ofList]
    exact fun c hc => hs c (mem_of_mem_cut s piece hpiece c (hin c hc))
  · rw [String.toList_ofList]
    exact fun hc => notMem_cut s piece hpiece (hin _ hc)

/-- Where nothing is declared, no brace opens. -/
theorem Scan.along_undeclared (q : Quoting) (s : List Char) :
    (Scan.along false ⟨q, 0⟩ s).depth = 0 := by
  induction s generalizing q with
  | nil => rfl
  | cons c s ih =>
    have hdepth : (Scan.next false ⟨q, 0⟩ c).depth = 0 := by
      simp [Scan.next]
    have hnext : Scan.next false ⟨q, 0⟩ c = ⟨q.inLine c, 0⟩ :=
      congrArg (Scan.mk (q.inLine c)) hdepth
    show (Scan.along false (Scan.next false ⟨q, 0⟩ c) s).depth = 0
    rw [hnext]
    exact ih (q.inLine c)

/-- A statement that is no declaration is one line. -/
theorem Alone.line {s : List Char} {depth : Nat} (h : Alone s depth)
    (hs : startsDeclaration s = false) : ∀ c ∈ s, isBreak c = false := by
  intro c hc
  refine Bool.eq_false_iff.mpr fun hbreak => ?_
  obtain rfl := h.feeds c hc hbreak
  obtain ⟨before, after, hsplit⟩ := List.append_of_mem hc
  have hpos := h.statement.inner before '\n' after hsplit (Or.inl rfl)
  rw [hs, Scan.along_undeclared] at hpos
  exact absurd hpos (Nat.lt_irrefl 0)

/-- **What a tagging names are tags**: it is no declaration, so it is one line. -/
theorem isTag_of_tagging {s : List Char} {depth : Nat} (hs : Alone s depth) {id : String}
    {tags : List String} (h : Declaration.parse s = .tag id tags) : ∀ t ∈ tags, IsTag t := by
  have hform := Declaration.hasForm_parse s
  rw [h] at hform
  obtain ⟨_, list, -, rfl, gap, before, behind, -, -, -, -, -, -, rfl⟩ := hform
  have hline := hs.line rfl
  exact isTag_of_mem_tagList fun c hc => hline c (by simp [hc])

/-! ## Objects -/

namespace Entity

/-- A function: one operation, `execute`, and nothing else. -/
structure IsFunction (e : Entity) : Prop where
  typed : e.type = "function"
  value : e.value = .null
  methods : ∃ c, e.methods = [(executeName, .closure c)] ∧ c.Shaped
  relations : e.relations = []

/-- A record: its fields, which are variables with the given type tag, and nothing else. -/
structure IsRecord (type : Value) (e : Entity) : Prop where
  typed : e.type = recordType
  value : e.value = .null
  methods : e.methods = []
  relations : ∃ fields, e.relations = [(Value.fieldKind, fields)]
    ∧ ∀ v ∈ fields, Value.IsField type v

/-- A literal, and nothing else. -/
structure IsConstant (e : Entity) : Prop where
  typed : e.type = "value"
  value : e.value.IsWritten
  methods : e.methods = []
  relations : e.relations = []

/-- One of the three, with tags of which the first is that of its form and none comes twice. -/
structure Shaped (type : Value) (e : Entity) : Prop where
  form : e.IsFunction ∨ e.IsRecord type ∨ e.IsConstant
  first : e.tags.head? = some (formTag e.type)
  distinct : e.tags.Nodup
  tags : ∀ t ∈ e.tags, IsTag t

end Entity

theorem isTag_formTag (type : String) : IsTag (formTag type) := by
  have htags : ∀ t ∈ ["callable", "object", "value"], IsTag t := by
    intro t ht
    simp only [List.mem_cons, List.not_mem_nil, or_false] at ht
    rcases ht with rfl | rfl | rfl
    all_goals exact ⟨by decide, by decide, by decide, by decide⟩
  unfold formTag
  split
  · exact htags _ (by decide)
  · split
    · exact htags _ (by decide)
    · exact htags _ (by decide)

/-- **A definition makes an object of its form.** -/
theorem shaped_of_define {settings : Settings} {id : String} {expr : List Char} {e : Entity}
    (h : define settings id expr = .ok e) : e.id = id ∧ e.Shaped settings.sourceType := by
  obtain ⟨hid, htags⟩ := define_ok h
  have hform : e.IsFunction ∨ e.IsRecord settings.sourceType ∨ e.IsConstant := by
    unfold define at h
    split at h
    · obtain ⟨c, hc, h⟩ := exists_of_bind h
      cases h
      exact .inl ⟨rfl, rfl, ⟨c, rfl, Closure.shaped_of_compile hc⟩, rfl⟩
    · split at h
      · split at h
        · rename_i fields hfields
          rw [Entity.build] at h
          split at h
          · cases h
            have hliterals := forall_readFields Value.isWritten_of_evaluate hfields
            exact .inr (.inl ⟨rfl, rfl, rfl, ⟨_, rfl, Value.isField_boundFields _ hliterals⟩⟩)
          · cases h
        · cases h
      · split at h
        · rename_i v hv
          cases h
          exact .inr (.inr ⟨rfl, Value.isWritten_of_evaluate hv, rfl, rfl⟩)
        · cases h
  refine ⟨hid, hform, ?_, ?_, ?_⟩
  · rw [htags]
    rfl
  · rw [htags]
    exact nodup_snoc List.nodup_nil List.not_mem_nil
  · rw [htags]
    intro t ht
    rw [List.mem_singleton.mp ht]
    exact isTag_formTag e.type

/-- More tags leave the form as it is. -/
theorem Entity.Shaped.tag {type : Value} {e : Entity} (h : e.Shaped type) {new : List String}
    (hnew : ∀ t ∈ new, IsTag t) : (e.tag new).Shaped type := by
  obtain ⟨hbegins, hnodup, hmem⟩ := addTags_spec new e.tags
  refine ⟨?_, ?_, hnodup h.distinct, fun t ht => ?_⟩
  · rcases h.form with hf | hr | hc
    · exact .inl ⟨hf.typed, hf.value, hf.methods, hf.relations⟩
    · exact .inr (.inl ⟨hr.typed, hr.value, hr.methods, hr.relations⟩)
    · exact .inr (.inr ⟨hc.typed, hc.value, hc.methods, hc.relations⟩)
  · obtain ⟨more, hmore⟩ := hbegins
    show (addTags e.tags new).head? = some (formTag e.type)
    rw [← hmore, List.head?_append, h.first]
    rfl
  · rcases hmem t ht with hold | hadded
    · exact h.tags t hold
    · exact hnew t hadded

/-! ## Registries -/

namespace Registry

/-- Every object has its id for its name, no name comes twice, and every object has its shape.  The
    type tag is the one that the settings give to variables. -/
structure Shaped (type : Value) (r : Registry) : Prop where
  sourceType : r.settings.sourceType = type
  names : (Table.names r.objects).Nodup
  objects : ∀ id e, (id, e) ∈ r.objects → e.id = id ∧ e.Shaped type

namespace Shaped

variable {type : Value} {r : Registry}

/-- A registry without objects. -/
theorem of_empty (hsource : r.settings.sourceType = type) (hobjects : r.objects = []) :
    r.Shaped type where
  sourceType := hsource
  names := by
    rw [hobjects]
    exact List.nodup_nil
  objects := by
    rw [hobjects]
    exact fun _ _ h => absurd h List.not_mem_nil

/-- An object of its shape may take a place in the registry. -/
theorem put (h : r.Shaped type) {e : Entity} (he : e.Shaped type) :
    ((Effect.put e).apply r).Shaped type where
  sourceType := h.sourceType
  names := Table.nodup_names_put e.id e h.names
  objects := by
    intro id x hx
    rcases Table.mem_put hx with ⟨rfl, rfl⟩ | hx
    · exact ⟨rfl, he⟩
    · exact h.objects id x hx

/-- **A statement keeps the shape.** -/
theorem follow (h : r.Shaped type) {s : List Char} {depth : Nat} (hs : Alone s depth) :
    (r.follow s).Shaped type := by
  unfold Registry.follow effect
  cases hparse : Declaration.parse s with
  | debug on => exact ⟨h.sourceType, h.names, h.objects⟩
  | malformed p => exact h
  | define id expr =>
    dsimp only
    unfold definitionEffect
    cases hdefine : define r.settings id expr with
    | ok e =>
      have he := (shaped_of_define hdefine).2
      rw [h.sourceType] at he
      exact h.put he
    | error x =>
      dsimp only
      cases problemOf? id x with
      | some p => exact h
      | none => exact h
  | tag id tags =>
    dsimp only
    unfold taggingEffect
    cases hget : Table.get? id r.objects with
    | some e =>
      have hmem := Table.mem_of_get? hget
      exact h.put ((h.objects id e hmem).2.tag (isTag_of_tagging hs hparse))
    | none => exact h

end Shaped

/-- The registries that there can be: whatever is compiled, to its end or not, and however they are
    emptied and tracing is switched.  A request leads to no other registry, since it has none among
    its results. -/
inductive Reachable (settings : Settings) : Registry → Prop
  | empty : Reachable settings (Registry.empty settings)
  | compile {r : Registry} (code : List Char) (reset : Bool) : Reachable settings r →
    Reachable settings (r.compile code reset).registry
  | reset {r : Registry} : Reachable settings r → Reachable settings r.reset
  | switch {r : Registry} (on : Bool) : Reachable settings r →
    Reachable settings (r.switchTracing on).1

/-- A statement of a text is read again as one statement. -/
theorem alone_of_mem {code s : List Char} (h : s ∈ (Statements.ofText code).all) :
    ∃ depth, Alone s depth := by
  obtain ⟨closed, hclosed, hcode⟩ := Statements.alone_of_ofText code
  rcases hcode with hcode | ⟨last, depth, hlast, -, hcode⟩
  · rw [hcode] at h
    exact ⟨0, hclosed s h⟩
  · rw [hcode] at h
    rcases List.mem_append.mp h with h | h
    · exact ⟨0, hclosed s h⟩
    · rw [List.mem_singleton.mp h]
      exact ⟨depth, hlast⟩

/-- **Every registry that there can be has its shape.** -/
theorem shape_of_reachable {settings : Settings} {r : Registry} (h : r.Reachable settings) :
    r.Shaped settings.sourceType := by
  induction h with
  | empty => exact .of_empty rfl rfl
  | @compile r code reset _ ih =>
    have hstart : (r.atStart reset).Shaped settings.sourceType := by
      unfold atStart
      split
      · exact .of_empty ih.sourceType rfl
      · exact ih
    refine compile_keeps (fun r ds hr => ⟨hr.sourceType, hr.names, hr.objects⟩) ?_ hstart
    intro s hs r hr
    obtain ⟨depth, halone⟩ := alone_of_mem hs
    exact hr.follow halone
  | reset _ ih => exact .of_empty ih.sourceType rfl
  | @switch r on _ ih =>
    cases on with
    | false => exact ⟨ih.sourceType, ih.names, ih.objects⟩
    | true => exact ⟨ih.sourceType, ih.names, ih.objects⟩

/-- An object of each form, tags, and a pass that ends early. -/
theorem shape_of_reachable_three :
    let first := (empty .default).compile
      "let f = (a, b) => a + b; let p = object(x: 1, y: \x7b'z': [2]\x7d); let v = (1, 2)".toList false
    let second := first.registry.compile
      ("tag f as api, path:/f\ndebug on; let z = () => 1 # \x7b\nraise ValueError('z') # \x7d;"
        ++ " let w = 3").toList false
    second.outcome.toOption.isSome = false ∧ Table.names second.registry.objects = ["f", "p", "v"]
      ∧ (Table.get? "f" second.registry.objects).map Entity.tags = some ["callable", "api", "path:/f"]
      ∧ second.registry.Shaped (.text "mixed") := by
  intro first second
  have hrun : second.outcome.toOption.isSome = false
      ∧ Table.names second.registry.objects = ["f", "p", "v"]
      ∧ (Table.get? "f" second.registry.objects).map Entity.tags
        = some ["callable", "api", "path:/f"] := by
    decide +kernel
  have hreachable : second.registry.Reachable .default :=
    .compile _ false (.compile _ false .empty)
  exact ⟨hrun.1, hrun.2.1, hrun.2.2, shape_of_reachable hreachable⟩

/-- A body with a line that gives the name of the function to something else: the object is a function
    of one parameter, and what it calls is no function. -/
theorem shape_of_reachable_spilled :
    let c := (empty .default).compile "let f = (x) => x # \x7b\n__metadsl_fn__ = 5 # \x7d".toList false
    c.registry.Reachable .default ∧ ∃ e, Table.get? "f" c.registry.objects = some e
      ∧ e.type = "function" ∧ e.parameters = ["x"]
      ∧ e.call executeName [.int 1]
        = .error (.invocation "f" executeName .type "'int' object is not callable") := by
  intro c
  have hrun : (Table.get? "f" c.registry.objects).map (fun e => (e.type, e.parameters,
      match e.call executeName [.int 1] with
      | .error x => some x
      | .ok _ => none))
        = some ("function", ["x"],
          some (.invocation "f" executeName .type "'int' object is not callable")) := by
    decide +kernel
  obtain ⟨e, he, hfound⟩ := Option.map_eq_some_iff.mp hrun
  obtain ⟨htype, hfound⟩ := Prod.mk.inj hfound
  obtain ⟨hparameters, herror⟩ := Prod.mk.inj hfound
  refine ⟨.compile _ false .empty, e, he, htype, hparameters, ?_⟩
  split at herror
  · rename_i x hx
    rw [hx, Option.some.inj herror]
  · cases herror

end Registry
end LetTag
