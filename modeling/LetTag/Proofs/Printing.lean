/-
  Programs that are printed come back.

  A program is printed declaration by declaration, values as they are shown and records as the
  arguments of `object`.  The text of a declaration has nothing open at its end (`Printed.isPrinted`),
  so the statements are the declarations (`Statements.ofText_join`); each says what was printed
  (`Printed.parse_text`), and what it defines is the object that was meant (`Printed.define_expr`).
  As no id comes twice, the objects of the registry are those of the declarations in their order,
  which is an induction on the declarations (`Printed.follow_all`).

  That a single literal reads back is not proved here: it is asked for of each value that is printed.
-/
import LetTag.Proofs.Recognition
import LetTag.Proofs.Reconstruction
import LetTag.Proofs.Table
import LetTag.Proofs.Written

namespace LetTag

open Text

/-! ## Declarations to be printed -/

/-- A name as `let` reads one: word characters, and at least one. -/
def IsIdentifier (name : String) : Prop :=
  name.toList ≠ [] ∧ ∀ c ∈ name.toList, isWord c = true

/-- A field of a record, whose name is printed bare or in quotes. -/
structure PrintedField where
  name : String
  bare : Bool
  value : Value

/-- A declaration of a value or of a record. -/
inductive Printed where
  | value (id : String) (v : Value)
  | record (id : String) (fields : List PrintedField)

namespace PrintedField

/-- The name as it is printed. -/
def key (f : PrintedField) : List Char :=
  if f.bare then f.name.toList else (Value.text f.name).shown

/-- The field as it is printed. -/
def text (f : PrintedField) : List Char :=
  join [':', ' '] [f.key, f.value.shown]

/-- The values that are printed for the field: its own, and its name if that is in quotes. -/
def literals (f : PrintedField) : List Value :=
  if f.bare then [f.value] else [.text f.name, f.value]

/-- Can the field be printed?  A bare name is an identifier, and what it leads to is a literal in
    which all mappings have names. -/
def Valid (f : PrintedField) : Prop :=
  (f.bare = true → IsIdentifier f.name) ∧ f.value.IsLiteral ∧ f.value.IsContent

end PrintedField

/-- The entries that fields stand for. -/
def fieldEntries (fields : List PrintedField) : List (Value × Value) :=
  fields.map fun f => (.text f.name, f.value)

namespace Printed

/-- The id that is declared. -/
def id : Printed → String
  | value id _ => id
  | record id _ => id

/-- The expression that is printed. -/
def expr : Printed → List Char
  | value _ v => v.shown
  | record _ fields =>
    "object".toList ++ '(' :: (join [',', ' '] (fields.map PrintedField.text) ++ [')'])

/-- The declaration as it is printed. -/
def text (d : Printed) : List Char :=
  "let ".toList ++ (d.id.toList ++ (" = ".toList ++ d.expr))

/-- The values that are printed for the declaration. -/
def literals : Printed → List Value
  | value _ v => [v]
  | record _ fields => fields.flatMap PrintedField.literals

/-- Can the declaration be printed? -/
def Valid : Printed → Prop
  | value id v => IsIdentifier id ∧ v.IsLiteral
  | record id fields => IsIdentifier id ∧ (fields.map PrintedField.name).Nodup
    ∧ ∀ f ∈ fields, f.Valid

/-- The object that is meant; `type` is the type of the variables of a record. -/
def entity (type : Value) : Printed → Entity
  | value id v => ⟨id, "value", v, [], [], ["value"]⟩
  | record id fields => (Entity.ofMapping id (fieldEntries fields) type).tag ["object"]

/-- The object has the id that is declared. -/
theorem id_entity (d : Printed) (type : Value) : (d.entity type).id = d.id := by
  cases d with
  | value id v => rfl
  | record id fields => rfl

theorem Valid.identifier {d : Printed} (h : d.Valid) : IsIdentifier d.id := by
  cases d with
  | value id v => exact h.1
  | record id fields => exact h.1

end Printed

/-! ## What a declaration says -/

/-- A declaration is read as its id and its expression. -/
theorem Declaration.parse_let {id : String} (hid : IsIdentifier id) {expr : List Char}
    (hne : expr ≠ []) (htrim : trim expr = expr) :
    Declaration.parse ('l' :: 'e' :: 't' :: ' ' :: (id.toList ++ ' ' :: '=' :: ' ' :: expr))
      = .define id expr := by
  have hdefinition : Declaration.IsDefinition
      ("let ".toList ++ (id.toList ++ (" = ".toList ++ expr))) id.toList (trim expr) :=
    Declaration.isDefinition_let hid (by rwa [htrim])
  have hparse := Declaration.parse_of_definition hdefinition
  rwa [htrim, String.ofList_toList] at hparse

/-! ## What a declaration defines -/

/-- Only what begins as a call of `object` is one. -/
theorem recordArguments?_eq_none {w : List Char} (h : w.head? ≠ some 'o') :
    recordArguments? w = none := by
  have hprefix : "object".toList.isPrefixOf w = false := by
    cases w with
    | nil => rfl
    | cons c w =>
      refine Bool.eq_false_iff.mpr fun hp => h ?_
      have hc : ('o' == c) = true := (Bool.and_eq_true_iff.mp hp).1
      rw [← eq_of_beq hc]
      rfl
  rw [recordArguments?, Declaration.behindWord?, hprefix]
  rfl

/-- What stands between the brackets of `object` are its arguments. -/
theorem recordArguments?_object (args : List Char) :
    recordArguments? ("object".toList ++ '(' :: (args ++ [')'])) = some args := by
  have hobject : Declaration.behindWord? "object".toList ("object".toList ++ '(' :: (args ++ [')']))
      = some ('(' :: (args ++ [')'])) := rfl
  have hopen : trimLeft ('(' :: (args ++ [')'])) = '(' :: (args ++ [')']) :=
    trimLeft_of_head (by decide)
  rw [recordArguments?, hobject]
  simp only [Option.bind_eq_bind, Option.bind_some, hopen]
  rw [if_pos List.getLast?_concat, List.dropLast_concat]

/-- A shown value defines an object of type `value`. -/
theorem define_value (settings : Settings) (id : String) {v : Value} (hv : v.IsLiteral)
    (hread : evaluate v.shown = .ok v) :
    define settings id v.shown = .ok ⟨id, "value", v, [], [], ["value"]⟩ := by
  have harrow := (Value.isShown hv).nested.no_arrow
  rw [define, harrow, if_neg Bool.false_ne_true, recordArguments?_eq_none (Value.shown_head hv)]
  dsimp only
  rw [hread]

/-! ## Fields -/

namespace PrintedField

variable {f : PrintedField}

/-- The key of a field is printed so that it can be read. -/
theorem isShown_key (h : f.Valid) : IsShown f.key := by
  unfold key
  split
  · rename_i hbare
    obtain ⟨hne, hword⟩ := h.1 hbare
    exact isShown_of_plain hne fun c hc => isWord_plain (hword c hc)
  · exact isShown_quoted f.name.toList

/-- A field is printed as its key, a colon and its value. -/
theorem text_eq (f : PrintedField) : f.text = f.key ++ ([':', ' '] ++ f.value.shown) := by
  rw [text, join_cons_cons, join_singleton]

/-- The text of a field has no comma at top level, and no blanks at its ends. -/
theorem text_piece (h : f.Valid) : Nested [','] f.text ∧ f.text ≠ [] ∧ trim f.text = f.text := by
  have hkey := isShown_key h
  have hvalue := Value.isShown h.2.1
  have hsub : ∀ c ∈ [','], c ∈ separators := by decide
  refine ⟨?_, ?_, ?_⟩
  · refine Nested.join (by decide) ?_
    exact List.forall_mem_cons.mpr ⟨hkey.nested.mono hsub,
      List.forall_mem_singleton.mpr (hvalue.nested.mono hsub)⟩
  · rw [text_eq]
    exact List.append_ne_nil_of_left_ne_nil hkey.nonempty _
  · rw [text_eq]
    refine trim_of_ends (fun c hc => ?_) fun c hc => ?_
    · obtain ⟨d, rest, hd⟩ := List.exists_cons_of_ne_nil hkey.nonempty
      rw [hd] at hc
      exact hkey.first c (by rw [hd]; exact hc)
    · have hd := List.getLast?_eq_some_getLast hvalue.nonempty
      rw [← List.append_assoc, List.getLast?_append, hd, Option.some_or] at hc
      exact hvalue.last c (hd.trans hc)

/-- A key is a name on its own or in quotes. -/
theorem key_class (h : f.Valid) : f.key.head?.any Quoting.isQuote = !f.bare := by
  unfold key
  cases hbare : f.bare with
  | true =>
    obtain ⟨hne, hword⟩ := h.1 hbare
    obtain ⟨c, rest, hc⟩ := List.exists_cons_of_ne_nil hne
    rw [if_pos rfl, hc]
    exact (isPlain_class (isWord_plain (hword c (by rw [hc]; exact List.mem_cons_self))).1.1).1
  | false =>
    exact isQuote_quoteFor f.name.toList

/-- A field is read back, behind the fields that are there. -/
theorem readField_text (h : f.Valid) (hread : ∀ v ∈ f.literals, evaluate v.shown = .ok v)
    {fields : List (Value × Value)} (hnew : ∀ e ∈ fields, e.1.equal (.text f.name) = false) :
    readField fields f.text = .ok (fields ++ [(.text f.name, f.value)]) := by
  have hkey := isShown_key h
  have hvalue := Value.isShown h.2.1
  have hsub : ∀ c ∈ [':'], c ∈ separators := by decide
  have hparts : topLevelParts ':' f.text = [f.key, f.value.shown] := by
    refine topLevelParts_join (Or.inr rfl) ?_
    refine List.forall_mem_cons.mpr ⟨⟨hkey.nested.mono hsub, hkey.nonempty, hkey.trim_eq⟩, ?_⟩
    exact List.forall_mem_singleton.mpr ⟨hvalue.nested.mono hsub, hvalue.nonempty, hvalue.trim_eq⟩
  have hread' : evaluate f.value.shown = .ok f.value := by
    refine hread f.value ?_
    unfold literals
    split
    · exact List.mem_cons_self
    · exact List.mem_cons_of_mem _ List.mem_cons_self
  rw [readField, hparts]
  dsimp only
  rw [key_class h, hread']
  unfold literals at hread
  unfold key
  cases hbare : f.bare with
  | true =>
    show Except.ok (Value.put (.text (String.ofList f.name.toList)) f.value fields) = _
    rw [String.ofList_toList, Value.put_of_new hnew]
  | false =>
    rw [hbare] at hread
    have hname : evaluate (Value.text f.name).shown = .ok (.text f.name) :=
      hread _ List.mem_cons_self
    rw [if_neg Bool.false_ne_true, hname]
    show Except.ok (Value.put (.text f.name) f.value fields) = _
    rw [Value.put_of_new hnew]

end PrintedField

/-- All fields are read back. -/
theorem foldlM_readField {fields : List PrintedField} (h : ∀ f ∈ fields, f.Valid)
    (hread : ∀ f ∈ fields, ∀ v ∈ f.literals, evaluate v.shown = .ok v)
    (hnames : (fields.map PrintedField.name).Nodup) : ∀ before : List (Value × Value),
    (∀ e ∈ before, ∀ f ∈ fields, e.1.equal (.text f.name) = false) →
    (fields.map PrintedField.text).foldlM readField before
      = .ok (before ++ fieldEntries fields) := by
  induction fields with
  | nil =>
    intro before _
    exact congrArg Except.ok (List.append_nil before).symm
  | cons f fields ih =>
    intro before hnew
    obtain ⟨hf, hfields⟩ := List.forall_mem_cons.mp h
    obtain ⟨hreadf, hreads⟩ := List.forall_mem_cons.mp hread
    obtain ⟨hname, hnames⟩ := List.nodup_cons.mp hnames
    have hfirst := PrintedField.readField_text hf hreadf fun e he => hnew e he f List.mem_cons_self
    have hnext : ∀ e ∈ before ++ [(Value.text f.name, f.value)], ∀ g ∈ fields,
        e.1.equal (.text g.name) = false := by
      intro e he g hg
      rcases List.mem_append.mp he with he | he
      · exact hnew e he g (List.mem_cons_of_mem f hg)
      · rw [List.mem_singleton.mp he, Value.equal_text]
        refine beq_false_of_ne fun heq => hname ?_
        rw [heq]
        exact List.mem_map_of_mem hg
    rw [List.map_cons, List.foldlM_cons, hfirst]
    show (fields.map PrintedField.text).foldlM readField (before ++ [(.text f.name, f.value)]) = _
    rw [ih hfields hreads hnames _ hnext, List.append_assoc]
    rfl

/-- The fields of a record are read as they were printed, if their names are distinct. -/
theorem readFields_text {fields : List PrintedField} (h : ∀ f ∈ fields, f.Valid)
    (hread : ∀ f ∈ fields, ∀ v ∈ f.literals, evaluate v.shown = .ok v)
    (hnames : (fields.map PrintedField.name).Nodup) :
    readFields (join [',', ' '] (fields.map PrintedField.text)) = .ok (fieldEntries fields) := by
  have hparts : topLevelParts ',' (join [',', ' '] (fields.map PrintedField.text))
      = fields.map PrintedField.text := by
    refine topLevelParts_join (Or.inl rfl) fun w hw => ?_
    obtain ⟨f, hf, rfl⟩ := List.mem_map.mp hw
    exact PrintedField.text_piece (h f hf)
  rw [readFields, hparts]
  exact foldlM_readField h hread hnames [] fun e he => absurd he List.not_mem_nil

/-- The entries of printed fields are the content of an object. -/
theorem isContent_fieldEntries {fields : List PrintedField} (h : ∀ f ∈ fields, f.Valid)
    (hnames : (fields.map PrintedField.name).Nodup) :
    (Value.dict (fieldEntries fields)).IsContent := by
  refine ⟨⟨fields.map PrintedField.name, hnames, ?_⟩, ?_⟩
  · rw [fieldEntries, List.map_map, List.map_map]
    rfl
  · clear hnames
    induction fields with
    | nil => trivial
    | cons f fields ih =>
      obtain ⟨hf, hfields⟩ := List.forall_mem_cons.mp h
      exact ⟨hf.2.2, ih hfields⟩

namespace Printed

/-- The arguments of a record leave nothing open. -/
theorem nested_arguments {fields : List PrintedField} (h : ∀ f ∈ fields, f.Valid) :
    Nested [] (join [',', ' '] (fields.map PrintedField.text)) := by
  refine Nested.join comma_plain fun w hw => ?_
  obtain ⟨f, hf, rfl⟩ := List.mem_map.mp hw
  exact (PrintedField.text_piece (h f hf)).1.mono fun c hc => absurd hc List.not_mem_nil

/-- What is printed leaves nothing open. -/
theorem nested_expr {d : Printed} (h : d.Valid) : Nested [] d.expr := by
  cases d with
  | value id v => exact (Value.isShown h.2).nested.mono fun c hc => absurd hc List.not_mem_nil
  | record id fields =>
    have hword : Nested [] "object".toList := .of_plain (by decide)
    have hpair : ('(', ')') ∈ bracketPairs := by decide
    exact hword.append (.group hpair (nested_arguments h.2.2) .nil)

/-- The printed expression of a declaration defines the object that is meant. -/
theorem define_expr {d : Printed} (h : d.Valid)
    (hread : ∀ v ∈ d.literals, evaluate v.shown = .ok v) (settings : Settings) :
    define settings d.id d.expr = .ok (d.entity settings.sourceType) := by
  have harrow := (nested_expr h).no_arrow
  cases d with
  | value id v => exact define_value settings id h.2 (hread v (List.mem_singleton_self v))
  | record id fields =>
    obtain ⟨-, hnames, hfields⟩ := h
    have hreads : ∀ f ∈ fields, ∀ v ∈ f.literals, evaluate v.shown = .ok v :=
      fun f hf v hv => hread v (List.mem_flatMap.mpr ⟨f, hf, hv⟩)
    have hcontent := isContent_fieldEntries hfields hnames
    have hargs : recordArguments? (record id fields).expr
        = some (join [',', ' '] (fields.map PrintedField.text)) := recordArguments?_object _
    rw [define, harrow, if_neg Bool.false_ne_true, hargs]
    dsimp only
    rw [readFields_text hfields hreads hnames]
    dsimp only
    rw [Entity.build, if_pos (Value.entriesNameable_of_content hcontent.1 hcontent.2)]
    rfl

/-! ## The statements of a printed program -/

/-- What is printed begins and ends with what is no blank. -/
theorem expr_ends {d : Printed} (h : d.Valid) : d.expr ≠ []
    ∧ (∀ c, d.expr.head? = some c → isBlank c = false)
    ∧ ∀ c, d.expr.getLast? = some c → isBlank c = false := by
  cases d with
  | value id v =>
    have hshown := Value.isShown h.2
    exact ⟨hshown.nonempty, hshown.first, hshown.last⟩
  | record id fields =>
    refine ⟨List.cons_ne_nil _ _, fun c hc => ?_, fun c hc => ?_⟩
    · obtain rfl : 'o' = c := Option.some.inj hc
      decide
    · have hlast : (record id fields).expr.getLast? = some ')' := by
        show ("object".toList ++ '(' :: (join [',', ' '] _ ++ [')'])).getLast? = some ')'
        rw [← List.cons_append, ← List.append_assoc]
        exact List.getLast?_concat
      obtain rfl : ')' = c := Option.some.inj (hlast.symm.trans hc)
      decide

/-- A valid declaration is printed as one statement. -/
theorem isPrinted {d : Printed} (h : d.Valid) : Statements.IsPrinted d.text := by
  obtain ⟨hne, -, hlast⟩ := d.expr_ends h
  have hword : Nested [] d.id.toList := .of_plain fun c hc =>
    ⟨(isWord_plain (h.identifier.2 c hc)).1.1, List.not_mem_nil⟩
  have hequals : Nested [] " = ".toList := .of_plain (by decide)
  refine ⟨_, rfl, hword.append (hequals.append (nested_expr h)), ?_⟩
  refine trim_of_ends (fun c hc => ?_) fun c hc => ?_
  · obtain rfl : 'l' = c := Option.some.inj hc
    decide
  · have hd := List.getLast?_eq_some_getLast hne
    rw [text, ← List.append_assoc, ← List.append_assoc, List.getLast?_append, hd,
      Option.some_or] at hc
    exact hlast c (hd.trans hc)

/-- A printed declaration says what was printed. -/
theorem parse_text {d : Printed} (h : d.Valid) :
    Declaration.parse d.text = .define d.id d.expr := by
  obtain ⟨hne, hfirst, hlast⟩ := d.expr_ends h
  exact Declaration.parse_let h.identifier hne (trim_of_ends hfirst hlast)

/-! ## The registry of a printed program -/

section

variable {ds : List Printed} (hvalid : ∀ d ∈ ds, d.Valid)
  (hread : ∀ d ∈ ds, ∀ v ∈ d.literals, evaluate v.shown = .ok v)
include hvalid hread

/-- Each declaration puts its object into the registry. -/
theorem effect_text (r : Registry) {d : Printed} (hd : d ∈ ds) :
    r.effect d.text = .put (d.entity r.settings.sourceType) := by
  rw [Registry.effect, parse_text (hvalid d hd)]
  dsimp only
  rw [definitionEffect, define_expr (hvalid d hd) (hread d hd)]

/-- The declarations put their objects into the registry, in their order. -/
theorem follow_all : ∀ {r : Registry}, (ds.map id).Nodup →
    (∀ d ∈ ds, d.id ∉ Table.names r.objects) →
    (ds.map text).foldl Registry.follow r
        = { r with objects := r.objects ++ ds.map fun d => (d.id, d.entity r.settings.sourceType) }
      ∧ Pass.stopped? r (ds.map text) = none ∧ Pass.diagnosed r (ds.map text) = [] := by
  induction ds with
  | nil =>
    intro r _ _
    refine ⟨?_, rfl, rfl⟩
    show r = { r with objects := r.objects ++ [] }
    rw [List.append_nil]
  | cons d ds ih =>
    intro r hids hnew
    obtain ⟨hid, hids⟩ := List.nodup_cons.mp hids
    have heffect := effect_text hvalid hread r List.mem_cons_self
    have hfirst : r.follow d.text
        = { r with objects := r.objects ++ [(d.id, d.entity r.settings.sourceType)] } := by
      rw [Registry.follow, heffect]
      show { r with objects := Table.put (d.entity r.settings.sourceType).id _ r.objects } = _
      rw [d.id_entity, Table.put_of_new _ (hnew d List.mem_cons_self)]
    -- the ids that are still to come are new behind the first declaration too
    have hnext : ∀ e ∈ ds, e.id ∉ Table.names (r.follow d.text).objects := by
      intro e he hmem
      rw [hfirst, Table.names, List.map_append] at hmem
      rcases List.mem_append.mp hmem with hmem | hmem
      · exact hnew e (List.mem_cons_of_mem d he) hmem
      · have heq : e.id = d.id := List.mem_singleton.mp hmem
        exact hid (heq ▸ List.mem_map_of_mem he)
    obtain ⟨hrest, hstop, hdiag⟩ := ih (fun e he => hvalid e (List.mem_cons_of_mem d he))
      (fun e he => hread e (List.mem_cons_of_mem d he)) hids hnext
    refine ⟨?_, ?_, ?_⟩
    · rw [List.map_cons, List.foldl_cons, hrest, hfirst]
      dsimp only
      rw [List.append_assoc]
      rfl
    · rw [List.map_cons, Pass.stopped?, heffect, hstop]
      rfl
    · rw [List.map_cons, Pass.diagnosed, heffect, hdiag]
      rfl

end

end Printed

/-! ## Literals that read back -/

/-- Does the text of the value read back as the value? -/
def readsBack (v : Value) : Bool :=
  match evaluate v.shown with
  | .ok w => w.same v
  | .error _ => false

/-- A value that passes the test is read as it was printed. -/
theorem evaluate_of_readsBack {v : Value} (h : readsBack v = true) : evaluate v.shown = .ok v := by
  unfold readsBack at h
  split at h
  · rename_i w hw
    rw [hw, Value.eq_of_same h]
  · cases h

/-! ## Printed programs -/

namespace Printed

/-- What a registry holds for a declaration that was printed: a value with its type and tag, or a
    record whose description gives the fields back. -/
def HeldBy (r : Registry) : Printed → Prop
  | value id v => ∃ e, r.get id = .ok e ∧ e.type = "value" ∧ e.tags = ["value"] ∧ e.value = v
  | record id fields => ∃ e rebuilt, r.get id = .ok e
    ∧ e.type = "abstract-object" ∧ e.tags = ["object"]
    ∧ Value.ofDescription (r.describe id) = .ok (.record id rebuilt)
    ∧ (Value.record id rebuilt).plain = .dict (fieldEntries fields)

/-- A registry that has the object that is meant holds the declaration. -/
theorem heldBy_of_entity {d : Printed} (h : d.Valid) {r : Registry} {type : Value}
    (hobject : Table.get? d.id r.objects = some (d.entity type)) : d.HeldBy r := by
  have hget : r.get d.id = .ok (d.entity type) := by
    rw [Registry.get, hobject]
  have hdescribe : r.describe d.id = (d.entity type).describe := by
    rw [Registry.describe, hobject]
  cases d with
  | value id v => exact ⟨_, hget, rfl, rfl, rfl⟩
  | record id fields =>
    have hne : id ≠ "" := fun he => h.1.1 (by rw [he]; rfl)
    have hcontent := isContent_fieldEntries h.2.2 h.2.1
    obtain ⟨rebuilt, hrebuilt, hmirror⟩ :=
      ofDescription_objectOf hne hcontent (.texts ["object"]) type
    refine ⟨_, rebuilt, hget, rfl, rfl, ?_, ?_⟩
    · exact (congrArg Value.ofDescription hdescribe).trans hrebuilt
    · rw [Value.plain, Value.plainFields_of_mirror hcontent.2 hmirror]

/-- **Printed programs come back.**  Declarations of values and records, each of which can be
    printed and no two with one id, compile without diagnostics when their texts are joined by line
    ends or by semicolons, if the literals in them read back.  The registry then holds the
    declarations, their ids in order, and nothing else. -/
theorem compile_of_printed {sep : Char} (hsep : sep = '\n' ∨ sep = ';') {ds : List Printed}
    (hvalid : ∀ d ∈ ds, d.Valid) (hids : (ds.map id).Nodup)
    (hread : ∀ d ∈ ds, ∀ v ∈ d.literals, evaluate v.shown = .ok v) (settings : Settings)
    (reset : Bool) :
    let c := (Registry.empty settings).compile (join [sep] (ds.map text)) reset
    c.outcome = .ok [] ∧ c.registry.diagnostics = []
      ∧ Table.names c.registry.objects = ds.map id ∧ ∀ d ∈ ds, d.HeldBy c.registry := by
  intro c
  have hstatements : Statements.ofText (join [sep] (ds.map text)) = ⟨ds.map text, none⟩ := by
    refine Statements.ofText_join hsep fun t ht => ?_
    obtain ⟨d, hd, rfl⟩ := List.mem_map.mp ht
    exact isPrinted (hvalid d hd)
  have hstart : (Registry.empty settings).atStart reset = Registry.empty settings := by
    unfold Registry.atStart
    split
    · rfl
    · rfl
  obtain ⟨hfollow, hstop, hdiag⟩ := follow_all hvalid hread (r := Registry.empty settings) hids
    fun d _ => List.not_mem_nil
  have hcomplete : Pass.stopped? ((Registry.empty settings).atStart reset)
      (Statements.ofText (join [sep] (ds.map text))).all = none := by
    rw [hstart, hstatements]
    exact hstop
  obtain ⟨houtcome, hregistry⟩ := Registry.compile_of_complete hcomplete
  rw [Registry.unclosedDiagnostics, hstart, hstatements] at houtcome hregistry
  dsimp only at houtcome hregistry
  rw [hdiag] at houtcome hregistry
  rw [hfollow] at hregistry
  have hobjects : c.registry.objects = ds.map fun d => (d.id, d.entity settings.sourceType) :=
    congrArg Registry.objects hregistry
  have hnames : Table.names c.registry.objects = ds.map id := by
    rw [hobjects, Table.names, List.map_map]
    rfl
  refine ⟨houtcome, congrArg Registry.diagnostics hregistry, hnames, fun d hd => ?_⟩
  have hmem : (d.id, d.entity settings.sourceType) ∈ c.registry.objects := by
    rw [hobjects]
    exact List.mem_map.mpr ⟨d, hd, rfl⟩
  exact heldBy_of_entity (hvalid d hd) (Table.get?_of_mem (hnames.symm ▸ hids) hmem)

/-- Declarations whose texts hold what means something outside of texts. -/
def notes : List Printed :=
  [value "v1" (.tuple [.dict [(.text "it's; =>", .list [.int (-3), .null]), (.int 2, .tuple [])]]),
    value "raw" (.scalar (.bytes [34, 39, 59, 123, 0, 255])),
    record "note" [⟨"title", true, .text "let a = \x7b\n\"'\\"⟩,
      ⟨"k: v, (", false, .dict [(.text "object(", .dict [(.text "", .bool true)])]⟩],
    record "empty" []]

theorem compile_of_notes : (∀ d ∈ notes, d.Valid) ∧ (notes.map id).Nodup
    ∧ (∀ d ∈ notes, ∀ v ∈ d.literals, evaluate v.shown = .ok v)
    ∧ let c := (Registry.empty .default).compile (join [';'] (notes.map text)) false
      c.outcome = .ok [] ∧ c.registry.diagnostics = []
        ∧ Table.names c.registry.objects = ["v1", "raw", "note", "empty"]
        ∧ ∀ d ∈ notes, d.HeldBy c.registry := by
  have hids : (notes.map id).Nodup := by decide
  have hinner : (Value.dict [(.text "", .bool true)]).IsContent :=
    ⟨⟨[""], by decide, rfl⟩, trivial, trivial⟩
  have houter : (Value.dict [(.text "object(", .dict [(.text "", .bool true)])]).IsContent :=
    ⟨⟨["object("], by decide, rfl⟩, hinner, trivial⟩
  have hnote : (record "note" [⟨"title", true, .text "let a = \x7b\n\"'\\"⟩,
      ⟨"k: v, (", false, .dict [(.text "object(", .dict [(.text "", .bool true)])]⟩]).Valid := by
    refine ⟨⟨by decide, by decide⟩, by decide, ?_⟩
    refine List.forall_mem_cons.mpr ⟨⟨fun _ => ⟨by decide, by decide⟩, trivial, trivial⟩, ?_⟩
    refine List.forall_mem_singleton.mpr ⟨fun h => Bool.noConfusion h, ?_, houter⟩
    exact ⟨trivial, ⟨trivial, trivial, trivial⟩, trivial⟩
  have hvalid : ∀ d ∈ notes, d.Valid := by
    refine List.forall_mem_cons.mpr ⟨⟨⟨by decide, by decide⟩, ?_⟩, ?_⟩
    · exact ⟨⟨trivial, ⟨trivial, trivial, trivial⟩, trivial, trivial, trivial⟩, trivial⟩
    refine List.forall_mem_cons.mpr ⟨⟨⟨by decide, by decide⟩, trivial⟩, ?_⟩
    refine List.forall_mem_cons.mpr ⟨hnote, ?_⟩
    refine List.forall_mem_singleton.mpr ⟨⟨by decide, by decide⟩, List.nodup_nil, ?_⟩
    exact fun f hf => absurd hf List.not_mem_nil
  have hread : ∀ d ∈ notes, ∀ v ∈ d.literals, evaluate v.shown = .ok v := by
    have htest : ∀ d ∈ notes, ∀ v ∈ d.literals, readsBack v = true := by decide +kernel
    exact fun d hd v hv => evaluate_of_readsBack (htest d hd v hv)
  exact ⟨hvalid, hids, hread,
    compile_of_printed (.inr rfl) hvalid hids hread .default false⟩

end Printed

end LetTag
