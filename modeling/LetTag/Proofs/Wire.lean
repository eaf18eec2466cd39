/-
  Arguments come back from the response to a request.

  The sender binds the input of a request to the parameters of an object, runs it, and answers with
  descriptions of the arguments as JSON.  The receiver reads the JSON and rebuilds the arguments.  What
  holds the two together is that data of JSON stays data of JSON when it is bound and described
  (`isJson_describe_bound`): so its text reads back as it is (`LetTag.Proofs.JsonText`), and its
  mappings are rebuilt (`LetTag.Proofs.Reconstruction`).

  What the body of the object returns is on the way too and must be such that it can be written, but
  does not matter otherwise.  A body may also change its arguments.  Then the changed ones are
  described, so that the arguments come back holds of bodies that leave them as they are.
-/
import LetTag.Proofs.Calling
import LetTag.Proofs.JsonText
import LetTag.Proofs.Requests

namespace LetTag

open Text

namespace Value

/-! ## Bound data -/

/-- Items made of something are JSON if each of them is. -/
theorem itemsJson_map {α : Type} {f : α → Value} (h : ∀ a, (f a).IsJson) :
    ∀ as : List α, ItemsJson (as.map f)
  | [] => trivial
  | a :: as => ⟨h a, itemsJson_map h as⟩

/-- The description of a variable is data of JSON if its parts are, the value described. -/
theorem isJson_describe_var {name value type : Value} (hname : name.IsJson)
    (hvalue : value.describe.IsJson) (htype : type.IsJson) :
    (var name value type).describe.IsJson :=
  ⟨⟨["name", "value", "type"], by decide, rfl⟩, hname, hvalue, htype, trivial⟩

mutual

/-- Data of JSON that is bound to a name is described by data of JSON. -/
theorem isJson_describe_bound {type : Value} (htype : type.IsJson) (name : String) :
    ∀ {v : Value}, v.IsJson → (bound type name v).describe.IsJson
  | scalar _, h => h
  | list xs, h => by
    have hlist : (list (describeList xs)).IsJson := by
      rw [describeList_of_itemsData (itemsData_of_json h)]
      exact h
    exact hlist
  | dict es, h => by
    have hfields := itemsJson_describe_fields htype h.1 h.2
    have hrelations : (dict [(text fieldKind, list (describeList (boundFields type es)))]).IsJson :=
      ⟨⟨[fieldKind], by decide, rfl⟩, hfields, trivial⟩
    have hentries : (dict (objectEntries (texts []) type name es)).IsJson :=
      ⟨⟨["id", "type", "tags", "methods", "relations", "value"], by decide, rfl⟩,
        trivial, trivial, trivial, trivial, hrelations, trivial, trivial⟩
    exact hentries

/-- So are the fields of a mapping. -/
theorem itemsJson_describe_fields {type : Value} (htype : type.IsJson) :
    ∀ {es : List (Value × Value)}, NamedApart es → EntriesJson es →
    ItemsJson (describeList (boundFields type es))
  | [], _, _ => trivial
  | (_, _) :: _, hnames, h => by
    obtain ⟨name, rfl, hnames, -⟩ := hnames.cons
    exact ⟨isJson_describe_var trivial (isJson_describe_bound htype name h.1) htype,
      itemsJson_describe_fields htype hnames h.2⟩

end

/-! ## The input of a parameter -/

/-- What a parameter gets of the input: what stands under its name, or null.  The router keeps what
    stands under `path`. -/
def inputFor (es : List (Value × Value)) (p : String) : Value :=
  if p = "path" then null else (lookup? p es).getD null

/-- The reserved parameter is left out, and the others follow. -/
theorem passedOn_cons (k : String) (v : Value) (es : List (Value × Value)) :
    passedOn ((text k, v) :: es)
      = if k = "path" then passedOn es else (text k, v) :: passedOn es := by
  have hreserved : (reservedParameters.any fun r => (text k).equal (text r)) = (k == "path") := by
    rw [reservedParameters, List.any_cons, List.any_nil, Bool.or_false, equal_text]
  unfold passedOn
  rw [List.filter_cons]
  dsimp only
  rw [hreserved]
  by_cases hk : k = "path"
  · rw [if_pos hk, hk]
    rfl
  · rw [if_neg hk, beq_false_of_ne hk]
    rfl

/-- What is passed on has the input of each parameter. -/
theorem lookup?_passedOn (p : String) {es : List (Value × Value)} (h : NamedApart es) :
    (lookup? p (passedOn es)).getD null = inputFor es p := by
  induction es with
  | nil =>
    rw [inputFor]
    split
    · rfl
    · rfl
  | cons e es ih =>
    obtain ⟨k, v⟩ := e
    obtain ⟨name, rfl, hnames, -⟩ := h.cons
    rw [passedOn_cons]
    by_cases hname : name = "path"
    · rw [if_pos hname, ih hnames, inputFor, inputFor, lookup?_cons]
      by_cases hp : p = "path"
      · rw [if_pos hp, if_pos hp]
      · have hne : (name == p) = false := by
          rw [hname]
          exact beq_false_of_ne fun h => hp h.symm
        rw [if_neg hp, if_neg hp, hne, if_neg Bool.false_ne_true]
    · rw [if_neg hname, lookup?_cons]
      by_cases hp : name = p
      · have hpath : ¬ p = "path" := hp ▸ hname
        rw [inputFor, if_neg hpath, lookup?_cons, hp, beq_self_eq_true]
        rfl
      · have hne : (name == p) = false := beq_false_of_ne hp
        rw [hne, if_neg Bool.false_ne_true, ih hnames, inputFor, inputFor, lookup?_cons, hne,
          if_neg Bool.false_ne_true]

/-- A value in JSON is JSON, and so is the null of a missing one. -/
theorem isJson_lookup? (p : String) : ∀ {es : List (Value × Value)}, NamedApart es →
    EntriesJson es → ((lookup? p es).getD null).IsJson
  | [], _, _ => trivial
  | (_, _) :: _, hnames, h => by
    obtain ⟨name, rfl, hnames, -⟩ := hnames.cons
    rw [lookup?_cons]
    split
    · exact h.1
    · exact isJson_lookup? p hnames h.2

/-- Every parameter gets data of JSON. -/
theorem isJson_inputFor {es : List (Value × Value)} (h : (dict es).IsJson) (p : String) :
    (inputFor es p).IsJson := by
  rw [inputFor]
  split
  · exact trivial
  · exact isJson_lookup? p h.1 h.2

/-- The variable that a parameter becomes. -/
def argumentFor (es : List (Value × Value)) (type : Value) (p : String) : Value :=
  var (text p) (bound type p (inputFor es p)) type

/-- The parameters are bound to what the request has under their names, or else to null. -/
theorem bindParameters_passedOn (ps : List String) {es : List (Value × Value)}
    (h : NamedApart es) (type : Value) :
    bindParameters ps (passedOn es) type = ps.map (argumentFor es type) := by
  unfold bindParameters argumentFor
  simp only [lookup?_passedOn _ h]

/-! ## Rebuilt arguments -/

/-- Is `w` what a receiver has of the input `v` of a parameter: a record with its name that is the
    mapping again, or the same value? -/
def Received (p : String) : Value → Value → Prop
  | dict es, w => ∃ fields, w = record p fields ∧ w.plain = dict es
  | v, w => w = v

/-- The entries of the description of a variable. -/
theorem lookup?_describe_var (name value type : Value) :
    lookup? "value" [(text "name", name), (text "value", value), (text "type", type)] = some value
      ∧ lookup? "name" [(text "name", name), (text "value", value), (text "type", type)]
        = some name := by
  constructor
  · rw [lookup?_cons, lookup?_cons]
    rfl
  · rw [lookup?_cons]
    rfl

/-- The described variable of a new parameter is rebuilt behind the arguments that are there. -/
theorem rebuildArgument_var {p : String} (hp : p ≠ "") (type : Value) {v : Value}
    (hv : v.IsContent) : ∃ w, Received p v w ∧ ∀ args : List (Value × Value),
    (∀ a ∈ args, a.1.equal (text p) = false) →
    rebuildArgument args (var (text p) (bound type p v) type).describe
      = .ok (args ++ [(text p, w)]) := by
  obtain ⟨hvalue, hname⟩ := lookup?_describe_var (text p) (bound type p v).describe type
  -- a value is put behind the others, whatever it is
  have hput : ∀ {w : Value} {args : List (Value × Value)},
      (∀ a ∈ args, a.1.equal (text p) = false) →
      Except.ok (put (text p) w args) = (.ok (args ++ [(text p, w)]) : Except ReconstructionError _) :=
    fun hnew => congrArg _ (put_of_new hnew)
  cases v with
  | dict es =>
    obtain ⟨fields, hfields, hmirror⟩ := ofDescription_objectOf hp hv (texts []) type
    refine ⟨record p fields, ⟨fields, rfl, ?_⟩, fun args hnew => ?_⟩
    · rw [plain, plainFields_of_mirror hv.2 hmirror]
    · have hdescribe : (bound type p (dict es)).describe
          = dict (objectEntries (texts []) type p es) := rfl
      rw [describe_objectOf] at hfields
      rw [hdescribe] at hvalue hname
      rw [describe, hdescribe, rebuildArgument, hvalue, hname]
      dsimp only [Option.getD_some]
      rw [if_pos (describesRecord_object (texts []) type p es), hfields]
      exact hput hnew
  | scalar x =>
    refine ⟨scalar x, rfl, fun args hnew => ?_⟩
    rw [describe, rebuildArgument, hvalue, hname]
    exact hput hnew
  | list xs =>
    refine ⟨list xs, rfl, fun args hnew => ?_⟩
    have hdescribe : (bound type p (list xs)).describe = list xs :=
      congrArg list (describeList_of_itemsData hv)
    rw [describe, rebuildArgument, hvalue, hname, hdescribe]
    exact hput hnew
  | tuple xs =>
    refine ⟨tuple xs, rfl, fun args hnew => ?_⟩
    have hdescribe : (bound type p (tuple xs)).describe = tuple xs :=
      congrArg tuple (describeList_of_itemsData hv)
    rw [describe, rebuildArgument, hvalue, hname, hdescribe]
    exact hput hnew
  | var _ _ _ | object _ _ _ _ _ _ | record _ _ | ref _ => exact absurd hv id

/-- The described variables of parameters are rebuilt in their order. -/
theorem rebuildArguments_vars (type : Value) {input : String → Value} : ∀ {ps : List String}
    (before : List (Value × Value)), ps.Nodup → (∀ p ∈ ps, p ≠ "" ∧ (input p).IsContent) →
    (∀ a ∈ before, ∀ p ∈ ps, a.1.equal (text p) = false) → ∃ args,
    (ps.map fun p => (var (text p) (bound type p (input p)) type).describe).foldlM rebuildArgument
        before = .ok (before ++ args)
      ∧ args.map Prod.fst = ps.map text
      ∧ ∀ p ∈ ps, ∃ w, lookup? p args = some w ∧ Received p (input p) w
  | [], before, _, _, _ => by
    refine ⟨[], ?_, rfl, fun p hp => absurd hp List.not_mem_nil⟩
    rw [List.append_nil]
    rfl
  | p :: ps, before, hnodup, hps, hnew => by
    obtain ⟨hp, hnodup⟩ := List.nodup_cons.mp hnodup
    obtain ⟨⟨hne, hcontent⟩, hrest⟩ := List.forall_mem_cons.mp hps
    obtain ⟨w, hreceived, hw⟩ := rebuildArgument_var hne type hcontent
    have hnew' : ∀ a ∈ before ++ [(text p, w)], ∀ q ∈ ps, a.1.equal (text q) = false := by
      intro a ha q hq
      rcases List.mem_append.mp ha with ha | ha
      · exact hnew a ha q (List.mem_cons_of_mem p hq)
      · rw [List.mem_singleton.mp ha, equal_text]
        exact beq_false_of_ne fun h => hp (h ▸ hq)
    obtain ⟨args, hargs, hnames, hlookup⟩ := rebuildArguments_vars type _ hnodup hrest hnew'
    refine ⟨(text p, w) :: args, ?_, ?_, ?_⟩
    · rw [List.map_cons, List.foldlM_cons, hw before fun a ha => hnew a ha p List.mem_cons_self]
      show List.foldlM rebuildArgument (before ++ [(text p, w)]) _ = _
      rw [hargs, List.append_assoc]
      rfl
    · rw [List.map_cons, hnames, List.map_cons]
    · intro q hq
      rw [lookup?_cons]
      rcases List.mem_cons.mp hq with rfl | hq
      · rw [beq_self_eq_true]
        exact ⟨w, rfl, hreceived⟩
      · have hpq : (p == q) = false := beq_false_of_ne fun h => hp (h ▸ hq)
        rw [hpq, if_neg Bool.false_ne_true]
        exact hlookup q hq

end Value

/-! ## Parameters of definitions -/

/-- The parameters of a closure that was compiled can be the names of arguments. -/
theorem Closure.parameters_of_compile {name : String} {expr : List Char} {c : Closure}
    (h : Closure.compile name expr = .ok c) : c.parameters.Nodup ∧ ∀ p ∈ c.parameters, p ≠ "" := by
  obtain ⟨hnodup, hnames⟩ := Closure.names_of_compile h
  refine ⟨hnodup, ?_⟩
  rintro p hp rfl
  exact absurd (hnames "" hp) Bool.false_ne_true

/-! ## Responses as JSON -/

/-- The body of a response with a result, for descriptions of arguments. -/
def Response.bodyOf (result : Value) (vars : List Value) : Value :=
  .dict [(.text "status", .text "ok"),
    (.text "result", .dict [(.text "result", result), (.text "vars", .list vars)])]

section

variable {x : Value} {ds : List Value} (hds : Value.ItemsJson ds)
include hds

/-- The body of a response is described by describing the result in it. -/
theorem Response.describe_bodyOf (x : Value) : (bodyOf x ds).describe = bodyOf x.describe ds := by
  have hvars := Value.describeList_of_itemsData (Value.itemsData_of_json hds)
  show bodyOf x.describe (Value.describeList ds) = _
  rw [hvars]

theorem Response.onWire_bodyOf (x : Value) : (bodyOf x ds).onWire = bodyOf x.onWire ds := by
  have houter : Value.NamedApart [(.text "status", .text "ok"),
      (.text "result", .dict [(.text "result", x), (.text "vars", .list ds)])] :=
    ⟨["status", "result"], by decide, rfl⟩
  have hinner : Value.NamedApart [(.text "result", x), (.text "vars", .list ds)] :=
    ⟨["result", "vars"], by decide, rfl⟩
  rw [bodyOf, Value.onWire_dict houter]
  simp only [List.map_cons, List.map_nil]
  rw [Value.onWire_dict hinner]
  simp only [List.map_cons, List.map_nil]
  have hvars : (Value.list ds).onWire = .list ds :=
    congrArg Value.list (Value.listOnWire_of_json hds)
  rw [hvars]
  rfl

/-- A response whose result can be written can be written, and is read as the same body. -/
theorem Response.read_json_result (hx : ∃ s, Json.write Json.responseStyle x = .ok s)
    (hdoubles : ∀ y ∈ (bodyOf x ds).describe.doubles, Json.ReadsBack y) : ∃ t,
    Json.write Json.responseStyle (bodyOf x ds) = .ok t
      ∧ Json.read t = .ok (bodyOf x.describe.onWire ds) := by
  obtain ⟨s, hs⟩ := hx
  have hresult : ∀ level, ∃ t, Json.render Json.responseStyle level x.describe = .ok t :=
    fun level => ⟨s, (Json.render_level rfl level 0 _).trans hs⟩
  have hvars : ∀ level, ∃ t, Json.render Json.responseStyle level (.list ds) = .ok t :=
    Json.exists_render rfl (v := .list ds) hds
  have hinner : ∀ level, ∃ t, Json.render Json.responseStyle level
      (.dict [(.text "result", x.describe), (.text "vars", .list ds)]) = .ok t := by
    refine Json.exists_render_dict rfl ⟨["result", "vars"], by decide, rfl⟩ ?_
    exact List.forall_mem_cons.mpr ⟨hresult, List.forall_mem_singleton.mpr hvars⟩
  obtain ⟨t, ht⟩ : ∃ t, Json.render Json.responseStyle 0 (bodyOf x.describe ds) = .ok t := by
    refine Json.exists_render_dict rfl ⟨["status", "result"], by decide, rfl⟩ ?_ 0
    exact List.forall_mem_cons.mpr ⟨fun _ => ⟨_, rfl⟩, List.forall_mem_singleton.mpr hinner⟩
  have hwrite : Json.write Json.responseStyle (bodyOf x ds) = .ok t := by
    rw [Json.write, describe_bodyOf hds, ht]
  refine ⟨t, hwrite, ?_⟩
  rw [Json.read_write rfl rfl hwrite hdoubles, describe_bodyOf hds, onWire_bodyOf hds]

end

/-! ## Arguments from responses -/

namespace Registry

variable {r : Registry} {path method : String} {e : Entity} {es : List (Value × Value)} {c : Closure}

/-- The type tag of the input of a request that is handled is a text. -/
theorem Handles.inputType (h : r.Handles path (methodOf method) e) :
    ∃ tag, r.inputType method = .text tag := by
  have hmethod : ∀ {name : String}, methodOf method = name → upper method.toList = name.toList := by
    intro name heq
    rw [← heq, methodOf, String.toList_ofList]
  obtain ⟨-, -, hanswers⟩ := h.answers
  unfold Registry.inputType
  split at hanswers
  · rw [hmethod hanswers]
    exact ⟨_, if_pos (by decide)⟩
  · rw [hmethod hanswers]
    exact ⟨_, if_pos (by decide)⟩

/-- Does a request leave the arguments of the closure as they were, as far as descriptions tell? -/
def Keeps (r : Registry) (method : String) (es : List (Value × Value)) (c : Closure) : Prop :=
  (r.runFor method es c).args.map (fun a => ((r.runFor method es c).store.expand a).describe)
    = (bindParameters c.parameters (passedOn es) (r.inputType method)).map Value.describe

/-- Can what the closure returns for a request be written as JSON? -/
def ReturnsJson (r : Registry) (method : String) (es : List (Value × Value)) (c : Closure) : Prop :=
  ∀ v, (r.runFor method es c).outcome = .ok v → ∃ s,
    Json.write Json.responseStyle ((r.runFor method es c).store.expand v) = .ok s

/-- The closure that an object runs, if it runs one. -/
def closureOf? (e : Entity) : Option Closure :=
  match Table.get? executeName e.methods with
  | some (.closure c) => some c
  | _ => none

/-- The closure of an object stands under its operation. -/
theorem get?_of_closureOf? (h : closureOf? e = some c) :
    Table.get? executeName e.methods = some (.closure c) := by
  unfold closureOf? at h
  split at h
  · rename_i c' hc
    rw [hc, Option.some.inj h]
  · cases h

/-- Does a run keep its arguments and return what can be written? -/
def keepsAndReturns (r : Registry) (method : String) (es : List (Value × Value)) (c : Closure) :
    Bool :=
  let ran := r.runFor method es c
  Value.sameItems (ran.args.map fun a => (ran.store.expand a).describe)
      ((bindParameters c.parameters (passedOn es) (r.inputType method)).map Value.describe)
    && ran.outcome.toOption.all fun v =>
      (Json.write Json.responseStyle (ran.store.expand v)).toOption.isSome

theorem of_keepsAndReturns (h : r.keepsAndReturns method es c = true) :
    r.Keeps method es c ∧ r.ReturnsJson method es c := by
  obtain ⟨hkeeps, hreturns⟩ := Bool.and_eq_true_iff.mp h
  refine ⟨Value.eq_of_sameItems hkeeps, fun v hv => ?_⟩
  rw [hv] at hreturns
  exact exists_of_toOption hreturns

/-- The descriptions of the arguments that a request gives the closure. -/
def argumentsFor (r : Registry) (method : String) (es : List (Value × Value)) (c : Closure) :
    List Value :=
  c.parameters.map fun p => (Value.argumentFor es (r.inputType method) p).describe

/-- What is bound to the parameters is described by data of JSON. -/
theorem itemsJson_argumentsFor (he : r.Handles path (methodOf method) e)
    (hes : (Value.dict es).IsJson) : Value.ItemsJson (r.argumentsFor method es c) := by
  obtain ⟨tag, htag⟩ := he.inputType
  have htype : (r.inputType method).IsJson := by
    rw [htag]
    exact trivial
  refine Value.itemsJson_map (fun p => ?_) _
  exact Value.isJson_describe_var trivial
    (Value.isJson_describe_bound htype p (Value.isJson_inputFor hes p)) htype

/-- The body of a response with a result describes what was bound, if the closure keeps it. -/
theorem body_of_response {settings : Settings} {ss : List (List Char)}
    (hr : Reached settings ss r) (he : r.Handles path (methodOf method) e)
    (hc : Table.get? executeName e.methods = some (.closure c)) (hes : (Value.dict es).IsJson)
    {response : Response} {log : List LogLine}
    (hresponse : r.respond path method (.dict es) = .ok (response, log))
    (hok : response.status = 200) (hkeeps : r.Keeps method es c)
    (hjson : r.ReturnsJson method es c) : ∃ x,
    (∃ s, Json.write Json.responseStyle x = .ok s)
      ∧ response.body = Response.bodyOf x (r.argumentsFor method es c) := by
  have hcourse := course_of_request hr path method es
  rw [hresponse] at hcourse
  have hfailure : ∀ {message : String}, (Response.failure 500 message).status ≠ 200 := by
    intro message h
    exact absurd (show (500 : Int) = 200 from h) (by decide)
  cases hcourse with
  | notFound _ => exact absurd hok (by decide)
  | notCallable _ _ => exact absurd hok hfailure
  | failed _ _ _ _ _ => exact absurd hok hfailure
  | @returned e' c' v he' hc' _ hv _ =>
    obtain rfl := he.unique he'
    obtain rfl := Method.closure.inj (Option.some.inj (hc.symm.trans hc'))
    refine ⟨_, hjson v hv, ?_⟩
    have hvars : (r.runFor method es c).args.map
        (fun a => ((r.runFor method es c).store.expand a).describe)
          = r.argumentsFor method es c := by
      rw [hkeeps, Value.bindParameters_passedOn _ hes.1, List.map_map]
      rfl
    rw [← hvars]
    rfl

/-- **Arguments survive the wire.**  A request of JSON data is answered with a result, by a closure
    that keeps its arguments and returns what can be written.  Then the response can be written as
    JSON, and from what is read of it the arguments are rebuilt: they have exactly the names of the
    parameters, in the order in which they were declared, and what a parameter has is null if it got
    no input or is the one that the router keeps, a record of the mapping that it got, or else the
    value that it got.  What is described beside the result is these arguments and no other input. -/
theorem arguments_of_response {settings : Settings} {ss : List (List Char)}
    (hr : Reached settings ss r) (he : r.Handles path (methodOf method) e)
    (hc : Table.get? executeName e.methods = some (.closure c)) (hes : (Value.dict es).IsJson)
    {response : Response} {log : List LogLine}
    (hresponse : r.respond path method (.dict es) = .ok (response, log))
    (hok : response.status = 200) (hkeeps : r.Keeps method es c)
    (hjson : r.ReturnsJson method es c)
    (hdoubles : ∀ x ∈ response.body.describe.doubles, Json.ReadsBack x) :
    ∃ text body result args, response.json = .ok text ∧ Json.read text = .ok body
      ∧ body.field? "result" = some result
      ∧ result.field? "vars" = some (.list (r.argumentsFor method es c))
      ∧ rebuildArguments result = .ok args
      ∧ args.map Prod.fst = c.parameters.map Value.text
      ∧ ∀ p ∈ c.parameters, ∃ w, Value.lookup? p args = some w
        ∧ Value.Received p (Value.inputFor es p) w := by
  obtain ⟨x, hx, hbody⟩ := body_of_response hr he hc hes hresponse hok hkeeps hjson
  have hds := itemsJson_argumentsFor (c := c) he hes
  rw [hbody] at hdoubles
  obtain ⟨text, hwrite, hread⟩ := Response.read_json_result hds hx hdoubles
  -- the closure was compiled, so its parameters are names of arguments
  obtain ⟨hnodup, hnames⟩ : c.parameters.Nodup ∧ ∀ p ∈ c.parameters, p ≠ "" := by
    obtain ⟨id, hmem⟩ := he.mem
    rcases hr.methods hmem with hnone | ⟨c', name, expr, hcompile, hmethods⟩
    · rw [hnone] at hc
      cases hc
    · rw [hmethods] at hc
      obtain rfl : c' = c := Method.closure.inj (Option.some.inj hc)
      exact Closure.parameters_of_compile hcompile
  have hinput : ∀ p ∈ c.parameters, p ≠ "" ∧ (Value.inputFor es p).IsContent :=
    fun p hp => ⟨hnames p hp, Value.isContent_of_isJson (Value.isJson_inputFor hes p)⟩
  obtain ⟨args, hargs, hkeys, hlookup⟩ := Value.rebuildArguments_vars (r.inputType method) []
    hnodup hinput fun a ha => absurd ha List.not_mem_nil
  have hvars : Value.lookup? "vars" [(.text "result", x.describe.onWire),
      (.text "vars", .list (r.argumentsFor method es c))]
        = some (.list (r.argumentsFor method es c)) := by
    rw [Value.lookup?_cons, Value.lookup?_cons]
    rfl
  refine ⟨text, _, .dict [(.text "result", x.describe.onWire),
    (.text "vars", .list (r.argumentsFor method es c))], args, ?_, hread, ?_, hvars, ?_, hkeys,
    hlookup⟩
  · rw [Response.json, hbody, hwrite]
  · rw [Response.bodyOf, Value.field?, Value.lookup?_cons, Value.lookup?_cons]
    rfl
  · rw [rebuildArguments, hvars]
    exact hargs

/-- The input of a request: a mapping with mappings in it, a list with what looks like a description,
    what the router keeps, and what no parameter asks for. -/
def showing : List (Value × Value) :=
  [(.text "person", .dict [(.text "name", .text "Ada"), (.text "notes", .dict []),
      (.text "home", .dict [(.text "city", .null)])]),
    (.text "items", .list [.int 1, .dict [(.text "id", .text "x"), (.text "type", .text recordType),
      (.text "relations", .dict [(.text Value.fieldKind, .list [])])]]),
    (.text "path", .text "/other"), (.text "extra", .bool true)]

theorem isJson_showing : (Value.dict showing).IsJson := by
  have hhome : (Value.dict [(.text "city", .null)]).IsJson :=
    ⟨⟨["city"], by decide, rfl⟩, trivial, trivial⟩
  have hnotes : (Value.dict []).IsJson := ⟨⟨[], List.nodup_nil, rfl⟩, trivial⟩
  have hperson : (Value.dict [(.text "name", .text "Ada"), (.text "notes", .dict []),
      (.text "home", .dict [(.text "city", .null)])]).IsJson :=
    ⟨⟨["name", "notes", "home"], by decide, rfl⟩, trivial, hnotes, hhome, trivial⟩
  have hrelations : (Value.dict [(.text Value.fieldKind, .list [])]).IsJson :=
    ⟨⟨[Value.fieldKind], by decide, rfl⟩, trivial, trivial⟩
  have hitem : (Value.dict [(.text "id", .text "x"), (.text "type", .text recordType),
      (.text "relations", .dict [(.text Value.fieldKind, .list [])])]).IsJson :=
    ⟨⟨["id", "type", "relations"], by decide, rfl⟩, trivial, trivial, hrelations, trivial⟩
  have hone : (Value.int 1).IsJson := by
    show Number.withinDigitLimit 1 = true
    decide +kernel
  exact ⟨⟨["person", "items", "path", "extra"], by decide, rfl⟩, hperson,
    ⟨hone, hitem, trivial⟩, trivial, trivial, trivial⟩

theorem arguments_of_showing :
    let c := (empty .default).compile
      ("let show = (person, items, path, missing) => items;"
        ++ "tag show as api, post, path:/show").toList false
    ∃ e k response log args, c.registry.Handles "/show" "POST" e
      ∧ Table.get? executeName e.methods = some (.closure k)
      ∧ c.registry.respond "/show" "post" (.dict showing) = .ok (response, log)
      ∧ response.status = 200 ∧ c.registry.Keeps "post" showing k
      ∧ c.registry.ReturnsJson "post" showing k
      ∧ (∃ text body result, response.json = .ok text ∧ Json.read text = .ok body
        ∧ body.field? "result" = some result ∧ rebuildArguments result = .ok args)
      ∧ args.map Prod.fst = [.text "person", .text "items", .text "path", .text "missing"]
      ∧ (∃ fields, Value.lookup? "person" args = some (.record "person" fields)
        ∧ some (Value.record "person" fields).plain = Value.lookup? "person" showing)
      ∧ Value.lookup? "items" args = Value.lookup? "items" showing
      ∧ Value.lookup? "path" args = some .null ∧ Value.lookup? "missing" args = some .null := by
  intro c
  -- one evaluation for all, so that the text is compiled once
  have hrun : c.outcome.toOption.isSome = true
      ∧ (c.registry.objects.find? fun o => o.2.fits "/show" "POST").any (fun o =>
        (closureOf? o.2).any fun k => k.parameters == ["person", "items", "path", "missing"]
          && c.registry.keepsAndReturns "post" showing k) = true
      ∧ (c.registry.respond "/show" "post" (.dict showing)).toOption.any (fun a =>
        a.1.status == 200 && a.1.body.describe.doubles.isEmpty) = true := by
    decide +kernel
  obtain ⟨hok, hhandler, hresponse⟩ := hrun
  obtain ⟨_, hok⟩ := exists_of_toOption hok
  obtain ⟨o, ho, hhandler⟩ := (Option.any_eq_true _ _).mp hhandler
  obtain ⟨k, hk, hhandler⟩ := (Option.any_eq_true _ _).mp hhandler
  obtain ⟨hparameters, hkeeps⟩ := Bool.and_eq_true_iff.mp hhandler
  obtain ⟨hkeeps, hreturns⟩ := of_keepsAndReturns hkeeps
  have hnames : k.parameters = ["person", "items", "path", "missing"] := eq_of_beq hparameters
  obtain ⟨a, ha, hanswered⟩ := (Option.any_eq_true _ _).mp hresponse
  obtain ⟨hstatus, hdoubles⟩ := Bool.and_eq_true_iff.mp hanswered
  have hstatus : a.1.status = 200 := eq_of_beq hstatus
  have hanswer : c.registry.respond "/show" "post" (.dict showing) = .ok (a.1, a.2) := by
    cases hrespond : c.registry.respond "/show" "post" (.dict showing) with
    | error x =>
      rw [hrespond] at ha
      cases ha
    | ok b =>
      rw [hrespond] at ha
      rw [Option.some.inj ha]
  have hmethod : methodOf "post" = "POST" := by decide
  have he : c.registry.Handles "/show" (methodOf "post") o.2 := by
    rw [hmethod]
    exact handles_iff.mpr ⟨o.1, ho⟩
  obtain ⟨text, body, result, args, htext, hbody, hresult, -, hargs, hkeys, hreceived⟩ :=
    arguments_of_response (.compile _ false .empty hok) he (get?_of_closureOf? hk)
      isJson_showing hanswer hstatus hkeeps hreturns fun x hx => by
        rw [List.isEmpty_iff.mp hdoubles] at hx
        exact absurd hx List.not_mem_nil
  rw [hnames] at hkeys hreceived
  obtain ⟨person, hperson, hrecord⟩ := hreceived "person" (by decide)
  obtain ⟨items, hitems, hlist⟩ := hreceived "items" (by decide)
  obtain ⟨path, hpath, hreserved⟩ := hreceived "path" (by decide)
  obtain ⟨missing, hmissing, hnone⟩ := hreceived "missing" (by decide)
  simp only [Value.inputFor, showing, Value.lookup?_cons, String.reduceBEq, String.reduceEq,
    Bool.false_eq_true, if_false, if_true, Option.getD_some] at hrecord hlist hreserved hnone
  obtain ⟨fields, rfl, hplain⟩ := hrecord
  refine ⟨o.2, k, a.1, a.2, args, hmethod ▸ he, get?_of_closureOf? hk, hanswer, hstatus, hkeeps,
    hreturns, ⟨text, body, result, htext, hbody, hresult, hargs⟩, hkeys, ⟨fields, hperson, ?_⟩,
    ?_, ?_, ?_⟩
  · rw [hplain, showing, Value.lookup?_cons, if_pos (beq_self_eq_true _)]
  · rw [hitems, show items = _ from hlist, showing, Value.lookup?_cons, Value.lookup?_cons]
    rfl
  · rw [hpath, show path = _ from hreserved]
  · rw [hmissing, show missing = _ from hnone]
    rfl

end Registry
end LetTag
