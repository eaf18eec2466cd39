/-
  What becomes of a request.

  A request goes to the first object that answers its path and method, in the order in which ids
  were first declared.  Its input is bound to the parameters of that object, and the object is
  called.  `Course` lists the ways in which this can go, each with its response, and
  `course_of_request` says that every request to a registry that was filled by passes goes one of
  them.  All that is said about the status of a response is read off that list.

  Not every request has a response.  A key of the input or the message of a fault may be such that
  it cannot be written, as numbers with too many digits cannot, and this is no error that a response
  reports; nor is there a response to a request whose body never ends, or leaves an argument that
  contains itself.  `Registry.Breaks` names these cases.

  A request has no registry among its results: none changes objects, tags, diagnostics or settings.
-/
import LetTag.Proofs.Denotation
import LetTag.Response

namespace LetTag

open Text

/-! ## Registries that passes fill -/

/-- The registry can be reached by passes that come to their end and by resets.  The statements are
    those of the passes since it was last empty. -/
inductive Reached (settings : Settings) : List (List Char) → Registry → Prop
  | empty : Reached settings [] (Registry.empty settings)
  | reset {ss : List (List Char)} {r : Registry} : Reached settings ss r →
    Reached settings [] r.reset
  | compile {ss : List (List Char)} {r : Registry} (code : List Char) (reset : Bool)
    {ds : List Diagnostic} : Reached settings ss r → (r.compile code reset).outcome = .ok ds →
    Reached settings ((if reset || r.settings.resetOnCompile.truthy then [] else ss)
      ++ (Statements.ofText code).all) (r.compile code reset).registry

namespace Follows

variable {settings : Settings} {ss : List (List Char)} {r : Registry}

theorem reset (h : Follows settings ss r) : Follows settings [] r.reset where
  sourceType := h.sourceType
  resetOnCompile := h.resetOnCompile
  names := rfl
  objects := (empty settings).objects

/-- A pass that does not end early adds its statements to those that it starts from. -/
theorem pass (h : Follows settings ss r) {code : List Char} {reset : Bool} {ds : List Diagnostic}
    (hok : (r.compile code reset).outcome = .ok ds) :
    Follows settings ((if reset || r.settings.resetOnCompile.truthy then [] else ss)
      ++ (Statements.ofText code).all) (r.compile code reset).registry := by
  have hstart : Follows settings (if reset || r.settings.resetOnCompile.truthy then [] else ss)
      (r.atStart reset) := by
    unfold Registry.atStart
    split
    · exact h.reset
    · exact h
  cases hs : Pass.stopped? (r.atStart reset) (Statements.ofText code).all with
  | some e =>
    rw [Registry.compile_of_stopped hs] at hok
    cases hok
  | none =>
    rw [(Registry.compile_of_complete hs).2]
    have hrun := hstart.run (Statements.ofText code).all
    exact ⟨hrun.sourceType, hrun.resetOnCompile, hrun.names, hrun.objects⟩

end Follows

/-- A registry that is reached has followed the statements that it was reached by. -/
theorem Reached.follows {settings : Settings} {ss : List (List Char)} {r : Registry}
    (h : Reached settings ss r) : Follows settings ss r := by
  induction h with
  | empty => exact .empty settings
  | reset _ ih => exact ih.reset
  | compile code reset _ hok ih => exact ih.pass hok

/-- A definition makes an object that runs the closure it compiles to, or one without operations. -/
theorem define_methods {settings : Settings} {id : String} {expr : List Char} {e : Entity}
    (h : define settings id expr = .ok e) : e.methods = []
      ∨ ∃ c, Closure.compile id expr = .ok c ∧ e.methods = [(executeName, .closure c)] := by
  unfold define at h
  split at h
  · cases hc : Closure.compile id expr with
    | error x =>
      rw [hc] at h
      cases h
    | ok c =>
      rw [hc] at h
      cases h
      exact .inr ⟨c, rfl, rfl⟩
  · split at h
    · split at h
      · rw [Entity.build] at h
        split at h
        · cases h
          exact .inl rfl
        · cases h
      · cases h
    · split at h
      · cases h
        exact .inl rfl
      · cases h

/-- So does every object of a registry that passes filled. -/
theorem Reached.methods {settings : Settings} {ss : List (List Char)} {r : Registry}
    (h : Reached settings ss r) {id : String} {e : Entity} (he : (id, e) ∈ r.objects) :
    e.methods = [] ∨ ∃ c name expr, Closure.compile name expr = .ok c
      ∧ e.methods = [(executeName, .closure c)] := by
  have hfollows := h.follows
  have hnodup : (Table.names r.objects).Nodup := by
    rw [hfollows.names]
    exact nodup_eraseDups _
  obtain ⟨_, s, _, made, -, hmade, -, rfl⟩ :=
    (hfollows.objects id e).mp (Table.get?_of_mem hnodup he)
  show made.methods = [] ∨ ∃ c name expr, Closure.compile name expr = .ok c
    ∧ made.methods = [(executeName, .closure c)]
  unfold declared? at hmade
  split at hmade
  · rename_i id' expr _
    cases hd : define settings id' expr with
    | error x =>
      rw [hd] at hmade
      cases hmade
    | ok made' =>
      rw [hd] at hmade
      cases hmade
      rcases define_methods hd with hnone | ⟨c, hc, hmethods⟩
      · exact .inl hnone
      · exact .inr ⟨c, _, _, hc, hmethods⟩
  · cases hmade

/-! ## The object that answers -/

/-- Does the object answer requests for the path by the method?  It has the tag `api`, its first tag
    that begins with `path:` has the path behind the colon, and the method is POST if it has the tag
    `post`, and else GET. -/
def Entity.Answers (e : Entity) (path method : String) : Prop :=
  "api" ∈ e.tags
    ∧ (∃ before after, e.tags = before ++ ("path:" ++ path) :: after
      ∧ ∀ t ∈ before, ¬ "path:".toList <+: t.toList)
    ∧ method = if "post" ∈ e.tags then "POST" else "GET"

theorem behind?_eq_none_iff (start s : String) :
    behind? start s = none ↔ ¬ start.toList <+: s.toList := by
  rw [behind?, ← List.isPrefixOf_iff_prefix]
  split
  · rename_i h
    exact iff_of_false (Option.some_ne_none _) (fun hn => hn h)
  · rename_i h
    exact iff_of_true rfl h

theorem behind?_eq_some_iff (start s rest : String) :
    behind? start s = some rest ↔ s = start ++ rest := by
  rw [behind?]
  split
  · rename_i h
    obtain ⟨tail, htail⟩ := List.isPrefixOf_iff_prefix.mp h
    have hdrop : s.toList.drop start.length = tail := by
      rw [← htail, ← String.length_toList, List.drop_left]
    rw [hdrop, Option.some_inj, ← String.toList_inj, ← String.toList_inj, String.toList_append,
      String.toList_ofList, ← htail, List.append_cancel_left_eq]
  · rename_i h
    refine iff_of_false (Option.some_ne_none _).symm ?_
    rintro rfl
    exact h (List.isPrefixOf_iff_prefix.mpr ⟨rest.toList, String.toList_append.symm⟩)

/-- The path is that of the first tag that gives one. -/
theorem pathOf_eq_some_iff (tags : List String) (path : String) : pathOf tags = some path ↔
    ∃ before after, tags = before ++ ("path:" ++ path) :: after
      ∧ ∀ t ∈ before, ¬ "path:".toList <+: t.toList := by
  simp only [pathOf, List.findSome?_eq_some_iff, behind?_eq_none_iff, behind?_eq_some_iff]
  constructor
  · rintro ⟨before, _, after, htags, rfl, hbefore⟩
    exact ⟨before, after, htags, hbefore⟩
  · rintro ⟨before, after, htags, hbefore⟩
    exact ⟨before, _, after, htags, rfl, hbefore⟩

/-- Has the object a route for the path and the method? -/
def Entity.fits (e : Entity) (path method : String) : Bool :=
  e.route?.any fun ρ => ρ.path == path && ρ.method == method

/-- **When an object answers a request**: the program looks for exactly this. -/
theorem Entity.fits_iff (e : Entity) (path method : String) :
    e.fits path method = true ↔ e.Answers path method := by
  rw [fits, route?, Answers, ← pathOf_eq_some_iff]
  simp only [hasTag, List.contains_iff_mem]
  by_cases hapi : "api" ∈ e.tags
  · rw [if_pos hapi]
    cases pathOf e.tags with
    | none => exact iff_of_false Bool.false_ne_true fun h => Option.some_ne_none path h.2.1.symm
    | some p =>
      show (p == path && (if "post" ∈ e.tags then "POST" else "GET") == method) = true ↔ _
      rw [Bool.and_eq_true, beq_iff_eq, beq_iff_eq, Option.some_inj]
      exact ⟨fun h => ⟨hapi, h.1, h.2.symm⟩, fun h => ⟨h.2.1, h.2.2.symm⟩⟩
  · rw [if_neg hapi]
    exact iff_of_false Bool.false_ne_true fun h => hapi h.1

namespace Registry

/-- Is the object the first one that answers, in the order of the registry? -/
def Handles (r : Registry) (path method : String) (e : Entity) : Prop :=
  ∃ before id after, r.objects = before ++ (id, e) :: after ∧ e.Answers path method
    ∧ ∀ o ∈ before, ¬ o.2.Answers path method

variable {r : Registry} {path method : String} {e : Entity}

/-- The first object that answers is the handler. -/
theorem handles_iff : r.Handles path method e ↔
    ∃ id, r.objects.find? (fun o => o.2.fits path method) = some (id, e) := by
  simp only [List.find?_eq_some_iff_append, Entity.fits_iff, Bool.not_eq_true', Handles,
    ← Bool.not_eq_true]
  constructor
  · rintro ⟨before, id, after, hobjects, hanswers, hbefore⟩
    exact ⟨id, hanswers, before, after, hobjects, hbefore⟩
  · rintro ⟨id, hanswers, before, after, hobjects, hbefore⟩
    exact ⟨before, id, after, hobjects, hanswers, hbefore⟩

theorem Handles.mem (h : r.Handles path method e) : ∃ id, (id, e) ∈ r.objects := by
  obtain ⟨before, id, after, hobjects, -⟩ := h
  exact ⟨id, hobjects ▸ List.mem_append_right before List.mem_cons_self⟩

theorem Handles.answers (h : r.Handles path method e) : e.Answers path method := by
  obtain ⟨_, _, _, -, hanswers, -⟩ := h
  exact hanswers

theorem Handles.unique {e' : Entity} (h : r.Handles path method e)
    (h' : r.Handles path method e') : e = e' := by
  obtain ⟨id, hid⟩ := handles_iff.mp h
  obtain ⟨id', hid'⟩ := handles_iff.mp h'
  rw [hid] at hid'
  exact (Prod.mk.inj (Option.some.inj hid')).2

/-- If an object answers, there is a handler. -/
theorem exists_handles {o : String × Entity} (ho : o ∈ r.objects) (h : o.2.Answers path method) :
    ∃ e, r.Handles path method e := by
  cases hfind : r.objects.find? (fun o => o.2.fits path method) with
  | none => exact absurd ((o.2.fits_iff path method).mpr h) (List.find?_eq_none.mp hfind o ho)
  | some found => exact ⟨found.2, handles_iff.mpr ⟨found.1, hfind⟩⟩

/-- The routes are searched as the objects are. -/
theorem find?_routes (r : Registry) (path method : String) :
    r.routes.find? (fun ρ => ρ.path == path && ρ.method == method)
      = (r.objects.find? fun o => o.2.fits path method).bind fun o => o.2.route? := by
  rw [routes, LetTag.routes, List.find?_filterMap, List.find?_map, Option.bind_map]
  rfl

/-- A request goes to its handler. -/
theorem Handles.route (h : r.Handles path method e) : ∃ ρ,
    r.routes.find? (fun ρ => ρ.path == path && ρ.method == method) = some ρ ∧ ρ.handler = e := by
  obtain ⟨id, hid⟩ := handles_iff.mp h
  have hfits := (e.fits_iff path method).mpr h.answers
  rw [find?_routes, hid]
  rw [Entity.fits, Entity.route?] at hfits
  show ∃ ρ, e.route? = some ρ ∧ _
  rw [Entity.route?]
  split at hfits
  · cases hpath : pathOf e.tags with
    | none =>
      rw [hpath] at hfits
      cases hfits
    | some p =>
      rename_i hapi
      rw [if_pos hapi]
      exact ⟨_, rfl, rfl⟩
  · cases hfits

theorem find?_routes_eq_none (h : ∀ o ∈ r.objects, ¬ o.2.Answers path method) :
    r.routes.find? (fun ρ => ρ.path == path && ρ.method == method) = none := by
  have hnone : r.objects.find? (fun o => o.2.fits path method) = none :=
    List.find?_eq_none.mpr fun o ho hfits => h o ho ((o.2.fits_iff path method).mp hfits)
  rw [find?_routes, hnone, Option.bind_none]

end Registry

/-! ## The call -/

/-- What a run of a closure leaves: how it ended, its arguments in the store, and the store. -/
structure Ran where
  outcome : Except Script.Stop Value
  args : List Value
  store : Store

/-- The run that a call of an object makes, on arguments without pointers. -/
def Closure.runOn (c : Closure) (args : List Value) : Ran :=
  let placed := Value.placeList args Store.empty
  let globals := c.globals placed.2
  let ended := c.run globals.1 placed.1 globals.2
  ⟨ended.1, placed.1, ended.2⟩

namespace Ran

/-- What the call of an object with that id gives, by what the run of its closure leaves. -/
def answer (id : String) (ran : Ran) : Except Error Value :=
  match ran.outcome with
  | .ok v => ran.store.callResult v ran.args
  | .error (.fault f) => .error (.ofFault id executeName f)
  | .error .endless => .error .endless

/-- Can the arguments be described as the run leaves them?  None contains itself. -/
def Described (ran : Ran) : Prop :=
  ∀ a ∈ ran.args, (ran.store.expand a).isWhole = true

/-- The fault by which the run ended, if it ended by one. -/
def fault? (ran : Ran) : Option Script.Fault :=
  match ran.outcome with
  | .error (.fault f) => some f
  | _ => none

theorem outcome_of_fault? {ran : Ran} {f : Script.Fault} (h : ran.fault? = some f) :
    ran.outcome = .error (.fault f) := by
  unfold fault? at h
  split at h
  · rename_i f' hf
    rw [hf, Option.some.inj h]
  · cases h

/-- The result with the descriptions of the arguments. -/
def result (ran : Ran) (v : Value) : Value :=
  .dict [(.text "result", ran.store.expand v),
    (.text "vars", .list (ran.args.map fun a => (ran.store.expand a).describe))]

/-- The result of a run can be described exactly if its arguments can. -/
theorem callResult_eq (ran : Ran) (v : Value) :
    (ran.Described → ran.store.callResult v ran.args = .ok (ran.result v))
      ∧ (¬ ran.Described → ran.store.callResult v ran.args = .error .endless) := by
  have hall : ((ran.args.map ran.store.expand).all Value.isWhole) = true ↔ ran.Described := by
    rw [List.all_map, List.all_eq_true]
    rfl
  unfold Store.callResult
  constructor
  · intro h
    rw [if_pos (hall.mpr h), List.map_map]
    rfl
  · intro h
    rw [if_neg (mt hall.mp h)]

end Ran

namespace Entity

variable {e : Entity} {c : Closure}

/-- In a store, the call of an object that runs a closure runs it. -/
theorem callWith_closure (h : Table.get? executeName e.methods = some (.closure c))
    (follow : Entity → StateM Store (Except Error Value)) (args : List Value) (s : Store) :
    (Store.callWith follow e executeName args s).1
      = let ended := c.run (c.globals s).1 args (c.globals s).2
        Ran.answer e.id ⟨ended.1, args, ended.2⟩ := by
  unfold Store.callWith
  rw [h]
  show (StateT.bind c.globals _ s).1 = _
  unfold StateT.bind
  cases c.globals s with
  | mk globals s₁ =>
    show (StateT.bind (c.run globals args) _ s₁).1 = _
    unfold StateT.bind
    dsimp only
    cases c.run globals args s₁ with
    | mk outcome s₂ =>
      cases outcome with
      | ok v => rfl
      | error stop =>
        cases stop with
        | fault f => rfl
        | endless => rfl

/-- An object that runs a closure gives what the run leaves. -/
theorem call_closure (h : Table.get? executeName e.methods = some (.closure c))
    (args : List Value) : e.call executeName args = (c.runOn args).answer e.id := by
  show (Store.callFrom _ e executeName (Value.placeList args Store.empty).1
    (Value.placeList args Store.empty).2).1 = _
  rw [Store.callFrom, callWith_closure h]
  rfl

/-- An object without operations cannot be executed. -/
theorem call_missing (h : e.methods = []) (args : List Value) :
    e.call executeName args = .error (.operationNotFound e.id executeName) := by
  show (Store.callFrom _ e executeName (Value.placeList args Store.empty).1
    (Value.placeList args Store.empty).2).1 = _
  rw [Store.callFrom, Store.callWith, h]
  rfl

/-- The parameters of an object are those of its closure. -/
theorem parameters_closure (h : Table.get? executeName e.methods = some (.closure c)) :
    e.parameters = c.parameters := by
  rw [parameters, Store.parametersOf, h]
  rfl

theorem parameters_missing (h : e.methods = []) : e.parameters = [] := by
  rw [parameters, Store.parametersOf, h]
  rfl

end Entity
/-! ## The request -/

/-- The input that may be bound: what the router does not take. -/
def passedOn (es : List (Value × Value)) : List (Value × Value) :=
  es.filter fun e => !reservedParameters.any fun r => e.1.equal (.text r)

/-- The parameters of a request are passed on, without the reserved one. -/
theorem inputOf_dict (es : List (Value × Value)) : inputOf (.dict es) = .ok (passedOn es) := by
  cases es with
  | nil => rfl
  | cons e es => rfl

/-- Can the input be bound to the parameters of the closure?  No mapping that one of them gets has a
    key that cannot be written. -/
def Closure.Takes (c : Closure) (input : List (Value × Value)) : Prop :=
  ∀ p ∈ c.parameters, ((Value.lookup? p input).getD .null).nameable = true

namespace Registry

/-- The method by which a request is answered. -/
def methodOf (method : String) : String :=
  String.ofList (upper method.toList)

/-- The type tag of the variables that the input becomes: the method in lower case, or the tag of
    the settings if the method is empty. -/
def inputType (r : Registry) (method : String) : Value :=
  let type := Value.text (String.ofList (lower (upper method.toList)))
  if type.truthy then type else r.settings.sourceType

/-- The run of a closure that a request to its object makes. -/
def runFor (r : Registry) (method : String) (es : List (Value × Value)) (c : Closure) : Ran :=
  c.runOn (bindParameters c.parameters (passedOn es) (r.inputType method))

/-- How a request goes, and its response: no object answers; the one that does has nothing to call;
    its closure returns or fails; or the closure does not take the input, its run has no end, an
    argument contains itself behind it, or the message of its fault cannot be written. -/
inductive Course (r : Registry) (path method : String) (es : List (Value × Value)) :
    Except Error (Response × List LogLine) → Prop
  | notFound : (∀ o ∈ r.objects, ¬ o.2.Answers path (methodOf method)) →
    Course r path method es (.ok (.failure 404 "Not Found", []))
  | notCallable {e : Entity} {log : List LogLine} : r.Handles path (methodOf method) e →
    e.methods = [] →
    Course r path method es
      (.ok (.failure 500 (Error.operationNotFound e.id executeName).message, log))
  | returned {e : Entity} {c : Closure} {v : Value} : r.Handles path (methodOf method) e →
    Table.get? executeName e.methods = some (.closure c) → c.Takes (passedOn es) →
    (r.runFor method es c).outcome = .ok v → (r.runFor method es c).Described →
    Course r path method es (.ok (.result ((r.runFor method es c).result v), []))
  | failed {e : Entity} {c : Closure} {f : Script.Fault} {text : String} {log : List LogLine} :
    r.Handles path (methodOf method) e → Table.get? executeName e.methods = some (.closure c) →
    c.Takes (passedOn es) → (r.runFor method es c).outcome = .error (.fault f) →
    f.message = .said text →
    Course r path method es
      (.ok (.failure 500 (Error.invocation e.id executeName f.kind text).message, log))
  | untaken {e : Entity} {c : Closure} : r.Handles path (methodOf method) e →
    Table.get? executeName e.methods = some (.closure c) → ¬ c.Takes (passedOn es) →
    Course r path method es (.error (.unwritable .tooManyDigits))
  | unending {e : Entity} {c : Closure} : r.Handles path (methodOf method) e →
    Table.get? executeName e.methods = some (.closure c) → c.Takes (passedOn es) →
    (r.runFor method es c).outcome = .error .endless → Course r path method es (.error .endless)
  | undescribed {e : Entity} {c : Closure} {v : Value} : r.Handles path (methodOf method) e →
    Table.get? executeName e.methods = some (.closure c) → c.Takes (passedOn es) →
    (r.runFor method es c).outcome = .ok v → ¬ (r.runFor method es c).Described →
    Course r path method es (.error .endless)
  | unsaid {e : Entity} {c : Closure} {f : Script.Fault} {w : Json.WriteError} :
    r.Handles path (methodOf method) e → Table.get? executeName e.methods = some (.closure c) →
    c.Takes (passedOn es) → (r.runFor method es c).outcome = .error (.fault f) →
    f.message = .unwritable w → Course r path method es (.error (.unwritable w))

variable {r : Registry} {path method : String} {e : Entity} {es : List (Value × Value)}

/-- The response by the route that is found. -/
theorem respond_eq (r : Registry) (path method : String) (es : List (Value × Value)) :
    r.respond path method (.dict es)
      = match r.routes.find? fun ρ => ρ.path == path && ρ.method == methodOf method with
        | none => .ok (.failure 404 "Not Found", [])
        | some ρ => match r.answer ρ.handler (passedOn es)
            (.text (String.ofList (lower (upper method.toList)))) with
          | .ok v => .ok (.result v, [])
          | .error e =>
            if e.isAnswered then .ok (.failure 500 e.message, [⟨.error, .requests,
              methodOf method ++ " " ++ path ++ " failed: " ++ e.message⟩])
            else .error e := by
  unfold respond
  rw [inputOf_dict]
  rfl

/-- An object without operations answers that it has none. -/
theorem answer_missing (h : e.methods = []) (input : List (Value × Value)) (type : Value) :
    r.answer e input type = .error (.operationNotFound e.id executeName) := by
  unfold answer arguments
  rw [Entity.parameters_missing h]
  exact Entity.call_missing h []

/-- An object that runs a closure answers what the run leaves, if the closure takes the input. -/
theorem answer_closure {c : Closure} (h : Table.get? executeName e.methods = some (.closure c)) :
    (c.Takes (passedOn es) →
      r.answer e (passedOn es) (.text (String.ofList (lower (upper method.toList))))
        = (r.runFor method es c).answer e.id)
    ∧ (¬ c.Takes (passedOn es) →
      r.answer e (passedOn es) (.text (String.ofList (lower (upper method.toList))))
        = .error (.unwritable .tooManyDigits)) := by
  unfold answer arguments
  rw [Entity.parameters_closure h]
  unfold bindInput
  dsimp only
  have htakes : (c.parameters.all fun p => ((Value.lookup? p (passedOn es)).getD .null).nameable)
      = true ↔ c.Takes (passedOn es) := List.all_eq_true
  constructor
  · intro ht
    rw [if_pos (htakes.mpr ht)]
    exact Entity.call_closure h _
  · intro ht
    rw [if_neg (mt htakes.mp ht)]
    rfl

/-- **How a request goes.** -/
theorem course_of_request {settings : Settings} {ss : List (List Char)}
    (hr : Reached settings ss r) (path method : String) (es : List (Value × Value)) :
    Course r path method es (r.respond path method (.dict es)) := by
  by_cases hanswers : ∃ o ∈ r.objects, o.2.Answers path (methodOf method)
  · obtain ⟨o, ho, hanswers⟩ := hanswers
    obtain ⟨e, he⟩ := exists_handles ho hanswers
    obtain ⟨id, hmem⟩ := he.mem
    obtain ⟨ρ, hfind, rfl⟩ := he.route
    rw [respond_eq, hfind]
    dsimp only
    rcases hr.methods hmem with hnone | ⟨c, _, _, -, hc⟩
    · rw [answer_missing hnone]
      exact .notCallable he hnone
    · have hget : Table.get? executeName ρ.handler.methods = some (.closure c) := by
        rw [hc]
        rfl
      by_cases htakes : c.Takes (passedOn es)
      · rw [(answer_closure hget).1 htakes, Ran.answer]
        cases houtcome : (r.runFor method es c).outcome with
        | ok v =>
          dsimp only
          by_cases hdescribed : (r.runFor method es c).Described
          · rw [((r.runFor method es c).callResult_eq v).1 hdescribed]
            exact .returned he hget htakes houtcome hdescribed
          · rw [((r.runFor method es c).callResult_eq v).2 hdescribed]
            exact .undescribed he hget htakes houtcome hdescribed
        | error stop =>
          cases stop with
          | endless => exact .unending he hget htakes houtcome
          | fault f =>
            dsimp only
            rw [Error.ofFault]
            cases hsaid : f.message with
            | said text => exact .failed he hget htakes houtcome hsaid
            | unwritable w => exact .unsaid he hget htakes houtcome hsaid
      · rw [(answer_closure hget).2 htakes]
        exact .untaken he hget htakes
  · have hnone : ∀ o ∈ r.objects, ¬ o.2.Answers path (methodOf method) :=
      fun o ho h => hanswers ⟨o, ho, h⟩
    rw [respond_eq, find?_routes_eq_none hnone]
    exact .notFound hnone

/-- Does a request leave the closure without a response?  It does not take the input, its run has no
    end, it returns with an argument that contains itself, or the message of its fault cannot be
    written. -/
def Breaks (r : Registry) (method : String) (es : List (Value × Value)) (c : Closure) : Prop :=
  ¬ c.Takes (passedOn es)
    ∨ (r.runFor method es c).outcome = .error .endless
    ∨ (∃ v, (r.runFor method es c).outcome = .ok v ∧ ¬ (r.runFor method es c).Described)
    ∨ ∃ f w, (r.runFor method es c).outcome = .error (.fault f) ∧ f.message = .unwritable w

/-- Does the closure take the input of a request and return, with arguments that can be described? -/
def Returns (r : Registry) (method : String) (es : List (Value × Value)) (c : Closure) : Prop :=
  c.Takes (passedOn es) ∧ (∃ v, (r.runFor method es c).outcome = .ok v)
    ∧ (r.runFor method es c).Described

/-- A run with a value that can be described does not break the request. -/
theorem not_breaks_of_ok {r : Registry} {method : String} {es : List (Value × Value)} {c : Closure}
    {v : Value} (htakes : c.Takes (passedOn es)) (hv : (r.runFor method es c).outcome = .ok v)
    (hdescribed : (r.runFor method es c).Described) : ¬ r.Breaks method es c := by
  rintro (hnot | hend | ⟨_, -, hnot⟩ | ⟨f, w, hf, -⟩)
  · exact hnot htakes
  · rw [hv] at hend
    cases hend
  · exact hnot hdescribed
  · rw [hv] at hf
    cases hf

/-- A fault that can be put in words does not break the request. -/
theorem not_breaks_of_fault {r : Registry} {method : String} {es : List (Value × Value)} {c : Closure}
    {f : Script.Fault} {text : String} (htakes : c.Takes (passedOn es))
    (hf : (r.runFor method es c).outcome = .error (.fault f)) (hsaid : f.message = .said text) :
    ¬ r.Breaks method es c := by
  rintro (hnot | hend | ⟨v, hv, -⟩ | ⟨f', w, hf', hw⟩)
  · exact hnot htakes
  · rw [hf] at hend
    cases hend
  · rw [hf] at hv
    cases hv
  · rw [hf] at hf'
    cases hf'
    rw [hsaid] at hw
    cases hw

/-- The requests without a response are those that break the closure of their handler. -/
theorem Course.error_iff {answer : Except Error (Response × List LogLine)}
    (h : Course r path method es answer) : (∃ x, answer = .error x) ↔
      ∃ e c, r.Handles path (methodOf method) e
        ∧ Table.get? executeName e.methods = some (.closure c) ∧ r.Breaks method es c := by
  have hok : ∀ a : Response × List LogLine, ¬ ∃ x, (.ok a : Except Error _) = .error x := by
    rintro a ⟨x, hx⟩
    cases hx
  cases h with
  | untaken he hc hnot => exact iff_of_true ⟨_, rfl⟩ ⟨_, _, he, hc, .inl hnot⟩
  | unending he hc _ hend => exact iff_of_true ⟨_, rfl⟩ ⟨_, _, he, hc, .inr (.inl hend)⟩
  | undescribed he hc _ hv hnot =>
    exact iff_of_true ⟨_, rfl⟩ ⟨_, _, he, hc, .inr (.inr (.inl ⟨_, hv, hnot⟩))⟩
  | unsaid he hc _ hf hw =>
    exact iff_of_true ⟨_, rfl⟩ ⟨_, _, he, hc, .inr (.inr (.inr ⟨_, _, hf, hw⟩))⟩
  | notFound hnone =>
    refine iff_of_false (hok _) ?_
    rintro ⟨e, _, he, -⟩
    obtain ⟨id, hid⟩ := he.mem
    exact hnone _ hid he.answers
  | notCallable he hnone =>
    refine iff_of_false (hok _) ?_
    rintro ⟨e', c, he', hc, -⟩
    obtain rfl := he.unique he'
    rw [hnone] at hc
    cases hc
  | returned he hc htakes hv hdescribed =>
    refine iff_of_false (hok _) ?_
    rintro ⟨e', c', he', hc', hbreaks⟩
    obtain rfl := he.unique he'
    obtain rfl := Method.closure.inj (Option.some.inj (hc.symm.trans hc'))
    exact not_breaks_of_ok htakes hv hdescribed hbreaks
  | failed he hc htakes hf hsaid =>
    refine iff_of_false (hok _) ?_
    rintro ⟨e', c', he', hc', hbreaks⟩
    obtain rfl := he.unique he'
    obtain rfl := Method.closure.inj (Option.some.inj (hc.symm.trans hc'))
    exact not_breaks_of_fault htakes hf hsaid hbreaks

/-- A response tells by its status how the request went. -/
theorem Course.status_cases {response : Response} {log : List LogLine}
    (h : Course r path method es (.ok (response, log))) :
    (response.status = 404 ∧ ∀ o ∈ r.objects, ¬ o.2.Answers path (methodOf method))
      ∨ (response.status = 200 ∧ ∃ e c, r.Handles path (methodOf method) e
        ∧ Table.get? executeName e.methods = some (.closure c) ∧ r.Returns method es c)
      ∨ (response.status = 500 ∧ ∃ e, r.Handles path (methodOf method) e
        ∧ ∀ c, Table.get? executeName e.methods = some (.closure c) → ¬ r.Returns method es c) := by
  cases h with
  | notFound hnone => exact .inl ⟨rfl, hnone⟩
  | notCallable he hnone =>
    refine .inr (.inr ⟨rfl, _, he, fun c hc => ?_⟩)
    rw [hnone] at hc
    cases hc
  | returned he hc htakes hv hdescribed =>
    exact .inr (.inl ⟨rfl, _, _, he, hc, htakes, ⟨_, hv⟩, hdescribed⟩)
  | failed he hc _ hf =>
    refine .inr (.inr ⟨rfl, _, he, fun c' hc' => ?_⟩)
    obtain rfl : _ = c' := Method.closure.inj (Option.some.inj (hc.symm.trans hc'))
    rintro ⟨-, ⟨v, hv⟩, -⟩
    rw [hf] at hv
    cases hv

/-- **What requests are answered, and how.**  In a registry that passes and resets have filled, the
    objects stand in the order in which their ids were first declared since the last reset, and the
    first one that answers handles the request.  A request has no response exactly if its handler
    has a closure that breaks on it.  A response has the status 404 exactly if no object answers,
    200 exactly if the handler has a closure that returns, and else 500. -/
theorem respond_status {settings : Settings} {ss : List (List Char)} (hr : Reached settings ss r)
    (path method : String) (es : List (Value × Value)) :
    Table.names r.objects = declaredIds settings ss
      ∧ ((∃ x, r.respond path method (.dict es) = .error x) ↔
        ∃ e c, r.Handles path (methodOf method) e
          ∧ Table.get? executeName e.methods = some (.closure c) ∧ r.Breaks method es c)
      ∧ ∀ response log, r.respond path method (.dict es) = .ok (response, log) →
        (response.status = 404 ↔ ∀ o ∈ r.objects, ¬ o.2.Answers path (methodOf method))
          ∧ (response.status = 200 ↔ ∃ e c, r.Handles path (methodOf method) e
            ∧ Table.get? executeName e.methods = some (.closure c) ∧ r.Returns method es c)
          ∧ (response.status = 500 ↔ ∃ e, r.Handles path (methodOf method) e
            ∧ ∀ c, Table.get? executeName e.methods = some (.closure c) →
              ¬ r.Returns method es c) := by
  have hcourse := course_of_request hr path method es
  refine ⟨hr.follows.names, hcourse.error_iff, ?_⟩
  intro response log hresponse
  rw [hresponse] at hcourse
  -- the three conditions exclude one another, as a request has one handler
  have hfound : ∀ e, r.Handles path (methodOf method) e →
      ¬ ∀ o ∈ r.objects, ¬ o.2.Answers path (methodOf method) := by
    intro e he hnone
    obtain ⟨id, hid⟩ := he.mem
    exact hnone _ hid he.answers
  have hreturns : (∃ e c, r.Handles path (methodOf method) e
        ∧ Table.get? executeName e.methods = some (.closure c) ∧ r.Returns method es c) →
      ¬ ∃ e, r.Handles path (methodOf method) e
        ∧ ∀ c, Table.get? executeName e.methods = some (.closure c) → ¬ r.Returns method es c := by
    rintro ⟨e, c, he, hc, hreturns⟩ ⟨e', he', hnot⟩
    obtain rfl := he.unique he'
    exact hnot c hc hreturns
  rcases hcourse.status_cases with ⟨hs, hnone⟩ | ⟨hs, hdone⟩ | ⟨hs, hnot⟩
  · rw [hs]
    refine ⟨iff_of_true rfl hnone, iff_of_false (by decide) ?_, iff_of_false (by decide) ?_⟩
    · rintro ⟨e, _, he, -⟩
      exact hfound e he hnone
    · rintro ⟨e, he, -⟩
      exact hfound e he hnone
  · rw [hs]
    obtain ⟨e, _, he, -⟩ := id hdone
    exact ⟨iff_of_false (by decide) (hfound e he), iff_of_true rfl hdone,
      iff_of_false (by decide) (hreturns hdone)⟩
  · rw [hs]
    obtain ⟨e, he, -⟩ := id hnot
    exact ⟨iff_of_false (by decide) (hfound e he),
      iff_of_false (by decide) (fun hdone => hreturns hdone hnot), iff_of_true rfl hnot⟩

/-- A route that is shadowed by an object whose id was declared first, though it was declared again
    and tagged later: its body returns for one input and fails for another. -/
theorem respond_status_shadowed :
    let first := (empty .default).compile
      "let f = () => 1; let g = () => 2; tag g as api, path:/a".toList false
    let second := first.registry.compile "let f = (x) => x[0]; tag f as api, path:/a".toList false
    let r := second.registry
    ∃ ss, Reached .default ss r ∧ Table.names r.objects = ["f", "g"]
      ∧ (∃ e c, r.Handles "/a" "GET" e ∧ e.id = "f"
        ∧ Table.get? executeName e.methods = some (.closure c)
        ∧ r.Returns "get" [(.text "x", .text "hi")] c)
      ∧ ∃ e, r.Handles "/a" "GET" e ∧ ∀ c,
        Table.get? executeName e.methods = some (.closure c) → ¬ r.Returns "get" [] c := by
  intro first second r
  -- one evaluation for all, so that the texts are compiled once
  have hrun : first.outcome.toOption.isSome = true ∧ second.outcome.toOption.isSome = true
      ∧ Table.names r.objects = ["f", "g"]
      ∧ (r.objects.find? fun o => o.2.fits "/a" "GET").map (fun o => o.2.id) = some "f"
      ∧ (r.respond "/a" "get" (.dict [(.text "x", .text "hi")])).toOption.map
        (fun a => a.1.status) = some 200
      ∧ (r.respond "/a" "get" (.dict [])).toOption.map (fun a => a.1.status) = some 500 := by
    decide +kernel
  obtain ⟨hfirst, hsecond, hnames, hid, hreturned, hfailed⟩ := hrun
  obtain ⟨_, hfirst⟩ := exists_of_toOption hfirst
  obtain ⟨_, hsecond⟩ := exists_of_toOption hsecond
  have hreached := Reached.compile _ false (.compile _ false .empty hfirst) hsecond
  have hstatus : ∀ {es : List (Value × Value)} {n : Int},
      (r.respond "/a" "get" (.dict es)).toOption.map (fun a => a.1.status) = some n →
      ∃ response log, r.respond "/a" "get" (.dict es) = .ok (response, log)
        ∧ response.status = n := by
    intro es n h
    cases hresponse : r.respond "/a" "get" (.dict es) with
    | error x =>
      rw [hresponse] at h
      cases h
    | ok a =>
      rw [hresponse] at h
      exact ⟨a.1, a.2, rfl, Option.some.inj h⟩
  have hmethod : methodOf "get" = "GET" := by decide
  have hhandler : ∀ {e : Entity}, r.Handles "/a" "GET" e → e.id = "f" := by
    intro e he
    obtain ⟨id, hfind⟩ := handles_iff.mp he
    rw [hfind] at hid
    exact Option.some.inj hid
  obtain ⟨_, _, hresponse, hreturned⟩ := hstatus hreturned
  obtain ⟨_, _, hresponse', hfailed⟩ := hstatus hfailed
  have hreturns := ((respond_status hreached "/a" "get" _).2.2 _ _ hresponse).2.1.mp hreturned
  have hnot := ((respond_status hreached "/a" "get" _).2.2 _ _ hresponse').2.2.mp hfailed
  rw [hmethod] at hreturns hnot
  obtain ⟨e, c, he, hc, hreturns⟩ := hreturns
  exact ⟨_, hreached, hnames, ⟨e, c, he, hhandler he, hc, hreturns⟩, hnot⟩

/-- The fault by which the closure of an object ends for a request, if it ends by one. -/
def faultOf? (r : Registry) (method : String) (es : List (Value × Value)) (e : Entity) :
    Option Script.Fault :=
  match Table.get? executeName e.methods with
  | some (.closure c) => match (r.runFor method es c).outcome with
    | .error (.fault f) => some f
    | _ => none
  | _ => none

/-- A fault of a request is one of the run of its closure. -/
theorem outcome_of_faultOf? {f : Script.Fault} (h : r.faultOf? method es e = some f) :
    ∃ c, Table.get? executeName e.methods = some (.closure c)
      ∧ (r.runFor method es c).outcome = .error (.fault f) := by
  unfold faultOf? at h
  split at h
  · rename_i c hc
    split at h
    · rename_i f' hf
      exact ⟨c, hc, hf.trans (congrArg _ (congrArg _ (Option.some.inj h)))⟩
    · cases h
  · cases h

/-- A body that ends by looking up a number with too many digits has no response. -/
theorem respond_not_answered :
    let c := (empty .default).compile
      "let f = () => dict()[10 ** 5000]; tag f as api, path:/f".toList false
    (∃ ss, Reached .default ss c.registry)
      ∧ (∃ e k f, c.registry.Handles "/f" "GET" e
        ∧ Table.get? executeName e.methods = some (.closure k)
        ∧ (c.registry.runFor "GET" [] k).outcome = .error (.fault f) ∧ f.kind = .key)
      ∧ ∃ x, c.registry.respond "/f" "GET" (.dict []) = .error x := by
  intro c
  have hrun : c.outcome.toOption.isSome = true
      ∧ ((c.registry.objects.find? fun o => o.2.fits "/f" "GET").bind fun o =>
        c.registry.faultOf? "GET" [] o.2).map Script.Fault.kind = some .key
      ∧ (c.registry.respond "/f" "GET" (.dict [])).toOption.isSome = false := by
    decide +kernel
  obtain ⟨hok, hfault, hnone⟩ := hrun
  obtain ⟨_, hok⟩ := exists_of_toOption hok
  obtain ⟨f, hf, hkind⟩ := Option.map_eq_some_iff.mp hfault
  obtain ⟨o, ho, hf⟩ := Option.bind_eq_some_iff.mp hf
  obtain ⟨k, hk, houtcome⟩ := outcome_of_faultOf? hf
  refine ⟨⟨_, .compile _ false .empty hok⟩,
    ⟨o.2, k, f, handles_iff.mpr ⟨o.1, ho⟩, hk, houtcome, hkind⟩, ?_⟩
  cases hresponse : c.registry.respond "/f" "GET" (.dict []) with
  | error x => exact ⟨x, rfl⟩
  | ok a =>
    rw [hresponse] at hnone
    cases hnone

end Registry
end LetTag
