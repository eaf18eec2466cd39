/-
  Which responses can be sent.

  The body of a response is described and written as JSON, in the order of its keys, and a value that
  JSON has no form for is written as its text.  So nearly everything has a JSON text: variables and
  objects have one by their descriptions, bytes and functions as texts.  What is left out are the
  keys of dictionaries, which have to be texts, numbers, truth values or null, as nothing is made of
  them, and the integers with too many digits.  `Value.sendable` computes whether a value has a text.

  What is sent of a request is the value that the handler's closure returned, and the arguments as the
  run has left them; a response that says what went wrong is always sent (`json_of_response`).
-/
import LetTag.Proofs.Encoding

namespace LetTag

open Json Number

/-! ## Values that have a text -/

/-- Can the scalar be sent? -/
def Scalar.sendable : Scalar → Bool
  | .int n => withinDigitLimit n
  | _ => true

namespace Value

mutual

/-- Can the value be sent?  Not if it contains itself. -/
def sendable : Value → Bool
  | scalar s => s.sendable
  | list items => listSendable items
  | tuple items => listSendable items
  | dict entries => (entries.map Prod.fst).all keyCarried && entriesSendable entries
  | ref _ => false
  | _ => true

/-- Can the items be sent? -/
def listSendable : List Value → Bool
  | [] => true
  | x :: xs => x.sendable && listSendable xs

/-- Can what the keys lead to be sent? -/
def entriesSendable : List (Value × Value) → Bool
  | [] => true
  | (_, v) :: es => v.sendable && entriesSendable es

end

/-- The descriptions of items can be sent if each of them can. -/
theorem listSendable_describeList (xs : List Value) :
    listSendable (describeList xs) = true ↔ ∀ x ∈ xs, x.describe.sendable = true := by
  induction xs with
  | nil => exact iff_of_true rfl fun _ hx => absurd hx List.not_mem_nil
  | cons x xs ih => rw [describeList, listSendable, Bool.and_eq_true, ih, List.forall_mem_cons]

end Value

namespace Json

open Value

/-- A scalar is written exactly if it can be sent. -/
theorem exists_scalar_response_iff (s : Scalar) :
    (∃ t, scalar responseStyle s = .ok t) ↔ s.sendable = true := by
  cases s with
  | int n => exact exists_keyText_iff (.int n)
  | _ => exact iff_of_true ⟨_, rfl⟩ rfl

/-- A mapping is written entry by entry, in the order that it has. -/
theorem braced_response_eq (level : Nat) (entries : List (Value × List Char)) :
    braced responseStyle level entries = entries.mapM entryText >>= fun items =>
      .ok (bracketed responseStyle level '\x7b' '\x7d' items) := rfl

/-- Whether entries can be written depends on each of their keys. -/
theorem exists_braced_response_iff (level : Nat) (entries : List (Value × List Char)) :
    (∃ t, braced responseStyle level entries = .ok t)
      ↔ (entries.map Prod.fst).all keyCarried = true := by
  rw [braced_response_eq, exists_bind_ok_iff, exists_mapM_iff, List.all_map, List.all_eq_true]
  exact forall₂_congr fun e _ => exists_entryText_iff e

mutual

/-- **A value without pointers has a text** exactly if it can be sent. -/
theorem exists_render_response_iff : ∀ (level : Nat) {v : Value}, v.isWhole = true →
    ((∃ t, render responseStyle level v = .ok t) ↔ v.sendable = true)
  | _, .scalar s, _ => exists_scalar_response_iff s
  | level, .list xs, h | level, .tuple xs, h => by
    rw [render, exists_bind_ok_iff, sendable, exists_renderList_response_iff (level + 1) h]
  | level, .dict es, h => by
    rw [exists_render_dict_iff (·.all keyCarried) (exists_braced_response_iff level), sendable,
      Bool.and_eq_true, exists_renderEntries_response_iff (level + 1) h]
  -- a description holds none of these but records, and JSON has them as texts
  | _, .var .., _ | _, .object .., _ | _, .record .., _ => iff_of_true ⟨_, rfl⟩ rfl
  | _, .ref _, h => nomatch h

/-- All items are written exactly if all of them can be sent. -/
theorem exists_renderList_response_iff : ∀ (level : Nat) {xs : List Value}, listWhole xs = true →
    ((∃ ts, renderList responseStyle level xs = .ok ts) ↔ listSendable xs = true)
  | _, [], _ => iff_of_true ⟨[], rfl⟩ rfl
  | level, x :: xs, h => by
    obtain ⟨hx, hxs⟩ := Bool.and_eq_true_iff.mp h
    rw [renderList, exists_both_iff, listSendable, Bool.and_eq_true,
      exists_render_response_iff level hx, exists_renderList_response_iff level hxs]

/-- The entries of a mapping are written exactly if they can be sent, keys included. -/
theorem exists_renderEntries_response_iff : ∀ (level : Nat) {es : List (Value × Value)},
    entriesWhole es = true →
    ((∃ ts, renderEntries responseStyle level es = .ok ts) ↔ entriesSendable es = true)
  | _, [], _ => iff_of_true ⟨[], rfl⟩ rfl
  | level, (k, v) :: es, h => by
    obtain ⟨hv, hes⟩ := Bool.and_eq_true_iff.mp h
    rw [renderEntries, exists_both_iff, entriesSendable, Bool.and_eq_true,
      exists_render_response_iff level hv, exists_renderEntries_response_iff level hes]

end

end Json

open Value

/-! ## Responses -/

/-- Can a response be sent that gives the value which the run returned?  The value and the arguments
    can, by their descriptions.  The arguments are described twice, for the result and for the
    response. -/
def Ran.Sendable (ran : Ran) (v : Value) : Prop :=
  (ran.store.expand v).describe.sendable = true
    ∧ ∀ a ∈ ran.args, (ran.store.expand a).describe.describe.sendable = true

namespace Response

/-- The response has a JSON text exactly if what it says can be sent. -/
theorem exists_json_iff {response : Response} (h : response.body.describe.isWhole = true) :
    (∃ t, response.json = .ok t) ↔ response.body.describe.sendable = true :=
  exists_render_response_iff 0 h

theorem sendable_failure (status : Int) (message : String) :
    (failure status message).body.describe.sendable = true := rfl

/-- A result can be sent exactly if the value and the arguments behind the run can. -/
theorem sendable_result_iff (ran : Ran) (v : Value) :
    (result (ran.result v)).body.describe.sendable = true ↔ ran.Sendable v := by
  have hbody : (result (ran.result v)).body.describe = dict [(text "status", text "ok"),
      (text "result", dict [(text "result", (ran.store.expand v).describe),
        (text "vars", list (describeList (ran.args.map fun a => (ran.store.expand a).describe)))])] :=
    rfl
  rw [hbody]
  show (true && (true && ((true && ((ran.store.expand v).describe.sendable && (listSendable
    (describeList (ran.args.map fun a => (ran.store.expand a).describe)) && true))) && true)))
      = true ↔ _
  simp only [Bool.true_and, Bool.and_true, Bool.and_eq_true, listSendable_describeList,
    List.forall_mem_map]
  rfl

end Response

namespace Registry

/-- **Which responses can be sent.**  A response in which nothing contains itself has a JSON text
    exactly if the value that the closure of the request's handler returned, and the arguments as its
    run has left them, can be sent.  In particular it has one if there is no handler, or nothing to
    call, or if the closure failed. -/
theorem json_of_response {settings : Settings} {ss : List (List Char)} {r : Registry}
    (hr : Reached settings ss r) (path method : String) (es : List (Value × Value))
    {response : Response} {log : List LogLine}
    (h : r.respond path method (.dict es) = .ok (response, log))
    (hwhole : response.body.describe.isWhole = true) :
    (∃ t, response.json = .ok t) ↔ ∀ e c v, r.Handles path (methodOf method) e →
      Table.get? executeName e.methods = some (.closure c) →
      (r.runFor method es c).outcome = .ok v → (r.runFor method es c).Sendable v := by
  rw [Response.exists_json_iff hwhole]
  have hcourse := course_of_request hr path method es
  rw [h] at hcourse
  cases hcourse with
  | notFound hnone =>
    refine iff_of_true (Response.sendable_failure _ _) fun e _ _ he => ?_
    obtain ⟨id, hid⟩ := he.mem
    exact absurd he.answers (hnone _ hid)
  | notCallable he hnone =>
    refine iff_of_true (Response.sendable_failure _ _) fun e' c _ he' hc => ?_
    obtain rfl := he.unique he'
    rw [hnone] at hc
    cases hc
  | failed he hc _ hf =>
    refine iff_of_true (Response.sendable_failure _ _) fun e' c' v he' hc' hv => ?_
    obtain rfl := he.unique he'
    obtain rfl := Method.closure.inj (Option.some.inj (hc.symm.trans hc'))
    rw [hf] at hv
    cases hv
  | returned he hc _ hv =>
    rw [Response.sendable_result_iff]
    -- a request has one handler, and the handler makes one run
    constructor
    · intro hsendable e' c' v' he' hc' hv'
      obtain rfl := he.unique he'
      obtain rfl := Method.closure.inj (Option.some.inj (hc.symm.trans hc'))
      obtain rfl := Except.ok.inj (hv.symm.trans hv')
      exact hsendable
    · intro hsendable
      exact hsendable _ _ _ he hc hv

/-- A response with that status that contains nothing which contains itself. -/
theorem exists_respond {r : Registry} {path method : String} {es : List (Value × Value)}
    {status : Int} {sent : Bool} (h : (r.respond path method (.dict es)).toOption.map (fun a =>
      (a.1.status, a.1.body.describe.isWhole, a.1.json.toOption.isSome)) = some (status, true, sent)) :
    ∃ response log, r.respond path method (.dict es) = .ok (response, log)
      ∧ response.status = status ∧ response.body.describe.isWhole = true
      ∧ response.json.toOption.isSome = sent := by
  obtain ⟨⟨response, log⟩, hsome, hparts⟩ := Option.map_eq_some_iff.mp h
  obtain ⟨hstatus, hparts⟩ := Prod.mk.inj hparts
  obtain ⟨hwhole, hsent⟩ := Prod.mk.inj hparts
  exact ⟨response, log, ok_of_toOption hsome, hstatus, hwhole, hsent⟩

/-- A list with an object, a tuple and bytes, and the object again under a key. -/
theorem json_of_response_mixed :
    let c := (empty .default).compile
      "let f = (x) => [x, (1, None), b'ab', dict(k=x)]; tag f as api, path:/f".toList false
    let es := [(text "x", dict [(int 1, list [null])])]
    (∃ ss, Reached .default ss c.registry) ∧ ∃ response log,
      c.registry.respond "/f" "get" (dict es) = .ok (response, log) ∧ response.status = 200
      ∧ response.body.describe.isWhole = true ∧ (∃ t, response.json = .ok t)
      ∧ ∀ e k v, c.registry.Handles "/f" (methodOf "get") e →
        Table.get? executeName e.methods = some (.closure k) →
        (c.registry.runFor "get" es k).outcome = .ok v →
        (c.registry.runFor "get" es k).Sendable v := by
  intro c es
  have hrun : c.outcome.toOption.isSome = true
      ∧ (c.registry.respond "/f" "get" (dict es)).toOption.map (fun a =>
        (a.1.status, a.1.body.describe.isWhole, a.1.json.toOption.isSome))
          = some (200, true, true) := by
    decide +kernel
  obtain ⟨hok, hrespond⟩ := hrun
  obtain ⟨_, hok⟩ := exists_of_toOption hok
  have hreached := Reached.compile _ false .empty hok
  obtain ⟨response, log, hrespond, hstatus, hwhole, hsent⟩ := exists_respond hrespond
  have hjson := exists_of_toOption hsent
  exact ⟨⟨_, hreached⟩, response, log, hrespond, hstatus, hwhole, hjson,
    (json_of_response hreached "/f" "get" es hrespond hwhole).mp hjson⟩

/-- A dictionary with a tuple for a key is a result that cannot be sent. -/
theorem json_of_response_tuple_key :
    let c := (empty .default).compile
      "let f = () => (\x7b(1, 2): 3\x7d); tag f as api, path:/f".toList false
    (∃ ss, Reached .default ss c.registry) ∧ ∃ response log,
      c.registry.respond "/f" "get" (dict []) = .ok (response, log) ∧ response.status = 200
      ∧ response.body.describe.isWhole = true ∧ ¬ ∃ t, response.json = .ok t := by
  intro c
  have hrun : c.outcome.toOption.isSome = true
      ∧ (c.registry.respond "/f" "get" (dict [])).toOption.map (fun a =>
        (a.1.status, a.1.body.describe.isWhole, a.1.json.toOption.isSome))
          = some (200, true, false) := by
    decide +kernel
  obtain ⟨hok, hrespond⟩ := hrun
  obtain ⟨_, hok⟩ := exists_of_toOption hok
  obtain ⟨response, log, hrespond, hstatus, hwhole, hsent⟩ := exists_respond hrespond
  refine ⟨⟨_, .compile _ false .empty hok⟩, response, log, hrespond, hstatus, hwhole, ?_⟩
  rintro ⟨t, ht⟩
  rw [ht] at hsent
  cases hsent

end Registry
end LetTag
