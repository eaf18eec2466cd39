/-
  Calls that are passed on along references.

  The call of an operation that is a reference goes to the `execute` operation of another object, and may
  be passed on from there.  However long the way is, one run of one closure comes of it: the call leaves
  what that run leaves (`Closure.invoked`), the result of `execute` is described once, and a fault is
  reported once, by the object that owns the closure.  An operation whose references lead to no closure
  is not found.  So a call goes where the search for its parameters goes (`LetTag.Proofs.References`).

  Two kinds of runs have no such answer.  The message of a fault may be one that cannot be written, and
  an argument may contain itself behind the run, which leaves nothing to describe.
-/
import LetTag.Proofs.Reconstruction
import LetTag.Proofs.References
import LetTag.Proofs.Requests

namespace LetTag

/-! ## One run of a closure -/

/-- One run of a closure on arguments in the store: of the variables among them it gets the values. -/
def Closure.invoked (c : Closure) (args : List Value) (s : Store) : Ran :=
  let outside := c.globals s
  let ended := c.program.run outside.1 (args.map (Closure.unwrap outside.2)) outside.2
  ⟨ended.1, args, ended.2⟩

/-- What the object with that id gives for a run under the name of an operation: only the result of
    `execute` comes with the descriptions of the arguments. -/
def Ran.reply (id operation : String) (ran : Ran) : Except Error Value :=
  match ran.outcome with
  | .ok v => if operation = executeName then ran.store.callResult v ran.args
    else .ok (ran.store.expand v)
  | .error (.fault f) => .error (.ofFault id operation f)
  | .error .endless => .error .endless

namespace Store

variable {s : Store} {e : Entity} {operation : String} {c : Closure} {places : List Nat} {a : Nat}

/-! ## One step of a call -/

/-- An object that has a closure for the operation runs it, once. -/
theorem callWith_runs (h : Table.get? operation e.methods = some (.closure c))
    (pass : Entity → StateM Store (Except Error Value)) (args : List Value) (s : Store) :
    callWith pass e operation args s
      = ((c.invoked args s).reply e.id operation, (c.invoked args s).store) := by
  unfold callWith Closure.invoked
  rw [h]
  show StateT.bind c.globals _ s = _
  unfold StateT.bind
  cases c.globals s with
  | mk globals s₁ =>
    show StateT.bind (c.run globals args) _ s₁ = _
    unfold StateT.bind Closure.run
    dsimp only
    cases c.program.run globals (args.map (Closure.unwrap s₁)) s₁ with
    | mk outcome s₂ =>
      cases outcome with
      | ok v => rfl
      | error stop =>
        cases stop with
        | fault f => rfl
        | endless => rfl

/-- An object that has a reference passes the call on to an object with `execute`. -/
theorem callWith_reference (h : Table.get? operation e.methods = some (.reference a))
    (pass : Entity → StateM Store (Except Error Value)) (args : List Value) (s : Store) :
    callWith pass e operation args s = match s.entity? a, s.execute? a with
      | some target, some _ => pass target s
      | _, _ => (.error (.operationNotFound e.id operation), s) := by
  unfold callWith
  rw [h]
  show (match s.entity? a, s.execute? a with
    | some target, some _ => pass target
    | _, _ => return .error (.operationNotFound e.id operation) :
      StateM Store (Except Error Value)) s = _
  cases s.entity? a with
  | none => rfl
  | some target => cases s.execute? a <;> rfl

/-- A call of an operation that an object does not have says so, and runs nothing. -/
theorem callWith_missing (h : Table.get? operation e.methods = none)
    (pass : Entity → StateM Store (Except Error Value)) (args : List Value) (s : Store) :
    callWith pass e operation args s = (.error (.operationNotFound e.id operation), s) := by
  unfold callWith
  rw [h]
  rfl

/-! ## The way of a call -/

/-- The object to which references lead through these places, from an object. -/
def holder (s : Store) (e : Entity) (places : List Nat) : Option Entity :=
  match places.getLast? with
  | none => some e
  | some a => s.entity? a

/-- The operation that is called there. -/
def heldAs (operation : String) (places : List Nat) : String :=
  if places = [] then operation else executeName

/-- Whoever is at the end of a chain is found from its second object on. -/
theorem holder_cons {target : Entity} (h : s.entity? a = some target) (places : List Nat) :
    s.holder e (a :: places) = s.holder target places := by
  unfold holder
  cases places with
  | nil => exact h
  | cons b places => rw [List.getLast?_cons_cons, List.getLast?_cons]

/-- Behind the first reference the operation is always `execute`. -/
theorem heldAs_cons (operation : String) (a : Nat) (places : List Nat) :
    heldAs operation (a :: places) = heldAs executeName places := by
  unfold heldAs
  rw [if_neg (List.cons_ne_nil a places), ite_self]

/-- A reference to a place with an operation to call is one to an object that has it. -/
theorem exists_target {m : Method} (h : s.execute? a = some m) :
    ∃ target, s.entity? a = some target ∧ Table.get? executeName target.methods = some m :=
  Option.bind_eq_some_iff.mp h

section

variable (n : Nat) (args : List Value)

/-- A closure is run once, and the reply is made of this run. -/
theorem callFrom_runs (h : Table.get? operation e.methods = some (.closure c)) :
    callFrom n e operation args s
      = ((c.invoked args s).reply e.id operation, (c.invoked args s).store) := by
  cases n with
  | zero => exact callWith_runs h _ args s
  | succ n => exact callWith_runs h _ args s

/-- Without the operation there is no run, however many references may be followed. -/
theorem callFrom_missing (h : Table.get? operation e.methods = none) :
    callFrom n e operation args s = (.error (.operationNotFound e.id operation), s) := by
  cases n with
  | zero => exact callWith_missing h _ args s
  | succ n => exact callWith_missing h _ args s

/-- A reference to an object that can be executed passes the call on to it. -/
theorem callFrom_passes {target : Entity} {m : Method}
    (h : Table.get? operation e.methods = some (.reference a)) (htarget : s.entity? a = some target)
    (hexecute : s.execute? a = some m) :
    callFrom (n + 1) e operation args s = callFrom n target executeName args s := by
  rw [callFrom, callWith_reference h, htarget, hexecute]

/-- A reference to an object that cannot be executed is not followed. -/
theorem callFrom_dangling (h : Table.get? operation e.methods = some (.reference a))
    (hexecute : s.execute? a = none) :
    callFrom (n + 1) e operation args s = (.error (.operationNotFound e.id operation), s) := by
  rw [callFrom, callWith_reference h, hexecute]
  cases s.entity? a <;> rfl

end

/-- A call passed on to a closure runs it for the object that owns it. -/
theorem callFrom_of_path (args : List Value) :
    ∀ {places : List Nat} {n : Nat} {e : Entity} {operation : String},
    s.Path (Table.get? operation e.methods) places (some (.closure c)) → places.length ≤ n →
    ∃ owner, s.holder e places = some owner
      ∧ Table.get? (heldAs operation places) owner.methods = some (.closure c)
      ∧ callFrom n e operation args s = ((c.invoked args s).reply owner.id (heldAs operation places),
        (c.invoked args s).store)
  | [], n, e, operation, h, _ => by
    generalize hm : Table.get? operation e.methods = m at h
    cases h
    exact ⟨e, rfl, hm, callFrom_runs n args hm⟩
  | _ :: _, 0, _, _, _, hn => absurd hn (Nat.not_succ_le_zero _)
  | a :: places, n + 1, e, operation, h, hn => by
    generalize hm : Table.get? operation e.methods = m at h
    cases h with
    | follow h =>
      cases hexecute : s.execute? a with
      | none =>
        rw [hexecute] at h
        cases h.eq_none
      | some next =>
        obtain ⟨target, htarget, hnext⟩ := exists_target hexecute
        -- the rest of the way starts at the operation that the target has
        rw [hexecute, ← hnext] at h
        obtain ⟨owner, howner, howns, hcall⟩ := callFrom_of_path args h (Nat.le_of_succ_le_succ hn)
        rw [callFrom_passes n args hm htarget hexecute, heldAs_cons]
        exact ⟨owner, (holder_cons htarget places).trans howner, howns, hcall⟩

/-- A call passed on to where there is no operation ends at the last object that could be called. -/
theorem callFrom_of_stuck (args : List Value) :
    ∀ {places : List Nat} {n : Nat} {e : Entity} {operation : String},
    s.Path (Table.get? operation e.methods) places none → places.length ≤ n →
    ∃ owner, s.holder e places.dropLast = some owner ∧ callFrom n e operation args s
      = (.error (.operationNotFound owner.id (heldAs operation places.dropLast)), s)
  | [], n, e, operation, h, _ => by
    generalize hm : Table.get? operation e.methods = m at h
    cases h
    exact ⟨e, rfl, callFrom_missing n args hm⟩
  | _ :: _, 0, _, _, _, hn => absurd hn (Nat.not_succ_le_zero _)
  | a :: places, n + 1, e, operation, h, hn => by
    generalize hm : Table.get? operation e.methods = m at h
    cases h with
    | follow h =>
      cases hexecute : s.execute? a with
      | none =>
        -- the reference is the last one: the object itself has nothing to call
        rw [hexecute] at h
        obtain rfl : places = [] := by
          cases h
          rfl
        exact ⟨e, rfl, callFrom_dangling n args hm hexecute⟩
      | some next =>
        obtain ⟨target, htarget, hnext⟩ := exists_target hexecute
        rw [hexecute, ← hnext] at h
        have hne : places ≠ [] := by
          rintro rfl
          rw [hnext] at h
          cases h
        obtain ⟨owner, howner, hcall⟩ := callFrom_of_stuck args h (Nat.le_of_succ_le_succ hn)
        rw [List.dropLast_cons_of_ne_nil hne, callFrom_passes n args hm htarget hexecute, heldAs_cons]
        exact ⟨owner, (holder_cons htarget _).trans howner, hcall⟩

/-! ## Calls of operations -/

/-- Following references from the operation goes round in no circle. -/
def Acyclic (s : Store) (m : Option Method) : Prop :=
  ∀ places last, s.Path m places last → places.Nodup

theorem Path.acyclic {m last : Option Method} (h : s.Path m places last) (hlast : IsEnd last) :
    s.Acyclic m := by
  intro others m' hothers
  obtain ⟨behind, rfl, -⟩ := hothers.rest h hlast
  exact (List.nodup_append.mp (h.nodup hlast)).1

/-- Without a circle there is an end: no path is longer than the store. -/
theorem Acyclic.getsStuck {m : Option Method} (h : s.Acyclic m) (hclosure : ∀ c, ¬ s.Reaches m c) :
    s.GetsStuck m := by
  by_contra hnone
  obtain ⟨places, a, hlength, hpath⟩ := neverEnds_of_not hclosure hnone (s.cells.size + 1)
  have hle := hpath.length_le (h _ _ hpath) (Option.some_ne_none _)
  omega

/-- **A chain that ends in a closure** has it run once, and the object that holds it replies. -/
theorem call_of_path (h : s.Path (Table.get? operation e.methods) places (some (.closure c)))
    (args : List Value) : ∃ owner, s.holder e places = some owner
      ∧ Table.get? (heldAs operation places) owner.methods = some (.closure c)
      ∧ call e operation args s = ((c.invoked args s).reply owner.id (heldAs operation places),
        (c.invoked args s).store) :=
  callFrom_of_path args h (h.length_le_of_isEnd (isEnd_closure c))

/-- **A chain that ends without a closure** is a missing operation of the last object that can be
    called. -/
theorem call_of_stuck (h : s.Path (Table.get? operation e.methods) places none)
    (args : List Value) : ∃ owner, s.holder e places.dropLast = some owner
      ∧ call e operation args s
        = (.error (.operationNotFound owner.id (heldAs operation places.dropLast)), s) :=
  callFrom_of_stuck args h (h.length_le_of_isEnd isEnd_none)

/-- **What a call comes to.**  Where references from an operation lead to a closure, without a circle,
    the parameters of the operation are those of the closure, and the call makes one run of it, on the
    values of the variables among the arguments.  If the object itself has the closure, under another
    name than `execute`, the result is what the run returns; else it is that with the descriptions of
    the arguments, however many references there were, unless one of them contains itself.  A fault
    becomes the error of the object that owns the closure, unless its message cannot be written.  Where
    the references lead to no closure there are no parameters, and the operation is not found. -/
theorem call_of_acyclic (h : s.Acyclic (Table.get? operation e.methods)) (args : List Value) :
    let m := Table.get? operation e.methods
    let called := call e operation args s
    (∀ places c, s.Path m places (some (.closure c)) →
        s.parametersOf e operation = c.parameters
        ∧ ∃ owner, s.holder e places = some owner
          ∧ Table.get? (heldAs operation places) owner.methods = some (.closure c)
          ∧ called.2 = (c.invoked args s).store
          ∧ (∀ v, (c.invoked args s).outcome = .ok v →
            (places = [] ∧ operation ≠ executeName →
              called.1 = .ok ((c.invoked args s).store.expand v))
            ∧ (places ≠ [] ∨ operation = executeName →
              ((c.invoked args s).Described → called.1 = .ok ((c.invoked args s).result v))
              ∧ (¬ (c.invoked args s).Described → called.1 = .error .endless)))
          ∧ (∀ f, (c.invoked args s).outcome = .error (.fault f) →
            (∀ text, f.message = .said text →
              called.1 = .error (.invocation owner.id (heldAs operation places) f.kind text))
            ∧ ∀ w, f.message = .unwritable w → called.1 = .error (.unwritable w))
          ∧ ((c.invoked args s).outcome = .error .endless → called.1 = .error .endless))
      ∧ ((∀ places c, ¬ s.Path m places (some (.closure c))) →
        s.parametersOf e operation = []
        ∧ ∃ places owner, s.Path m places none ∧ s.holder e places.dropLast = some owner
          ∧ called = (.error (.operationNotFound owner.id (heldAs operation places.dropLast)), s)) := by
  intro m called
  refine ⟨?_, ?_⟩
  · intro places c hpath
    obtain ⟨owner, howner, howns, hcall⟩ := call_of_path hpath args
    have hreply : called.1 = (c.invoked args s).reply owner.id (heldAs operation places) :=
      congrArg Prod.fst hcall
    refine ⟨parametersOf_of_reaches ⟨places, hpath⟩, owner, howner, howns, congrArg Prod.snd hcall,
      ?_, ?_, ?_⟩
    · intro v hv
      rw [hreply, Ran.reply, hv]
      refine ⟨?_, ?_⟩
      · rintro ⟨rfl, hname⟩
        exact if_neg hname
      · intro hwrapped
        -- behind a reference it is always `execute` that is called
        have hheld : heldAs operation places = executeName := by
          rw [heldAs, ite_eq_right_iff]
          exact fun hnil => hwrapped.resolve_left (absurd hnil)
        dsimp only
        rw [if_pos hheld]
        exact (c.invoked args s).callResult_eq v
    · intro f hf
      rw [hreply, Ran.reply, hf]
      refine ⟨fun text htext => ?_, fun w hw => ?_⟩
      · dsimp only
        rw [Error.ofFault, htext]
      · dsimp only
        rw [Error.ofFault, hw]
    · intro hend
      rw [hreply, Ran.reply, hend]
  · intro hclosure
    have hno : ∀ c, ¬ s.Reaches m c := by
      rintro c ⟨places, hpath⟩
      exact hclosure places c hpath
    obtain ⟨places, hpath⟩ := h.getsStuck hno
    obtain ⟨owner, howner, hcall⟩ := call_of_stuck hpath args
    exact ⟨parametersOf_of_not_reaches hno, places, owner, hpath, howner, hcall⟩

/-- An object that has a closure for `execute`. -/
def running (id : String) (c : Closure) : Entity :=
  ⟨id, "function", .null, [(executeName, .closure c)], [], []⟩

/-- An object that has a reference for an operation. -/
def passing (id operation : String) (a : Nat) : Entity :=
  ⟨id, "generic", .null, [(operation, .reference a)], [], []⟩

/-- A store with an object that passes `execute` on to one that runs a closure. -/
def relay (c : Closure) : Store :=
  ⟨#[(passing "proxy" executeName 1).toValue, (running "adder" c).toValue]⟩

/-- The arguments of the sum, one of them in a variable. -/
def summands : List Value :=
  [.var (.text "x") (.int 1) (.text "get"), .int 2]

/-- Their sum, with the arguments as they were passed. -/
def summed : Value :=
  .dict [(.text "result", .int 3), (.text "vars", .list
    [.dict [(.text "name", .text "x"), (.text "value", .int 1), (.text "type", .text "get")],
      .int 2])]

/-- A call that two references pass on gives one result. -/
theorem call_of_acyclic_relay : ∃ c, Closure.compile "adder" "(x, y) => x + y".toList = .ok c
    ∧ (relay c).Acyclic (Table.get? "run" (passing "front" "run" 0).methods)
    ∧ (relay c).parametersOf (passing "front" "run" 0) "run" = ["x", "y"]
    ∧ (call (passing "front" "run" 0) "run" summands (relay c)).1 = .ok summed := by
  have hrun : (Closure.compile "adder" "(x, y) => x + y".toList).toOption.any (fun c =>
      let ran := c.invoked summands (relay c)
      c.parameters == ["x", "y"] && ran.outcome.toOption.any (·.same (.int 3))
        && ran.args.all (fun a => (ran.store.expand a).isWhole)
        && (ran.result (.int 3)).same summed) = true := by
    decide +kernel
  obtain ⟨c, hc, hrun⟩ := (Option.any_eq_true _ _).mp hrun
  simp only [Bool.and_eq_true, beq_iff_eq] at hrun
  obtain ⟨⟨⟨hparameters, houtcome⟩, hwhole⟩, hresult⟩ := hrun
  obtain ⟨v, hv, hsame⟩ := (Option.any_eq_true _ _).mp houtcome
  obtain rfl := Value.eq_of_same hsame
  have hpath : (relay c).Path (Table.get? "run" (passing "front" "run" 0).methods) [0, 1]
      (some (.closure c)) := .follow (.follow (.here _))
  have hacyclic := hpath.acyclic (isEnd_closure c)
  obtain ⟨hparams, owner, -, -, -, hreturned, -⟩ :=
    (call_of_acyclic hacyclic summands).1 [0, 1] c hpath
  obtain ⟨-, hwrapped⟩ := hreturned (.int 3) (ok_of_toOption hv)
  refine ⟨c, ok_of_toOption hc, hacyclic, hparams.trans hparameters, ?_⟩
  rw [(hwrapped (Or.inl (List.cons_ne_nil 0 [1]))).1 (List.all_eq_true.mp hwhole),
    Value.eq_of_same hresult]

/-- A closure that raises an error about a number with too many digits: no error of an invocation
    comes of it. -/
theorem call_unanswered : ∃ c f, Closure.compile "f" "() => dict()[10 ** 5000]".toList = .ok c
    ∧ empty.Path (Table.get? executeName (running "f" c).methods) [] (some (.closure c))
    ∧ (c.invoked [] empty).outcome = .error (.fault f) ∧ f.kind = .key
    ∧ ¬ ∃ id operation kind text,
      (call (running "f" c) executeName [] empty).1 = .error (.invocation id operation kind text) := by
  have hrun : (Closure.compile "f" "() => dict()[10 ** 5000]".toList).toOption.any (fun c =>
      (c.invoked [] empty).fault?.any fun f =>
        f.kind == .key && (f.message matches .unwritable _)) = true := by
    decide +kernel
  obtain ⟨c, hc, hrun⟩ := (Option.any_eq_true _ _).mp hrun
  obtain ⟨f, hf, hrun⟩ := (Option.any_eq_true _ _).mp hrun
  obtain ⟨hkind, hmessage⟩ := Bool.and_eq_true_iff.mp hrun
  have hpath : empty.Path (Table.get? executeName (running "f" c).methods) []
      (some (.closure c)) := .here _
  have houtcome := Ran.outcome_of_fault? hf
  refine ⟨c, f, ok_of_toOption hc, hpath, houtcome, eq_of_beq hkind, ?_⟩
  rintro ⟨id, operation, kind, text, hcall⟩
  obtain ⟨owner, -, -, hreply⟩ := call_of_path hpath []
  rw [hreply, Ran.reply, houtcome] at hcall
  dsimp only at hcall
  rw [Error.ofFault] at hcall
  split at hmessage
  · rename_i w hw
    rw [hw] at hcall
    cases hcall
  · cases hmessage

end Store
end LetTag
