/-
  How a function takes its arguments.

  A closure declares the parameters of the definition that it is compiled from (`Closure.of_compile`).
  Called from outside, by position, a function takes as many arguments as it has parameters, and the
  i-th parameter stands for the i-th argument; any other number is refused before the body runs.  What
  a program calls is what stands under the name of its function, and this is the function unless a
  definition behind it has taken the name.
-/
import LetTag.Closure
import LetTag.Proofs.Renaming
import LetTag.Proofs.Source

namespace LetTag.Script

/-! ## Arguments by position -/

/-- As many arguments as parameters, all of them by position, are bound one to one. -/
theorem bindArguments_exact (function : String) {parameters : List String} {args : List Value}
    (hlen : args.length = parameters.length) (w : World) :
    bindArguments function parameters args [] w = (.ok (parameters.zip args), w) := by
  have hfree : parameters.drop args.length = [] := by
    rw [hlen, List.drop_length]
  have hsurplus : ¬ args.length > parameters.length := by omega
  unfold bindArguments
  rw [hfree, if_neg hsurplus]
  show (Except.ok (parameters.zip args ++ []), w) = _
  rw [List.append_nil]

/-- Too many or too few arguments are refused. -/
theorem bindArguments_refused (function : String) {parameters : List String} {args : List Value}
    (hlen : args.length ≠ parameters.length) (w : World) : ∃ f : Fault,
    f.kind = .type ∧ bindArguments function parameters args [] w = (.error (.fault f), w) := by
  unfold bindArguments
  by_cases hsurplus : args.length > parameters.length
  · rw [if_pos hsurplus]
    exact ⟨_, rfl, rfl⟩
  · rw [if_neg hsurplus]
    have hall : ∀ ps : List String, (ps.filter fun p => ((([] : List (String × Value)).lookup p).isNone))
        = ps := fun ps => List.filter_eq_self.mpr fun _ _ => rfl
    rw [hall]
    cases hfree : parameters.drop args.length with
    | nil =>
      have hlength := congrArg List.length hfree
      rw [List.length_drop, List.length_nil] at hlength
      omega
    | cons p ps => exact ⟨_, rfl, rfl⟩

/-! ## Calls from outside -/

/-- What a body that has ended gives. -/
def Flow.result : Flow → Value
  | ret v => v
  | _ => .null

/-- The body of a function, with the parameters standing for arguments; the function may call itself
    so many times. -/
def Function.perform (f : Function) (depth : Nat) (args : List Value) : Work Value :=
  Flow.result <$> (execList (f.call depth) f.body).within f.locals (f.parameters.zip args)

/-- With the right number of arguments the body is run. -/
theorem Function.call_exact (f : Function) {args : List Value}
    (hlen : args.length = f.parameters.length) (depth : Nat) (w : World) :
    f.call (depth + 1) args [] w = f.perform depth args w := by
  rw [Function.call, bind_apply, bindArguments_exact f.name hlen]
  dsimp only
  unfold Function.perform
  rw [map_eq_pure_bind, bind_apply, bind_apply]
  rcases (execList (f.call depth) f.body).within f.locals (f.parameters.zip args) w
    with ⟨stop | flow, w'⟩
  · rfl
  · cases flow with
    | ret v => rfl
    | next => rfl
    | stop => rfl
    | skip => rfl

/-- With any other number it is not. -/
theorem Function.call_refused (f : Function) {args : List Value}
    (hlen : args.length ≠ f.parameters.length) (depth : Nat) (w : World) : ∃ fault : Fault,
    fault.kind = .type ∧ f.call (depth + 1) args [] w = (.error (.fault fault), w) := by
  obtain ⟨fault, hkind, hbind⟩ := bindArguments_refused f.name hlen w
  refine ⟨fault, hkind, ?_⟩
  rw [Function.call, bind_apply, hbind]

/-- Unless something else has its name, the function is what stands under it. -/
theorem Program.run_callable {p : Program}
    (hname : p.function.name = String.ofList Arrow.functionName) {globals : Table Value}
    (hglobals : Table.get? p.function.name globals = none) (args : List Value) (s : Store) :
    p.run globals args s = Prod.map id World.store (p.callable args [] ⟨s, globals⟩) := by
  have hlookup : lookupName p.function.name ⟨⟨s, globals⟩, [], []⟩
      = (.ok (.scalar (.builtin .itself)), ⟨⟨s, globals⟩, [], []⟩) := by
    have hitself : Builtin.ofName? p.function.name = some .itself := by
      rw [hname]
      decide
    have hnamed : Machine.named ⟨⟨s, globals⟩, [], []⟩ p.function.name
        = .ok (.scalar (.builtin .itself)) := by
      simp [Machine.named, hglobals, hitself]
    rw [lookupName_apply, hnamed]
  unfold Program.run Run.on
  show Prod.map id (fun m : Machine => m.store)
    ((lookupName p.function.name >>= fun v =>
      Work.lift (callValue p.callable v args [])) ⟨⟨s, globals⟩, [], []⟩) = _
  rw [bind_apply, hlookup]
  rfl

end LetTag.Script

namespace LetTag

open Script

/-! ## Closures -/

/-- What a definition is compiled to. -/
theorem Closure.of_compile {name : String} {expr : List Char} {c : Closure}
    (h : Closure.compile name expr = .ok c) : ∃ a, Arrow.ofText expr = .ok a
      ∧ c.parameters = a.parameters.map String.ofList ∧ Program.parse? a.source = some c.program
      ∧ c.source = some (String.ofList a.source) := by
  unfold compile at h
  split at h
  · cases h
  · rename_i a ha
    split at h
    · cases h
    · split at h
      · cases h
      · rename_i p hp
        split at h
        · cases h
        · cases h
        · cases h
          exact ⟨a, ha, rfl, hp, rfl⟩

/-- The parameters of a closure are names, no two of them equal. -/
theorem Closure.names_of_compile {name : String} {expr : List Char} {c : Closure}
    (h : Closure.compile name expr = .ok c) :
    c.parameters.Nodup ∧ ∀ p ∈ c.parameters, Arrow.isParameter p.toList = true := by
  obtain ⟨a, ha, hparameters, -⟩ := Closure.of_compile h
  obtain ⟨_, _, -, -, hnodup, hnames, -⟩ := Arrow.parts_of_ofText ha
  rw [hparameters]
  refine ⟨List.Pairwise.map _ (fun _ _ hne heq => hne (String.ofList_injective heq)) hnodup, ?_⟩
  intro p hp
  obtain ⟨q, hq, rfl⟩ := List.mem_map.mp hp
  rw [String.toList_ofList]
  exact hnames q hq

/-- With these names defined outside of it, the function of the closure is what is called.  It takes
    exactly the arguments that the closure declares, by position and in their order, and any other
    number of arguments is refused. -/
structure Closure.TakesDeclared (c : Closure) (globals : Table Value) : Prop where
  exact : ∀ args s, args.length = c.parameters.length → c.run globals args s
    = Prod.map id World.store
      (c.program.function.perform (depthLimit - 1) (args.map (Closure.unwrap s)) ⟨s, globals⟩)
  refused : ∀ args s, args.length ≠ c.parameters.length → ∃ f : Fault,
    f.kind = .type ∧ c.run globals args s = (.error (.fault f), s)

/-- So it is if no other definition has the name of the function. -/
theorem Closure.takesDeclared {c : Closure}
    (hname : c.program.function.name = String.ofList Arrow.functionName)
    (hlen : c.program.function.parameters.length = c.parameters.length) {globals : Table Value}
    (hglobals : Table.get? c.program.function.name globals = none) : c.TakesDeclared globals where
  exact args s hargs := by
    have hcount : (args.map (Closure.unwrap s)).length = c.program.function.parameters.length := by
      rw [List.length_map, hargs, hlen]
    show c.program.run globals (args.map (Closure.unwrap s)) s = _
    rw [Program.run_callable hname hglobals]
    exact congrArg (Prod.map id World.store) (Function.call_exact _ hcount _ _)
  refused args s hargs := by
    have hcount : (args.map (Closure.unwrap s)).length ≠ c.program.function.parameters.length := by
      rw [List.length_map, hlen]
      exact hargs
    obtain ⟨fault, hkind, hcall⟩ := Function.call_refused _ hcount (depthLimit - 1) ⟨s, globals⟩
    refine ⟨fault, hkind, ?_⟩
    show c.program.run globals (args.map (Closure.unwrap s)) s = _
    rw [Program.run_callable hname hglobals]
    exact congrArg (Prod.map id World.store) hcall

end LetTag
