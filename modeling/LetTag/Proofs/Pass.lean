/-
  What one statement does, said once, and what a pass does by following its statements.

  A pass has a registry, diagnostics and a log, and carrying out a statement writes to all three.
  What it does to the first two depends on the registry alone: it switches tracing, puts an object
  into the registry, leaves a problem, or ends the pass.  `Effect` names these four, `Registry.effect`
  reads the effect off a registry and a statement, and three equations (`step_registry`,
  `step_diagnostics`, `step_error`) say that `Pass.step` does just that.  Everything about runs is
  an induction over them; no later proof opens `step` again.
-/
import LetTag.Pass

namespace LetTag

/-! ## Effects -/

/-- What a statement does. -/
inductive Effect where
  | switch (on : Bool)
  | put (e : Entity)
  | problem (p : Problem)
  | stop (e : Error)

namespace Effect

/-- The registry behind it. -/
def apply (r : Registry) : Effect → Registry
  | switch on => { r with settings := { r.settings with debug := .bool on } }
  | put e => { r with objects := Table.put e.id e r.objects }
  | problem _ => r
  | stop _ => r

/-- The problem that it leaves. -/
def problem? : Effect → Option Problem
  | problem p => some p
  | _ => none

/-- The error by which it ends a pass. -/
def error? : Effect → Option Error
  | stop e => some e
  | _ => none

end Effect

/-- What a definition does. -/
def definitionEffect (settings : Settings) (id : String) (expr : List Char) : Effect :=
  match define settings id expr with
  | .ok e => .put e
  | .error e => match problemOf? id e with
    | some p => .problem p
    | none => .stop e

/-- A definition reads the type tag for variables from the settings and nothing else. -/
theorem define_congr {a b : Settings} (h : a.sourceType = b.sourceType) (id : String)
    (expr : List Char) : define a id expr = define b id expr := by
  unfold define
  rw [h]

/-- What a tagging does. -/
def taggingEffect (objects : Table Entity) (id : String) (tags : List String) : Effect :=
  match Table.get? id objects with
  | some e => .put (e.tag tags)
  | none => .problem (.missingObject id)

namespace Registry

/-- What a statement does to a registry. -/
def effect (r : Registry) (s : List Char) : Effect :=
  match Declaration.parse s with
  | .debug on => .switch on
  | .define id expr => definitionEffect r.settings id expr
  | .tag id tags => taggingEffect r.objects id tags
  | .malformed p => .problem p

/-- The registry behind a statement. -/
def follow (r : Registry) (s : List Char) : Registry :=
  (r.effect s).apply r

end Registry

/-- No effect reaches the type tag for variables, and none the diagnostics of earlier passes. -/
theorem Effect.apply_keeps (f : Effect) (r : Registry) :
    (f.apply r).settings.sourceType = r.settings.sourceType
      ∧ (f.apply r).diagnostics = r.diagnostics := by
  cases f with
  | switch on => exact ⟨rfl, rfl⟩
  | put e => exact ⟨rfl, rfl⟩
  | problem p => exact ⟨rfl, rfl⟩
  | stop e => exact ⟨rfl, rfl⟩

/-- Statements change neither the type of sources nor the diagnostics of earlier passes. -/
theorem Registry.foldl_follow_keeps (ss : List (List Char)) (r : Registry) :
    (ss.foldl Registry.follow r).settings.sourceType = r.settings.sourceType
      ∧ (ss.foldl Registry.follow r).diagnostics = r.diagnostics := by
  induction ss generalizing r with
  | nil => exact ⟨rfl, rfl⟩
  | cons s ss ih =>
    obtain ⟨ht, hd⟩ := ih (r.follow s)
    obtain ⟨ht', hd'⟩ := (r.effect s).apply_keeps r
    exact ⟨ht.trans ht', hd.trans hd'⟩

namespace Pass

/-! ## The log leaves registry and diagnostics alone -/

@[simp] theorem say_registry (p : Pass) (level : Level) (text : String) :
    (p.say level text).registry = p.registry := rfl

@[simp] theorem say_diagnostics (p : Pass) (level : Level) (text : String) :
    (p.say level text).diagnostics = p.diagnostics := rfl

@[simp] theorem trace_registry (p : Pass) (text : String) :
    (p.trace text).registry = p.registry := by
  unfold trace
  split
  · rfl
  · rfl

@[simp] theorem trace_diagnostics (p : Pass) (text : String) :
    (p.trace text).diagnostics = p.diagnostics := by
  unfold trace
  split
  · rfl
  · rfl

@[simp] theorem report_registry (p : Pass) (problem : Problem) (s : List Char) :
    (p.report problem s).registry = p.registry := rfl

@[simp] theorem report_diagnostics (p : Pass) (problem : Problem) (s : List Char) :
    (p.report problem s).diagnostics = p.diagnostics ++ [⟨problem, s⟩] := rfl

/-- An object that is added stands under its id, and no other one changes. -/
@[simp] theorem add_registry (p : Pass) (e : Entity) :
    (p.add e).registry = { p.registry with objects := Table.put e.id e p.registry.objects } := rfl

@[simp] theorem add_diagnostics (p : Pass) (e : Entity) :
    (p.add e).diagnostics = p.diagnostics := rfl

/-! ## One statement -/

/-- Registry, diagnostics and error behind a statement with the given effect. -/
structure Carries (p : Pass) (s : List Char) (f : Effect) (q : Pass × Option Error) : Prop where
  registry : q.1.registry = f.apply p.registry
  diagnostics : q.1.diagnostics = p.diagnostics ++ (f.problem?.map fun d => ⟨d, s⟩).toList
  error : q.2 = f.error?

theorem switch_carries (p : Pass) (on : Bool) (s : List Char) :
    Carries p s (.switch on) (p.switch on, none) := by
  cases on with
  | false => exact ⟨rfl, (List.append_nil _).symm, rfl⟩
  | true => exact ⟨rfl, (List.append_nil _).symm, rfl⟩

/-- A definition is carried out as its effect says. -/
theorem define_carries (p : Pass) (id : String) (expr s : List Char) :
    Carries p s (definitionEffect p.registry.settings id expr) (p.define id expr s) := by
  unfold definitionEffect define
  cases h : LetTag.define p.registry.settings id expr with
  | ok e =>
    -- the source is traced before the object is put in, if there is a source
    dsimp only
    cases hs : sourceOf? e with
    | none => exact ⟨by simp [Effect.apply], by simp [Effect.problem?], rfl⟩
    | some source => exact ⟨by simp [Effect.apply], by simp [Effect.problem?], rfl⟩
  | error e =>
    dsimp only
    cases hp : problemOf? id e with
    | some problem => exact ⟨rfl, rfl, rfl⟩
    | none => exact ⟨rfl, (List.append_nil _).symm, rfl⟩

theorem tag_carries (p : Pass) (id : String) (tags : List String) (s : List Char) :
    Carries p s (taggingEffect p.registry.objects id tags) (p.tag id tags s, none) := by
  unfold taggingEffect tag
  cases Table.get? id p.registry.objects with
  | some e => exact ⟨by simp [Effect.apply], by simp [Effect.problem?], rfl⟩
  | none => exact ⟨rfl, rfl, rfl⟩

/-- A statement does what its effect says.  It is traced first, which changes nothing here. -/
theorem step_carries (p : Pass) (s : List Char) : Carries p s (p.registry.effect s) (p.step s) := by
  have traced : ∀ {text f q}, Carries (p.trace text) s f q → Carries p s f q := by
    intro text f q h
    exact ⟨by simpa using h.registry, by simpa using h.diagnostics, h.error⟩
  unfold Registry.effect step
  cases Declaration.parse s with
  | debug on => exact switch_carries p on s
  | define id expr => exact traced (by simpa using define_carries (p.trace _) id expr s)
  | tag id tags => exact traced (by simpa using tag_carries (p.trace _) id tags s)
  | malformed problem => exact traced ⟨rfl, rfl, rfl⟩

/-- A step does to the registry what its statement does. -/
theorem step_registry (p : Pass) (s : List Char) :
    (p.step s).1.registry = p.registry.follow s :=
  (step_carries p s).registry

/-- A step leaves a diagnostic if its statement has a problem, and no other one. -/
theorem step_diagnostics (p : Pass) (s : List Char) :
    (p.step s).1.diagnostics
      = p.diagnostics ++ ((p.registry.effect s).problem?.map fun d => ⟨d, s⟩).toList :=
  (step_carries p s).diagnostics

theorem step_error (p : Pass) (s : List Char) : (p.step s).2 = (p.registry.effect s).error? :=
  (step_carries p s).error

/-! ## A run -/

/-- The diagnostics that statements leave, each found in the registry that the ones before it
    made. -/
def diagnosed (r : Registry) : List (List Char) → List Diagnostic
  | [] => []
  | s :: ss => ((r.effect s).problem?.map fun d => ⟨d, s⟩).toList ++ diagnosed (r.follow s) ss

/-- The error by which the first of the statements that ends a pass ends it. -/
def stopped? (r : Registry) : List (List Char) → Option Error
  | [] => none
  | s :: ss => (r.effect s).error?.or (stopped? (r.follow s) ss)

/-- A step without an error is followed by the others. -/
theorem run_cons_none {p : Pass} {s : List Char} (h : (p.step s).2 = none)
    (ss : List (List Char)) : p.run (s :: ss) = (p.step s).1.run ss := by
  rw [run]
  split
  · rename_i q heq
    rw [heq]
  · rename_i q e heq
    rw [heq] at h
    cases h

theorem run_cons_some {p : Pass} {s : List Char} {e : Error} (h : (p.step s).2 = some e)
    (ss : List (List Char)) : p.run (s :: ss) = ((p.step s).1, some e) := by
  rw [run]
  split
  · rename_i q heq
    rw [heq] at h
    cases h
  · rename_i q e' heq
    rw [heq] at h ⊢
    cases h
    rfl

/-- A run ends with the first error that a statement raises. -/
theorem run_error (ss : List (List Char)) : ∀ p : Pass, (p.run ss).2 = stopped? p.registry ss := by
  induction ss with
  | nil => intro p; rfl
  | cons s ss ih =>
    intro p
    have herr := step_error p s
    cases h : (p.registry.effect s).error? with
    | none =>
      rw [h] at herr
      rw [run_cons_none herr, ih, step_registry, stopped?, h, Option.none_or]
    | some e =>
      rw [h] at herr
      rw [run_cons_some herr, stopped?, h, Option.some_or]

/-- A run that no statement ends has followed every one of them. -/
theorem run_complete (ss : List (List Char)) : ∀ {p : Pass}, stopped? p.registry ss = none →
    (p.run ss).1.registry = ss.foldl Registry.follow p.registry
      ∧ (p.run ss).1.diagnostics = p.diagnostics ++ diagnosed p.registry ss := by
  induction ss with
  | nil =>
    intro p _
    exact ⟨rfl, (List.append_nil _).symm⟩
  | cons s ss ih =>
    intro p h
    rw [stopped?, Option.or_eq_none_iff] at h
    have hrun := run_cons_none ((step_error p s).trans h.1) ss
    have hreg := step_registry p s
    obtain ⟨hr, hd⟩ := ih (p := (p.step s).1) (hreg ▸ h.2)
    rw [hrun]
    constructor
    · rw [hr, hreg]
      rfl
    · rw [hd, step_diagnostics, hreg, diagnosed, List.append_assoc]

/-- What every statement keeps is kept by the run, whether one of them ends it or not. -/
theorem run_keeps {P : Registry → Prop} (ss : List (List Char))
    (h : ∀ s ∈ ss, ∀ r, P r → P (r.follow s)) : ∀ {p : Pass}, P p.registry →
    P (p.run ss).1.registry := by
  induction ss with
  | nil => exact fun hp => hp
  | cons s ss ih =>
    intro p hp
    obtain ⟨hs, hss⟩ := List.forall_mem_cons.mp h
    have hstep : P (p.step s).1.registry := by
      rw [step_registry]
      exact hs _ hp
    cases herr : (p.step s).2 with
    | none =>
      rw [run_cons_none herr]
      exact ih hss hstep
    | some e =>
      rw [run_cons_some herr]
      exact hstep

end Pass

namespace Registry

/-- The registry that a pass starts from. -/
def atStart (r : Registry) (reset : Bool) : Registry :=
  if reset || r.settings.resetOnCompile.truthy then r.reset else r

/-- The diagnostic for a block left open. -/
def unclosedDiagnostics (code : List Char) : List Diagnostic :=
  (Statements.ofText code).unclosed.toList.map fun block => ⟨.unclosedBlock, block⟩

/-- The pass that a compilation makes, before its first statement. -/
def startPass (r : Registry) (code : List Char) (reset : Bool) : Pass :=
  ⟨r.atStart reset, unclosedDiagnostics code,
    (unclosedDiagnostics code).map fun d => ⟨.warning, .statements, d.text⟩⟩

/-- A compilation is one run of the statements, and keeps the diagnostics of a run that is complete. -/
theorem compile_eq (r : Registry) (code : List Char) (reset : Bool) :
    r.compile code reset = match (r.startPass code reset).run (Statements.ofText code).all with
      | (p, none) =>
        ⟨{ p.registry with diagnostics := p.registry.diagnostics ++ p.diagnostics }, p.log,
          .ok p.diagnostics⟩
      | (p, some e) => ⟨p.registry, p.log, .error e⟩ := rfl

/-- The objects and settings behind a compilation are those of the last statement carried out. -/
theorem compile_keeps {P : Registry → Prop} (hnoted : ∀ r ds, P r → P { r with diagnostics := ds })
    {code : List Char} (h : ∀ s ∈ (Statements.ofText code).all, ∀ r, P r → P (r.follow s))
    {r : Registry} {reset : Bool} (hr : P (r.atStart reset)) : P (r.compile code reset).registry := by
  have hrun := Pass.run_keeps _ h (p := r.startPass code reset) hr
  rw [compile_eq]
  split
  · rename_i p heq
    rw [heq] at hrun
    exact hnoted _ _ hrun
  · rename_i p e heq
    rw [heq] at hrun
    exact hrun

/-- A compilation fails with the first error that one of its statements raises. -/
theorem compile_of_stopped {r : Registry} {code : List Char} {reset : Bool} {e : Error}
    (h : Pass.stopped? (r.atStart reset) (Statements.ofText code).all = some e) :
    (r.compile code reset).outcome = .error e := by
  have herr := Pass.run_error (Statements.ofText code).all (r.startPass code reset)
  rw [startPass] at herr
  rw [compile_eq]
  split
  · rename_i p hrun
    rw [startPass] at hrun
    rw [hrun, h] at herr
    cases herr
  · rename_i p e' hrun
    rw [startPass] at hrun
    rw [hrun, h] at herr
    cases herr
    rfl

/-- A compilation that no statement ends follows all statements, and returns and keeps the
    diagnostics of the block left open and of the statements. -/
theorem compile_of_complete {r : Registry} {code : List Char} {reset : Bool}
    (h : Pass.stopped? (r.atStart reset) (Statements.ofText code).all = none) :
    let found := unclosedDiagnostics code
      ++ Pass.diagnosed (r.atStart reset) (Statements.ofText code).all
    let followed := (Statements.ofText code).all.foldl follow (r.atStart reset)
    (r.compile code reset).outcome = .ok found
      ∧ (r.compile code reset).registry
        = { followed with diagnostics := followed.diagnostics ++ found } := by
  obtain ⟨hr, hd⟩ := Pass.run_complete (Statements.ofText code).all
    (p := r.startPass code reset) h
  have herr := Pass.run_error (Statements.ofText code).all (r.startPass code reset)
  have hnone := herr.trans h
  rw [compile_eq]
  split
  · rename_i p hrun
    rw [hrun] at hr hd
    dsimp only at hr hd ⊢
    exact ⟨congrArg Except.ok hd, by rw [hr, hd]; rfl⟩
  · rename_i p e hrun
    rw [hrun] at hnone
    cases hnone

end Registry

theorem exists_of_toOption {ε α : Type} {x : Except ε α} (h : x.toOption.isSome = true) :
    ∃ a, x = .ok a := by
  cases x with
  | ok a => exact ⟨a, rfl⟩
  | error e => cases h

theorem ok_of_toOption {ε α : Type} {x : Except ε α} {a : α} (h : x.toOption = some a) :
    x = .ok a := by
  cases x with
  | ok b => exact congrArg Except.ok (Option.some.inj h)
  | error e => cases h

end LetTag
