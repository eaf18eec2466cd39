/-
  Every diagnostic accounted for: to the statement that left it, in the log, and over passes.

  `Pass.reports` takes the diagnostics of a pass apart into what each statement added.  The step
  lemmas of `Pass` say that this is the problem of the statement's effect, so it is one diagnostic at
  most, with the statement and the id that it declares (`Registry.objectId?_of_effect`).  The log is
  followed beside it: whatever is traced, the warnings are the diagnostics, line by line
  (`Pass.step_warnings`).

  Over passes, an `Event` is what a command does to the diagnostics that a registry holds: whether it
  forgets them, and those it returns.  A command that ends early returns none, but what it forgot
  stays forgotten.  The diagnostics held are then those of the events from the last reset on
  (`Registry.diagnostics_foldl_perform`).
-/
import LetTag.Proofs.Pass
import Mathlib.Data.List.Forall2

namespace LetTag

/-- The line of the log that says a diagnostic. -/
def Diagnostic.logLine (component : Component) (d : Diagnostic) : LogLine :=
  ⟨.warning, component, d.text⟩

/-- The warnings in a log. -/
def warnings (log : List LogLine) : List LogLine :=
  log.filter (·.level = .warning)

/-- The id that a statement declares or tags. -/
def Declaration.id? : Declaration → Option String
  | define id _ => some id
  | tag id _ => some id
  | _ => none

/-! ## The id in a diagnostic -/

/-- A statement of none of the forms declares nothing, and its problem names no id. -/
theorem Declaration.objectId?_of_malformed {s : List Char} {p : Problem}
    (h : Declaration.parse s = .malformed p) : Diagnostic.objectId? ⟨p, s⟩ = none := by
  unfold Declaration.parse at h
  split at h
  · cases h
  · split at h
    · split at h
      · cases h
      · cases h
        rfl
    · split at h
      · split at h
        · cases h
        · cases h
          rfl
      · cases h
        rfl

/-- The problem that an error in a definition is names the id of the definition. -/
theorem objectId?_of_problemOf? {id : String} {e : Error} {p : Problem} (s : List Char)
    (h : problemOf? id e = some p) : Diagnostic.objectId? ⟨p, s⟩ = some id := by
  unfold problemOf? at h
  split at h
  · cases h
    rfl
  · cases h
  · cases h
  · cases h
    rfl
  · cases h

/-- The problem that a statement leaves names the id that the statement declares or tags. -/
theorem Registry.objectId?_of_effect {r : Registry} {s : List Char} {p : Problem}
    (h : (r.effect s).problem? = some p) :
    Diagnostic.objectId? ⟨p, s⟩ = (Declaration.parse s).id? := by
  unfold Registry.effect at h
  cases hs : Declaration.parse s with
  | debug on =>
    rw [hs] at h
    cases h
  | malformed q =>
    rw [hs] at h
    cases h
    exact Declaration.objectId?_of_malformed hs
  | tag id tags =>
    rw [hs] at h
    dsimp only [taggingEffect] at h
    split at h
    · cases h
    · cases h
      rfl
  | define id expr =>
    rw [hs] at h
    dsimp only [definitionEffect] at h
    split at h
    · cases h
    · split at h
      · rename_i hp
        cases h
        exact objectId?_of_problemOf? s hp
      · cases h

namespace Pass

/-! ## The log -/

@[simp] theorem trace_warnings (p : Pass) (text : String) :
    warnings (p.trace text).log = warnings p.log := by
  unfold trace
  split
  · simp [say, warnings]
  · rfl

@[simp] theorem add_log (p : Pass) (e : Entity) : (p.add e).log = p.log := rfl

/-- A diagnostic that is noted is a warning in the log. -/
@[simp] theorem report_warnings (p : Pass) (problem : Problem) (s : List Char) :
    warnings (p.report problem s).log
      = warnings p.log ++ [Diagnostic.logLine .registry ⟨problem, s⟩] := by
  simp [report, say, warnings, Diagnostic.logLine]

@[simp] theorem switch_warnings (p : Pass) (on : Bool) :
    warnings (p.switch on).log = warnings p.log := by
  cases on with
  | false => rfl
  | true => simp [switch, say, warnings]

/-- The warnings behind a statement with the given effect. -/
def Warns (p : Pass) (s : List Char) (f : Effect) (q : Pass) : Prop :=
  warnings q.log
    = warnings p.log ++ (f.problem?.map fun d => Diagnostic.logLine .registry ⟨d, s⟩).toList

/-- A definition warns of its problem, if it has one. -/
theorem define_warns (p : Pass) (id : String) (expr s : List Char) :
    Warns p s (definitionEffect p.registry.settings id expr) (p.define id expr s).1 := by
  unfold Warns definitionEffect define
  cases LetTag.define p.registry.settings id expr with
  | ok e =>
    dsimp only
    cases sourceOf? e with
    | none => simp [Effect.problem?]
    | some source => simp [Effect.problem?]
  | error e =>
    dsimp only
    cases problemOf? id e with
    | some problem => simp [Effect.problem?]
    | none => simp [Effect.problem?]

theorem tag_warns (p : Pass) (id : String) (tags : List String) (s : List Char) :
    Warns p s (taggingEffect p.registry.objects id tags) (p.tag id tags s) := by
  unfold Warns taggingEffect tag
  cases Table.get? id p.registry.objects with
  | some e => simp [Effect.problem?]
  | none => simp [Effect.problem?]

/-- A statement that leaves a problem says so in one warning; whatever else it writes is none. -/
theorem step_warnings (p : Pass) (s : List Char) : Warns p s (p.registry.effect s) (p.step s).1 := by
  have traced : ∀ {text f q}, Warns (p.trace text) s f q → Warns p s f q := by
    intro text f q h
    simpa [Warns] using h
  unfold Registry.effect step
  cases Declaration.parse s with
  | debug on => simp [Warns, Effect.problem?]
  | define id expr => exact traced (by simpa using define_warns (p.trace _) id expr s)
  | tag id tags => exact traced (by simpa using tag_warns (p.trace _) id tags s)
  | malformed problem =>
    dsimp only
    exact traced (by simp only [Warns, report_warnings, Effect.problem?, Option.map_some]; rfl)

/-! ## What each statement adds -/

/-- What each of the statements of a run adds to the diagnostics of the pass. -/
def reports (p : Pass) : List (List Char) → List (List Diagnostic)
  | [] => []
  | s :: ss => (p.step s).1.diagnostics.drop p.diagnostics.length :: (p.step s).1.reports ss

/-- The first statement has its report, and the others have theirs behind it. -/
theorem reports_cons (p : Pass) (s : List Char) (ss : List (List Char)) :
    p.reports (s :: ss)
      = ((p.registry.effect s).problem?.map fun d => ⟨d, s⟩).toList :: (p.step s).1.reports ss := by
  rw [reports, step_diagnostics, List.drop_left]

/-- A statement adds nothing, or one diagnostic that is about this statement. -/
def Accounts (s : List Char) (added : List Diagnostic) : Prop :=
  added = [] ∨ ∃ d, added = [d] ∧ d.statement = s ∧ d.objectId? = (Declaration.parse s).id?

theorem accounts_of_effect (r : Registry) (s : List Char) :
    Accounts s ((r.effect s).problem?.map fun d => ⟨d, s⟩).toList := by
  cases h : (r.effect s).problem? with
  | none => exact Or.inl rfl
  | some d => exact Or.inr ⟨⟨d, s⟩, rfl, rfl, Registry.objectId?_of_effect h⟩

theorem accounts_of_reports (ss : List (List Char)) : ∀ p : Pass,
    List.Forall₂ Accounts ss (p.reports ss) := by
  induction ss with
  | nil => exact fun p => .nil
  | cons s ss ih =>
    intro p
    rw [reports_cons]
    exact .cons (accounts_of_effect p.registry s) (ih _)

/-- Together they add what a run diagnoses. -/
theorem flatten_reports (ss : List (List Char)) : ∀ p : Pass,
    (p.reports ss).flatten = diagnosed p.registry ss := by
  induction ss with
  | nil => exact fun p => rfl
  | cons s ss ih =>
    intro p
    rw [reports_cons, List.flatten_cons, ih, step_registry, diagnosed]

/-- The warnings of a run that no statement ends are its diagnostics. -/
theorem run_warnings (ss : List (List Char)) : ∀ {p : Pass}, stopped? p.registry ss = none →
    warnings (p.run ss).1.log
      = warnings p.log ++ (diagnosed p.registry ss).map (Diagnostic.logLine .registry) := by
  induction ss with
  | nil =>
    intro p _
    exact (List.append_nil _).symm
  | cons s ss ih =>
    intro p h
    rw [stopped?, Option.or_eq_none_iff] at h
    have hreg := step_registry p s
    have hstep : warnings (p.step s).1.log = _ := step_warnings p s
    rw [run_cons_none ((step_error p s).trans h.1), ih (hreg ▸ h.2), hstep, hreg, diagnosed,
      List.map_append, List.append_assoc]
    cases (p.registry.effect s).problem? with
    | none => rfl
    | some d => rfl

end Pass

namespace Registry

/-! ## One compilation -/

/-- A compilation that returns is one that no statement ends. -/
theorem stopped?_of_ok {r : Registry} {code : List Char} {reset : Bool} {ds : List Diagnostic}
    (h : (r.compile code reset).outcome = .ok ds) :
    Pass.stopped? (r.atStart reset) (Statements.ofText code).all = none := by
  cases hstop : Pass.stopped? (r.atStart reset) (Statements.ofText code).all with
  | none => rfl
  | some e =>
    rw [compile_of_stopped hstop] at h
    cases h

/-- The log of a compilation is that of its run. -/
theorem compile_log (r : Registry) (code : List Char) (reset : Bool) :
    (r.compile code reset).log
      = ((r.startPass code reset).run (Statements.ofText code).all).1.log := by
  rw [compile_eq]
  split
  · rename_i p hrun
    rw [hrun]
  · rename_i p e hrun
    rw [hrun]

/-- Before its first statement a pass has warned of a block that is left open. -/
theorem warnings_of_start (r : Registry) (code : List Char) (reset : Bool) :
    warnings (r.startPass code reset).log
      = (unclosedDiagnostics code).map (Diagnostic.logLine .statements) := by
  refine List.filter_eq_self.mpr fun line hline => ?_
  obtain ⟨d, -, rfl⟩ := List.mem_map.mp hline
  rfl

/-! ## Commands -/

/-- What a registry is told. -/
inductive Command where
  | compile (code : List Char) (reset : Bool)
  | compileContent (content : List Char) (reset : Bool)
  | reset
  | switch (on : Bool)

/-- What a command does to the diagnostics that a registry holds: does it forget them, and which
    ones does it return? -/
structure Event where
  resets : Bool
  returned : List Diagnostic

/-- The registry behind a command. -/
def perform (r : Registry) : Command → Registry
  | .compile code reset => (r.compile code reset).registry
  | .compileContent content reset => (r.compileContent content reset).registry
  | .reset => r.reset
  | .switch on => (r.switchTracing on).1

/-- A compilation as an event; one that ends early returns nothing. -/
def compiling (r : Registry) (code : List Char) (reset : Bool) : Event :=
  ⟨reset || r.settings.resetOnCompile.truthy,
    match (r.compile code reset).outcome with
    | .ok ds => ds
    | .error _ => []⟩

/-- A command as an event. -/
def event (r : Registry) : Command → Event
  | .compile code reset => r.compiling code reset
  | .compileContent content reset => r.compiling (Text.unifyNewlines content) reset
  | .reset => ⟨true, []⟩
  | .switch _ => ⟨false, []⟩

/-- The events of commands that follow one another. -/
def events (r : Registry) : List Command → List Event
  | [] => []
  | c :: cs => r.event c :: (r.perform c).events cs

/-- The events from the last reset on, which are all if there is none. -/
def sinceReset : List Event → List Event
  | [] => []
  | e :: es => if es.any Event.resets then sinceReset es else e :: es

/-- A compilation that ends early leaves the diagnostics that it started with. -/
theorem diagnostics_of_error {r : Registry} {code : List Char} {reset : Bool} {e : Error}
    (h : (r.compile code reset).outcome = .error e) :
    (r.compile code reset).registry.diagnostics = (r.atStart reset).diagnostics := by
  have hkeep : ((r.startPass code reset).run (Statements.ofText code).all).1.registry.diagnostics
      = (r.atStart reset).diagnostics :=
    Pass.run_keeps (P := fun q => q.diagnostics = (r.atStart reset).diagnostics) _
      (fun s _ q hq => ((q.effect s).apply_keeps q).2.trans hq) rfl
  rw [compile_eq] at h ⊢
  split at h
  · cases h
  · rename_i p e' hrun
    rw [hrun] at hkeep
    exact hkeep

/-- A compilation puts what it returns behind the diagnostics that it starts with. -/
theorem diagnostics_of_compiling (r : Registry) (code : List Char) (reset : Bool) :
    (r.compile code reset).registry.diagnostics
      = (if (r.compiling code reset).resets then [] else r.diagnostics)
        ++ (r.compiling code reset).returned := by
  have hstart : (r.atStart reset).diagnostics
      = if (r.compiling code reset).resets then [] else r.diagnostics := by
    unfold atStart compiling
    split
    · rfl
    · rfl
  rw [← hstart]
  unfold compiling
  cases h : (r.compile code reset).outcome with
  | error e => rw [diagnostics_of_error h, List.append_nil]
  | ok ds =>
    obtain ⟨hok, hreg⟩ := compile_of_complete (stopped?_of_ok h)
    obtain rfl := Except.ok.inj (h.symm.trans hok)
    rw [hreg]
    exact congrArg (· ++ _) (foldl_follow_keeps _ _).2

/-- A command that empties the registry forgets all diagnostics; then it adds those that it returns. -/
theorem diagnostics_of_perform (r : Registry) (c : Command) :
    (r.perform c).diagnostics
      = (if (r.event c).resets then [] else r.diagnostics) ++ (r.event c).returned := by
  cases c with
  | compile code reset => exact diagnostics_of_compiling r code reset
  | compileContent content reset => exact diagnostics_of_compiling r _ reset
  | reset => rfl
  | switch on =>
    cases on with
    | false => exact (List.append_nil _).symm
    | true => exact (List.append_nil _).symm

/-- What a registry holds behind commands: what it held, unless one of them resets, and what they
    returned from the last reset on. -/
theorem diagnostics_foldl_perform (cs : List Command) : ∀ r : Registry,
    (cs.foldl perform r).diagnostics
      = (if (r.events cs).any Event.resets then [] else r.diagnostics)
        ++ (sinceReset (r.events cs)).flatMap Event.returned := by
  induction cs with
  | nil =>
    intro r
    exact (List.append_nil _).symm
  | cons c cs ih =>
    intro r
    rw [List.foldl_cons, ih, events, List.any_cons, sinceReset]
    cases hlater : ((r.perform c).events cs).any Event.resets with
    | true => simp
    | false =>
      -- the last reset is this command, if there is one: nothing behind it resets, so all counts
      have hall : sinceReset ((r.perform c).events cs) = (r.perform c).events cs := by
        cases hes : (r.perform c).events cs with
        | nil => rfl
        | cons e es =>
          rw [hes, List.any_cons, Bool.or_eq_false_iff] at hlater
          rw [sinceReset, hlater.2]
          rfl
      rw [hall, diagnostics_of_perform]
      simp

/-- **Every diagnostic accounted for.**  A compilation that returns diagnostics returns those of the
    block left open and then, in the order of the statements, what each statement added: nothing, or
    one diagnostic with the statement and the id that it declares or tags.  The warnings in its log
    are these diagnostics in the same order.  And what a registry holds after any commands are the
    diagnostics that they returned, from the last reset on. -/
theorem diagnostics_accounted (r : Registry) (code : List Char) (reset : Bool)
    (settings : Settings) (cs : List Command) :
    let c := r.compile code reset
    let ss := (Statements.ofText code).all
    let added := (r.startPass code reset).reports ss
    (∀ ds, c.outcome = .ok ds →
        ds = unclosedDiagnostics code ++ added.flatten
          ∧ List.Forall₂ Pass.Accounts ss added
          ∧ warnings c.log = (unclosedDiagnostics code).map (Diagnostic.logLine .statements)
              ++ added.flatten.map (Diagnostic.logLine .registry))
      ∧ (cs.foldl perform (empty settings)).diagnostics
        = (sinceReset ((empty settings).events cs)).flatMap Event.returned := by
  intro c ss added
  constructor
  · intro ds hds
    have hnone := stopped?_of_ok hds
    have hadded : added.flatten = Pass.diagnosed (r.atStart reset) ss := Pass.flatten_reports ss _
    refine ⟨?_, Pass.accounts_of_reports ss _, ?_⟩
    · rw [hadded]
      exact Except.ok.inj (hds.symm.trans (compile_of_complete hnone).1)
    · rw [hadded, ← warnings_of_start r code reset]
      exact (congrArg warnings (compile_log r code reset)).trans (Pass.run_warnings ss hnone)
  · rw [diagnostics_foldl_perform]
    split
    · rfl
    · rfl

/-- A block left open, a tag for nothing, a statement of no form and a value that is none, in a text
    between well-formed statements; and a registry that is reset between two faulty texts. -/
theorem diagnostics_accounted_faulty :
    let code := "let d = 1; tag e as t; d e\nlet f = ?\nlet g = () => \x7b 1".toList
    let cs : List Command := [.compile "x".toList false, .reset, .switch true,
      .compile "tag y as t; let z = 2".toList false]
    ∃ ds, ((empty .default).compile code false).outcome = .ok ds
      ∧ List.Forall₂ Pass.Accounts (Statements.ofText code).all
        (((empty .default).startPass code false).reports (Statements.ofText code).all)
      ∧ ds.map (fun d => (d.kind, d.objectId?)) = [("unclosed-block", none),
        ("missing-object", some "e"), ("malformed-statement", none), ("evaluation-failed", some "f")]
      ∧ (cs.foldl perform (empty .default)).diagnostics
        = [⟨.missingObject "y", "tag y as t".toList⟩] := by
  intro code cs
  obtain ⟨hreturned, hheld⟩ := diagnostics_accounted (empty .default) code false .default cs
  have hkinds : ((empty .default).compile code false).outcome.toOption.map
      (·.map fun d => (d.kind, d.objectId?)) = some [("unclosed-block", none),
        ("missing-object", some "e"), ("malformed-statement", none),
        ("evaluation-failed", some "f")] := by
    decide +kernel
  have hevents : (sinceReset ((empty .default).events cs)).flatMap Event.returned
      = [⟨.missingObject "y", "tag y as t".toList⟩] := by
    decide +kernel
  cases hds : ((empty .default).compile code false).outcome with
  | error e =>
    rw [hds] at hkinds
    cases hkinds
  | ok ds =>
    rw [hds] at hkinds
    exact ⟨ds, rfl, (hreturned ds hds).2.1, Option.some.inj hkinds, hheld.trans hevents⟩

end Registry
end LetTag
