/-
  Passes: carrying out the statements of a text.

  A pass goes through the statements in order; one with a problem leaves a diagnostic and nothing
  else.  A pass ends early for a definition whose error is no problem of a statement: a number out of
  range, a key too long to be a name, a script that fails while it is being defined.  What it did
  before stays done, and its diagnostics are lost.
-/
import LetTag.Declaration
import LetTag.Registry
import LetTag.Statements

namespace LetTag

open Text

/-- A pass under way: the registry, the diagnostics of the pass and the lines of its log. -/
structure Pass where
  registry : Registry
  diagnostics : List Diagnostic
  log : List LogLine

namespace Pass

/-- Writes a line into the log. -/
def say (p : Pass) (level : Level) (text : String) : Pass :=
  { p with log := p.log ++ [⟨level, .registry, text⟩] }

/-- Writes a line if tracing is on. -/
def trace (p : Pass) (text : String) : Pass :=
  if p.registry.settings.traces then p.say .debug text else p

/-- Notes a diagnostic. -/
def report (p : Pass) (problem : Problem) (statement : List Char) : Pass :=
  let d : Diagnostic := ⟨problem, statement⟩
  { p.say .warning d.text with diagnostics := p.diagnostics ++ [d] }

/-- Switches tracing. -/
def switch (p : Pass) (on : Bool) : Pass :=
  let r := p.registry
  let p := { p with registry := { r with settings := { r.settings with debug := .bool on } } }
  if on then p.say .info "[SYSTEM] Debug mode ON" else p

/-- Puts an object into the registry. -/
def add (p : Pass) (e : Entity) : Pass :=
  let r := p.registry
  { p with registry := { r with objects := Table.put e.id e r.objects } }

/-- The source of the function in an object, for the trace. -/
def sourceOf? (e : Entity) : Option String :=
  match Table.get? executeName e.methods with
  | some (.closure c) => c.source
  | _ => none

/-- Carries out a definition; an error that is no problem of the statement ends the pass. -/
def define (p : Pass) (id : String) (expr statement : List Char) : Pass × Option Error :=
  match LetTag.define p.registry.settings id expr with
  | .ok e =>
    let p := match sourceOf? e with
      | some s => p.trace ("[DEBUG EVAL]:\n" ++ s)
      | none => p
    ((p.add e).trace ("[OK] Object '" ++ id ++ "' created"), none)
  | .error e => match problemOf? id e with
    | some problem => (p.report problem statement, none)
    | none => (p, some e)

/-- Carries out a tagging. -/
def tag (p : Pass) (id : String) (tags : List String) (statement : List Char) : Pass :=
  match Table.get? id p.registry.objects with
  | some e => (p.add (e.tag tags)).trace
      ("[OK] Tagged '" ++ id ++ "' as " ++ ", ".intercalate tags)
  | none => p.report (.missingObject id) statement

/-- Carries out a statement. -/
def step (p : Pass) (statement : List Char) : Pass × Option Error :=
  match Declaration.parse statement with
  | .debug on => (p.switch on, none)
  | s =>
    let p := p.trace ("[DSL] " ++ String.ofList statement)
    match s with
    | .define id expr => p.define id expr statement
    | .tag id tags => (p.tag id tags statement, none)
    | .malformed problem => (p.report problem statement, none)
    | .debug _ => (p, none)

/-- Carries out statements until one ends the pass. -/
def run (p : Pass) : List (List Char) → Pass × Option Error
  | [] => (p, none)
  | s :: ss => match p.step s with
    | (p, none) => p.run ss
    | (p, some e) => (p, some e)

end Pass

namespace Registry

/-- What a pass leaves: the registry, the log, and the diagnostics or the error that ended it. -/
structure Compilation where
  registry : Registry
  log : List LogLine
  outcome : Except Error (List Diagnostic)

/-- Compiles a text.  The diagnostics of a pass that ends early are not kept. -/
def compile (r : Registry) (code : List Char) (reset : Bool) : Compilation :=
  let r := if reset || r.settings.resetOnCompile.truthy then r.reset else r
  let s := Statements.ofText code
  let unclosed : List Diagnostic := s.unclosed.toList.map fun block => ⟨.unclosedBlock, block⟩
  let start : Pass := ⟨r, unclosed, unclosed.map fun d => ⟨.warning, .statements, d.text⟩⟩
  match start.run s.all with
  | (p, none) =>
    let r := { p.registry with diagnostics := p.registry.diagnostics ++ p.diagnostics }
    ⟨r, p.log, .ok p.diagnostics⟩
  | (p, some e) => ⟨p.registry, p.log, .error e⟩

/-- Compiles the content of a file, whose line ends are read as line feeds. -/
def compileContent (r : Registry) (content : List Char) (reset : Bool) : Compilation :=
  r.compile (unifyNewlines content) reset

/-- Switches tracing, and what the log says about it. -/
def switchTracing (r : Registry) (on : Bool) : Registry × List LogLine :=
  let p := (Pass.mk r [] []).switch on
  (p.registry, p.log)

end Registry
end LetTag
