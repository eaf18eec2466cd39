/-
  Closures: arrow definitions that are ready to run.

  Compiling makes source text of the definition, reads it as a program, and runs what stands behind
  the function, so that a body that spills over its function can fail while it is defined.  A call
  takes the values out of variables among its arguments, one layer deep, and runs the function on a
  store.
-/
import LetTag.Error
import LetTag.Script.Run

namespace LetTag.Closure

open Script

/-- The closure that an arrow definition stands for; `name` is what messages call it.  Whether the
    character zero is an error of its own or one of the reader of programs depends on what runs the
    source; here it is one of its own. -/
def compile (name : String) (expr : List Char) : Except Error Closure :=
  match Arrow.ofText expr with
  | .error e => .error (.arrow e)
  | .ok a =>
    if a.source.contains '\x00' then .error .zeroCharacter
    else match Program.parse? a.source with
      | none => .error (.arrow (.doesNotCompile name))
      | some p => match (p.start.run Store.empty).1 with
        | .error (.fault f) => .error (.definition f.kind)
        | .error .endless => .error .endless
        | .ok _ => .ok ⟨a.parameters.map String.ofList, p, some (String.ofList a.source)⟩

/-- What a definition made without a name is called. -/
def anonymous : String := "<arrow>"

/-- The bare function of a closure, with other parameters declared to callers. -/
def declaring (c : Closure) (parameters : List String) : Closure :=
  ⟨parameters, c.program, none⟩

/-- The value in a variable, or the value itself. -/
def unwrap (s : Store) (v : Value) : Value :=
  match s.content v with
  | .var _ w _ => w
  | _ => v

/-- The names defined outside the function of the closure, with values in the store.  They are made
    anew for every call: what one call changes in them is gone at the next. -/
def globals (c : Closure) : StateM Store (Table Value) := fun s =>
  let (outcome, s) := c.program.start.run s
  (outcome.toOption.getD [], s)

/-- Runs the closure on arguments that are in the store. -/
def run (c : Closure) (globals : Table Value) (args : List Value) :
    StateM Store (Except Stop Value) := fun s =>
  c.program.run globals (args.map (unwrap s)) s

/-- The value of the closure for arguments without pointers, and these arguments as the run leaves
    them.  What is defined outside the function stays as this call leaves it. -/
def call (c : Closure) (globals : Table Value) (args : List Value) :
    StateM Store (Except Stop Value × List Value) := do
  let args ← Value.placeList args
  let outcome ← c.run globals args
  let s ← get
  return (outcome.map s.expand, args.map s.expand)

end LetTag.Closure
