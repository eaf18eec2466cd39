/-
  What the closure of a definition computes, when its body is an expression.

  The definition is followed through all that is made of it: the marked body, the text of a function,
  its tokens, a program, a call.  The body is given by its lexemes, so the marking can be followed
  (`Arrow.mark_spell`), and the function can be read (`tokens_of_function`).  Its tokens are the
  renamed ones, and the parser does not mind new names (`expressions_marked`).  So the program returns
  the value of the renamed expression (`Program.run_returning`), and that is the value of the
  expression where the parameters stand for the arguments (`valueIn_rename`).

  The marking sees only characters, so the result has conditions on how the body is written
  (`IsBody`) and on its names (`NamesApart`); without them it fails (`closure_apart_from_expression`).
-/
import Mathlib
import LetTag.Closure
import LetTag.Proofs.Calling
import LetTag.Proofs.FunctionText
import LetTag.Proofs.MarkedText
import LetTag.Proofs.Parsing
import LetTag.Proofs.Pass
import LetTag.Proofs.Reconstruction
import LetTag.Proofs.Renaming
import LetTag.Proofs.Source

namespace LetTag.Script

open Text

/-! ## Parsing a function that returns a value -/

/-- The block of a function that returns a value. -/
theorem block_return {m : Nat} {ts : List Token} {e : Expr} (hends : endsSimple ts = false)
    (h : expressions m ts = some (e, [.newline, .dedent])) :
    block (m + 4) (.newline :: .indent :: .keyword "return" :: ts) = some ([.ret (some e)], []) := by
  have hsimple : simple m (.keyword "return" :: ts) = some (.ret (some e), [.newline, .dedent]) := by
    show (if endsSimple ts then some (Stmt.ret none, ts)
      else (expressions m ts).map fun read => (Stmt.ret (some read.1), read.2)) = _
    rw [hends, h]
    rfl
  have hline : simpleLine (m + 1) (.keyword "return" :: ts) = some ([.ret (some e)], [.dedent]) := by
    rw [simpleLine, hsimple]
    rfl
  have hstatement : statement (m + 2) (.keyword "return" :: ts) = some ([.ret (some e)], [.dedent]) :=
    hline
  have hstatements : statements (m + 3) (.keyword "return" :: ts)
      = some ([.ret (some e)], [.dedent]) := by
    rw [statements, hstatement]
    · rfl
    · exact List.cons_ne_nil _ _
    · intro rest h
      cases h
  rw [block, hstatements]
  rfl

/-- The program of a function that returns a value, from its tokens. -/
theorem Program.parse?_function {cs : List Char} {ws : List (List Char)} {ts : List Token} {e : Expr}
    (htokens : tokens? cs = some ((headLexemes ws).map Lexeme.token
      ++ (.newline :: .indent :: .keyword "return" :: ts)))
    (hends : endsSimple ts = false)
    (h : ∀ m, fuelFor ts ≤ m → expressions m ts = some (e, [.newline, .dedent])) :
    Program.parse? cs = some
      ⟨⟨String.ofList Arrow.functionName, ws.map String.ofList, [.ret (some e)]⟩, []⟩ := by
  generalize htokens' : (headLexemes ws).map Lexeme.token
    ++ (.newline :: .indent :: .keyword "return" :: ts) = tokens at htokens
  obtain ⟨m, hm, hle⟩ : ∃ m, fuelFor tokens = m + 4 ∧ fuelFor ts ≤ m := by
    have hlength : ts.length + 3 ≤ tokens.length := by
      rw [← htokens', List.length_append, List.length_cons, List.length_cons, List.length_cons]
      omega
    unfold fuelFor
    exact ⟨20 * (tokens.length + 1) - 4, by omega, by omega⟩
  rw [Program.parse?_of_tokens htokens htokens'.symm, hm, block_return hends (h m hle)]
  rfl

/-! ## The body, as it is and marked -/

/-- The lexemes of a body that is one expression, written so that the marking takes each lexeme for
    what it is. -/
structure IsBody (ps : List (List Char)) (ls : List Lexeme) : Prop where
  spelled : Spelled [] 0 ls 0
  single : ∀ l ∈ ls, l.token ≠ .sign ";"
  noReturn : '\r' ∉ spell ls []
  fits : ∀ l ∈ ls, Arrow.Fits ps l.token l.text
  joined : AttributesJoined ps ls

/-- Only marks are put in. -/
theorem mem_spell_marked (ps : List (List Char)) {z : Char} (hz : z ∉ Arrow.parameterMark)
    (ls : List Lexeme) : ∀ c : Context, z ∈ spell (marked ps c ls) [] → z ∈ spell ls [] := by
  induction ls with
  | nil => exact fun _ h => h
  | cons l ls ih =>
    intro c h
    rw [marked, spell_cons] at h
    rw [spell_cons]
    have hgap : (if isParameterHere ps c l ls then l.marked else l).gap = l.gap := by
      split
      · rfl
      · rfl
    have htext : z ∈ (if isParameterHere ps c l ls then l.marked else l).text → z ∈ l.text := by
      split
      · intro hmem
        exact (List.mem_append.mp hmem).resolve_left hz
      · exact id
    rcases List.mem_append.mp h with h | h
    · rw [hgap] at h
      exact List.mem_append_left _ h
    · rcases List.mem_append.mp h with h | h
      · exact List.mem_append_right _ (List.mem_append_left _ (htext h))
      · exact List.mem_append_right _ (List.mem_append_right _ (ih _ h))

/-- The outcome of an expression whose names stand for the values of an environment, or else for
    what every script knows. -/
def Expr.valueIn (self : Callable) (environment : Table Value) (e : Expr) :
    StateM Store (Except Stop Value) := fun s =>
  let (outcome, m) := eval self e ⟨⟨s, []⟩, environment.names, environment⟩
  (outcome, m.store)

/-- A function whose body returns the value of an expression. -/
def Function.returning (parameters : List String) (e : Expr) : Function :=
  ⟨String.ofList Arrow.functionName, parameters, [.ret (some e)]⟩

/-- A body that is one `return` gives the value of its expression, or stops as that does. -/
theorem execList_returning (self : Callable) (e : Expr) (m : Machine) :
    execList self [.ret (some e)] m = match eval self e m with
      | (.ok v, m') => (.ok (.ret v), m')
      | (.error stop, m') => (.error stop, m') := by
  have hexec : exec self (.ret (some e)) m = match eval self e m with
      | (.ok v, m') => (.ok (.ret v), m')
      | (.error stop, m') => (.error stop, m') := by
    rw [exec, bind_apply]
    rcases eval self e m with ⟨stop | v, m'⟩
    · rfl
    · rfl
  rw [execList, bind_apply, hexec]
  rcases eval self e m with ⟨stop | v, m'⟩
  · rfl
  · rfl

/-- A call of such a function gives the value of its expression. -/
theorem Function.call_returning {parameters : List String} {e : Expr} {args : List Value}
    (hlen : args.length = parameters.length) (depth : Nat) (w : World) :
    (Function.returning parameters e).call (depth + 1) args [] w
      = let (outcome, m) := eval ((Function.returning parameters e).call depth) e
          ⟨w, parameters, parameters.zip args⟩
        (outcome, m.toWorld) := by
  have hlocals : (Function.returning parameters e).locals = parameters := List.append_nil parameters
  have hbody : ((execList ((Function.returning parameters e).call depth)
      (Function.returning parameters e).body).within parameters (parameters.zip args)) w
        = match eval ((Function.returning parameters e).call depth) e
            ⟨w, parameters, parameters.zip args⟩ with
          | (.ok v, m) => (.ok (.ret v), m.toWorld)
          | (.error stop, m) => (.error stop, m.toWorld) := by
    unfold Run.within
    rw [show (Function.returning parameters e).body = [.ret (some e)] from rfl, execList_returning]
    rcases eval _ e ⟨w, parameters, parameters.zip args⟩ with ⟨stop | v, m⟩
    · rfl
    · rfl
  have hlen' : args.length = (Function.returning parameters e).parameters.length := hlen
  rw [Function.call_exact _ hlen', Function.perform, map_eq_pure_bind, bind_apply, hlocals,
    show (Function.returning parameters e).parameters = parameters from rfl, hbody]
  rcases eval _ e ⟨w, parameters, parameters.zip args⟩ with ⟨stop | v, m⟩
  · rfl
  · rfl

/-- The program of such a function gives the value of its expression to a call from outside. -/
theorem Program.run_returning {parameters : List String} {e : Expr} {args : List Value}
    (hlen : args.length = parameters.length) (s : Store) :
    Program.run ⟨Function.returning parameters e, []⟩ [] args s
      = e.valueIn ((Function.returning parameters e).call (depthLimit - 1)) (parameters.zip args)
        s := by
  have hnames : Table.names (parameters.zip args) = parameters :=
    List.map_fst_zip (by omega)
  have hcall := Function.call_returning (e := e) hlen (depthLimit - 1) ⟨s, []⟩
  unfold Expr.valueIn
  rw [hnames, Program.run_callable rfl rfl]
  show Prod.map id World.store
    ((Function.returning parameters e).call (depthLimit - 1 + 1) args [] ⟨s, []⟩) = _
  rw [hcall]
  rfl

end LetTag.Script

namespace LetTag

open Text Script

/-! ## From a definition to its closure -/

/-- The line that returns the marked body. -/
def returnLine (ps : List (List Char)) (ls : List Lexeme) : List Char :=
  Arrow.margin ++ "return ".toList ++ spell (marked ps .start ls) []

/-- A definition with an expression as its body: the parameters in parentheses, and the lexemes of
    the expression behind the arrow. -/
structure Defines (expr : List Char) (ps : List (List Char)) (ls : List Lexeme) : Prop where
  split : ∃ inner body, Arrow.split? (trim expr) = some (inner, body)
    ∧ ((cut ',' inner).map trim).filter (!·.isEmpty) = ps ∧ trim body = spell ls []
  markable : Arrow.Markable ps
  distinct : Arrow.distinct ps = true
  body : IsBody ps ls
  noBlock : (spell ls []).head? ≠ some '\x7b'

namespace Defines

variable {expr : List Char} {ps : List (List Char)} {ls : List Lexeme}

/-- The body of a definition has blanks at neither end. -/
theorem ends (h : Defines expr ps ls) :
    (∀ c, (spell ls []).head? = some c → isBlank c = false)
    ∧ ∀ c, (spell ls []).getLast? = some c → isBlank c = false := by
  obtain ⟨inner, body, -, -, hbody⟩ := h.split
  obtain ⟨_, _, _, _, _, hhead, hlast⟩ := trim_between body
  rw [hbody] at hhead hlast
  exact ⟨hhead, hlast⟩

/-- A control character that is not in the body is not in the source. -/
theorem notMem_source (h : Defines expr ps ls) {z : Char} (hz : z ∈ ['\r', '\x00'])
    (hbody : z ∉ spell ls []) : z ∉ Arrow.sourceOf ps (returnLine ps ls) := by
  -- the frame that the source puts around parameters and body
  have hframe : ∀ z ∈ ['\r', '\x00'], z ∉ "def ".toList ∧ z ∉ Arrow.functionName ∧ z ≠ '('
      ∧ z ∉ ")".toList ∧ z ∉ ":\n".toList ∧ z ∉ Arrow.margin ∧ z ∉ "return ".toList
      ∧ z ∉ [',', ' '] ∧ z ∉ Arrow.parameterMark ∧ z ≠ '\n' ∧ isWord z = false := by decide
  obtain ⟨hdef, hname, hopen, hclose, hcolon, hmargin, hreturn, hcomma, hmark, hfeed, hword⟩ :=
    hframe z hz
  have hparameters : z ∉ join [',', ' '] (ps.map (Arrow.parameterMark ++ ·)) := by
    rw [mem_join_iff hcomma]
    rintro ⟨w, hw, hmem⟩
    obtain ⟨p, hp, rfl⟩ := List.mem_map.mp hw
    rcases List.mem_append.mp hmem with hmem | hmem
    · exact hmark hmem
    · rw [Arrow.isWord_of_parameter (h.markable.names p hp) z hmem] at hword
      cases hword
  have hmarked : z ∉ spell (marked ps .start ls) [] := fun hmem =>
    hbody (mem_spell_marked ps hmark ls .start hmem)
  have hline : z ∉ returnLine ps ls := by
    unfold returnLine
    rw [List.mem_append, List.mem_append]
    exact not_or.mpr ⟨not_or.mpr ⟨hmargin, hreturn⟩, hmarked⟩
  unfold Arrow.sourceOf
  simp only [List.mem_append, List.mem_cons, List.not_mem_nil, or_false, not_or]
  exact ⟨⟨⟨⟨⟨⟨hdef, hname⟩, hopen, hparameters⟩, hclose⟩, hcolon⟩, hline⟩, hfeed⟩

end Defines

end LetTag
