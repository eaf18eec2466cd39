/-
  Scripts that change nothing in its place.

  Three things in a script change a place that was there before: `+=` and `*=` behind a name that stands
  for a list, the method `append`, and the method `tag`.  Values have methods beyond those that scripts
  have here, though, and there are more predefined functions, so what is harmless is not all that is left
  when these three are taken out.  A script is still (`Program.isStill`) if it is made of what is known to
  change nothing: it has no statements behind its function, no operator behind a name, nothing behind a dot
  that is not in `harmless`, and no names but its own and those of the predefined functions.

  Whatever a still script does only adds to the store: this is an induction over the trees of its
  expressions and statements, with the lemmas about values for its leaves, and one on the depth of the
  calls of the function by itself.  So a call leaves the places that it was given as they were
  (`Closure.invoked_extends`).

  What a method does is decided by the value in front of the dot, which is looked at twice, before the
  arguments are evaluated and behind that.  Arguments that only add to the store change nothing about it in
  between (`Adds.callMethod`).
-/
import LetTag.Proofs.Allocation
import LetTag.Proofs.Confinement
import LetTag.Proofs.Delegation

namespace LetTag
namespace Script

/-! ## Scripts in which nothing is changed -/

/-- What may stand behind a dot: the attributes of objects, and methods that change nothing. -/
def harmless : List String :=
  ["id", "type", "value", "tags", "upper", "lower", "strip", "split", "join", "get"]

mutual

/-- Is the expression made of what changes nothing, with `own` the names that the function sets? -/
def Expr.isStill (own : List String) : Expr → Bool
  | .constant _ | .formatted _ => true
  | .name n => own.contains n || (Builtin.ofName? n).isSome
  | .tuple es | .list es | .set es => Expr.listStill own es
  | .dict es => Expr.entriesStill own es
  | .unary _ e | .not e => e.isStill own
  | .binary _ l r | .and l r | .or l r | .subscript l r => l.isStill own && r.isStill own
  | .compare e rest => e.isStill own && Expr.comparisonsStill own rest
  | .conditional c yes no => c.isStill own && (yes.isStill own && no.isStill own)
  | .attribute e n => harmless.contains n && e.isStill own
  | .call f args keys => f.isStill own && (Expr.listStill own args && Expr.keywordsStill own keys)

/-- Are the expressions? -/
def Expr.listStill (own : List String) : List Expr → Bool
  | [] => true
  | e :: es => e.isStill own && Expr.listStill own es

/-- Are the keys and values? -/
def Expr.entriesStill (own : List String) : List (Expr × Expr) → Bool
  | [] => true
  | (k, v) :: es => k.isStill own && (v.isStill own && Expr.entriesStill own es)

/-- Are the operands? -/
def Expr.comparisonsStill (own : List String) : List (CompareOp × Expr) → Bool
  | [] => true
  | (_, e) :: rest => e.isStill own && Expr.comparisonsStill own rest

/-- Are the values under keywords? -/
def Expr.keywordsStill (own : List String) : List (String × Expr) → Bool
  | [] => true
  | (_, e) :: es => e.isStill own && Expr.keywordsStill own es

end

mutual

/-- Is the statement made of such expressions, without an operator behind a name? -/
def Stmt.isStill (own : List String) : Stmt → Bool
  | .expr e | .assign _ e => e.isStill own
  | .augment .. => false
  | .annotate _ a e => a.isStill own && e.all (Expr.isStill own)
  | .ret e | .raise e => e.all (Expr.isStill own)
  | .pass | .stop | .skip => true
  | .branch c yes no => c.isStill own && (Stmt.listStill own yes && Stmt.listStill own no)
  | .each _ e body otherwise =>
    e.isStill own && (Stmt.listStill own body && Stmt.listStill own otherwise)

/-- Are the statements? -/
def Stmt.listStill (own : List String) : List Stmt → Bool
  | [] => true
  | s :: ss => s.isStill own && Stmt.listStill own ss

end

/-- Is the function made of such statements, with nothing behind it? -/
def Program.isStill (p : Program) : Bool :=
  p.trailing.isEmpty && Stmt.listStill p.function.locals p.function.body

namespace Adds

/-! ## Expressions -/

/-- A formatted text reads the values of its names. -/
theorem formatted : ∀ ps : List Piece, Run.Adds (Script.formatted ps)
  | [] => pure ""
  | .text s :: ps => bind (pure s) fun _ => bind (formatted ps) fun _ => pure _
  | .name n :: ps => bind (bind (lookupName n) fun v => lift (displayed v)) fun _ =>
      bind (formatted ps) fun _ => pure _

/-- A dictionary that is written out is a new value. -/
theorem dictOf (entries : List (Value × Value)) : (Script.dictOf entries).Adds := by
  unfold Script.dictOf
  refine bind (mapM ?_ entries) fun keys => ?_
  · exact fun entry => whole entry.1
  · split
    · exact fail _
    · exact pure _

/-- A set that is written out stops the run, and has changed nothing. -/
theorem refuseSet (items : List Value) : (Script.refuseSet items).Adds :=
  bind (mapM whole items) fun members => by
    split
    · exact fail _
    · exact fail _

/-- A method that belongs to the value in front of the dot, and changes nothing. -/
theorem callMethod {receiver : Value} {method : String} {w : World}
    (hmethod : (methodsOf (w.store.content receiver)).contains method = true)
    (hstill : harmless.contains method = true) (args : List Value) (keys : List (String × Value)) :
    w.store.Extends (Script.callMethod receiver method args keys w).2.store := by
  have hview (f : Value → Work Value) : (Script.view receiver >>= f) w
      = f (w.store.content receiver) w := rfl
  unfold Script.callMethod
  rw [hview]
  generalize w.store.content receiver = content at hmethod
  split
  · exact callText _ method args keys w
  · -- the only method of lists is one that changes them
    obtain rfl : method = "append" := by simpa [methodsOf] using hmethod
    exact absurd hstill (by decide)
  · refine bind (noKeywords _ keys) (fun _ => ?_) w
    extract_lets rest
    have hrest : ∀ entry, (rest entry).Adds := by
      intro entry
      refine bind (whole entry.1) fun k => ?_
      split
      · exact fail _
      · exact pure _
    split
    · exact bind (pure _) hrest
    · exact bind (pure _) hrest
    · exact bind (fail _) hrest
    · exact bind (fail _) hrest
  · split
    · -- tags are added by the method that is excluded
      exact absurd hstill (by decide)
    · exact bind (fun m => .refl m.store) (fun _ => bind (keyArgument receiver args keys) fun _ =>
        bind (whole _) fun _ => pure _) w
  · exact fail _ w

section

variable {self : Callable} (hself : ∀ args keys, (self args keys).Adds) {own : List String}

include hself

-- most of these use the hypothesis through one another only
set_option linter.unusedSectionVars false

/-- Calling a value changes nothing: it is a predefined function, or cannot be called. -/
theorem callValue (callee : Value) (args : List Value)
    (keys : List (String × Value)) : (Script.callValue self callee args keys).Adds :=
  bind (view callee) fun w => by
    split
    · exact callBuiltin hself _ args keys
    · exact fail _

/-- Behind a dot, what is called depends on the store in which the value in front of it is looked at,
    and that happens before the arguments are evaluated. -/
theorem attributeCall {e : Expr} {n : String} {args : List Expr} {keys : List (String × Expr)}
    (hstill : harmless.contains n = true) (he : Run.Adds (Script.eval self e))
    (hargs : Run.Adds (Script.evalList self args))
    (hkeys : Run.Adds (Script.evalKeywords self keys)) :
    Run.Adds (Script.eval self (.call (.attribute e n) args keys)) := by
  refine bind he fun x m => ?_
  have hview (f : Value → Run Value) : ((liftM (Script.view x) : Run Value) >>= f) m
      = f (m.store.content x) m := rfl
  rw [hview]
  split
  · rename_i hmethod
    -- behind the arguments there is the same value in front of the dot
    refine bind_at (hargs m) fun vs m₁ hm₁ => bind_at (hkeys m₁) fun ks m₂ hm₂ => ?_
    have hcontent : m₂.store.content x = m.store.content x := by
      refine (hm₁.trans hm₂).content_eq fun hnull => ?_
      rw [hnull] at hmethod
      cases hmethod
    exact callMethod (w := m₂.toWorld) (hcontent ▸ hmethod) hstill vs ks
  · exact bind (lift (attributeOf x n)) (fun f => bind hargs fun vs => bind hkeys fun ks =>
      lift (callValue hself f vs ks)) m

mutual

/-- **A still expression only adds to the store.** -/
theorem eval : ∀ e : Expr, e.isStill own = true → Run.Adds (Script.eval self e)
  | .constant s, _ => pure _
  | .name n, _ => lookupName n
  | .formatted ps, _ => bind (formatted ps) fun _ => pure _
  | .tuple es, h => bind (evalList es h) fun _ => pure _
  | .list es, h => bind (evalList es h) fun vs => lift (newList vs)
  | .set es, h => bind (evalList es h) fun vs => lift (refuseSet vs)
  | .dict es, h => bind (evalEntries es h) fun vs => lift (dictOf vs)
  | .unary op e, h => bind (eval e h) fun v => lift (unary op v)
  | .binary op l r, h => by
    obtain ⟨hl, hr⟩ := Bool.and_eq_true_iff.mp h
    exact bind (eval l hl) fun x => bind (eval r hr) fun y => lift (binary op x y)
  | .compare e rest, h => by
    obtain ⟨he, hrest⟩ := Bool.and_eq_true_iff.mp h
    exact bind (eval e he) fun v => evalComparisons v rest hrest
  | .not e, h => bind (eval e h) fun v => bind (lift (view v)) fun _ => pure _
  | .and l r, h => by
    obtain ⟨hl, hr⟩ := Bool.and_eq_true_iff.mp h
    exact bind (eval l hl) fun x => bind (lift (view x)) fun _ => ite (eval r hr) (pure x)
  | .or l r, h => by
    obtain ⟨hl, hr⟩ := Bool.and_eq_true_iff.mp h
    exact bind (eval l hl) fun x => bind (lift (view x)) fun _ => ite (pure x) (eval r hr)
  | .conditional c yes no, h => by
    obtain ⟨hc, h⟩ := Bool.and_eq_true_iff.mp h
    obtain ⟨hyes, hno⟩ := Bool.and_eq_true_iff.mp h
    exact bind (eval c hc) fun x => bind (lift (view x)) fun _ =>
      ite (eval yes hyes) (eval no hno)
  | .attribute e n, h => by
    obtain ⟨-, he⟩ := Bool.and_eq_true_iff.mp h
    exact bind (eval e he) fun v => lift (attributeOf v n)
  | .subscript e i, h => by
    obtain ⟨he, hi⟩ := Bool.and_eq_true_iff.mp h
    exact bind (eval e he) fun x => bind (eval i hi) fun y => lift (subscripted x y)
  | .call g args keys, h => by
    obtain ⟨hg, h⟩ := Bool.and_eq_true_iff.mp h
    obtain ⟨hargs, hkeys⟩ := Bool.and_eq_true_iff.mp h
    have hargs := evalList args hargs
    have hkeys := evalKeywords keys hkeys
    by_cases hattribute : ∃ e n, g = .attribute e n
    · obtain ⟨e, n, rfl⟩ := hattribute
      obtain ⟨hn, he⟩ := Bool.and_eq_true_iff.mp hg
      exact attributeCall hself hn (eval e he) hargs hkeys
    · have hne : ∀ e n, g ≠ .attribute e n := fun e n he => hattribute ⟨e, n, he⟩
      rw [eval_call hne]
      exact bind (eval g hg) fun f => bind hargs fun vs => bind hkeys fun ks =>
        lift (callValue hself f vs ks)

theorem evalList : ∀ es : List Expr, Expr.listStill own es = true → Run.Adds (Script.evalList self es)
  | [], _ => pure []
  | e :: es, h => by
    obtain ⟨he, hes⟩ := Bool.and_eq_true_iff.mp h
    exact bind (eval e he) fun _ => bind (evalList es hes) fun _ => pure _

theorem evalEntries : ∀ es : List (Expr × Expr), Expr.entriesStill own es = true →
    Run.Adds (Script.evalEntries self es)
  | [], _ => pure []
  | (k, v) :: es, h => by
    obtain ⟨hk, h⟩ := Bool.and_eq_true_iff.mp h
    obtain ⟨hv, hes⟩ := Bool.and_eq_true_iff.mp h
    exact bind (eval k hk) fun _ => bind (eval v hv) fun _ =>
      bind (evalEntries es hes) fun _ => pure _

theorem evalKeywords : ∀ es : List (String × Expr), Expr.keywordsStill own es = true →
    Run.Adds (Script.evalKeywords self es)
  | [], _ => pure []
  | (_, e) :: es, h => by
    obtain ⟨he, hes⟩ := Bool.and_eq_true_iff.mp h
    exact bind (eval e he) fun _ => bind (evalKeywords es hes) fun _ => pure _

theorem evalComparisons (left : Value) : ∀ rest : List (CompareOp × Expr),
    Expr.comparisonsStill own rest = true → Run.Adds (Script.evalComparisons self left rest)
  | [], _ => pure left
  | (op, e) :: rest, h => by
    obtain ⟨he, hrest⟩ := Bool.and_eq_true_iff.mp h
    exact bind (eval e he) fun right => bind (lift (compared op left right)) fun _ =>
      ite (pure _) (evalComparisons right rest hrest)

end

end

/-! ## Statements -/

theorem unpacked (count : Nat) (v : Value) : (Script.unpacked count v).Adds := by
  have hitems (items : List Value) : Work.Adds (if items.length > count then
      Script.fail (.tooManyValues count)
      else if items.length < count then Script.fail (.tooFewValues count items.length)
      else return items) :=
    ite (fail _) (ite (fail _) (pure items))
  refine bind (view v) fun w => ?_
  dsimp only
  split
  · exact bind (pure _) hitems
  · exact bind (pure _) hitems
  · exact bind (itemsOf _) hitems
  · exact bind (itemsOf _) hitems
  · exact bind (itemsOf _) hitems
  · exact bind (fail _) hitems
  · exact bind (fail _) hitems

mutual

/-- Assignments set names, and names are not in the store. -/
theorem assign : ∀ (t : Target) (v : Value), Run.Adds (Script.assign t v)
  | .name n, v => assignName n v
  | .tuple ts, v => bind (lift (unpacked ts.length v)) fun vs => assignAll ts vs

theorem assignAll : ∀ (ts : List Target) (vs : List Value), Run.Adds (Script.assignAll ts vs)
  | [], _ => pure ()
  | _ :: _, [] => pure ()
  | t :: ts, v :: vs => bind (assign t v) fun _ => assignAll ts vs

end

theorem assignEach (v : Value) : ∀ ts : List Target, Run.Adds (Script.assignEach v ts)
  | [] => pure ()
  | t :: ts => bind (assign t v) fun _ => assignEach v ts

/-- An error is made of its arguments, which are evaluated first. -/
theorem raised {self : Callable} (hself : ∀ args keys, (self args keys).Adds) {own : List String}
    (e : Option Expr) (h : e.all (Expr.isStill own) = true) : Run.Adds (Script.raised self e) := by
  unfold Script.raised
  split
  · exact lift (fail _)
  · rename_i f args keys
    have hcall := eval hself (.call f args keys) h
    obtain ⟨hf, h⟩ := Bool.and_eq_true_iff.mp h
    obtain ⟨hargs, hkeys⟩ := Bool.and_eq_true_iff.mp h
    -- what is no class of errors is called, and is no error
    have hnone : Run.Adds (do
        let _ ← Script.eval self (.call f args keys)
        Script.fail .notAnError : Run Flow) :=
      bind hcall fun _ => lift (fail _)
    refine bind (eval hself f hf) fun x => bind (lift (view x)) fun w => ?_
    split
    · split
      · exact bind (evalList hself args hargs) fun vs => bind (evalKeywords hself keys hkeys) fun _ =>
          ite (bind (lift (errorText _ vs)) fun _ => lift (fail _)) (lift (fail _))
      · exact hnone
    · exact hnone
  · refine bind (eval hself _ h) fun x => bind (lift (view x)) fun w => ?_
    split
    · split
      · exact lift (fail _)
      · exact lift (fail _)
    · exact lift (fail _)

section

variable {body : Value → Run Flow}

/-- A loop over items adds if its body does for each of them. -/
theorem loopOver (h : ∀ x, (body x).Adds) (xs : List Value) : Run.Adds (Script.loopOver body xs) := by
  induction xs with
  | nil => exact pure Flow.next
  | cons x xs ih =>
    refine bind (h x) fun flow => ?_
    split
    · exact ih
    · exact ih
    · exact pure _

theorem loopLive {item : Nat → Run (Option Value)} (h : ∀ x, (body x).Adds)
    (hitem : ∀ i, (item i).Adds) : ∀ turns i, Run.Adds (Script.loopLive body item turns i)
  | 0, _ => throw .endless
  | turns + 1, i => bind (hitem i) fun found => by
    split
    · exact pure Flow.next
    · refine bind (h _) fun flow => ?_
      split
      · exact loopLive h hitem turns (i + 1)
      · exact loopLive h hitem turns (i + 1)
      · exact pure _

/-- Whatever a loop goes over, its items are read. -/
theorem loop (h : ∀ x, (body x).Adds) (items : Value) : Run.Adds (Script.loop body items) :=
  bind (lift (view items)) fun w => by
    split
    · exact loopLive h (fun i => bind (lift (itemsOf items)) fun _ => pure _) turnLimit 0
    · exact loopLive h (fun i => map some (lift (subscripted items (.int i)))) turnLimit 0
    · exact bind (lift (itemsOf items)) fun xs => loopOver h xs

end

section

variable {self : Callable} (hself : ∀ args keys, (self args keys).Adds) {own : List String}

include hself

set_option linter.unusedSectionVars false

mutual

/-- **A still statement only adds to the store.** -/
theorem exec : ∀ s : Stmt, s.isStill own = true → Run.Adds (Script.exec self s)
  | .expr e, h => bind (eval hself e h) fun _ => pure _
  | .assign targets e, h => bind (eval hself e h) fun v => bind (assignEach v targets) fun _ => pure _
  | .augment .., h => Bool.noConfusion h
  | .annotate n a e, h => by
    -- the annotation is evaluated behind the value, and may not be at all
    obtain ⟨ha, he⟩ := Bool.and_eq_true_iff.mp h
    have hannotation : Run.Adds (do
        if !(← get).scope.contains n then
          let _ ← Script.eval self a
        return Flow.next) :=
      bind (fun m => .refl m.store) fun _ => ite (bind (eval hself a ha) fun _ => pure _) (pure _)
    cases e with
    | none => exact hannotation
    | some e => exact bind (eval hself e he) fun v => bind (assignName n v) fun _ => hannotation
  | .ret none, _ => pure _
  | .ret (some e), h => bind (eval hself e h) fun _ => pure _
  | .raise e, h => raised hself e h
  | .pass, _ => pure _
  | .stop, _ => pure _
  | .skip, _ => pure _
  | .branch c yes no, h => by
    obtain ⟨hc, h⟩ := Bool.and_eq_true_iff.mp h
    obtain ⟨hyes, hno⟩ := Bool.and_eq_true_iff.mp h
    exact bind (eval hself c hc) fun x => bind (lift (view x)) fun _ =>
      ite (execList yes hyes) (execList no hno)
  | .each target e body otherwise, h => by
    obtain ⟨he, h⟩ := Bool.and_eq_true_iff.mp h
    obtain ⟨hbody, hotherwise⟩ := Bool.and_eq_true_iff.mp h
    have hturn (x : Value) : Run.Adds (do
        Script.assign target x
        Script.execList self body) :=
      bind (assign target x) fun _ => execList body hbody
    refine bind (eval hself e he) fun items => bind (loop hturn items) fun flow => ?_
    split
    · exact pure _
    · exact pure _
    · exact execList otherwise hotherwise

theorem execList : ∀ ss : List Stmt, Stmt.listStill own ss = true → Run.Adds (Script.execList self ss)
  | [], _ => pure Flow.next
  | s :: ss, h => by
    obtain ⟨hs, hss⟩ := Bool.and_eq_true_iff.mp h
    refine bind (exec s hs) fun flow => ?_
    split
    · exact execList ss hss
    · exact pure _

end

end

/-! ## Functions -/

/-- A still function only adds to the store, however often it calls itself. -/
theorem call {f : Function} {own : List String} (h : Stmt.listStill own f.body = true) :
    ∀ (depth : Nat) (args : List Value) (keys : List (String × Value)), (f.call depth args keys).Adds
  | 0, _, _ => fail _
  | depth + 1, args, keys => by
    -- calls of the function by itself are one level further down
    have hbody (bound : Table Value) :
        Work.Adds ((Script.execList (f.call depth) f.body).within f.locals bound) :=
      within (execList (call h depth) f.body h) f.locals bound
    refine bind (bindArguments f.name f.parameters args keys) fun bound => bind (hbody bound) fun flow => ?_
    split
    · exact pure _
    · exact pure _

end Adds

namespace Program

variable {p : Program}

/-- There is nothing behind the function to start. -/
theorem start_extends (h : p.isStill = true) (s : Store) : s.Extends (p.start s).2 := by
  obtain ⟨htrailing, -⟩ := Bool.and_eq_true_iff.mp h
  have hstart := p.start_of_trailing (List.isEmpty_iff.mp htrailing) s
  rw [show (p.start s).2 = s from congrArg Prod.snd hstart]
  exact .refl s

/-- A run of a still program leaves what was in the store. -/
theorem run_extends (h : p.isStill = true) (globals : Table Value) (args : List Value) (s : Store) :
    s.Extends (p.run globals args s).2 := by
  obtain ⟨-, hbody⟩ := Bool.and_eq_true_iff.mp h
  exact Adds.bind (Adds.lookupName p.function.name) (fun f =>
    Adds.lift (Adds.callValue (Adds.call hbody depthLimit) f args [])) ⟨⟨s, globals⟩, [], []⟩

end Program
end Script

/-- **A run of a still closure leaves all places as they were.** -/
theorem Closure.invoked_extends {c : Closure} (h : c.program.isStill = true) (args : List Value)
    (s : Store) : s.Extends (c.invoked args s).store :=
  (Script.Program.start_extends h s).trans (Script.Program.run_extends h _ _ _)

end LetTag
