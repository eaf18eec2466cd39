/-
  Renaming the local names of an expression.

  An expression reads its names one by one, and what it does with their values is work on the world,
  which sees no local names.  So if every name and its new name stand for the same value, the
  expression and the renamed one do the same: they end alike and leave the world alike.  `Agree`
  says this of two runs with names of their own.  It holds of all work (`Agree.lift`) and is kept by
  sequencing (`Agree.bind`); evaluation is an induction over the tree with these two
  (`Agree.eval`).

  Names in formatted texts are read as well but not renamed.
-/
import LetTag.Proofs.Table
import LetTag.Script.Run

namespace LetTag.Script

/-! ## Names and renaming -/

/-- The names that are read in the pieces of a formatted text. -/
def Piece.names : List Piece → List String
  | [] => []
  | .text _ :: ps => Piece.names ps
  | .name n :: ps => n :: Piece.names ps

mutual

/-- The names that an expression reads: those in formatted texts, or all others. -/
def Expr.names (inText : Bool) : Expr → List String
  | .constant _ => []
  | .name n => if inText then [] else [n]
  | .formatted ps => if inText then Piece.names ps else []
  | .tuple es | .list es | .set es => listNames inText es
  | .dict es => entryNames inText es
  | .unary _ e | .not e | .attribute e _ => e.names inText
  | .binary _ l r | .and l r | .or l r | .subscript l r => l.names inText ++ r.names inText
  | .compare e rest => e.names inText ++ comparisonNames inText rest
  | .conditional c yes no => c.names inText ++ (yes.names inText ++ no.names inText)
  | .call f args keys =>
    f.names inText ++ (listNames inText args ++ keywordNames inText keys)

/-- The names that expressions read. -/
def listNames (inText : Bool) : List Expr → List String
  | [] => []
  | e :: es => e.names inText ++ listNames inText es

/-- The names that pairs of expressions read. -/
def entryNames (inText : Bool) : List (Expr × Expr) → List String
  | [] => []
  | (k, v) :: es => k.names inText ++ (v.names inText ++ entryNames inText es)

/-- The names that the operands of comparisons read. -/
def comparisonNames (inText : Bool) : List (CompareOp × Expr) → List String
  | [] => []
  | (_, e) :: rest => e.names inText ++ comparisonNames inText rest

/-- The names that values under keywords read. -/
def keywordNames (inText : Bool) : List (String × Expr) → List String
  | [] => []
  | (_, e) :: es => e.names inText ++ keywordNames inText es

end

mutual

/-- The expression with other names, formatted texts as they are. -/
def Expr.rename (f : String → String) : Expr → Expr
  | .constant s => .constant s
  | .name n => .name (f n)
  | .formatted ps => .formatted ps
  | .tuple es => .tuple (renameList f es)
  | .list es => .list (renameList f es)
  | .set es => .set (renameList f es)
  | .dict es => .dict (renameEntries f es)
  | .unary op e => .unary op (e.rename f)
  | .binary op l r => .binary op (l.rename f) (r.rename f)
  | .compare e rest => .compare (e.rename f) (renameComparisons f rest)
  | .not e => .not (e.rename f)
  | .and l r => .and (l.rename f) (r.rename f)
  | .or l r => .or (l.rename f) (r.rename f)
  | .conditional c yes no => .conditional (c.rename f) (yes.rename f) (no.rename f)
  | .attribute e n => .attribute (e.rename f) n
  | .subscript e i => .subscript (e.rename f) (i.rename f)
  | .call g args keys => .call (g.rename f) (renameList f args) (renameKeywords f keys)

/-- The expressions with other names. -/
def renameList (f : String → String) : List Expr → List Expr
  | [] => []
  | e :: es => e.rename f :: renameList f es

/-- The pairs of expressions with other names. -/
def renameEntries (f : String → String) : List (Expr × Expr) → List (Expr × Expr)
  | [] => []
  | (k, v) :: es => (k.rename f, v.rename f) :: renameEntries f es

/-- The operands of comparisons with other names. -/
def renameComparisons (f : String → String) : List (CompareOp × Expr) → List (CompareOp × Expr)
  | [] => []
  | (op, e) :: rest => (op, e.rename f) :: renameComparisons f rest

/-- The values under keywords with other names; the keywords stay. -/
def renameKeywords (f : String → String) : List (String × Expr) → List (String × Expr)
  | [] => []
  | (k, e) :: es => (k, e.rename f) :: renameKeywords f es

end

/-! ## Runs that agree -/

/-- Local names: those in scope, and the values of those that are set. -/
structure Locals where
  scope : List String
  values : Table Value

/-- The machine with that world and these local names. -/
def Locals.machine (a : Locals) (w : World) : Machine :=
  ⟨w, a.scope, a.values⟩

/-- The first run with local names `a` and the second one with local names `b` end alike, do the
    same to the world, and leave the names alone. -/
def Agree {α : Type} (a b : Locals) (r s : Run α) : Prop :=
  ∀ w, ∃ outcome w', r (a.machine w) = (outcome, a.machine w')
    ∧ s (b.machine w) = (outcome, b.machine w')

/-- One run behind another starts from where the first one ends, unless that stops. -/
theorem bind_apply {σ α β : Type} (r : ExceptT Stop (StateM σ) α) (f : α → ExceptT Stop (StateM σ) β)
    (m : σ) : (r >>= f) m = match r m with
      | (.ok x, m') => f x m'
      | (.error e, m') => (.error e, m') := by
  show (match r m with
    | (x, m') => ExceptT.bindCont f x m') = _
  rcases r m with ⟨x | x, m'⟩
  · rfl
  · rfl

namespace Agree

variable {α β : Type} {a b : Locals}

theorem pure (x : α) : Agree a b (Pure.pure x) (Pure.pure x) :=
  fun w => ⟨.ok x, w, rfl, rfl⟩

/-- Work sees no local names. -/
theorem lift (x : Work α) : Agree a b x.lift x.lift :=
  fun w => ⟨(x w).1, (x w).2, rfl, rfl⟩

/-- Runs that agree, one behind the other, agree. -/
theorem bind {r s : Run α} {f g : α → Run β} (h : Agree a b r s)
    (hf : ∀ x, Agree a b (f x) (g x)) : Agree a b (r >>= f) (s >>= g) := by
  intro w
  obtain ⟨outcome, w', hr, hs⟩ := h w
  rw [bind_apply, bind_apply, hr, hs]
  cases outcome with
  | error e => exact ⟨.error e, w', rfl, rfl⟩
  | ok x => exact hf x w'

end Agree

/-! ## Evaluation -/

/-- The name `m` in `a` and the name `n` in `b` stand for the same. -/
def SameName (a b : Locals) (m n : String) : Prop :=
  Agree a b (lookupName m) (lookupName n)

namespace Agree

variable {a b : Locals} {f : String → String} {self : Callable}

/-- Formatted texts read the same names in both. -/
theorem formatted (ps : List Piece) (h : ∀ n ∈ Piece.names ps, SameName a b n n) :
    Agree a b (Script.formatted ps) (Script.formatted ps) := by
  induction ps with
  | nil => exact pure ""
  | cons p ps ih =>
    cases p with
    | text s =>
      exact bind (pure s) fun _ => bind (ih h) fun _ => pure _
    | name n =>
      have hn := h n List.mem_cons_self
      have hps := ih fun m hm => h m (List.mem_cons_of_mem n hm)
      exact bind (bind hn fun v => lift (displayed v)) fun _ => bind hps fun _ => pure _

end Agree

/-- A call of anything but an attribute: the callee first, then the arguments. -/
theorem eval_call {self : Callable} {g : Expr} (h : ∀ e n, g ≠ .attribute e n) (args : List Expr)
    (keys : List (String × Expr)) : eval self (.call g args keys) = (do
      let callee ← eval self g
      let vs ← evalList self args
      let ks ← evalKeywords self keys
      callValue self callee vs ks) := by
  cases g with
  | «attribute» e n => exact absurd rfl (h e n)
  | _ => rfl

/-- A renaming makes no attribute of what is none. -/
theorem rename_ne_attribute {g : Expr} (f : String → String) (h : ∀ e n, g ≠ .attribute e n) :
    ∀ e n, g.rename f ≠ .attribute e n := by
  intro e n
  cases g with
  | «attribute» e n => exact absurd rfl (h e n)
  | _ => simp [Expr.rename]

/-- Every name of an expression, and every name in its formatted texts, stands for the same. -/
structure SameNames (a b : Locals) (f : String → String) (names : Bool → List String) : Prop where
  plain : ∀ n ∈ names false, SameName a b n (f n)
  inText : ∀ n ∈ names true, SameName a b n n

namespace SameNames

variable {a b : Locals} {f : String → String} {x y : Bool → List String}

/-- What is known of the names of two parts is known of those of the first. -/
theorem left (h : SameNames a b f fun t => x t ++ y t) : SameNames a b f x where
  plain n hn := h.plain n (List.mem_append_left _ hn)
  inText n hn := h.inText n (List.mem_append_left _ hn)

theorem right (h : SameNames a b f fun t => x t ++ y t) : SameNames a b f y where
  plain n hn := h.plain n (List.mem_append_right _ hn)
  inText n hn := h.inText n (List.mem_append_right _ hn)

end SameNames

namespace Agree

variable {a b : Locals} {f : String → String} {self : Callable}

mutual

/-- An expression and the renamed one agree. -/
theorem eval : ∀ e : Expr, (SameNames a b f fun t => e.names t) →
    Agree a b (Script.eval self e) (Script.eval self (e.rename f))
  | .constant s, _ => pure _
  | .name n, h => h.plain n List.mem_cons_self
  | .formatted ps, h => bind (formatted ps h.inText) fun _ => pure _
  | .tuple es, h => bind (evalList es h) fun _ => pure _
  | .list es, h => bind (evalList es h) fun vs => lift (newList vs)
  | .set es, h => bind (evalList es h) fun vs => lift (refuseSet vs)
  | .dict es, h => bind (evalEntries es h) fun vs => lift (dictOf vs)
  | .unary op e, h => bind (eval e h) fun v => lift (Script.unary op v)
  | .binary op l r, h =>
    bind (eval l h.left) fun x => bind (eval r h.right) fun y => lift (Script.binary op x y)
  | .compare e rest, h => bind (eval e h.left) fun v => evalComparisons v rest h.right
  | .not e, h => bind (eval e h) fun v => bind (lift (view v)) fun _ => pure _
  | .and l r, h =>
    bind (eval l h.left) fun x => bind (lift (view x)) fun w => by
      split
      · exact eval r h.right
      · exact pure x
  | .or l r, h =>
    bind (eval l h.left) fun x => bind (lift (view x)) fun w => by
      split
      · exact pure x
      · exact eval r h.right
  | .conditional c yes no, h =>
    bind (eval c h.left) fun x => bind (lift (view x)) fun w => by
      split
      · exact eval yes h.right.left
      · exact eval no h.right.right
  | .attribute e n, h => bind (eval e h) fun v => lift (attributeOf v n)
  | .subscript e i, h =>
    bind (eval e h.left) fun x => bind (eval i h.right) fun y => lift (subscripted x y)
  | .call g args keys, h => by
    have hargs := evalList args h.right.left
    have hkeys := evalKeywords keys h.right.right
    by_cases hg : ∃ e n, g = .attribute e n
    · -- a method is looked for before the arguments are evaluated
      obtain ⟨e, n, rfl⟩ := hg
      refine bind (eval e h.left) fun x => bind (lift (view x)) fun w => ?_
      split
      · exact bind hargs fun vs => bind hkeys fun ks => lift (callMethod x n vs ks)
      · exact bind (lift (attributeOf x n)) fun g => bind hargs fun vs => bind hkeys fun ks =>
          lift (callValue self g vs ks)
    · have hne : ∀ e n, g ≠ .attribute e n := fun e n he => hg ⟨e, n, he⟩
      have hcallee := eval g h.left
      rw [Expr.rename, eval_call hne, eval_call (rename_ne_attribute f hne)]
      exact bind hcallee fun g => bind hargs fun vs => bind hkeys fun ks =>
        lift (callValue self g vs ks)

/-- The values of renamed expressions are those of the expressions. -/
theorem evalList : ∀ es : List Expr, (SameNames a b f fun t => listNames t es) →
    Agree a b (Script.evalList self es) (Script.evalList self (renameList f es))
  | [], _ => pure []
  | e :: es, h => bind (eval e h.left) fun _ => bind (evalList es h.right) fun _ => pure _

theorem evalEntries : ∀ es : List (Expr × Expr), (SameNames a b f fun t => entryNames t es) →
    Agree a b (Script.evalEntries self es) (Script.evalEntries self (renameEntries f es))
  | [], _ => pure []
  | (k, v) :: es, h =>
    bind (eval k h.left) fun _ => bind (eval v h.right.left) fun _ =>
      bind (evalEntries es h.right.right) fun _ => pure _

theorem evalKeywords : ∀ es : List (String × Expr), (SameNames a b f fun t => keywordNames t es) →
    Agree a b (Script.evalKeywords self es) (Script.evalKeywords self (renameKeywords f es))
  | [], _ => pure []
  | (k, e) :: es, h => bind (eval e h.left) fun _ => bind (evalKeywords es h.right) fun _ => pure _

theorem evalComparisons (left : Value) : ∀ rest : List (CompareOp × Expr),
    (SameNames a b f fun t => comparisonNames t rest) →
    Agree a b (Script.evalComparisons self left rest)
      (Script.evalComparisons self left (renameComparisons f rest))
  | [], _ => pure left
  | (op, e) :: rest, h =>
    bind (eval e h.left) fun right => bind (lift (compared op left right)) fun holds => by
      have hlast : (renameComparisons f rest).isEmpty = rest.isEmpty := by
        cases rest with
        | nil => rfl
        | cons c rest => rfl
      rw [hlast]
      split
      · exact pure _
      · exact evalComparisons right rest h.right

end

end Agree

/-! ## Parameters and other names -/

/-- What a name stands for, local or not. -/
def Machine.named (m : Machine) (n : String) : Except Stop Value :=
  if m.scope.contains n then match Table.get? n m.locals with
    | some v => .ok v
    | none => .error (.fault (.unsetLocal n))
  else match Table.get? n m.globals, Builtin.ofName? n with
    | some v, _ => .ok v
    | none, some b => .ok (.scalar (.builtin b))
    | none, none => .error (.fault (.undefinedName n))

/-- Looking up a name gives what it stands for, and changes nothing. -/
theorem lookupName_apply (n : String) (m : Machine) : lookupName n m = (m.named n, m) := by
  have hget : lookupName n m = (if m.scope.contains n then match Table.get? n m.locals with
      | some v => return v
      | none => Work.lift (fail (.unsetLocal n))
    else match Table.get? n m.globals, Builtin.ofName? n with
      | some v, _ => return v
      | none, some b => return .scalar (.builtin b)
      | none, none => Work.lift (fail (.undefinedName n)) : Run Value) m := rfl
  rw [hget, Machine.named]
  split
  · cases Table.get? n m.locals with
    | some v => rfl
    | none => rfl
  · cases Table.get? n m.globals with
    | some v => rfl
    | none => cases Builtin.ofName? n with
      | some b => rfl
      | none => rfl

end LetTag.Script
