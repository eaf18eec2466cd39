/-
  Tokens that do not leave a block.

  A list of tokens is `Inside` a block if the block ends with its last token and not before: lines
  open and close blocks in it, but the outermost one stays open.  Whatever the parser reads of such a
  list, what is left of it is inside as well, with as many blocks open (`Leads`).  Expressions and
  simple statements read over no token that opens or closes a block (`Over`), and the functions for
  blocks take the end of each block that they open.  So a function whose tokens are inside its block
  is read to the last of them, and no statement is left to stand behind it (`block_inside`).
-/
import LetTag.Proofs.Parsing

namespace LetTag.Script

/-! ## Blocks of tokens -/

/-- Does the token open or close a block? -/
def Token.isBlock : Token → Bool
  | .indent | .dedent => true
  | _ => false

/-- The tokens behind the start of a block, so many blocks being open: the outermost of them is open
    until the last token, which closes it. -/
inductive Inside : Nat → List Token → Prop
  | last : Inside 1 [.dedent]
  | dedent {depth : Nat} {ts : List Token} : Inside (depth + 1) ts →
    Inside (depth + 2) (.dedent :: ts)
  | indent {depth : Nat} {ts : List Token} : Inside (depth + 2) ts →
    Inside (depth + 1) (.indent :: ts)
  | token {depth : Nat} {t : Token} {ts : List Token} : t.isBlock = false →
    Inside (depth + 1) ts → Inside (depth + 1) (t :: ts)

/-- From one place in a list of tokens to a later one, with no start or end of a block between. -/
def Over (ts rest : List Token) : Prop :=
  ∃ used, ts = used ++ rest ∧ ∀ t ∈ used, t.isBlock = false

namespace Over

variable {ts us rest : List Token}

theorem refl (ts : List Token) : Over ts ts :=
  ⟨[], rfl, fun _ ht => absurd ht List.not_mem_nil⟩

/-- Two readers, one behind the other, read over what each of them reads over. -/
theorem trans (h : Over ts us) (h' : Over us rest) : Over ts rest := by
  obtain ⟨used, rfl, hused⟩ := h
  obtain ⟨used', rfl, hused'⟩ := h'
  refine ⟨used ++ used', (List.append_assoc _ _ _).symm, fun t ht => ?_⟩
  rcases List.mem_append.mp ht with ht | ht
  · exact hused t ht
  · exact hused' t ht

theorem cons {t : Token} (ht : t.isBlock = false) (ts : List Token) : Over (t :: ts) ts := by
  refine ⟨[t], rfl, fun u hu => ?_⟩
  rw [List.mem_singleton.mp hu]
  exact ht

theorem of_keyword? {k : String} (h : keyword? k ts = some rest) : Over ts rest := by
  unfold keyword? at h
  split at h
  · obtain ⟨-, hrest⟩ := Option.ite_none_right_eq_some.mp h
    cases hrest
    exact cons rfl _
  · cases h

/-- A sign is read over: it neither opens nor closes a block. -/
theorem of_sign? {x : String} (h : sign? x ts = some rest) : Over ts rest := by
  unfold sign? at h
  split at h
  · obtain ⟨-, hrest⟩ := Option.ite_none_right_eq_some.mp h
    cases hrest
    exact cons rfl _
  · cases h

theorem of_signOf? {α : Type} {meaning? : String → Option α} {a : α}
    (h : signOf? meaning? ts = some (a, rest)) : Over ts rest := by
  unfold signOf? at h
  split at h
  · obtain ⟨_, -, he⟩ := Option.map_eq_some_iff.mp h
    cases he
    exact cons rfl _
  · cases h

theorem of_name? {n : String} (h : name? ts = some (n, rest)) : Over ts rest := by
  unfold name? at h
  split at h
  · cases h
    exact cons rfl _
  · cases h

theorem of_argumentName? {k : String} (h : argumentName? ts = some (k, rest)) : Over ts rest := by
  unfold argumentName? at h
  split at h
  · obtain ⟨us, hsign, he⟩ := Option.map_eq_some_iff.mp h
    cases he
    exact (cons rfl _).trans (of_sign? hsign)
  · cases h

theorem of_argumentEnd? (h : argumentEnd? ts = some rest) : Over ts rest := by
  unfold argumentEnd? at h
  split at h
  · rename_i us hsign
    cases h
    exact of_sign? hsign
  · obtain ⟨_, _, rfl⟩ := Option.map_eq_some_iff.mp h
    exact refl _

theorem of_comparison? {op : CompareOp} (h : comparison? ts = some (op, rest)) :
    Over ts rest := by
  unfold comparison? at h
  split at h
  · obtain ⟨_, -, he⟩ := Option.map_eq_some_iff.mp h
    cases he
    exact cons rfl _
  · cases h
    exact cons rfl _
  · obtain ⟨us, hin, he⟩ := Option.map_eq_some_iff.mp h
    cases he
    exact (cons rfl _).trans (of_keyword? hin)
  · split at h
    · rename_i us hnot
      cases h
      exact (cons rfl _).trans (of_keyword? hnot)
    · cases h
      exact cons rfl _
  · cases h

theorem of_adjacentTexts (ts : List Token) : Over ts (adjacentTexts ts).2.2 := by
  induction ts with
  | nil => exact refl _
  | cons t ts ih =>
    cases t with
    | text f ps => exact (cons rfl ts).trans ih
    | _ => exact refl _

theorem of_adjacentBytes (ts : List Token) : Over ts (adjacentBytes ts).2 := by
  induction ts with
  | nil => exact refl _
  | cons t ts ih =>
    cases t with
    | bytes bs => exact (cons rfl ts).trans ih
    | _ => exact refl _

end Over

/-! ## Expressions -/

/-- The reader leaves its text inside the same blocks. -/
def Steps {α : Type} (x : List Token → Option (α × List Token)) : Prop :=
  ∀ ⦃ts a rest⦄, x ts = some (a, rest) → Over ts rest

/-- So does one that reads two things. -/
def StepsTwice {α β : Type} (x : List Token → Option (α × β × List Token)) : Prop :=
  ∀ ⦃ts a b rest⦄, x ts = some (a, b, rest) → Over ts rest

namespace Steps

variable {x y : List Token → Option (Expr × List Token)}
  {tail : Expr → List Token → Option (Expr × List Token)}

/-- Two operands with a keyword between them are read over. -/
theorem joined (k : String) (mk : Expr → Expr → Expr) (hx : Steps x) (hy : Steps y) :
    Steps (joined k mk x y) := by
  intro ts e rest h
  obtain ⟨⟨a, us⟩, ha, h⟩ := Option.bind_eq_some_iff.mp h
  refine (hx ha).trans ?_
  dsimp only at h
  split at h
  · cases h
    exact .refl _
  · rename_i vs hk
    obtain ⟨⟨b, ws⟩, hb, h⟩ := Option.bind_eq_some_iff.mp h
    cases h
    exact (Over.of_keyword? hk).trans (hy hb)

/-- An operand and what may follow it are read over. -/
theorem begun (hx : Steps x) (htail : ∀ e, Steps (tail e)) : Steps (begun x tail) := by
  intro ts e rest h
  obtain ⟨⟨a, us⟩, ha, h⟩ := Option.bind_eq_some_iff.mp h
  exact (hx ha).trans (htail a h)

/-- An operator with its right operand is read over. -/
theorem operated (meaning? : String → Option BinaryOp) (hx : Steps x)
    (htail : ∀ e, Steps (tail e)) (e : Expr) : Steps (operated meaning? x tail e) := by
  intro ts d rest h
  unfold Script.operated at h
  split at h
  · cases h
    exact .refl _
  · rename_i op us hop
    obtain ⟨⟨b, vs⟩, hb, h⟩ := Option.bind_eq_some_iff.mp h
    exact (Over.of_signOf? hop).trans ((hx hb).trans (htail _ h))

end Steps

/-- With that much fuel, every function for expressions leaves its text inside the same blocks. -/
structure Stepping (n : Nat) : Prop where
  expression : Steps (expression n)
  disjunction : Steps (disjunction n)
  conjunction : Steps (conjunction n)
  inversion : Steps (inversion n)
  comparisons : Steps (comparisons n)
  sum : Steps (sum n)
  sumTail : ∀ e, Steps (sumTail n e)
  product : Steps (product n)
  productTail : ∀ e, Steps (productTail n e)
  factor : Steps (factor n)
  trailers : ∀ e, Steps (trailers n e)
  arguments : ∀ used, StepsTwice (arguments n used)
  items : ∀ close, StepsTwice (items n close)
  item : ∀ close, StepsTwice (item n close)
  braced : Steps (braced n)
  entryTail : Steps (entryTail n)
  atom : Steps (atom n)
  expressions : Steps (expressions n)
  expressionTail : Steps (expressionTail n)

namespace Stepping

variable {n : Nat}

/-- A conditional reads three parts, each of them over such tokens. -/
theorem expression_succ (h : Stepping n) : Steps (Script.expression (n + 1)) := by
  intro ts e rest hread
  obtain ⟨⟨a, us⟩, ha, hread⟩ := Option.bind_eq_some_iff.mp hread
  refine (h.disjunction ha).trans ?_
  dsimp only at hread
  split at hread
  · cases hread
    exact .refl _
  · rename_i vs hif
    obtain ⟨⟨c, ws⟩, hc, hread⟩ := Option.bind_eq_some_iff.mp hread
    obtain ⟨xs, helse, hread⟩ := Option.bind_eq_some_iff.mp hread
    obtain ⟨⟨b, ys⟩, hb, hread⟩ := Option.bind_eq_some_iff.mp hread
    cases hread
    exact (Over.of_keyword? hif).trans ((h.disjunction hc).trans
      ((Over.of_keyword? helse).trans (h.expression hb)))

/-- A negation reads its operand, or else a comparison is read. -/
theorem inversion_succ (h : Stepping n) : Steps (Script.inversion (n + 1)) := by
  intro ts e rest hread
  rw [Script.inversion] at hread
  split at hread
  · rename_i us hnot
    obtain ⟨⟨a, vs⟩, ha, hread⟩ := Option.bind_eq_some_iff.mp hread
    cases hread
    exact (Over.of_keyword? hnot).trans (h.inversion ha)
  · obtain ⟨⟨a, us⟩, ha, hread⟩ := Option.bind_eq_some_iff.mp hread
    obtain ⟨⟨cs, vs⟩, hcs, hread⟩ := Option.bind_eq_some_iff.mp hread
    cases hread
    exact (h.sum ha).trans (h.comparisons hcs)

/-- Each comparison reads its sign and an operand. -/
theorem comparisons_succ (h : Stepping n) : Steps (Script.comparisons (n + 1)) := by
  intro ts cs rest hread
  rw [Script.comparisons] at hread
  split at hread
  · cases hread
    exact .refl _
  · rename_i op us hop
    obtain ⟨⟨a, vs⟩, ha, hread⟩ := Option.bind_eq_some_iff.mp hread
    obtain ⟨⟨more, ws⟩, hmore, hread⟩ := Option.bind_eq_some_iff.mp hread
    cases hread
    exact (Over.of_comparison? hop).trans ((h.sum ha).trans (h.comparisons hmore))

/-- A sign reads its operand; a power reads the exponent behind its base. -/
theorem factor_succ (h : Stepping n) : Steps (Script.factor (n + 1)) := by
  intro ts e rest hread
  rw [Script.factor] at hread
  split at hread
  · rename_i op us hop
    obtain ⟨⟨a, vs⟩, ha, hread⟩ := Option.bind_eq_some_iff.mp hread
    cases hread
    exact (Over.of_signOf? hop).trans (h.factor ha)
  · obtain ⟨⟨a, us⟩, ha, hread⟩ := Option.bind_eq_some_iff.mp hread
    obtain ⟨⟨b, vs⟩, hb, hread⟩ := Option.bind_eq_some_iff.mp hread
    refine (h.atom ha).trans ((h.trailers a hb).trans ?_)
    dsimp only at hread
    split at hread
    · cases hread
      exact .refl _
    · rename_i ws hpow
      obtain ⟨⟨c, xs⟩, hc, hread⟩ := Option.bind_eq_some_iff.mp hread
      cases hread
      exact (Over.of_sign? hpow).trans (h.factor hc)

/-- An attribute, a subscript or a call each read what belongs to it, and then the trailers behind it.
    -/
theorem trailers_succ (h : Stepping n) (e : Expr) : Steps (Script.trailers (n + 1) e) := by
  intro ts d rest hread
  rw [Script.trailers] at hread
  split at hread
  · rename_i us hdot
    obtain ⟨⟨a, vs⟩, ha, hread⟩ := Option.bind_eq_some_iff.mp hread
    exact (Over.of_sign? hdot).trans ((Over.of_name? ha).trans (h.trailers _ hread))
  · rename_i us hindex _
    obtain ⟨⟨i, vs⟩, hi, hread⟩ := Option.bind_eq_some_iff.mp hread
    obtain ⟨ws, hclose, hread⟩ := Option.bind_eq_some_iff.mp hread
    exact (Over.of_sign? hindex).trans ((h.expressions hi).trans
      ((Over.of_sign? hclose).trans (h.trailers _ hread)))
  · rename_i us hcall _ _
    obtain ⟨⟨args, keys, vs⟩, hargs, hread⟩ := Option.bind_eq_some_iff.mp hread
    exact (Over.of_sign? hcall).trans ((h.arguments [] hargs).trans (h.trailers _ hread))
  · cases hread
    exact .refl _

/-- Arguments are read up to a closing bracket, with their names or without. -/
theorem arguments_succ (h : Stepping n) (used : List String) :
    StepsTwice (Script.arguments (n + 1) used) := by
  intro ts args keys rest hread
  rw [Script.arguments] at hread
  split at hread
  · rename_i us hclose
    cases hread
    exact Over.of_sign? hclose
  · rename_i k us _ hname
    obtain ⟨-, hread⟩ := Option.ite_none_left_eq_some.mp hread
    obtain ⟨⟨a, vs⟩, ha, hread⟩ := Option.bind_eq_some_iff.mp hread
    obtain ⟨ws, hend, hread⟩ := Option.bind_eq_some_iff.mp hread
    obtain ⟨⟨as, ks, xs⟩, hmore, hread⟩ := Option.bind_eq_some_iff.mp hread
    cases hread
    exact (Over.of_argumentName? hname).trans ((h.expression ha).trans
      ((Over.of_argumentEnd? hend).trans (h.arguments _ hmore)))
  · obtain ⟨-, hread⟩ := Option.ite_none_left_eq_some.mp hread
    obtain ⟨⟨a, vs⟩, ha, hread⟩ := Option.bind_eq_some_iff.mp hread
    obtain ⟨ws, hend, hread⟩ := Option.bind_eq_some_iff.mp hread
    obtain ⟨⟨as, ks, xs⟩, hmore, hread⟩ := Option.bind_eq_some_iff.mp hread
    cases hread
    exact (h.expression ha).trans ((Over.of_argumentEnd? hend).trans (h.arguments _ hmore))

theorem items_succ (h : Stepping n) (close : String) : StepsTwice (Script.items (n + 1) close) := by
  intro ts es comma rest hread
  rw [Script.items] at hread
  split at hread
  · rename_i us hclose
    cases hread
    exact Over.of_sign? hclose
  · exact h.item close hread

theorem item_succ (h : Stepping n) (close : String) : StepsTwice (Script.item (n + 1) close) := by
  intro ts es comma rest hread
  rw [Script.item] at hread
  obtain ⟨⟨a, us⟩, ha, hread⟩ := Option.bind_eq_some_iff.mp hread
  refine (h.expression ha).trans ?_
  dsimp only at hread
  split at hread
  · rename_i vs hcomma
    obtain ⟨⟨more, b, ws⟩, hmore, hread⟩ := Option.bind_eq_some_iff.mp hread
    cases hread
    exact (Over.of_sign? hcomma).trans (h.items close hmore)
  · obtain ⟨vs, hclose, hread⟩ := Option.bind_eq_some_iff.mp hread
    cases hread
    exact Over.of_sign? hclose

/-- A dictionary or a set is read up to its brace. -/
theorem braced_succ (h : Stepping n) : Steps (Script.braced (n + 1)) := by
  intro ts e rest hread
  rw [Script.braced] at hread
  split at hread
  · rename_i us hclose
    cases hread
    exact Over.of_sign? hclose
  · obtain ⟨⟨k, us⟩, hk, hread⟩ := Option.bind_eq_some_iff.mp hread
    refine (h.expression hk).trans ?_
    dsimp only at hread
    split at hread
    · rename_i vs hcolon
      obtain ⟨⟨v, ws⟩, hv, hread⟩ := Option.bind_eq_some_iff.mp hread
      obtain ⟨⟨es, xs⟩, hes, hread⟩ := Option.bind_eq_some_iff.mp hread
      cases hread
      exact (Over.of_sign? hcolon).trans ((h.expression hv).trans (h.entryTail hes))
    · rename_i vs _ hcomma
      obtain ⟨⟨es, comma, ws⟩, hes, hread⟩ := Option.bind_eq_some_iff.mp hread
      cases hread
      exact (Over.of_sign? hcomma).trans (h.items _ hes)
    · obtain ⟨vs, hclose, hread⟩ := Option.bind_eq_some_iff.mp hread
      cases hread
      exact Over.of_sign? hclose

theorem entryTail_succ (h : Stepping n) : Steps (Script.entryTail (n + 1)) := by
  intro ts es rest hread
  rw [Script.entryTail] at hread
  split at hread
  · rename_i us hclose
    cases hread
    exact Over.of_sign? hclose
  · obtain ⟨us, hcomma, hread⟩ := Option.bind_eq_some_iff.mp hread
    refine (Over.of_sign? hcomma).trans ?_
    dsimp only at hread
    split at hread
    · rename_i vs hclose
      cases hread
      exact Over.of_sign? hclose
    · obtain ⟨⟨k, vs⟩, hk, hread⟩ := Option.bind_eq_some_iff.mp hread
      obtain ⟨ws, hcolon, hread⟩ := Option.bind_eq_some_iff.mp hread
      obtain ⟨⟨v, xs⟩, hv, hread⟩ := Option.bind_eq_some_iff.mp hread
      obtain ⟨⟨more, ys⟩, hmore, hread⟩ := Option.bind_eq_some_iff.mp hread
      cases hread
      exact (h.expression hk).trans ((Over.of_sign? hcolon).trans
        ((h.expression hv).trans (h.entryTail hmore)))

/-- An atom is one token, or a list of items in brackets. -/
theorem atom_succ (h : Stepping n) : Steps (Script.atom (n + 1)) := by
  intro ts e rest hread
  rw [Script.atom.eq_def] at hread
  dsimp only at hread
  split at hread
  · cases hread
    exact .cons rfl _
  · obtain ⟨s, -, he⟩ := Option.map_eq_some_iff.mp hread
    cases he
    exact .cons rfl _
  · cases hread
    exact .cons rfl _
  · -- texts side by side
    obtain ⟨-, hread⟩ := Option.ite_none_left_eq_some.mp hread
    cases hread
    exact Over.of_adjacentTexts _
  · obtain ⟨-, hread⟩ := Option.ite_none_left_eq_some.mp hread
    cases hread
    exact Over.of_adjacentBytes _
  · cases hread
    exact .cons rfl _
  · -- round brackets
    obtain ⟨⟨es, comma, us⟩, hes, hread⟩ := Option.bind_eq_some_iff.mp hread
    refine (Over.cons rfl _).trans ((h.items _ hes).trans ?_)
    dsimp only at hread
    split at hread
    · cases hread
      exact .refl _
    · cases hread
      exact .refl _
  · -- square brackets
    obtain ⟨⟨es, comma, us⟩, hes, hread⟩ := Option.bind_eq_some_iff.mp hread
    cases hread
    exact (Over.cons rfl _).trans (h.items _ hes)
  · exact (Over.cons rfl _).trans (h.braced hread)
  · cases hread

/-- Expressions are read one by one, with commas between them. -/
theorem expressions_succ (h : Stepping n) : Steps (Script.expressions (n + 1)) := by
  intro ts e rest hread
  rw [Script.expressions] at hread
  obtain ⟨⟨a, us⟩, ha, hread⟩ := Option.bind_eq_some_iff.mp hread
  refine (h.expression ha).trans ?_
  dsimp only at hread
  split at hread
  · cases hread
    exact .refl _
  · obtain ⟨⟨es, vs⟩, hes, hread⟩ := Option.bind_eq_some_iff.mp hread
    cases hread
    exact h.expressionTail hes

theorem expressionTail_succ (h : Stepping n) : Steps (Script.expressionTail (n + 1)) := by
  intro ts es rest hread
  rw [Script.expressionTail] at hread
  split at hread
  · cases hread
    exact .refl _
  · rename_i us hcomma
    refine (Over.of_sign? hcomma).trans ?_
    split at hread
    · obtain ⟨⟨a, vs⟩, ha, hread⟩ := Option.bind_eq_some_iff.mp hread
      obtain ⟨⟨more, ws⟩, hmore, hread⟩ := Option.bind_eq_some_iff.mp hread
      cases hread
      exact (h.expression ha).trans (h.expressionTail hmore)
    · cases hread
      exact .refl _

theorem zero : Stepping 0 where
  expression := fun _ _ _ h => nomatch h
  disjunction := fun _ _ _ h => nomatch h
  conjunction := fun _ _ _ h => nomatch h
  inversion := fun _ _ _ h => nomatch h
  comparisons := fun _ _ _ h => nomatch h
  sum := fun _ _ _ h => nomatch h
  sumTail := fun _ _ _ _ h => nomatch h
  product := fun _ _ _ h => nomatch h
  productTail := fun _ _ _ _ h => nomatch h
  factor := fun _ _ _ h => nomatch h
  trailers := fun _ _ _ _ h => nomatch h
  arguments := fun _ _ _ _ _ h => nomatch h
  items := fun _ _ _ _ _ h => nomatch h
  item := fun _ _ _ _ _ h => nomatch h
  braced := fun _ _ _ h => nomatch h
  entryTail := fun _ _ _ h => nomatch h
  atom := fun _ _ _ h => nomatch h
  expressions := fun _ _ _ h => nomatch h
  expressionTail := fun _ _ _ h => nomatch h

/-- Whatever the fuel is, no function for expressions reads over the start of a line. -/
theorem all (n : Nat) : Stepping n := by
  induction n with
  | zero => exact zero
  | succ n h =>
    exact {
      expression := h.expression_succ
      disjunction := .joined "or" .or h.conjunction h.disjunction
      conjunction := .joined "and" .and h.inversion h.conjunction
      inversion := h.inversion_succ
      comparisons := h.comparisons_succ
      sum := .begun h.product h.sumTail
      sumTail := .operated sumSign? h.product h.sumTail
      product := .begun h.factor h.productTail
      productTail := .operated productSign? h.factor h.productTail
      factor := h.factor_succ
      trailers := h.trailers_succ
      arguments := h.arguments_succ
      items := h.items_succ
      item := h.item_succ
      braced := h.braced_succ
      entryTail := h.entryTail_succ
      atom := h.atom_succ
      expressions := h.expressions_succ
      expressionTail := h.expressionTail_succ }

end Stepping

/-! ## Statements of one line -/

/-- An assignment reads its targets and its value, and no block. -/
theorem steps_assignment (n : Nat) : ∀ before : List Expr, Steps (assignment n before) := by
  induction n with
  | zero => exact fun _ _ _ _ h => nomatch h
  | succ n ih =>
    intro before ts s rest hread
    rw [assignment] at hread
    obtain ⟨⟨e, us⟩, he, hread⟩ := Option.bind_eq_some_iff.mp hread
    refine ((Stepping.all n).expressions he).trans ?_
    dsimp only at hread
    split at hread
    · exact (Over.cons rfl _).trans (ih _ hread)
    · -- an annotation
      split at hread
      · obtain ⟨part, -, hread⟩ := Option.bind_eq_some_iff.mp hread
        obtain ⟨⟨a, vs⟩, ha, hread⟩ := Option.bind_eq_some_iff.mp hread
        cases hread
        exact (Over.cons rfl _).trans ((Stepping.all n).expression ha)
      · cases hread
    · obtain ⟨targets, -, hread⟩ := Option.bind_eq_some_iff.mp hread
      cases hread
      exact .refl _

/-- A simple statement reads expressions, and no block. -/
theorem steps_simple (n : Nat) : Steps (simple n) := by
  have h := Stepping.all n
  intro ts s rest hread
  unfold simple at hread
  split at hread
  · cases hread
    exact .cons rfl _
  · cases hread
    exact .cons rfl _
  · cases hread
    exact .cons rfl _
  · -- a value may be returned
    split at hread
    · cases hread
      exact .cons rfl _
    · obtain ⟨⟨e, us⟩, he, hs⟩ := Option.map_eq_some_iff.mp hread
      cases hs
      exact (Over.cons rfl _).trans (h.expressions he)
  · -- an error may be named
    split at hread
    · cases hread
      exact .cons rfl _
    · obtain ⟨⟨e, us⟩, he, hs⟩ := Option.map_eq_some_iff.mp hread
      cases hs
      exact (Over.cons rfl _).trans (h.expression he)
  · -- an annotation, with or without a value
    obtain ⟨⟨a, us⟩, ha, hread⟩ := Option.bind_eq_some_iff.mp hread
    refine (Over.cons rfl _).trans ((Over.cons rfl _).trans ((h.expression ha).trans ?_))
    dsimp only at hread
    split at hread
    · obtain ⟨⟨e, vs⟩, he, hread⟩ := Option.bind_eq_some_iff.mp hread
      cases hread
      exact (Over.cons rfl _).trans (h.expressions he)
    · cases hread
      exact .refl _
  · split at hread
    · obtain ⟨⟨e, us⟩, he, hs⟩ := Option.map_eq_some_iff.mp hread
      cases hs
      exact (Over.cons rfl _).trans ((Over.cons rfl _).trans (h.expressions he))
    · exact steps_assignment n [] hread
  · exact steps_assignment n [] hread

/-- The statements of a line, and its end. -/
theorem steps_simpleLine (n : Nat) : ∀ {ts rest : List Token} {ss : List Stmt},
    simpleLine n ts = some (ss, rest) → Over ts rest ∧ rest.length < ts.length := by
  induction n with
  | zero => exact fun h => nomatch h
  | succ n ih =>
    intro ts rest ss hread
    rw [simpleLine] at hread
    obtain ⟨⟨s, us⟩, hs, hread⟩ := Option.bind_eq_some_iff.mp hread
    have hover := steps_simple n hs
    have hlength : us.length ≤ ts.length := by
      obtain ⟨used, rfl, -⟩ := hover
      rw [List.length_append]
      omega
    dsimp only at hread
    split at hread
    · cases hread
      refine ⟨hover.trans (.cons rfl _), ?_⟩
      rw [List.length_cons] at hlength
      omega
    · cases hread
      refine ⟨hover.trans ((Over.cons rfl _).trans (.cons rfl _)), ?_⟩
      rw [List.length_cons, List.length_cons] at hlength
      omega
    · obtain ⟨⟨more, vs⟩, hmore, hread⟩ := Option.bind_eq_some_iff.mp hread
      cases hread
      obtain ⟨hrest, hshorter⟩ := ih hmore
      refine ⟨hover.trans ((Over.cons rfl _).trans hrest), ?_⟩
      rw [List.length_cons] at hlength
      dsimp only
      omega
    · cases hread

/-- The target of a loop is an expression, to its last token. -/
theorem steps_loopTarget : Steps loopTarget := by
  intro ts target rest hread
  obtain ⟨⟨e, us⟩, he, hread⟩ := Option.bind_eq_some_iff.mp hread
  obtain ⟨t, -, hread⟩ := Option.bind_eq_some_iff.mp hread
  split at hread
  · rename_i hempty
    cases hread
    obtain ⟨used, hbefore, hused⟩ := (Stepping.all _).expressions he
    rw [List.isEmpty_iff.mp hempty, List.append_nil] at hbefore
    have hprefix : used <+: ts := hbefore ▸ List.takeWhile_prefix _
    refine ⟨used, ?_, hused⟩
    rw [hbefore]
    exact (List.prefix_iff_eq_append.mp hprefix).symm
  · cases hread

/-! ## Blocks -/

/-- From one place in a list of tokens to a later one, with the same blocks open at both. -/
def Leads (ts rest : List Token) : Prop :=
  ∀ depth, Inside depth ts → Inside depth rest

/-- Whatever two readers keep, both of them keep one behind the other. -/
theorem Leads.trans {ts us rest : List Token} (h : Leads ts us) (h' : Leads us rest) :
    Leads ts rest :=
  fun depth hts => h' depth (h depth hts)

/-- A token in front that opens or closes no block can be taken away. -/
theorem Inside.tail {depth : Nat} {t : Token} {ts : List Token} (ht : t.isBlock = false)
    (h : Inside depth (t :: ts)) : Inside depth ts := by
  cases h with
  | last => cases ht
  | dedent _ => cases ht
  | indent _ => cases ht
  | token _ h => exact h

theorem Over.leads {ts rest : List Token} (h : Over ts rest) : Leads ts rest := by
  obtain ⟨used, rfl, hused⟩ := h
  intro depth hts
  induction used with
  | nil => exact hts
  | cons t used ih =>
    obtain ⟨ht, hused⟩ := List.forall_mem_cons.mp hused
    exact ih hused (hts.tail ht)

/-- With that much fuel, every function for statements leaves its text inside the same blocks. -/
structure Keeping (n : Nat) : Prop where
  statement : ∀ {ts rest ss}, statement n ts = some (ss, rest) → Leads ts rest
  conditional : ∀ {ts rest s}, conditional n ts = some (s, rest) → Leads ts rest
  block : ∀ {ts rest ss}, block n ts = some (ss, rest) → Leads ts rest
  statements : ∀ {ts rest ss}, statements n ts = some (ss, rest) → Leads ts rest

namespace Keeping

variable {n : Nat} {ts rest : List Token}

theorem statement_succ (h : Keeping n) {ss : List Stmt}
    (hread : Script.statement (n + 1) ts = some (ss, rest)) : Leads ts rest := by
  rw [Script.statement.eq_def] at hread
  dsimp only at hread
  split at hread
  · obtain ⟨⟨s, us⟩, hs, hread⟩ := Option.bind_eq_some_iff.mp hread
    cases hread
    exact (Over.cons rfl _).leads.trans (h.conditional hs)
  · -- a loop
    obtain ⟨⟨target, us⟩, htarget, hread⟩ := Option.bind_eq_some_iff.mp hread
    refine ((Over.cons rfl _).trans (steps_loopTarget htarget)).leads.trans ?_
    dsimp only at hread
    split at hread
    · obtain ⟨⟨e, vs⟩, he, hread⟩ := Option.bind_eq_some_iff.mp hread
      refine ((Over.cons rfl _).trans ((Stepping.all n).expressions he)).leads.trans ?_
      dsimp only at hread
      split at hread
      · obtain ⟨⟨body, ws⟩, hbody, hread⟩ := Option.bind_eq_some_iff.mp hread
        refine (Over.cons rfl _).leads.trans ((h.block hbody).trans ?_)
        dsimp only at hread
        split at hread
        · obtain ⟨⟨otherwise, xs⟩, hother, hread⟩ := Option.bind_eq_some_iff.mp hread
          cases hread
          exact ((Over.cons rfl _).trans (.cons rfl _)).leads.trans (h.block hother)
        · cases hread
          exact (Over.refl _).leads
      · cases hread
    · cases hread
  · exact (steps_simpleLine n hread).1.leads

/-- A condition has one block, and more of them behind `elif` and `else`. -/
theorem conditional_succ (h : Keeping n) {s : Stmt}
    (hread : Script.conditional (n + 1) ts = some (s, rest)) : Leads ts rest := by
  rw [Script.conditional] at hread
  obtain ⟨⟨c, us⟩, hc, hread⟩ := Option.bind_eq_some_iff.mp hread
  refine ((Stepping.all n).expression hc).leads.trans ?_
  dsimp only at hread
  split at hread
  · obtain ⟨⟨yes, vs⟩, hyes, hread⟩ := Option.bind_eq_some_iff.mp hread
    refine (Over.cons rfl _).leads.trans ((h.block hyes).trans ?_)
    dsimp only at hread
    split at hread
    · obtain ⟨⟨s, ws⟩, hs, hread⟩ := Option.bind_eq_some_iff.mp hread
      cases hread
      exact (Over.cons rfl _).leads.trans (h.conditional hs)
    · obtain ⟨⟨no, ws⟩, hno, hread⟩ := Option.bind_eq_some_iff.mp hread
      cases hread
      exact ((Over.cons rfl _).trans (.cons rfl _)).leads.trans (h.block hno)
    · cases hread
      exact (Over.refl _).leads
  · cases hread

/-- A block reads from where it is opened to where it is closed. -/
theorem block_succ (h : Keeping n) {ss : List Stmt}
    (hread : Script.block (n + 1) ts = some (ss, rest)) : Leads ts rest := by
  rw [Script.block.eq_def] at hread
  dsimp only at hread
  split at hread
  · obtain ⟨⟨body, us⟩, hbody, hread⟩ := Option.bind_eq_some_iff.mp hread
    dsimp only at hread
    split at hread
    · obtain ⟨-, hread⟩ := Option.ite_none_left_eq_some.mp hread
      cases hread
      refine (Over.cons rfl _).leads.trans fun depth hts => ?_
      -- one block more is open in the body, and the end of it is taken
      cases hts with
      | token ht _ => cases ht
      | indent hinner =>
        cases h.statements hbody _ hinner with
        | dedent hrest => exact hrest
        | token ht _ => cases ht
    · cases hread
  · exact (steps_simpleLine n hread).1.leads

/-- Statements are read up to the end of their block. -/
theorem statements_succ (h : Keeping n) {ss : List Stmt}
    (hread : Script.statements (n + 1) ts = some (ss, rest)) : Leads ts rest := by
  rw [Script.statements.eq_def] at hread
  dsimp only at hread
  split at hread
  · cases hread
    exact (Over.refl _).leads
  · cases hread
    exact (Over.refl _).leads
  · obtain ⟨⟨first, us⟩, hfirst, hread⟩ := Option.bind_eq_some_iff.mp hread
    obtain ⟨⟨more, vs⟩, hmore, hread⟩ := Option.bind_eq_some_iff.mp hread
    cases hread
    exact (h.statement hfirst).trans (h.statements hmore)

/-- By induction on the fuel, all readers of statements keep to their blocks. -/
theorem all (n : Nat) : Keeping n := by
  induction n with
  | zero =>
    exact {
      statement := fun h => nomatch h
      conditional := fun h => nomatch h
      block := fun h => nomatch h
      statements := fun h => nomatch h }
  | succ n h =>
    exact {
      statement := h.statement_succ
      conditional := h.conditional_succ
      block := h.block_succ
      statements := h.statements_succ }

end Keeping

/-- **A block is read to its last token** if all tokens are inside of it. -/
theorem block_inside {n : Nat} {ts rest : List Token} {ss : List Stmt} (hts : Inside 1 ts)
    (hread : block n (.newline :: .indent :: ts) = some (ss, rest)) : rest = [] := by
  cases n with
  | zero => cases hread
  | succ n =>
    rw [block] at hread
    obtain ⟨⟨body, us⟩, hbody, hread⟩ := Option.bind_eq_some_iff.mp hread
    have hus := (Keeping.all n).statements hbody 1 hts
    dsimp only at hread
    split at hread
    · obtain ⟨-, hread⟩ := Option.ite_none_left_eq_some.mp hread
      cases hread
      cases hus with
      | last => rfl
      | token ht _ => cases ht
    · cases hread

/-- So is one that is the end of its line only. -/
theorem block_newline {n : Nat} {rest : List Token} {ss : List Stmt}
    (hread : block n [.newline] = some (ss, rest)) : rest = [] := by
  cases n with
  | zero => cases hread
  | succ n =>
    have hline : simpleLine n [.newline] = some (ss, rest) := hread
    have hlength := (steps_simpleLine n hline).2
    rw [List.length_singleton] at hlength
    exact List.length_eq_zero_iff.mp (by omega)

end LetTag.Script
