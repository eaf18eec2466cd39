/-
  The parser under a renaming of names.

  Tokens that differ in their names are read alike, and the tree of the second list is the tree of
  the first with other names.  No function of the parser ever goes back, so the proof takes each of
  them through its own steps: whatever it looks at before it decides has the same answer on both
  sides, so both take the same way.  `Commutes` gathers what this comes to, one field for a function;
  there is one lemma that adds a unit of fuel to each, and `Commutes.of_le` is the induction.

  The one trap is a name in front of `=` that is no argument: it was not renamed, but is read as a
  value.  No expression goes on behind such a name, so it is enough to speak about trees only where
  no `=` follows.
-/
import LetTag.Proofs.Lookahead
import LetTag.Proofs.Renaming

namespace LetTag.Script

/-! ## Operands and what follows them -/

/-- What the second side reads if the first reads `a` and leaves `rest`; `g` renames what is read. -/
def Matches {α : Type} (f : String → String) (g : α → α) (stack : List Char) (a : α)
    (rest : List Token) (y : Option (α × List Token)) : Prop :=
  ∃ a' rest' place, y = some (a', rest') ∧ Renamed f stack place rest rest'
    ∧ (sign? "=" rest = none → a' = g a)

/-- The second reader reads what the first one does, where operands can stand. -/
def Alike (f : String → String) (x y : List Token → Option (Expr × List Token)) : Prop :=
  ∀ ⦃stack place ts us e rest⦄, Place.isOpen place = true → Renamed f stack place ts us →
    x ts = some (e, rest) → Matches f (Expr.rename f) stack e rest (y us)

/-- The same of readers of what may follow an operand. -/
def TailAlike (f : String → String) (x y : Expr → List Token → Option (Expr × List Token)) : Prop :=
  ∀ ⦃stack place ts us d d' e rest⦄, Renamed f stack place ts us →
    (sign? "=" ts = none → d' = d.rename f) → x d ts = some (e, rest) →
    Matches f (Expr.rename f) stack e rest (y d' us)

/-- An operand, then a keyword and another operand or nothing. -/
def joined (k : String) (mk : Expr → Expr → Expr)
    (x y : List Token → Option (Expr × List Token)) (ts : List Token) :
    Option (Expr × List Token) := do
  let (e, ts) ← x ts
  match keyword? k ts with
  | none => some (e, ts)
  | some ts =>
    let (d, ts) ← y ts
    some (mk e d, ts)

/-- An operand and what follows it. -/
def begun (x : List Token → Option (Expr × List Token))
    (tail : Expr → List Token → Option (Expr × List Token)) (ts : List Token) :
    Option (Expr × List Token) := do
  let (e, ts) ← x ts
  tail e ts

/-- An operator, an operand and what follows them, or nothing. -/
def operated (meaning? : String → Option BinaryOp) (x : List Token → Option (Expr × List Token))
    (tail : Expr → List Token → Option (Expr × List Token)) (e : Expr) (ts : List Token) :
    Option (Expr × List Token) :=
  match signOf? meaning? ts with
  | none => some (e, ts)
  | some (op, ts) => do
    let (d, ts) ← x ts
    tail (.binary op e d) ts

section

variable {f : String → String} {x x' y y' : List Token → Option (Expr × List Token)}
  {t t' : Expr → List Token → Option (Expr × List Token)}

/-- Readers of two operands with a keyword between them are alike if those of the operands are. -/
theorem Alike.joined (k : String) (mk : Expr → Expr → Expr)
    (hmk : ∀ a b, (mk a b).rename f = mk (a.rename f) (b.rename f)) (hx : Alike f x x')
    (hy : Alike f y y') : Alike f (joined k mk x y) (Script.joined k mk x' y') := by
  intro stack place ts us e rest hplace hts hread
  obtain ⟨⟨a, r⟩, ha, hread⟩ := Option.bind_eq_some_iff.mp hread
  obtain ⟨a', r', q, ha', hr, hna⟩ := hx hplace hts ha
  unfold Matches Script.joined
  rw [ha']
  dsimp only [Option.bind_eq_bind, Option.bind_some] at hread ⊢
  cases hk : keyword? k r with
  | none =>
    rw [hk] at hread
    cases hread
    exact ⟨a', r', q, by rw [hr.keyword?_eq_none hk], hr, hna⟩
  | some r₂ =>
    rw [hk] at hread
    obtain ⟨r₂', hk', hr₂⟩ := hr.of_keyword? hk
    obtain ⟨⟨b, r₃⟩, hb, hread⟩ := Option.bind_eq_some_iff.mp hread
    obtain ⟨b', r₃', q₃, hb', hr₃, hnb⟩ := hy rfl hr₂ hb
    cases hread
    refine ⟨mk a' b', r₃', q₃, ?_, hr₃, fun hne => ?_⟩
    · rw [hk']
      dsimp only
      rw [hb']
      rfl
    · rw [hmk, hna (sign?_of_keyword? hk), hnb hne]

theorem Alike.begun (hx : Alike f x x') (ht : TailAlike f t t') :
    Alike f (begun x t) (Script.begun x' t') := by
  intro stack place ts us e rest hplace hts hread
  obtain ⟨⟨a, r⟩, ha, hread⟩ := Option.bind_eq_some_iff.mp hread
  obtain ⟨a', r', q, ha', hr, hna⟩ := hx hplace hts ha
  unfold Script.begun
  rw [ha']
  exact ht hr hna hread

theorem TailAlike.operated {meaning? : String → Option BinaryOp}
    (hop : ∀ x op, meaning? x = some op → IsOperator x) (hx : Alike f x x')
    (ht : TailAlike f t t') : TailAlike f (operated meaning? x t) (Script.operated meaning? x' t') := by
  intro stack place ts us d d' e rest hts hd hread
  unfold Script.operated at hread ⊢
  cases hsign : signOf? meaning? ts with
  | none =>
    rw [hsign] at hread
    cases hread
    exact ⟨d', us, place, by rw [hts.signOf?_eq_none hsign], hts, hd⟩
  | some next =>
    obtain ⟨op, r⟩ := next
    rw [hsign] at hread
    obtain ⟨hne, r', hsign', hr⟩ := hts.of_signOf? hop hsign
    obtain ⟨⟨b, r₂⟩, hb, hread⟩ := Option.bind_eq_some_iff.mp hread
    obtain ⟨b', r₂', q, hb', hr₂, hnb⟩ := hx rfl hr hb
    rw [hsign']
    dsimp only
    rw [hb']
    refine ht hr₂ (fun hne₂ => ?_) hread
    rw [hd hne, hnb hne₂]
    rfl

end

/-! ## One step of each function -/

/-- The sign closes the innermost bracket. -/
structure Closes (close : String) (stack outer : List Char) : Prop where
  brackets : bracketsBehind stack (.sign close) = outer
  notEquals : close ≠ "="

/-- With that much fuel, or more on the second side, every function reads alike. -/
structure Commutes (f : String → String) (n m : Nat) : Prop where
  expression : Alike f (expression n) (expression m)
  disjunction : Alike f (disjunction n) (disjunction m)
  conjunction : Alike f (conjunction n) (conjunction m)
  inversion : Alike f (inversion n) (inversion m)
  comparisons : ∀ {stack place ts us cs rest}, Renamed f stack place ts us →
    comparisons n ts = some (cs, rest) →
    Matches f (renameComparisons f) stack cs rest (comparisons m us)
  sum : Alike f (sum n) (sum m)
  sumTail : TailAlike f (sumTail n) (sumTail m)
  product : Alike f (product n) (product m)
  productTail : TailAlike f (productTail n) (productTail m)
  factor : Alike f (factor n) (factor m)
  trailers : TailAlike f (trailers n) (trailers m)
  arguments : ∀ {outer place used ts us args keys rest}, Renamed f ('(' :: outer) place ts us →
    (place = .argument ∨ (sign? ")" ts).isSome) →
    arguments n used ts = some (args, keys, rest) →
    ∃ rest' place', arguments m used us = some (renameList f args, renameKeywords f keys, rest')
      ∧ Renamed f outer place' rest rest'
  items : ∀ {close stack outer place ts us es comma rest}, Closes close stack outer →
    place.isOpen = true → Renamed f stack place ts us → items n close ts = some (es, comma, rest) →
    ∃ rest' place', items m close us = some (renameList f es, comma, rest')
      ∧ Renamed f outer place' rest rest'
  item : ∀ {close stack outer place ts us es comma rest}, Closes close stack outer →
    place.isOpen = true → Renamed f stack place ts us → item n close ts = some (es, comma, rest) →
    ∃ rest' place', item m close us = some (renameList f es, comma, rest')
      ∧ Renamed f outer place' rest rest'
  braced : ∀ {outer place ts us e rest}, place.isOpen = true → Renamed f ('{' :: outer) place ts us →
    braced n ts = some (e, rest) →
    ∃ rest' place', braced m us = some (e.rename f, rest') ∧ Renamed f outer place' rest rest'
  entryTail : ∀ {outer place ts us es rest}, Renamed f ('{' :: outer) place ts us →
    entryTail n ts = some (es, rest) →
    ∃ rest' place', entryTail m us = some (renameEntries f es, rest')
      ∧ Renamed f outer place' rest rest'
  atom : Alike f (atom n) (atom m)
  expressions : Alike f (expressions n) (expressions m)
  expressionTail : ∀ {stack place ts us es rest}, Renamed f stack place ts us →
    expressionTail n ts = some (es, rest) →
    Matches f (renameList f) stack es rest (expressionTail m us)

namespace Commutes

variable {f : String → String} {n m : Nat}

/-- With one unit of fuel more, conditional expressions are read alike. -/
theorem expression_succ (h : Commutes f n m) :
    Alike f (Script.expression (n + 1)) (Script.expression (m + 1)) := by
  intro stack place ts us e rest hplace hts hread
  obtain ⟨⟨a, r⟩, ha, hread⟩ := Option.bind_eq_some_iff.mp hread
  obtain ⟨a', r', q, ha', hr, hna⟩ := h.disjunction hplace hts ha
  unfold Matches
  rw [Script.expression, ha']
  dsimp only [Option.bind_eq_bind, Option.bind_some] at hread ⊢
  cases hif : keyword? "if" r with
  | none =>
    rw [hif] at hread
    cases hread
    exact ⟨a', r', q, by rw [hr.keyword?_eq_none hif], hr, hna⟩
  | some r₂ =>
    rw [hif] at hread
    obtain ⟨r₂', hif', hr₂⟩ := hr.of_keyword? hif
    obtain ⟨⟨c, r₃⟩, hc, hread⟩ := Option.bind_eq_some_iff.mp hread
    obtain ⟨c', r₃', q₃, hc', hr₃, hnc⟩ := h.disjunction rfl hr₂ hc
    obtain ⟨r₄, helse, hread⟩ := Option.bind_eq_some_iff.mp hread
    obtain ⟨r₄', helse', hr₄⟩ := hr₃.of_keyword? helse
    obtain ⟨⟨b, r₅⟩, hb, hread⟩ := Option.bind_eq_some_iff.mp hread
    obtain ⟨b', r₅', q₅, hb', hr₅, hnb⟩ := h.expression rfl hr₄ hb
    cases hread
    refine ⟨.conditional c' a' b', r₅', q₅, ?_, hr₅, fun hne => ?_⟩
    · rw [hif']
      dsimp only
      rw [hc']
      dsimp only [Option.bind_some]
      rw [helse']
      dsimp only [Option.bind_some]
      rw [hb']
      rfl
    · rw [hna (sign?_of_keyword? hif), hnc (sign?_of_keyword? helse), hnb hne]
      rfl

/-- An `=` behind an operand is still there behind its comparisons. -/
theorem sign?_of_comparisons {stack : List Char} {place : Place} {ts us rest : List Token}
    {cs : List (CompareOp × Expr)} (hts : Renamed f stack place ts us)
    (hread : Script.comparisons n ts = some (cs, rest)) (hne : sign? "=" rest = none) :
    sign? "=" ts = none := by
  cases n with
  | zero => cases hread
  | succ n =>
    rw [Script.comparisons] at hread
    cases hop : comparison? ts with
    | none =>
      rw [hop] at hread
      cases hread
      exact hne
    | some next => exact (hts.of_comparison? hop).1

theorem inversion_succ (h : Commutes f n m) :
    Alike f (Script.inversion (n + 1)) (Script.inversion (m + 1)) := by
  intro stack place ts us e rest hplace hts hread
  unfold Matches
  rw [Script.inversion] at hread ⊢
  cases hnot : keyword? "not" ts with
  | some r =>
    rw [hnot] at hread
    obtain ⟨r', hnot', hr⟩ := hts.of_keyword? hnot
    obtain ⟨⟨a, r₂⟩, ha, hread⟩ := Option.bind_eq_some_iff.mp hread
    obtain ⟨a', r₂', q, ha', hr₂, hna⟩ := h.inversion rfl hr ha
    cases hread
    refine ⟨.not a', r₂', q, ?_, hr₂, fun hne => ?_⟩
    · rw [hnot']
      dsimp only
      rw [ha']
      rfl
    · rw [hna hne]
      rfl
  | none =>
    rw [hnot] at hread
    rw [hts.keyword?_eq_none hnot]
    obtain ⟨⟨a, r⟩, ha, hread⟩ := Option.bind_eq_some_iff.mp hread
    obtain ⟨a', r', q, ha', hr, hna⟩ := h.sum hplace hts ha
    obtain ⟨⟨cs, r₂⟩, hcs, hread⟩ := Option.bind_eq_some_iff.mp hread
    obtain ⟨cs', r₂', q₂, hcs', hr₂, hncs⟩ := h.comparisons hr hcs
    cases hread
    refine ⟨if cs'.isEmpty then a' else .compare a' cs', r₂', q₂, ?_, hr₂, fun hne => ?_⟩
    · dsimp only
      rw [ha']
      dsimp only [Option.bind_eq_bind, Option.bind_some]
      rw [hcs']
      rfl
    · rw [hncs hne, hna (sign?_of_comparisons hr hcs hne)]
      cases cs with
      | nil => rfl
      | cons c cs => rfl

theorem comparisons_succ (h : Commutes f n m) {stack : List Char} {place : Place}
    {ts us rest : List Token} {cs : List (CompareOp × Expr)} (hts : Renamed f stack place ts us)
    (hread : Script.comparisons (n + 1) ts = some (cs, rest)) :
    Matches f (renameComparisons f) stack cs rest (Script.comparisons (m + 1) us) := by
  unfold Matches
  rw [Script.comparisons] at hread ⊢
  cases hop : comparison? ts with
  | none =>
    rw [hop] at hread
    cases hread
    exact ⟨[], us, place, by rw [hts.comparison?_eq_none hop], hts, fun _ => rfl⟩
  | some next =>
    obtain ⟨op, r⟩ := next
    rw [hop] at hread
    obtain ⟨-, r', hop', hr⟩ := hts.of_comparison? hop
    obtain ⟨⟨a, r₂⟩, ha, hread⟩ := Option.bind_eq_some_iff.mp hread
    obtain ⟨a', r₂', q, ha', hr₂, hna⟩ := h.sum rfl hr ha
    obtain ⟨⟨more, r₃⟩, hmore, hread⟩ := Option.bind_eq_some_iff.mp hread
    obtain ⟨more', r₃', q₃, hmore', hr₃, hnmore⟩ := h.comparisons hr₂ hmore
    cases hread
    refine ⟨(op, a') :: more', r₃', q₃, ?_, hr₃, fun hne => ?_⟩
    · rw [hop']
      dsimp only
      rw [ha']
      dsimp only [Option.bind_eq_bind, Option.bind_some]
      rw [hmore']
      rfl
    · rw [hnmore hne, hna (sign?_of_comparisons hr₂ hmore hne)]
      rfl

theorem factor_succ (h : Commutes f n m) :
    Alike f (Script.factor (n + 1)) (Script.factor (m + 1)) := by
  intro stack place ts us e rest hplace hts hread
  unfold Matches
  rw [Script.factor] at hread ⊢
  cases hsign : signOf? unarySign? ts with
  | some next =>
    -- a sign in front
    obtain ⟨op, r⟩ := next
    rw [hsign] at hread
    obtain ⟨-, r', hsign', hr⟩ := hts.of_signOf? (fun _ _ => isOperator_of_unarySign?) hsign
    obtain ⟨⟨a, r₂⟩, ha, hread⟩ := Option.bind_eq_some_iff.mp hread
    obtain ⟨a', r₂', q, ha', hr₂, hna⟩ := h.factor rfl hr ha
    cases hread
    refine ⟨.unary op a', r₂', q, ?_, hr₂, fun hne => ?_⟩
    · rw [hsign']
      dsimp only
      rw [ha']
      rfl
    · rw [hna hne]
      rfl
  | none =>
    rw [hsign] at hread
    rw [hts.signOf?_eq_none hsign]
    -- an atom with its trailers; only behind them it shows whether they are raised to a power
    obtain ⟨⟨a, r⟩, ha, hread⟩ := Option.bind_eq_some_iff.mp hread
    obtain ⟨a', r', q, ha', hr, hna⟩ := h.atom hplace hts ha
    obtain ⟨⟨b, r₂⟩, hb, hread⟩ := Option.bind_eq_some_iff.mp hread
    obtain ⟨b', r₂', q₂, hb', hr₂, hnb⟩ := h.trailers hr hna hb
    dsimp only
    rw [ha']
    dsimp only [Option.bind_eq_bind, Option.bind_some]
    rw [hb']
    dsimp only [Option.bind_some] at hread ⊢
    cases hpow : sign? "**" r₂ with
    | none =>
      rw [hpow] at hread
      cases hread
      exact ⟨b', r₂', q₂, by rw [hr₂.sign?_eq_none hpow], hr₂, hnb⟩
    | some r₃ =>
      rw [hpow] at hread
      obtain ⟨r₃', hpow', hr₃⟩ := hr₂.of_sign? hpow
      obtain ⟨⟨c, r₄⟩, hc, hread⟩ := Option.bind_eq_some_iff.mp hread
      obtain ⟨c', r₄', q₄, hc', hr₄, hnc⟩ := h.factor rfl hr₃ hc
      cases hread
      refine ⟨.binary .pow b' c', r₄', q₄, ?_, hr₄, fun hne => ?_⟩
      · rw [hpow']
        dsimp only
        rw [hc']
        rfl
      · rw [hnb (sign?_eq_none hpow (by decide)), hnc hne]
        rfl

/-- With one unit of fuel more, attributes, subscripts and calls are read alike; attributes keep their
    names. -/
theorem trailers_succ (h : Commutes f n m) :
    TailAlike f (Script.trailers (n + 1)) (Script.trailers (m + 1)) := by
  intro stack place ts us d d' e rest hts hd hread
  rw [Script.trailers] at hread ⊢
  cases hdot : sign? "." ts with
  | some r =>
    -- an attribute, whose name stays
    rw [hdot] at hread
    obtain ⟨r', hdot', hr⟩ := hts.of_sign? hdot
    obtain ⟨⟨a, r₂⟩, ha, hread⟩ := Option.bind_eq_some_iff.mp hread
    obtain ⟨r₂', ha', hr₂⟩ := hr.of_name? ha
    rw [hdot']
    dsimp only
    rw [ha']
    refine h.trailers hr₂ (fun _ => ?_) hread
    rw [hd (sign?_eq_none hdot (by decide))]
    rfl
  | none =>
    rw [hdot] at hread
    rw [hts.sign?_eq_none hdot]
    cases hindex : sign? "[" ts with
    | some r =>
      -- a subscript
      rw [hindex] at hread
      obtain ⟨r', hindex', hr⟩ := hts.of_sign? hindex
      obtain ⟨⟨i, r₂⟩, hi, hread⟩ := Option.bind_eq_some_iff.mp hread
      obtain ⟨i', r₂', q, hi', hr₂, hni⟩ := h.expressions rfl hr hi
      obtain ⟨r₃, hclose, hread⟩ := Option.bind_eq_some_iff.mp hread
      obtain ⟨r₃', hclose', hr₃⟩ := hr₂.of_sign? hclose
      rw [hindex']
      dsimp only
      rw [hi']
      dsimp only [Option.bind_eq_bind, Option.bind_some]
      rw [hclose']
      refine h.trailers hr₃ (fun _ => ?_) hread
      rw [hd (sign?_eq_none hindex (by decide)), hni (sign?_eq_none hclose (by decide))]
      rfl
    | none =>
      rw [hindex] at hread
      rw [hts.sign?_eq_none hindex]
      cases hcall : sign? "(" ts with
      | some r =>
        -- a call
        rw [hcall] at hread
        obtain ⟨r', hcall', hr⟩ := hts.of_sign? hcall
        obtain ⟨⟨args, keys, r₂⟩, hargs, hread⟩ := Option.bind_eq_some_iff.mp hread
        obtain ⟨r₂', q, hargs', hr₂⟩ := h.arguments hr (.inl rfl) hargs
        rw [hcall']
        dsimp only
        rw [hargs']
        refine h.trailers hr₂ (fun _ => ?_) hread
        rw [hd (sign?_eq_none hcall (by decide))]
        rfl
      | none =>
        rw [hcall] at hread
        rw [hts.sign?_eq_none hcall]
        cases hread
        exact ⟨d', us, place, rfl, hts, hd⟩

/-- What follows an argument is no `=`. -/
theorem sign?_of_argumentEnd? {ts rest : List Token} (h : argumentEnd? ts = some rest) :
    sign? "=" ts = none := by
  unfold argumentEnd? at h
  split at h
  · rename_i hcomma
    exact sign?_eq_none hcomma (by decide)
  · obtain ⟨_, hclose, -⟩ := Option.map_eq_some_iff.mp h
    exact sign?_eq_none hclose (by decide)

/-- An argument, with or without a name, up to the end of the call. -/
theorem argument_succ (h : Commutes f n m) {outer : List Char} {place : Place} {used : List String}
    {ts us r r₂ rest : List Token} {a : Expr} {args : List Expr} {keys : List (String × Expr)}
    (hplace : place.isOpen = true) (hts : Renamed f ('(' :: outer) place ts us)
    (ha : Script.expression n ts = some (a, r)) (hend : argumentEnd? r = some r₂)
    (hmore : Script.arguments n used r₂ = some (args, keys, rest)) :
    ∃ r' r₂' rest' place', Script.expression m us = some (a.rename f, r')
      ∧ argumentEnd? r' = some r₂'
      ∧ Script.arguments m used r₂' = some (renameList f args, renameKeywords f keys, rest')
      ∧ Renamed f outer place' rest rest' := by
  obtain ⟨a', r', q, ha', hr, hna⟩ := h.expression hplace hts ha
  obtain ⟨r₂', q₂, hend', hr₂, hq₂⟩ := hr.of_argumentEnd? hend
  obtain ⟨rest', q₃, hmore', hrest⟩ := h.arguments hr₂ hq₂ hmore
  rw [hna (sign?_of_argumentEnd? hend)] at ha'
  exact ⟨r', r₂', rest', q₃, ha', hend', hmore', hrest⟩

/-- With one unit of fuel more, arguments are read alike: the names that they are given by stay. -/
theorem arguments_succ (h : Commutes f n m) {outer : List Char} {place : Place} {used : List String}
    {ts us rest : List Token} {args : List Expr} {keys : List (String × Expr)}
    (hts : Renamed f ('(' :: outer) place ts us)
    (hplace : place = .argument ∨ (sign? ")" ts).isSome)
    (hread : Script.arguments (n + 1) used ts = some (args, keys, rest)) :
    ∃ rest' place', Script.arguments (m + 1) used us
        = some (renameList f args, renameKeywords f keys, rest')
      ∧ Renamed f outer place' rest rest' := by
  rw [Script.arguments] at hread ⊢
  cases hclose : sign? ")" ts with
  | some r =>
    rw [hclose] at hread
    obtain ⟨r', hclose', hr⟩ := hts.of_sign? hclose
    cases hread
    exact ⟨r', _, by rw [hclose']; rfl, hr⟩
  | none =>
    have hplace : place = .argument := by
      rcases hplace with hplace | hplace
      · exact hplace
      · rw [hclose] at hplace
        cases hplace
    subst hplace
    rw [hclose] at hread
    rw [hts.sign?_eq_none hclose]
    cases hname : argumentName? ts with
    | some next =>
      -- an argument under a keyword, which is the same on both sides
      obtain ⟨k, r⟩ := next
      rw [hname] at hread
      obtain ⟨r', hname', hr⟩ := hts.of_argumentName? hname
      rw [hname']
      dsimp only at hread ⊢
      split at hread
      · cases hread
      · rename_i hused
        rw [if_neg hused]
        obtain ⟨⟨a, r₂⟩, ha, hread⟩ := Option.bind_eq_some_iff.mp hread
        obtain ⟨r₃, hend, hread⟩ := Option.bind_eq_some_iff.mp hread
        obtain ⟨⟨as, ks, r₄⟩, hmore, hread⟩ := Option.bind_eq_some_iff.mp hread
        obtain ⟨r₂', r₃', r₄', q, ha', hend', hmore', hr₄⟩ := h.argument_succ rfl hr ha hend hmore
        cases hread
        refine ⟨r₄', q, ?_, hr₄⟩
        rw [ha']
        dsimp only [Option.bind_eq_bind, Option.bind_some]
        rw [hend']
        dsimp only [Option.bind_some]
        rw [hmore']
        rfl
    | none =>
      -- an argument by its place: on neither side a `=` follows a name there
      rw [hname] at hread
      rw [hts.argumentName?_eq_none hname]
      dsimp only at hread ⊢
      split at hread
      · cases hread
      · rename_i hused
        rw [if_neg hused]
        obtain ⟨⟨a, r₂⟩, ha, hread⟩ := Option.bind_eq_some_iff.mp hread
        obtain ⟨r₃, hend, hread⟩ := Option.bind_eq_some_iff.mp hread
        obtain ⟨⟨as, ks, r₄⟩, hmore, hread⟩ := Option.bind_eq_some_iff.mp hread
        obtain ⟨r₂', r₃', r₄', q, ha', hend', hmore', hr₄⟩ := h.argument_succ rfl hts ha hend hmore
        cases hread
        refine ⟨r₄', q, ?_, hr₄⟩
        rw [ha']
        dsimp only [Option.bind_eq_bind, Option.bind_some]
        rw [hend']
        dsimp only [Option.bind_some]
        rw [hmore']
        rfl

/-- What follows an entry is no `=`. -/
theorem sign?_of_entryTail {ts rest : List Token} {es : List (Expr × Expr)}
    (hread : Script.entryTail n ts = some (es, rest)) : sign? "=" ts = none := by
  cases n with
  | zero => cases hread
  | succ n =>
    rw [Script.entryTail] at hread
    cases hclose : sign? "\x7d" ts with
    | some r => exact sign?_eq_none hclose (by decide)
    | none =>
      rw [hclose] at hread
      obtain ⟨r, hcomma, -⟩ := Option.bind_eq_some_iff.mp hread
      exact sign?_eq_none hcomma (by decide)

theorem items_succ (h : Commutes f n m) {close : String} {stack outer : List Char} {place : Place}
    {ts us rest : List Token} {es : List Expr} {comma : Bool} (hclose : Closes close stack outer)
    (hplace : place.isOpen = true) (hts : Renamed f stack place ts us)
    (hread : Script.items (n + 1) close ts = some (es, comma, rest)) :
    ∃ rest' place', Script.items (m + 1) close us = some (renameList f es, comma, rest')
      ∧ Renamed f outer place' rest rest' := by
  rw [Script.items] at hread ⊢
  cases hend : sign? close ts with
  | some r =>
    rw [hend] at hread
    obtain ⟨r', hend', hr⟩ := hts.of_sign? hend
    rw [hclose.brackets] at hr
    cases hread
    exact ⟨r', _, by rw [hend']; rfl, hr⟩
  | none =>
    rw [hend] at hread
    rw [hts.sign?_eq_none hend]
    exact h.item hclose hplace hts hread

theorem item_succ (h : Commutes f n m) {close : String} {stack outer : List Char} {place : Place}
    {ts us rest : List Token} {es : List Expr} {comma : Bool} (hclose : Closes close stack outer)
    (hplace : place.isOpen = true) (hts : Renamed f stack place ts us)
    (hread : Script.item (n + 1) close ts = some (es, comma, rest)) :
    ∃ rest' place', Script.item (m + 1) close us = some (renameList f es, comma, rest')
      ∧ Renamed f outer place' rest rest' := by
  rw [Script.item] at hread ⊢
  obtain ⟨⟨a, r⟩, ha, hread⟩ := Option.bind_eq_some_iff.mp hread
  obtain ⟨a', r', q, ha', hr, hna⟩ := h.expression hplace hts ha
  rw [ha']
  dsimp only [Option.bind_eq_bind, Option.bind_some] at hread ⊢
  cases hcomma : sign? "," r with
  | some r₂ =>
    rw [hcomma] at hread
    obtain ⟨r₂', hcomma', hr₂⟩ := hr.of_sign? hcomma
    obtain ⟨⟨more, b, r₃⟩, hmore, hread⟩ := Option.bind_eq_some_iff.mp hread
    obtain ⟨r₃', q₃, hmore', hr₃⟩ := h.items hclose rfl hr₂ hmore
    cases hread
    refine ⟨r₃', q₃, ?_, hr₃⟩
    rw [hcomma', hna (sign?_eq_none hcomma (by decide))]
    dsimp only
    rw [hmore']
    rfl
  | none =>
    rw [hcomma] at hread
    rw [hr.sign?_eq_none hcomma]
    obtain ⟨r₂, hend, hread⟩ := Option.bind_eq_some_iff.mp hread
    obtain ⟨r₂', hend', hr₂⟩ := hr.of_sign? hend
    rw [hclose.brackets] at hr₂
    cases hread
    refine ⟨r₂', _, ?_, hr₂⟩
    rw [hna (sign?_eq_none hend hclose.notEquals)]
    dsimp only
    rw [hend']
    rfl

theorem closes_brace (outer : List Char) : Closes "\x7d" ('{' :: outer) outer where
  brackets := rfl
  notEquals := by decide

theorem braced_succ (h : Commutes f n m) {outer : List Char} {place : Place} {ts us rest : List Token}
    {e : Expr} (hplace : place.isOpen = true) (hts : Renamed f ('{' :: outer) place ts us)
    (hread : Script.braced (n + 1) ts = some (e, rest)) :
    ∃ rest' place', Script.braced (m + 1) us = some (e.rename f, rest')
      ∧ Renamed f outer place' rest rest' := by
  rw [Script.braced] at hread ⊢
  cases hend : sign? "\x7d" ts with
  | some r =>
    rw [hend] at hread
    obtain ⟨r', hend', hr⟩ := hts.of_sign? hend
    cases hread
    exact ⟨r', _, by rw [hend']; rfl, hr⟩
  | none =>
    rw [hend] at hread
    rw [hts.sign?_eq_none hend]
    obtain ⟨⟨k, r⟩, hk, hread⟩ := Option.bind_eq_some_iff.mp hread
    obtain ⟨k', r', q, hk', hr, hnk⟩ := h.expression hplace hts hk
    dsimp only
    rw [hk']
    dsimp only [Option.bind_eq_bind, Option.bind_some] at hread ⊢
    cases hcolon : sign? ":" r with
    | some r₂ =>
      -- a dictionary
      rw [hcolon] at hread
      obtain ⟨r₂', hcolon', hr₂⟩ := hr.of_sign? hcolon
      obtain ⟨⟨v, r₃⟩, hv, hread⟩ := Option.bind_eq_some_iff.mp hread
      obtain ⟨v', r₃', q₃, hv', hr₃, hnv⟩ := h.expression rfl hr₂ hv
      obtain ⟨⟨es, r₄⟩, hes, hread⟩ := Option.bind_eq_some_iff.mp hread
      obtain ⟨r₄', q₄, hes', hr₄⟩ := h.entryTail hr₃ hes
      cases hread
      refine ⟨r₄', q₄, ?_, hr₄⟩
      rw [hcolon', hnk (sign?_eq_none hcolon (by decide))]
      dsimp only
      rw [hv', hnv (sign?_of_entryTail hes)]
      dsimp only [Option.bind_some]
      rw [hes']
      rfl
    | none =>
      rw [hcolon] at hread
      rw [hr.sign?_eq_none hcolon]
      cases hcomma : sign? "," r with
      | some r₂ =>
        -- a set of several
        rw [hcomma] at hread
        obtain ⟨r₂', hcomma', hr₂⟩ := hr.of_sign? hcomma
        obtain ⟨⟨es, comma, r₃⟩, hes, hread⟩ := Option.bind_eq_some_iff.mp hread
        obtain ⟨r₃', q₃, hes', hr₃⟩ := h.items (closes_brace outer) rfl hr₂ hes
        cases hread
        refine ⟨r₃', q₃, ?_, hr₃⟩
        rw [hcomma', hnk (sign?_eq_none hcomma (by decide))]
        dsimp only
        rw [hes']
        rfl
      | none =>
        -- a set of one
        rw [hcomma] at hread
        rw [hr.sign?_eq_none hcomma]
        obtain ⟨r₂, hclose, hread⟩ := Option.bind_eq_some_iff.mp hread
        obtain ⟨r₂', hclose', hr₂⟩ := hr.of_sign? hclose
        cases hread
        refine ⟨r₂', _, ?_, hr₂⟩
        rw [hnk (sign?_eq_none hclose (by decide))]
        dsimp only
        rw [hclose']
        rfl

theorem entryTail_succ (h : Commutes f n m) {outer : List Char} {place : Place}
    {ts us rest : List Token} {es : List (Expr × Expr)}
    (hts : Renamed f ('{' :: outer) place ts us)
    (hread : Script.entryTail (n + 1) ts = some (es, rest)) :
    ∃ rest' place', Script.entryTail (m + 1) us = some (renameEntries f es, rest')
      ∧ Renamed f outer place' rest rest' := by
  rw [Script.entryTail] at hread ⊢
  cases hend : sign? "\x7d" ts with
  | some r =>
    rw [hend] at hread
    obtain ⟨r', hend', hr⟩ := hts.of_sign? hend
    cases hread
    exact ⟨r', _, by rw [hend']; rfl, hr⟩
  | none =>
    rw [hend] at hread
    rw [hts.sign?_eq_none hend]
    obtain ⟨r, hcomma, hread⟩ := Option.bind_eq_some_iff.mp hread
    obtain ⟨r', hcomma', hr⟩ := hts.of_sign? hcomma
    dsimp only
    rw [hcomma']
    dsimp only [Option.bind_eq_bind, Option.bind_some] at hread ⊢
    cases hlast : sign? "\x7d" r with
    | some r₂ =>
      -- a comma may stand behind the last entry
      rw [hlast] at hread
      obtain ⟨r₂', hlast', hr₂⟩ := hr.of_sign? hlast
      cases hread
      exact ⟨r₂', _, by rw [hlast']; rfl, hr₂⟩
    | none =>
      rw [hlast] at hread
      rw [hr.sign?_eq_none hlast]
      obtain ⟨⟨k, r₂⟩, hk, hread⟩ := Option.bind_eq_some_iff.mp hread
      obtain ⟨k', r₂', q₂, hk', hr₂, hnk⟩ := h.expression rfl hr hk
      obtain ⟨r₃, hcolon, hread⟩ := Option.bind_eq_some_iff.mp hread
      obtain ⟨r₃', hcolon', hr₃⟩ := hr₂.of_sign? hcolon
      obtain ⟨⟨v, r₄⟩, hv, hread⟩ := Option.bind_eq_some_iff.mp hread
      obtain ⟨v', r₄', q₄, hv', hr₄, hnv⟩ := h.expression rfl hr₃ hv
      obtain ⟨⟨es, r₅⟩, hes, hread⟩ := Option.bind_eq_some_iff.mp hread
      obtain ⟨r₅', q₅, hes', hr₅⟩ := h.entryTail hr₄ hes
      cases hread
      refine ⟨r₅', q₅, ?_, hr₅⟩
      dsimp only
      rw [hk', hnk (sign?_eq_none hcolon (by decide))]
      dsimp only [Option.bind_some]
      rw [hcolon']
      dsimp only [Option.bind_some]
      rw [hv', hnv (sign?_of_entryTail hes)]
      dsimp only [Option.bind_some]
      rw [hes']
      rfl

/-- A name where operands can stand is renamed, unless it is the name of an argument. -/
theorem eq_of_newName {stack : List Char} {place : Place} {s t : String} {behind : List Token}
    (hplace : place.isOpen = true) (ht : NewName f stack behind s t place)
    (hne : sign? "=" behind = none) : t = f s := by
  cases place with
  | free => exact ht
  | argument =>
    rw [NewName, hne] at ht
    simpa using ht
  | «attribute» => cases hplace
  | blocked => cases hplace

/-- Texts beside each other are read as one constant, or as one text with names in it. -/
theorem texts_succ {stack : List Char} {place : Place} {ts us rest : List Token} {e : Expr}
    {formatted : Bool} {pieces : List Piece}
    (hts : Renamed f stack place (.text formatted pieces :: ts) (.text formatted pieces :: us))
    (hread : Script.atom (n + 1) (.text formatted pieces :: ts) = some (e, rest)) :
    Matches f (Expr.rename f) stack e rest
      (Script.atom (m + 1) (.text formatted pieces :: us)) := by
  obtain ⟨formatted, ps, r, r', q, htexts, htexts', hr⟩ := hts.adjacentTexts_eq
  rw [Script.atom, htexts] at hread
  dsimp only at hread
  split at hread
  · cases hread
  · rename_i hend
    cases hread
    refine ⟨if formatted then .formatted ps else .constant (.text (plainText ps)), r', q, ?_, hr,
      fun _ => ?_⟩
    · rw [Script.atom, htexts']
      dsimp only
      rw [hr.startsLiteral_eq, if_neg hend]
    · split
      · rfl
      · rfl

/-- An expression in round brackets, or a tuple. -/
theorem parenthesized_succ (h : Commutes f n m) {stack : List Char} {place : Place}
    {ts us rest : List Token} {e : Expr} (hplace : place.isOpen = true)
    (hts : Renamed f ('(' :: stack) place ts us)
    (hread : Script.atom (n + 1) (.sign "(" :: ts) = some (e, rest)) :
    Matches f (Expr.rename f) stack e rest (Script.atom (m + 1) (.sign "(" :: us)) := by
  rw [Script.atom] at hread
  obtain ⟨⟨es, comma, r⟩, hes, hread⟩ := Option.bind_eq_some_iff.mp hread
  obtain ⟨r', q, hes', hr⟩ := h.items ⟨rfl, by decide⟩ hplace hts hes
  unfold Matches
  rw [Script.atom, hes']
  dsimp only [Option.bind_eq_bind, Option.bind_some] at hread ⊢
  split at hread
  · cases hread
    exact ⟨_, r', q, rfl, hr, fun _ => rfl⟩
  · rename_i hsingle
    cases hread
    refine ⟨.tuple (renameList f es), r', q, ?_, hr, fun _ => rfl⟩
    cases es with
    | nil => rfl
    | cons a more =>
      cases more with
      | nil =>
        cases comma with
        | false => exact (hsingle a rfl rfl).elim
        | true => rfl
      | cons b more => rfl

/-- With one unit of fuel more, atoms are read alike: names get their new names, and literals stay. -/
theorem atom_succ (h : Commutes f n m) : Alike f (Script.atom (n + 1)) (Script.atom (m + 1)) := by
  intro stack place ts us e rest hplace hts hread
  rw [Script.atom.eq_def] at hread
  dsimp only at hread
  split at hread
  · -- a name
    rename_i s behind
    obtain ⟨t, us', rfl, ht, hbehind⟩ := hts.of_name
    cases hread
    refine ⟨.name t, us', .free, rfl, hbehind, fun hne => ?_⟩
    rw [eq_of_newName hplace ht hne]
    rfl
  · -- a constant
    rename_i k behind
    obtain ⟨us', rfl, hbehind⟩ := hts.of_fixed rfl
    obtain ⟨s, hs, he⟩ := Option.map_eq_some_iff.mp hread
    cases he
    refine ⟨.constant s, us', _, ?_, hbehind, fun _ => rfl⟩
    show (constant? k).map _ = _
    rw [hs]
    rfl
  · -- a number
    obtain ⟨us', rfl, hbehind⟩ := hts.of_fixed rfl
    cases hread
    exact ⟨_, us', _, rfl, hbehind, fun _ => rfl⟩
  · -- texts
    obtain ⟨us', rfl, _⟩ := hts.of_fixed rfl
    exact texts_succ (n := n) hts (by rw [Script.atom]; exact hread)
  · -- bytes
    obtain ⟨us', rfl, _⟩ := hts.of_fixed rfl
    obtain ⟨bs, r, r', q, hbytes, hbytes', hr⟩ := hts.adjacentBytes_eq
    rw [hbytes] at hread
    dsimp only at hread
    split at hread
    · cases hread
    · rename_i hend
      cases hread
      refine ⟨.constant (.bytes bs), r', q, ?_, hr, fun _ => rfl⟩
      rw [Script.atom, hbytes']
      dsimp only
      rw [hr.startsLiteral_eq, if_neg hend]
  · -- an ellipsis
    obtain ⟨us', rfl, hbehind⟩ := hts.of_fixed rfl
    cases hread
    exact ⟨_, us', _, rfl, hbehind, fun _ => rfl⟩
  · -- round brackets
    obtain ⟨us', rfl, hbehind⟩ := hts.of_fixed rfl
    exact h.parenthesized_succ rfl hbehind (by rw [Script.atom]; exact hread)
  · -- square brackets
    obtain ⟨us', rfl, hbehind⟩ := hts.of_fixed rfl
    obtain ⟨⟨es, comma, r⟩, hes, hread⟩ := Option.bind_eq_some_iff.mp hread
    obtain ⟨r', q, hes', hr⟩ := h.items ⟨rfl, by decide⟩ rfl hbehind hes
    cases hread
    refine ⟨.list (renameList f es), r', q, ?_, hr, fun _ => rfl⟩
    rw [Script.atom, hes']
    rfl
  · -- braces
    obtain ⟨us', rfl, hbehind⟩ := hts.of_fixed rfl
    obtain ⟨r', q, he', hr⟩ := h.braced rfl hbehind hread
    exact ⟨e.rename f, r', q, he', hr, fun _ => rfl⟩
  · cases hread

theorem expressions_succ (h : Commutes f n m) :
    Alike f (Script.expressions (n + 1)) (Script.expressions (m + 1)) := by
  intro stack place ts us e rest hplace hts hread
  unfold Matches
  rw [Script.expressions] at hread ⊢
  obtain ⟨⟨a, r⟩, ha, hread⟩ := Option.bind_eq_some_iff.mp hread
  obtain ⟨a', r', q, ha', hr, hna⟩ := h.expression hplace hts ha
  rw [ha']
  dsimp only [Option.bind_eq_bind, Option.bind_some] at hread ⊢
  cases hcomma : sign? "," r with
  | none =>
    rw [hcomma] at hread
    cases hread
    exact ⟨a', r', q, by rw [hr.sign?_eq_none hcomma], hr, hna⟩
  | some r₂ =>
    rw [hcomma] at hread
    obtain ⟨r₂', hcomma', _⟩ := hr.of_sign? hcomma
    obtain ⟨⟨es, r₃⟩, hes, hread⟩ := Option.bind_eq_some_iff.mp hread
    obtain ⟨es', r₃', q₃, hes', hr₃, hnes⟩ := h.expressionTail hr hes
    cases hread
    refine ⟨.tuple (a' :: es'), r₃', q₃, ?_, hr₃, fun hne => ?_⟩
    · rw [hcomma']
      dsimp only
      rw [hes']
      rfl
    · rw [hna (sign?_eq_none hcomma (by decide)), hnes hne]
      rfl

/-- An `=` behind an expression is still there behind those that follow it. -/
theorem sign?_of_expressionTail {ts rest : List Token} {es : List Expr}
    (hread : Script.expressionTail n ts = some (es, rest)) (hne : sign? "=" rest = none) :
    sign? "=" ts = none := by
  cases n with
  | zero => cases hread
  | succ n =>
    rw [Script.expressionTail] at hread
    cases hcomma : sign? "," ts with
    | none =>
      rw [hcomma] at hread
      cases hread
      exact hne
    | some r => exact sign?_eq_none hcomma (by decide)

theorem expressionTail_succ (h : Commutes f n m) {stack : List Char} {place : Place}
    {ts us rest : List Token} {es : List Expr} (hts : Renamed f stack place ts us)
    (hread : Script.expressionTail (n + 1) ts = some (es, rest)) :
    Matches f (renameList f) stack es rest (Script.expressionTail (m + 1) us) := by
  unfold Matches
  rw [Script.expressionTail] at hread ⊢
  cases hcomma : sign? "," ts with
  | none =>
    rw [hcomma] at hread
    cases hread
    exact ⟨[], us, place, by rw [hts.sign?_eq_none hcomma], hts, fun _ => rfl⟩
  | some r =>
    rw [hcomma] at hread
    obtain ⟨r', hcomma', hr⟩ := hts.of_sign? hcomma
    rw [hcomma']
    dsimp only at hread ⊢
    rw [hr.startsExpression_eq]
    split at hread
    · rename_i hstarts
      rw [if_pos hstarts]
      obtain ⟨⟨a, r₂⟩, ha, hread⟩ := Option.bind_eq_some_iff.mp hread
      obtain ⟨a', r₂', q, ha', hr₂, hna⟩ := h.expression rfl hr ha
      obtain ⟨⟨more, r₃⟩, hmore, hread⟩ := Option.bind_eq_some_iff.mp hread
      obtain ⟨more', r₃', q₃, hmore', hr₃, hnmore⟩ := h.expressionTail hr₂ hmore
      cases hread
      refine ⟨a' :: more', r₃', q₃, ?_, hr₃, fun hne => ?_⟩
      · rw [ha']
        dsimp only [Option.bind_eq_bind, Option.bind_some]
        rw [hmore']
        rfl
      · rw [hnmore hne, hna (sign?_of_expressionTail hmore hne)]
        rfl
    · rename_i hstarts
      rw [if_neg hstarts]
      cases hread
      exact ⟨[], r', _, rfl, hr, fun _ => rfl⟩

end Commutes

end LetTag.Script
