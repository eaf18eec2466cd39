/-
  What the parser looks at before it decides, under a renaming of names.

  Two lists of tokens may differ in their names.  Which names differ depends on where they stand: a
  name behind a point is an attribute and stays; one behind `(` or a comma, in round brackets and in
  front of a single `=`, is the name of an argument and stays; all others are renamed.  `Renamed`
  says this of the tokens, going along with the open brackets and the place behind the last token.

  Below it stands one pair of lemmas for each question that the parser asks of the next tokens: if
  the answer is yes on the first side, it is yes on the second and what follows is renamed again;
  if it is no, it is no on the second.
-/
import LetTag.Arrow.Marking
import LetTag.Script.Parse

namespace LetTag.Script

/-! ## Places and brackets -/

/-- Where a token stands: what may be done to a name there. -/
inductive Place where
  | free
  | argument
  | «attribute»
  | blocked
  deriving DecidableEq, Repr

namespace Place

/-- Can an operand stand here? -/
def isOpen : Place → Bool
  | free | argument => true
  | _ => false

/-- The place behind a token.  No name stands behind a number or an ellipsis. -/
def behind : Token → Place
  | .sign "." => «attribute»
  | .sign "(" | .sign "," => argument
  | .sign "..." | .number _ => blocked
  | _ => free

end Place

/-- The open brackets behind a token, innermost first. -/
def bracketsBehind (stack : List Char) : Token → List Char
  | .sign x => x.toList.foldl Arrow.Reading.bracketsAfter stack
  | _ => stack

/-- May the name `n` at a place become `m`, if `ts` follow? -/
def NewName (f : String → String) (stack : List Char) (ts : List Token) (n m : String) :
    Place → Prop
  | .free => m = f n
  | .argument => m = if stack.head? = some '(' ∧ (sign? "=" ts).isSome then n else f n
  | .attribute => m = n
  | .blocked => True

/-- Is the token the same on both sides? -/
def Token.isFixed : Token → Bool
  | .name _ | .newline => false
  | _ => true

/-- The same tokens but for their names, up to the end of a line that also ends a block on the second
    side. -/
inductive Renamed (f : String → String) : List Char → Place → List Token → List Token → Prop
  | ended {stack : List Char} {place : Place} :
    Renamed f stack place [.newline] [.newline, .dedent]
  | name {stack : List Char} {place : Place} {n m : String} {ts us : List Token} :
    NewName f stack ts n m place → Renamed f stack .free ts us →
    Renamed f stack place (.name n :: ts) (.name m :: us)
  | fixed {stack : List Char} {place : Place} {t : Token} {ts us : List Token} :
    t.isFixed = true → Renamed f (bracketsBehind stack t) (.behind t) ts us →
    Renamed f stack place (t :: ts) (t :: us)

/-! ## Looking ahead -/

theorem keyword?_eq_some {k : String} {ts rest : List Token} (h : keyword? k ts = some rest) :
    ts = .keyword k :: rest := by
  unfold keyword? at h
  split at h
  · split at h
    · rename_i hk
      cases h
      rw [hk]
    · cases h
  · cases h

theorem sign?_eq_some {x : String} {ts rest : List Token} (h : sign? x ts = some rest) :
    ts = .sign x :: rest := by
  unfold sign? at h
  split at h
  · split at h
    · rename_i hx
      cases h
      rw [hx]
    · cases h
  · cases h

theorem sign?_cons (x : String) (ts : List Token) : sign? x (.sign x :: ts) = some ts :=
  if_pos rfl

theorem keyword?_cons (k : String) (ts : List Token) : keyword? k (.keyword k :: ts) = some ts :=
  if_pos rfl

/-- Another sign comes next. -/
theorem sign?_eq_none {x y : String} {ts rest : List Token} (h : sign? x ts = some rest)
    (hne : x ≠ y) : sign? y ts = none := by
  rw [sign?_eq_some h]
  exact if_neg hne

/-- A keyword comes next, and no sign. -/
theorem sign?_of_keyword? {k x : String} {ts rest : List Token} (h : keyword? k ts = some rest) :
    sign? x ts = none := by
  rw [keyword?_eq_some h]
  rfl

/-- A sign between two operands: it is no bracket, and a name behind it is free. -/
structure IsOperator (x : String) : Prop where
  brackets : ∀ stack, bracketsBehind stack (.sign x) = stack
  behind : Place.behind (.sign x) = .free
  notEquals : x ≠ "="

theorem signOf?_eq_some {α : Type} {meaning? : String → Option α} {ts rest : List Token} {a : α}
    (h : signOf? meaning? ts = some (a, rest)) :
    ∃ x, ts = .sign x :: rest ∧ meaning? x = some a := by
  unfold signOf? at h
  split at h
  · rename_i x _
    obtain ⟨b, hb, he⟩ := Option.map_eq_some_iff.mp h
    cases he
    exact ⟨x, rfl, hb⟩
  · cases h

theorem isOperator_of_unarySign? {x : String} {op : UnaryOp} (h : unarySign? x = some op) :
    IsOperator x := by
  unfold unarySign? at h
  split at h
  · exact ⟨fun _ => rfl, rfl, by decide⟩
  · exact ⟨fun _ => rfl, rfl, by decide⟩
  · cases h

theorem isOperator_of_comparisonSign? {x : String} {op : CompareOp}
    (h : comparisonSign? x = some op) : IsOperator x := by
  unfold comparisonSign? at h
  split at h
  · exact ⟨fun _ => rfl, rfl, by decide⟩
  · exact ⟨fun _ => rfl, rfl, by decide⟩
  · exact ⟨fun _ => rfl, rfl, by decide⟩
  · exact ⟨fun _ => rfl, rfl, by decide⟩
  · exact ⟨fun _ => rfl, rfl, by decide⟩
  · exact ⟨fun _ => rfl, rfl, by decide⟩
  · cases h

namespace Renamed

variable {f : String → String} {stack : List Char} {place : Place} {ts us rest : List Token}

/-- A token that no renaming changes stands there as it is. -/
theorem of_fixed {t : Token} (h : Renamed f stack place (t :: ts) us) (ht : t.isFixed = true) :
    ∃ us', us = t :: us' ∧ Renamed f (bracketsBehind stack t) (.behind t) ts us' := by
  cases h with
  | ended => cases ht
  | name _ _ => cases ht
  | fixed _ h => exact ⟨_, rfl, h⟩

/-- A name stands there with its new name, or with its old one if it names an argument or an attribute.
    -/
theorem of_name {n : String} (h : Renamed f stack place (.name n :: ts) us) :
    ∃ m us', us = .name m :: us' ∧ NewName f stack ts n m place ∧ Renamed f stack .free ts us' := by
  cases h with
  | name hn h => exact ⟨_, _, rfl, hn, h⟩
  | fixed ht _ => cases ht

/-- A keyword is found in the renamed tokens where it is in the others. -/
theorem of_keyword? {k : String} (h : Renamed f stack place ts us)
    (hk : keyword? k ts = some rest) :
    ∃ rest', keyword? k us = some rest' ∧ Renamed f stack .free rest rest' := by
  rw [keyword?_eq_some hk] at h
  obtain ⟨us', rfl, hrest⟩ := h.of_fixed rfl
  exact ⟨us', keyword?_cons k us', hrest⟩

theorem keyword?_eq_none {k : String} (h : Renamed f stack place ts us)
    (hk : keyword? k ts = none) : keyword? k us = none := by
  cases h with
  | ended => rfl
  | name _ _ => rfl
  | @fixed _ _ t ts us _ _ =>
    cases t with
    | keyword l =>
      have hne : l ≠ k := by
        rintro rfl
        rw [keyword?_cons] at hk
        cases hk
      exact if_neg hne
    | _ => rfl

/-- A sign is found in the renamed tokens where it is in the others, and the brackets behind it are the
    same. -/
theorem of_sign? {x : String} (h : Renamed f stack place ts us) (hx : sign? x ts = some rest) :
    ∃ rest', sign? x us = some rest'
      ∧ Renamed f (bracketsBehind stack (.sign x)) (.behind (.sign x)) rest rest' := by
  rw [sign?_eq_some hx] at h
  obtain ⟨us', rfl, hrest⟩ := h.of_fixed rfl
  exact ⟨us', sign?_cons x us', hrest⟩

theorem sign?_eq_none {x : String} (h : Renamed f stack place ts us) (hx : sign? x ts = none) :
    sign? x us = none := by
  cases h with
  | ended => rfl
  | name _ _ => rfl
  | @fixed _ _ t ts us _ _ =>
    cases t with
    | sign y =>
      have hne : y ≠ x := by
        rintro rfl
        rw [sign?_cons] at hx
        cases hx
      exact if_neg hne
    | _ => rfl

/-- Operators mean the same, and no name of an argument stands in front of one. -/
theorem of_signOf? {α : Type} {meaning? : String → Option α} {a : α}
    (hop : ∀ x a, meaning? x = some a → IsOperator x) (h : Renamed f stack place ts us)
    (ha : signOf? meaning? ts = some (a, rest)) : sign? "=" ts = none
      ∧ ∃ rest', signOf? meaning? us = some (a, rest') ∧ Renamed f stack .free rest rest' := by
  obtain ⟨x, rfl, hx⟩ := signOf?_eq_some ha
  obtain ⟨us', rfl, hrest⟩ := h.of_fixed rfl
  have hx' := hop x a hx
  rw [hx'.brackets, hx'.behind] at hrest
  refine ⟨if_neg hx'.notEquals, us', ?_, hrest⟩
  show (meaning? x).map (fun a => (a, us')) = _
  rw [hx]
  rfl

theorem signOf?_eq_none {α : Type} {meaning? : String → Option α} (h : Renamed f stack place ts us)
    (ha : signOf? meaning? ts = none) : signOf? meaning? us = none := by
  cases h with
  | ended => rfl
  | name _ _ => rfl
  | @fixed _ _ t ts us _ _ =>
    cases t with
    | sign x =>
      have hx : meaning? x = none := Option.map_eq_none_iff.mp ha
      show (meaning? x).map _ = none
      rw [hx]
      rfl
    | _ => rfl

/-- Comparisons mean the same, those of two words too. -/
theorem of_comparison? {op : CompareOp} (h : Renamed f stack place ts us)
    (hop : comparison? ts = some (op, rest)) : sign? "=" ts = none
      ∧ ∃ rest', comparison? us = some (op, rest') ∧ Renamed f stack .free rest rest' := by
  unfold comparison? at hop
  split at hop
  · rename_i x ts
    obtain ⟨op, hx, he⟩ := Option.map_eq_some_iff.mp hop
    cases he
    obtain ⟨us', rfl, hrest⟩ := h.of_fixed rfl
    have hx' := isOperator_of_comparisonSign? hx
    rw [hx'.brackets, hx'.behind] at hrest
    refine ⟨if_neg hx'.notEquals, us', ?_, hrest⟩
    show (comparisonSign? x).map (fun op => (op, us')) = _
    rw [hx]
    rfl
  · cases hop
    obtain ⟨us', rfl, hrest⟩ := h.of_fixed rfl
    exact ⟨rfl, us', rfl, hrest⟩
  · obtain ⟨us', rfl, hrest⟩ := h.of_fixed rfl
    obtain ⟨behind, hin, he⟩ := Option.map_eq_some_iff.mp hop
    cases he
    obtain ⟨rest', hin', hrest'⟩ := hrest.of_keyword? hin
    refine ⟨rfl, rest', ?_, hrest'⟩
    show (keyword? "in" us').map _ = _
    rw [hin']
    rfl
  · obtain ⟨us', rfl, hrest⟩ := h.of_fixed rfl
    refine ⟨rfl, ?_⟩
    rw [comparison?]
    split at hop
    · rename_i hnot
      cases hop
      obtain ⟨rest', hnot', hrest'⟩ := hrest.of_keyword? hnot
      exact ⟨rest', by rw [hnot'], hrest'⟩
    · rename_i hnot
      cases hop
      exact ⟨us', by rw [hrest.keyword?_eq_none hnot], hrest⟩
  · cases hop

theorem comparison?_eq_none (h : Renamed f stack place ts us) (hop : comparison? ts = none) :
    comparison? us = none := by
  unfold comparison? at hop
  split at hop
  · rename_i x ts
    obtain ⟨us', rfl, _⟩ := h.of_fixed rfl
    have hx : comparisonSign? x = none := Option.map_eq_none_iff.mp hop
    show (comparisonSign? x).map _ = none
    rw [hx]
    rfl
  · cases hop
  · obtain ⟨us', rfl, hrest⟩ := h.of_fixed rfl
    have hin := hrest.keyword?_eq_none (Option.map_eq_none_iff.mp hop)
    show (keyword? "in" us').map _ = none
    rw [hin]
    rfl
  · split at hop
    · cases hop
    · cases hop
  · rename_i hsign hin hnot his
    cases h with
    | ended => rfl
    | name _ _ => rfl
    | fixed _ _ =>
      unfold comparison?
      split
      · rename_i heq
        cases heq
        exact (hsign _ _ rfl).elim
      · rename_i heq
        cases heq
        exact (hin _ rfl).elim
      · rename_i heq
        cases heq
        exact (hnot _ rfl).elim
      · rename_i heq
        cases heq
        exact (his _ rfl).elim
      · rfl

/-- Behind a point a name is an attribute, and keeps its name. -/
theorem of_name? {n : String} (h : Renamed f stack .attribute ts us)
    (hn : name? ts = some (n, rest)) :
    ∃ rest', name? us = some (n, rest') ∧ Renamed f stack .free rest rest' := by
  unfold name? at hn
  split at hn
  · cases hn
    obtain ⟨m, us', rfl, hm, hrest⟩ := h.of_name
    exact ⟨us', by rw [hm]; rfl, hrest⟩
  · cases hn

theorem of_argumentName? {k : String} {outer : List Char}
    (h : Renamed f ('(' :: outer) .argument ts us) (hk : argumentName? ts = some (k, rest)) :
    ∃ rest', argumentName? us = some (k, rest') ∧ Renamed f ('(' :: outer) .free rest rest' := by
  unfold argumentName? at hk
  split at hk
  · rename_i n behind
    obtain ⟨_, hequals, he⟩ := Option.map_eq_some_iff.mp hk
    cases he
    obtain ⟨m, us', rfl, hm, hbehind⟩ := h.of_name
    obtain ⟨rest', hequals', hrest⟩ := hbehind.of_sign? hequals
    have hname : m = k := by
      rw [NewName, hequals] at hm
      exact hm
    refine ⟨rest', ?_, hrest⟩
    show (sign? "=" us').map (fun ts => (m, ts)) = _
    rw [hequals', hname]
    rfl
  · cases hk

theorem argumentName?_eq_none (h : Renamed f stack place ts us) (hk : argumentName? ts = none) :
    argumentName? us = none := by
  cases h with
  | ended => rfl
  | @name _ _ n m ts us _ h =>
    have hequals : sign? "=" ts = none := Option.map_eq_none_iff.mp hk
    show (sign? "=" us).map _ = none
    rw [h.sign?_eq_none hequals]
    rfl
  | @fixed _ _ t ts us ht _ =>
    cases t with
    | name n => cases ht
    | _ => rfl

theorem of_argumentEnd? (h : Renamed f ('(' :: stack) place ts us)
    (hend : argumentEnd? ts = some rest) : ∃ rest' place', argumentEnd? us = some rest'
      ∧ Renamed f ('(' :: stack) place' rest rest'
      ∧ (place' = .argument ∨ (sign? ")" rest).isSome) := by
  unfold argumentEnd? at hend ⊢
  split at hend
  · rename_i hcomma
    cases hend
    obtain ⟨rest', hcomma', hrest⟩ := h.of_sign? hcomma
    exact ⟨rest', .argument, by rw [hcomma'], hrest, .inl rfl⟩
  · rename_i hcomma
    obtain ⟨_, hclose, rfl⟩ := Option.map_eq_some_iff.mp hend
    obtain ⟨_, hclose', _⟩ := h.of_sign? hclose
    refine ⟨us, place, ?_, h, .inr (by rw [hclose]; rfl)⟩
    rw [h.sign?_eq_none hcomma, hclose']
    rfl

/-- An expression starts in the renamed tokens where one does in the others. -/
theorem startsExpression_eq (h : Renamed f stack place ts us) :
    startsExpression us = startsExpression ts := by
  cases h with
  | ended => rfl
  | name _ _ => rfl
  | @fixed _ _ t ts us _ _ =>
    cases t with
    | _ => rfl

theorem startsLiteral_eq (h : Renamed f stack place ts us) :
    startsLiteral us = startsLiteral ts := by
  cases h with
  | ended => rfl
  | name _ _ => rfl
  | @fixed _ _ t ts us _ _ =>
    cases t with
    | _ => rfl

theorem adjacentTexts_eq (h : Renamed f stack place ts us) : ∃ formatted ps rest rest' place',
    adjacentTexts ts = (formatted, ps, rest) ∧ adjacentTexts us = (formatted, ps, rest')
      ∧ Renamed f stack place' rest rest' := by
  induction h with
  | ended => exact ⟨false, [], _, _, place, rfl, rfl, .ended⟩
  | name hn h _ => exact ⟨false, [], _, _, _, rfl, rfl, .name hn h⟩
  | @fixed stack place t ts us ht h ih =>
    cases t with
    | text g qs =>
      obtain ⟨formatted, ps, rest, rest', place', hts, hus, hrest⟩ := ih
      refine ⟨g || formatted, qs ++ ps, rest, rest', place', ?_, ?_, hrest⟩
      · rw [adjacentTexts, hts]
      · rw [adjacentTexts, hus]
    | _ => exact ⟨false, [], _, _, place, rfl, rfl, .fixed ht h⟩

theorem adjacentBytes_eq (h : Renamed f stack place ts us) : ∃ bs rest rest' place',
    adjacentBytes ts = (bs, rest) ∧ adjacentBytes us = (bs, rest')
      ∧ Renamed f stack place' rest rest' := by
  induction h with
  | ended => exact ⟨[], _, _, place, rfl, rfl, .ended⟩
  | name hn h _ => exact ⟨[], _, _, _, rfl, rfl, .name hn h⟩
  | @fixed stack place t ts us ht h ih =>
    cases t with
    | bytes cs =>
      obtain ⟨bs, rest, rest', place', hts, hus, hrest⟩ := ih
      refine ⟨cs ++ bs, rest, rest', place', ?_, ?_, hrest⟩
      · rw [adjacentBytes, hts]
      · rw [adjacentBytes, hus]
    | _ => exact ⟨[], _, _, place, rfl, rfl, .fixed ht h⟩

end Renamed

end LetTag.Script
