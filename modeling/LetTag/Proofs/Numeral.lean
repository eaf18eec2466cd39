/-
  Numbers and what stands behind them.

  How far a token reaches depends on a little of what follows it.  Two texts are `Kindred` if they
  agree up to the first name that is marked in the second, and end alike but for a line feed; a name
  is marked only where it stands for itself, not right behind a word or a point.  So much agreement
  is enough: a number that is read in front of the first text is read in front of the second.

  A number is read in stages, and each has one lemma that says what the stage takes, that it takes
  the same in front of a kindred text, and that what it takes is a `numeral`: no letter in it starts
  a word of its own.
-/
import LetTag.Proofs.Text
import LetTag.Script.Token

namespace LetTag.Script

open Text

/-! ## Kindred texts -/

/-- Does a name directly behind `c` not stand for itself? -/
def sticks (c : Char) : Bool :=
  isWordTail c || c == '.'

/-- Equal up to the first name that is marked in the second text; the second also has a line feed at
    its end.  The flag says that no name can be marked here. -/
inductive Kindred : Bool → List Char → List Char → Prop
  | ended {stuck : Bool} : Kindred stuck [] ['\n']
  | same {stuck : Bool} {c : Char} {r r' : List Char} :
    Kindred (sticks c) r r' → Kindred stuck (c :: r) (c :: r')
  | marked {c : Char} {r r' : List Char} :
    isNameStart c = true → Kindred false (c :: r) ('_' :: r')

/-- Does a name behind the text not stand for itself, if it does not in front of it? -/
def sticksBehind (stuck : Bool) (v : List Char) : Bool :=
  v.foldl (fun _ c => sticks c) stuck

namespace Kindred

variable {stuck : Bool} {r r' : List Char}

theorem append {v : List Char} (h : Kindred (sticksBehind stuck v) r r') :
    Kindred stuck (v ++ r) (v ++ r') := by
  induction v generalizing stuck with
  | nil => exact h
  | cons c v ih => exact .same (ih h)

/-- Behind a character that sticks, kindred texts go on alike. -/
theorem of_cons {c : Char} (h : Kindred true (c :: r) r') :
    ∃ behind, r' = c :: behind ∧ Kindred (sticks c) r behind := by
  cases h with
  | same h => exact ⟨_, rfl, h⟩

theorem of_nil (h : Kindred stuck [] r') : r' = ['\n'] := by
  cases h with
  | ended => rfl

/-- A word that ends here is the same in both texts. -/
theorem of_append {w : List Char} (hw : ∀ c ∈ w, sticks c = true)
    (h : Kindred true (w ++ r) r') : ∃ behind, r' = w ++ behind ∧ Kindred true r behind := by
  induction w generalizing r' with
  | nil => exact ⟨r', rfl, h⟩
  | cons c w ih =>
    obtain ⟨more, rfl, hmore⟩ := h.of_cons
    rw [hw c List.mem_cons_self] at hmore
    obtain ⟨behind, rfl, hbehind⟩ := ih (fun d hd => hw d (List.mem_cons_of_mem c hd)) hmore
    exact ⟨behind, rfl, hbehind⟩

end Kindred

/-- A piece of a number, as the reading of a parameter sees it: every letter or underscore sticks to
    what is before it.  The result says whether the piece ends so that a word would stick to it. -/
def numeral (stuck : Bool) (v : List Char) : Option Bool :=
  v.foldlM (fun stuck c =>
    if c.isDigit || c == '.' then some true
    else if c == '+' || c == '-' then some false
    else if stuck && (c.isAlphanum || c == '_') then some true
    else none) stuck

theorem numeral_append {stuck next last : Bool} {v w : List Char} (hv : numeral stuck v = some next)
    (hw : numeral next w = some last) : numeral stuck (v ++ w) = some last := by
  unfold numeral at hv hw ⊢
  rw [List.foldlM_append, hv]
  exact hw

/-- Letters and digits are the inside of a numeral. -/
theorem numeral_word {v : List Char} (h : ∀ c ∈ v, c.isAlphanum = true ∨ c = '_') :
    numeral true v = some true := by
  induction v with
  | nil => rfl
  | cons c v ih =>
    have hc := h c List.mem_cons_self
    have hstep : numeral true (c :: v) = numeral true v := by
      unfold numeral
      rw [List.foldlM_cons]
      have hword : (c.isAlphanum || c == '_') = true := by
        rcases hc with hc | hc
        · rw [hc, Bool.true_or]
        · rw [hc]
          rfl
      have hsign : (c == '+' || c == '-') = false := by
        refine Bool.eq_false_iff.mpr fun hs => ?_
        rcases Bool.or_eq_true_iff.mp hs with hs | hs
        · rw [eq_of_beq hs] at hword
          cases hword
        · rw [eq_of_beq hs] at hword
          cases hword
      rw [hsign, hword]
      split
      · rfl
      · rfl
    rw [hstep]
    exact ih fun d hd => h d (List.mem_cons_of_mem c hd)

section

variable {p : Char → Bool}

theorem digitRun_bar {d : Char} (hd : p d = true) (rest : List Char) :
    digitRun p ('_' :: d :: rest) = (d :: (digitRun p rest).1, (digitRun p rest).2) := by
  rw [digitRun, if_pos hd]

theorem digitRun_digit {c : Char} (hc : p c = true) (hbar : c ≠ '_') (rest : List Char) :
    digitRun p (c :: rest) = (c :: (digitRun p rest).1, (digitRun p rest).2) := by
  rw [digitRun, if_pos hc]
  exact fun _ _ he => absurd he hbar

theorem digitRun_stop {c : Char} {rest : List Char} (hc : p c = false)
    (hbar : c = '_' → ∀ d, rest.head? = some d → p d = false) :
    digitRun p (c :: rest) = ([], c :: rest) := by
  by_cases h : ∃ d more, c = '_' ∧ rest = d :: more
  · obtain ⟨d, more, rfl, rfl⟩ := h
    have hd : ¬ p d = true := by simp [hbar rfl d rfl]
    rw [digitRun, if_neg hd]
  · have hc' : ¬ p c = true := by simp [hc]
    rw [digitRun, if_neg hc']
    exact fun d more he hrest => h ⟨d, more, he, hrest⟩

/-- A run of digits: what it takes, and that it takes the same in front of a kindred text. -/
theorem digitRun_spec (hbar : p '_' = false) (hfeed : p '\n' = false) (cs : List Char) :
    ∃ v, cs = v ++ (digitRun p cs).2
      ∧ (∀ c ∈ v, p c = true ∨ c = '_')
      ∧ (∀ c, cs.head? = some c → p c = true → v.head? = some c)
      ∧ ∀ r', Kindred true (digitRun p cs).2 r' → digitRun p (v ++ r') = ((digitRun p cs).1, r') := by
  fun_induction digitRun p cs with
  | case1 d rest hd ds after hrun ih =>
    -- a bar with a digit behind it
    rw [hrun] at ih
    obtain ⟨v, hv, hdigits, -, hsame⟩ := ih
    refine ⟨'_' :: d :: v, ?_, ?_, fun c hc _ => hc, fun r' hr => ?_⟩
    · rw [hv]
      rfl
    · intro c hc
      rcases List.mem_cons.mp hc with rfl | hc
      · exact Or.inr rfl
      · rcases List.mem_cons.mp hc with rfl | hc
        · exact Or.inl hd
        · exact hdigits c hc
    · rw [List.cons_append, List.cons_append, digitRun_bar hd, hsame r' hr]
  | case2 d rest hd =>
    -- a bar without one; a kindred text has none there either
    refine ⟨[], rfl, fun c hc => absurd hc List.not_mem_nil, fun c hc hpc => ?_, fun r' hr => ?_⟩
    · cases hc
      rw [hbar] at hpc
      cases hpc
    · obtain ⟨more, rfl, hmore⟩ := Kindred.of_cons hr
      obtain ⟨more, rfl, -⟩ := Kindred.of_cons hmore
      refine digitRun_stop hbar fun _ c hc => ?_
      cases hc
      exact Bool.eq_false_iff.mpr hd
  | case3 c rest hne hc ds after hrun ih =>
    -- a digit
    have hcbar : c ≠ '_' := by
      rintro rfl
      rw [hbar] at hc
      cases hc
    rw [hrun] at ih
    obtain ⟨v, hv, hdigits, -, hsame⟩ := ih
    refine ⟨c :: v, ?_, ?_, fun d hd _ => hd, fun r' hr => ?_⟩
    · rw [hv]
      rfl
    · intro d hd
      rcases List.mem_cons.mp hd with rfl | hd
      · exact Or.inl hc
      · exact hdigits d hd
    · rw [List.cons_append, digitRun_digit hc hcbar, hsame r' hr]
  | case4 c rest hne hc =>
    -- anything else ends the run
    have hc' : p c = false := Bool.eq_false_iff.mpr hc
    refine ⟨[], rfl, fun d hd => absurd hd List.not_mem_nil, fun d hd hpd => ?_, fun r' hr => ?_⟩
    · cases hd
      exact absurd hpd hc
    · obtain ⟨more, rfl, hmore⟩ := Kindred.of_cons hr
      refine digitRun_stop hc' fun he d hd => ?_
      subst he
      cases rest with
      | nil =>
        rw [hmore.of_nil] at hd
        cases hd
        exact hfeed
      | cons e rest => exact (hne e rest rfl rfl).elim
  | case5 =>
    refine ⟨[], rfl, fun d hd => absurd hd List.not_mem_nil, fun d hd _ => hd, fun r' hr => ?_⟩
    -- at the end of the text there is a line end on the other side
    rw [Kindred.of_nil hr]
    exact digitRun_stop hfeed fun he => absurd he (by decide)

end

theorem isDigit_bar : Char.isDigit '_' = false := by decide

theorem isDigit_feed : Char.isDigit '\n' = false := by decide

theorem isDigit_of_isNameStart {c : Char} (h : isNameStart c = true) : c.isDigit = false := by
  refine Bool.eq_false_iff.mpr fun hd => ?_
  obtain ⟨hlow, hhigh⟩ := (isDigit_iff c).mp hd
  unfold isNameStart at h
  rw [if_pos (by omega)] at h
  rcases Bool.or_eq_true_iff.mp h with hc | hc
  · rcases (isAlpha_iff c).mp hc with hc | hc
    · omega
    · omega
  · rw [eq_of_beq hc] at hlow hhigh
    revert hlow hhigh
    decide

/-- A digit comes next in both of two kindred texts, or in neither. -/
theorem Kindred.isDigit_head {stuck : Bool} {r r' : List Char} (h : Kindred stuck r r') :
    r'.head?.any Char.isDigit = r.head?.any Char.isDigit := by
  cases h with
  | ended => rfl
  | same _ => rfl
  | marked hc =>
    show Char.isDigit '_' = Char.isDigit _
    rw [isDigit_of_isNameStart hc]
    rfl

/-- A run of digits and underscores that starts with a digit. -/
theorem numeral_digits {stuck : Bool} {d : Char} {v : List Char} (hd : d.isDigit = true)
    (hv : v.head? = some d) (h : ∀ c ∈ v, c.isDigit = true ∨ c = '_') :
    numeral stuck v = some true := by
  cases v with
  | nil => cases hv
  | cons c v =>
    cases hv
    have hstep : numeral stuck (d :: v) = numeral true v := by
      unfold numeral
      rw [List.foldlM_cons, hd]
      rfl
    rw [hstep]
    refine numeral_word fun c hc => ?_
    rcases h c (List.mem_cons_of_mem d hc) with hc | hc
    · exact Or.inl (by rw [Char.isAlphanum, hc, Bool.or_true])
    · exact Or.inr hc

/-- What an exponent is behind its letter. -/
def exponentBehind (rest : List Char) : Option (Int × List Char) :=
  if (exponentSign rest).2.head?.any Char.isDigit then
    some ((exponentSign rest).1 * ofDigits 10 (digitRun Char.isDigit (exponentSign rest).2).1,
      (digitRun Char.isDigit (exponentSign rest).2).2)
  else none

/-- The sign of an exponent can be told from any text that starts alike. -/
theorem exponentSign_spec (cs : List Char) : ∃ v stuck, cs = v ++ (exponentSign cs).2
    ∧ numeral true v = some stuck
    ∧ ∀ r', r'.head? = (exponentSign cs).2.head? → exponentSign (v ++ r') = ((exponentSign cs).1, r') := by
  unfold exponentSign
  split
  · exact ⟨['-'], false, rfl, rfl, fun r' _ => rfl⟩
  · exact ⟨['+'], false, rfl, rfl, fun r' _ => rfl⟩
  · rename_i hminus hplus
    refine ⟨[], true, rfl, rfl, fun r' hr => ?_⟩
    -- no sign comes first in the other text either
    split
    · rename_i rest heq
      rw [List.nil_append] at heq
      rw [heq] at hr
      obtain ⟨more, hmore⟩ := List.head?_eq_some_iff.mp hr.symm
      exact (hminus more hmore).elim
    · rename_i rest heq
      rw [List.nil_append] at heq
      rw [heq] at hr
      obtain ⟨more, hmore⟩ := List.head?_eq_some_iff.mp hr.symm
      exact (hplus more hmore).elim
    · rfl

/-- An exponent is read from its characters alone, and from any kindred text behind them. -/
theorem exponentBehind_spec {rest after : List Char} {e : Int}
    (h : exponentBehind rest = some (e, after)) : ∃ v, rest = v ++ after ∧ numeral true v = some true
      ∧ ∀ r', Kindred true after r' → exponentBehind (v ++ r') = some (e, r') := by
  unfold exponentBehind at h
  split at h
  · rename_i hdigit
    obtain ⟨v, stuck, hv, hnumeral, hsign⟩ := exponentSign_spec rest
    obtain ⟨w, hw, hdigits, hhead, hsame⟩ :=
      digitRun_spec isDigit_bar isDigit_feed (exponentSign rest).2
    cases h
    obtain ⟨d, hd, hd'⟩ := (Option.any_eq_true _ _).mp hdigit
    have hwhead : w.head? = some d := hhead d hd hd'
    refine ⟨v ++ w, ?_, ?_, fun r' hr => ?_⟩
    · rw [List.append_assoc, ← hw, ← hv]
    · exact numeral_append hnumeral (numeral_digits hd' hwhead hdigits)
    · have hnext : (w ++ r').head? = (exponentSign rest).2.head? := by
        rw [hd, List.head?_append, hwhead]
        rfl
      unfold exponentBehind
      rw [List.append_assoc, hsign _ hnext]
      dsimp only
      rw [hnext, if_pos hdigit, hsame r' hr]
  · cases h

/-- Where there is no exponent, there is none in a kindred text. -/
theorem exponentBehind_eq_none {r r' : List Char} (hr : Kindred true r r')
    (h : exponentBehind r = none) : exponentBehind r' = none := by
  have hdigit : (exponentSign r).2.head?.any Char.isDigit = false := by
    unfold exponentBehind at h
    split at h
    · cases h
    · rename_i hdigit
      exact Bool.eq_false_iff.mpr hdigit
  have hdigit' : (exponentSign r').2.head?.any Char.isDigit = false := by
    rw [← hdigit]
    cases r with
    | nil =>
      rw [hr.of_nil]
      rfl
    | cons c r =>
      obtain ⟨more, rfl, hmore⟩ := hr.of_cons
      unfold exponentSign
      split
      · rename_i heq
        cases heq
        exact hmore.isDigit_head
      · rename_i heq
        cases heq
        exact hmore.isDigit_head
      · rename_i hminus hplus
        split
        · rename_i heq
          cases heq
          exact (hminus _ rfl).elim
        · rename_i heq
          cases heq
          exact (hplus _ rfl).elim
        · rfl
  unfold exponentBehind
  rw [hdigit']
  rfl

theorem exponentOf_cons {c : Char} (hc : c = 'e' ∨ c = 'E') (rest : List Char) :
    exponentOf (c :: rest) = exponentBehind rest := by
  rcases hc with rfl | rfl
  · rfl
  · rfl

theorem exponentOf_of_ne {c : Char} (hc : ¬ (c = 'e' ∨ c = 'E')) (rest : List Char) :
    exponentOf (c :: rest) = none := by
  unfold exponentOf
  split
  · rename_i heq
    cases heq
    exact absurd (Or.inl rfl) hc
  · rename_i heq
    cases heq
    exact absurd (Or.inr rfl) hc
  · rfl

theorem exponentOf_kindred {cs r' : List Char} (h : exponentOf cs = none) (hr : Kindred true cs r') :
    exponentOf r' = none := by
  cases cs with
  | nil =>
    rw [hr.of_nil]
    rfl
  | cons c cs =>
    obtain ⟨more, rfl, hmore⟩ := hr.of_cons
    by_cases hc : c = 'e' ∨ c = 'E'
    · rw [exponentOf_cons hc] at h ⊢
      have hsticks : sticks c = true := by
        rcases hc with rfl | rfl
        · decide
        · decide
      rw [hsticks] at hmore
      exact exponentBehind_eq_none hmore h
    · exact exponentOf_of_ne hc more

/-- A letter with its exponent is read from any kindred text. -/
theorem exponentOf_spec {cs after : List Char} {e : Int} (h : exponentOf cs = some (e, after)) :
    ∃ v, cs = v ++ after ∧ numeral true v = some true
      ∧ ∀ r', Kindred true after r' → exponentOf (v ++ r') = some (e, r') := by
  cases cs with
  | nil => cases h
  | cons c cs =>
    by_cases hc : c = 'e' ∨ c = 'E'
    · rw [exponentOf_cons hc] at h
      obtain ⟨v, hv, hnumeral, hsame⟩ := exponentBehind_spec h
      have hletter : numeral true [c] = some true := by
        rcases hc with rfl | rfl
        · rfl
        · rfl
      refine ⟨c :: v, ?_, numeral_append (v := [c]) hletter hnumeral, fun r' hr => ?_⟩
      · rw [hv]
        rfl
      · rw [List.cons_append, exponentOf_cons hc, hsame r' hr]
    · rw [exponentOf_of_ne hc] at h
      cases h

theorem scaleOf_spec (cs : List Char) : ∃ v, cs = v ++ (scaleOf cs).2.2
    ∧ numeral true v = some true
    ∧ ∀ r', Kindred true (scaleOf cs).2.2 r' →
      scaleOf (v ++ r') = ((scaleOf cs).1, (scaleOf cs).2.1, r') := by
  cases h : exponentOf cs with
  | none =>
    have hscale : scaleOf cs = (0, false, cs) := by
      unfold scaleOf
      rw [h]
    rw [hscale]
    refine ⟨[], rfl, rfl, fun r' hr => ?_⟩
    unfold scaleOf
    rw [List.nil_append, exponentOf_kindred h hr]
  | some found =>
    obtain ⟨e, after⟩ := found
    have hscale : scaleOf cs = (e, true, after) := by
      unfold scaleOf
      rw [h]
    rw [hscale]
    obtain ⟨v, hv, hnumeral, hsame⟩ := exponentOf_spec h
    refine ⟨v, hv, hnumeral, fun r' hr => ?_⟩
    unfold scaleOf
    rw [hsame r' hr]

/-- A point with a digit behind it starts a fraction. -/
theorem fractionOf_digit {d : Char} (hd : d.isDigit = true) (rest : List Char) :
    fractionOf ('.' :: d :: rest) = ((digitRun Char.isDigit (d :: rest)).1, true,
      (digitRun Char.isDigit (d :: rest)).2) :=
  if_pos hd

theorem fractionOf_point {rest : List Char} (h : rest.head?.any Char.isDigit = false) :
    fractionOf ('.' :: rest) = ([], true, rest) := by
  cases rest with
  | nil => rfl
  | cons d rest =>
    have hd : ¬ d.isDigit = true := Bool.eq_false_iff.mp h
    exact if_neg hd

theorem fractionOf_of_ne {cs : List Char} (h : cs.head? ≠ some '.') :
    fractionOf cs = ([], false, cs) := by
  unfold fractionOf
  split
  · exact absurd rfl h
  · exact absurd rfl h
  · rfl

theorem numeral_point (stuck : Bool) : numeral stuck ['.'] = some true := rfl

/-- The same character comes next, unless the first text ends. -/
theorem Kindred.head_ne {r r' : List Char} {c : Char} (h : Kindred true r r') (hc : c ≠ '\n')
    (hr : r.head? ≠ some c) : r'.head? ≠ some c := by
  cases h with
  | ended =>
    intro he
    cases he
    exact hc rfl
  | same _ => exact hr

/-- A fraction is read from its characters alone, and from any kindred text behind them. -/
theorem fractionOf_spec (cs : List Char) : ∃ v, cs = v ++ (fractionOf cs).2.2
    ∧ (∀ stuck, numeral stuck v = some (stuck || (fractionOf cs).2.1))
    ∧ ∀ r', Kindred true (fractionOf cs).2.2 r' →
      fractionOf (v ++ r') = ((fractionOf cs).1, (fractionOf cs).2.1, r') := by
  by_cases hcs : cs.head? = some '.'
  · obtain ⟨rest, rfl⟩ := List.head?_eq_some_iff.mp hcs
    cases hd : rest.head?.any Char.isDigit with
    | true =>
      obtain ⟨d, hrest, hd⟩ := (Option.any_eq_true _ _).mp hd
      obtain ⟨rest, rfl⟩ := List.head?_eq_some_iff.mp hrest
      obtain ⟨w, hw, hdigits, hhead, hsame⟩ :=
        digitRun_spec isDigit_bar isDigit_feed (d :: rest)
      have hwhead : w.head? = some d := hhead d rfl hd
      rw [fractionOf_digit hd]
      refine ⟨'.' :: w, ?_, fun stuck => ?_, fun r' hr => ?_⟩
      · rw [List.cons_append, ← hw]
      · rw [Bool.or_true]
        exact numeral_append (v := ['.']) (numeral_point stuck) (numeral_digits hd hwhead hdigits)
      · obtain ⟨w, rfl⟩ := List.head?_eq_some_iff.mp hwhead
        have hrun := hsame r' hr
        rw [List.cons_append] at hrun
        rw [List.cons_append, List.cons_append, fractionOf_digit hd, hrun]
    | false =>
      rw [fractionOf_point hd]
      refine ⟨['.'], rfl, fun stuck => ?_, fun r' hr => ?_⟩
      · rw [Bool.or_true]
        exact numeral_point stuck
      · exact fractionOf_point ((Kindred.isDigit_head hr).trans hd)
  · rw [fractionOf_of_ne hcs]
    refine ⟨[], rfl, fun stuck => ?_, fun r' hr => ?_⟩
    · rw [Bool.or_false]
      rfl
    · exact fractionOf_of_ne (Kindred.head_ne hr (by decide) hcs)

theorem imaginaryOf_of_ne {cs : List Char} (hj : cs.head? ≠ some 'j') (hJ : cs.head? ≠ some 'J') :
    imaginaryOf cs = (false, cs) := by
  unfold imaginaryOf
  split
  · exact absurd rfl hj
  · exact absurd rfl hJ
  · rfl

/-- Whether a number is imaginary can be told from any kindred text. -/
theorem imaginaryOf_spec (cs : List Char) : ∃ v, cs = v ++ (imaginaryOf cs).2
    ∧ numeral true v = some true
    ∧ ∀ r', Kindred true (imaginaryOf cs).2 r' → imaginaryOf (v ++ r') = ((imaginaryOf cs).1, r') := by
  by_cases hj : cs.head? = some 'j'
  · obtain ⟨rest, rfl⟩ := List.head?_eq_some_iff.mp hj
    exact ⟨['j'], rfl, rfl, fun r' _ => rfl⟩
  · by_cases hJ : cs.head? = some 'J'
    · obtain ⟨rest, rfl⟩ := List.head?_eq_some_iff.mp hJ
      exact ⟨['J'], rfl, rfl, fun r' _ => rfl⟩
    · rw [imaginaryOf_of_ne hj hJ]
      refine ⟨[], rfl, rfl, fun r' hr => ?_⟩
      exact imaginaryOf_of_ne (Kindred.head_ne hr (by decide) hj) (Kindred.head_ne hr (by decide) hJ)

/-- Where a number ends, it ends in a kindred text. -/
theorem endsNumber_of_kindred {r r' : List Char} (hr : Kindred true r r')
    (h : endsNumber r = true) : endsNumber r' = true := by
  unfold endsNumber at h ⊢
  rcases Bool.or_eq_true_iff.mp h with hhead | hword
  · have hsame : r'.head?.any isWordTail = r.head?.any isWordTail := by
      cases hr with
      | ended => rfl
      | same _ => rfl
    rw [hsame, hhead, Bool.true_or]
  · obtain ⟨w, hw, hprefix⟩ := List.any_eq_true.mp hword
    obtain ⟨rest, rfl⟩ := List.isPrefixOf_iff_prefix.mp hprefix
    have hsticks : ∀ w ∈ wordsBehindNumbers, ∀ c ∈ w.toList, sticks c = true := by decide
    obtain ⟨behind, rfl, -⟩ := hr.of_append (hsticks w hw)
    have hthere : wordsBehindNumbers.any (·.toList.isPrefixOf (w.toList ++ behind)) = true :=
      List.any_eq_true.mpr ⟨w, hw, List.isPrefixOf_iff_prefix.mpr ⟨behind, rfl⟩⟩
    rw [hthere, Bool.or_true]

/-- A piece of a number ends as its last character does. -/
theorem sticksBehind_of_numeral {stuck last : Bool} {v : List Char}
    (h : numeral stuck v = some last) : sticksBehind stuck v = last := by
  induction v generalizing stuck with
  | nil => exact Option.some.inj h
  | cons c v ih =>
    unfold numeral at h
    rw [List.foldlM_cons] at h
    obtain ⟨next, hnext, h⟩ := Option.bind_eq_some_iff.mp h
    have hsticks : sticks c = next := by
      split at hnext
      · rename_i hc
        cases hnext
        rcases Bool.or_eq_true_iff.mp hc with hc | hc
        · simp [sticks, isWordTail, Char.isAlphanum, hc]
        · rw [sticks, hc, Bool.or_true]
      · split at hnext
        · rename_i hc
          cases hnext
          rcases Bool.or_eq_true_iff.mp hc with hc | hc
          · rw [eq_of_beq hc]
            decide
          · rw [eq_of_beq hc]
            decide
        · split at hnext
          · rename_i hc
            cases hnext
            obtain ⟨-, hc⟩ := Bool.and_eq_true_iff.mp hc
            rw [sticks, isWordTail, hc, Bool.true_or, Bool.true_or]
          · cases hnext
    show sticksBehind (sticks c) v = last
    rw [hsticks]
    exact ih h

/-- Kindred texts are so behind the inside of a numeral. -/
theorem Kindred.of_numeral {v r r' : List Char} (hv : numeral true v = some true)
    (h : Kindred true r r') : Kindred true (v ++ r) (v ++ r') := by
  refine Kindred.append ?_
  rw [sticksBehind_of_numeral hv]
  exact h

/-- The parts of a number in base ten. -/
theorem decimalNumber_eq (cs : List Char) : decimalNumber cs =
    let fraction := fractionOf (digitRun Char.isDigit cs).2
    let scale := scaleOf fraction.2.2
    let last := imaginaryOf scale.2.2
    (decimalScalar? (digitRun Char.isDigit cs).1 fraction.1 scale.1 (!fraction.2.1 && !scale.2.1)
      last.1).bind fun s => if endsNumber last.2 then some (s, last.2) else none :=
  rfl

theorem fractionOf_pointed (rest : List Char) : (fractionOf ('.' :: rest)).2.1 = true := by
  cases hd : rest.head?.any Char.isDigit with
  | true =>
    obtain ⟨d, hrest, hd⟩ := (Option.any_eq_true _ _).mp hd
    obtain ⟨rest, rfl⟩ := List.head?_eq_some_iff.mp hrest
    rw [fractionOf_digit hd]
  | false => rw [fractionOf_point hd]

/-- The digits of a number and its fraction: there are digits in front, or else the fraction has a
    point. -/
theorem mantissa_spec {cs : List Char}
    (hcs : cs.head?.any Char.isDigit = true ∨ cs.head? = some '.') :
    let run := digitRun Char.isDigit cs
    let fraction := fractionOf run.2
    ∃ v w, cs = v ++ (w ++ fraction.2.2) ∧ numeral false (v ++ w) = some true
      ∧ ∀ r', Kindred true fraction.2.2 r' → digitRun Char.isDigit (v ++ (w ++ r')) = (run.1, w ++ r')
        ∧ fractionOf (w ++ r') = (fraction.1, fraction.2.1, r') := by
  obtain ⟨v, hv, hdigits, hhead, hrun⟩ := digitRun_spec isDigit_bar isDigit_feed cs
  obtain ⟨w, hw, hnumeral, hfraction⟩ := fractionOf_spec (digitRun Char.isDigit cs).2
  refine ⟨v, w, hv.trans (congrArg (v ++ ·) hw), ?_, fun r' hr => ⟨hrun _ ?_, hfraction r' hr⟩⟩
  · rcases hcs with hcs | hcs
    · obtain ⟨d, hd, hd'⟩ := (Option.any_eq_true _ _).mp hcs
      exact numeral_append (numeral_digits hd' (hhead d hd hd') hdigits) (hnumeral true)
    · obtain ⟨rest, rfl⟩ := List.head?_eq_some_iff.mp hcs
      have hnone : digitRun Char.isDigit ('.' :: rest) = ([], '.' :: rest) :=
        digitRun_stop (by decide) fun he => absurd he (by decide)
      rw [hnone] at hv hnumeral
      obtain rfl : v = [] := by simpa using hv
      rw [List.nil_append, hnumeral false, fractionOf_pointed]
      rfl
  · rw [hw]
    exact hr.of_numeral (hnumeral true)

/-- The exponent of a number and the letter of an imaginary one. -/
theorem suffix_spec (cs : List Char) :
    let scale := scaleOf cs
    let last := imaginaryOf scale.2.2
    ∃ v w, cs = v ++ (w ++ last.2) ∧ numeral true (v ++ w) = some true
      ∧ ∀ r', Kindred true last.2 r' → scaleOf (v ++ (w ++ r')) = (scale.1, scale.2.1, w ++ r')
        ∧ imaginaryOf (w ++ r') = (last.1, r') := by
  obtain ⟨v, hv, hnumeral, hscale⟩ := scaleOf_spec cs
  obtain ⟨w, hw, hnumeral', hlast⟩ := imaginaryOf_spec (scaleOf cs).2.2
  refine ⟨v, w, hv.trans (congrArg (v ++ ·) hw), numeral_append hnumeral hnumeral',
    fun r' hr => ⟨hscale _ ?_, hlast r' hr⟩⟩
  rw [hw]
  exact hr.of_numeral hnumeral'

/-- A number in base ten: what it takes, and that it takes the same in front of a kindred text. -/
theorem decimalNumber_spec {cs after : List Char} {s : Scalar}
    (hcs : cs.head?.any Char.isDigit = true ∨ cs.head? = some '.')
    (h : decimalNumber cs = some (s, after)) :
    ∃ v, cs = v ++ after ∧ numeral false v = some true
      ∧ ∀ r', Kindred true after r' → decimalNumber (v ++ r') = some (s, r') := by
  obtain ⟨v₁, v₂, hv, hfront, hsame⟩ := mantissa_spec hcs
  rw [decimalNumber_eq] at h
  dsimp only at hv hsame h
  generalize digitRun Char.isDigit cs = run at hv hsame h
  generalize fractionOf run.2 = fraction at hv hsame h
  obtain ⟨v₃, v₄, hv', hback, hsame'⟩ := suffix_spec fraction.2.2
  generalize scaleOf fraction.2.2 = scale at hv' hsame' h
  generalize imaginaryOf scale.2.2 = last at hv' hsame' h
  obtain ⟨s', hs, h⟩ := Option.bind_eq_some_iff.mp h
  split at h
  · rename_i hends
    cases h
    refine ⟨v₁ ++ v₂ ++ (v₃ ++ v₄), ?_, numeral_append hfront hback, fun r' hr => ?_⟩
    · simp only [List.append_assoc]
      rw [← hv', ← hv]
    · have hr' : Kindred true fraction.2.2 (v₃ ++ (v₄ ++ r')) := by
        rw [hv', ← List.append_assoc, ← List.append_assoc]
        exact hr.of_numeral hback
      obtain ⟨hrun, hfraction⟩ := hsame _ hr'
      obtain ⟨hscale, hlast⟩ := hsame' _ hr
      simp only [List.append_assoc]
      rw [decimalNumber_eq, hrun]
      dsimp only
      rw [hfraction]
      dsimp only
      rw [hscale]
      dsimp only
      rw [hlast]
      dsimp only
      rw [hs, endsNumber_of_kindred hr hends]
      rfl
  · cases h

theorem isDigitIn_bar (base : Nat) : isDigitIn base '_' = false := rfl

theorem isDigitIn_feed (base : Nat) : isDigitIn base '\n' = false := rfl

theorem isAlphanum_of_baseOf? {c : Char} {base : Nat} (h : baseOf? c = some base) :
    c.isAlphanum = true := by
  have hletter : c.toLower.isAlpha = true := by
    unfold baseOf? at h
    split at h
    · rename_i heq
      rw [heq]
      decide
    · rename_i heq
      rw [heq]
      decide
    · rename_i heq
      rw [heq]
      decide
    · cases h
  rw [Char.isAlphanum, isAlpha_of_toLower hletter, Bool.true_or]

/-- The prefix of a base is a zero and its letter. -/
theorem basePrefix?_eq_some {cs rest : List Char} {base : Nat}
    (h : basePrefix? cs = some (base, rest)) :
    ∃ c, cs = '0' :: c :: rest ∧ baseOf? c = some base := by
  unfold basePrefix? at h
  split at h
  · rename_i c behind
    obtain ⟨b, hb, he⟩ := Option.map_eq_some_iff.mp h
    cases he
    exact ⟨c, rfl, hb⟩
  · cases h

/-- Where there is no prefix, there is none in a kindred text. -/
theorem basePrefix?_eq_none {r r' : List Char} (hr : Kindred true r r')
    (h : basePrefix? r = none) : basePrefix? r' = none := by
  cases hr with
  | ended => rfl
  | @same _ c r r' hmore =>
    by_cases hc : c = '0'
    · subst hc
      cases r with
      | nil =>
        rw [hmore.of_nil]
        rfl
      | cons d r =>
        obtain ⟨more, rfl, -⟩ := Kindred.of_cons hmore
        have hd : baseOf? d = none := Option.map_eq_none_iff.mp h
        show (baseOf? d).map _ = none
        rw [hd]
        rfl
    · unfold basePrefix?
      split
      · rename_i heq
        cases heq
        exact absurd rfl hc
      · rfl

/-- A piece that needs nothing to stick to may also stick to something. -/
theorem numeral_of_false {v : List Char} (h : numeral false v = some true) :
    numeral true v = some true := by
  cases v with
  | nil => cases h
  | cons c v =>
    unfold numeral at h ⊢
    rw [List.foldlM_cons] at h ⊢
    obtain ⟨next, hnext, h⟩ := Option.bind_eq_some_iff.mp h
    refine Option.bind_eq_some_iff.mpr ⟨next, ?_, h⟩
    split at hnext
    · rename_i hc
      rw [if_pos hc]
      exact hnext
    · rename_i hc
      rw [if_neg hc]
      split at hnext
      · rename_i hc
        rw [if_pos hc]
        exact hnext
      · cases hnext

/-- A number: what it takes, and that it takes the same in front of a kindred text. -/
theorem readNumber_spec {cs after : List Char} {s : Scalar}
    (hcs : cs.head?.any Char.isDigit = true ∨ cs.head? = some '.')
    (h : readNumber cs = some (s, after)) :
    ∃ v, cs = v ++ after ∧ numeral false v = some true
      ∧ ∀ r', Kindred true after r' → readNumber (v ++ r') = some (s, r') := by
  unfold readNumber at h ⊢
  cases hbase : basePrefix? cs with
  | some found =>
    obtain ⟨base, rest⟩ := found
    -- a base and its digits: some have to be there, and nothing sticks to them
    obtain ⟨c, rfl, hc⟩ := basePrefix?_eq_some hbase
    rw [hbase] at h
    dsimp only at h
    obtain ⟨v, hv, hdigits, -, hsame⟩ := digitRun_spec (isDigitIn_bar base) (isDigitIn_feed base) rest
    split at h
    · cases h
    · rename_i hends
      cases h
      obtain ⟨hsome, hends⟩ := not_or.mp (fun hbad => hends (Bool.or_eq_true_iff.mpr hbad))
      refine ⟨'0' :: c :: v, ?_, ?_, fun r' hr => ?_⟩
      · rw [List.cons_append, List.cons_append, ← hv]
      · have hzero : numeral false ['0'] = some true := rfl
        refine numeral_append hzero (numeral_word fun d hd => ?_)
        rcases List.mem_cons.mp hd with rfl | hd
        · exact Or.inl (isAlphanum_of_baseOf? hc)
        · rcases hdigits d hd with hd | hd
          · exact Or.inl (isAlphanum_of_isDigitIn hd)
          · exact Or.inr hd
      · have hbase' : basePrefix? ('0' :: c :: v ++ r') = some (base, v ++ r') := by
          show (baseOf? c).map _ = _
          rw [hc]
          rfl
        have hends' : endsNumber r' = true :=
          endsNumber_of_kindred hr (by simpa using hends)
        rw [hbase']
        dsimp only
        rw [hsame r' hr]
        dsimp only
        rw [hends', if_neg]
        simpa using hsome
  | none =>
    rw [hbase] at h
    -- no base is read, and none off a kindred text
    obtain ⟨v, hv, hnumeral, hsame⟩ := decimalNumber_spec hcs h
    refine ⟨v, hv, hnumeral, fun r' hr => ?_⟩
    have hkindred : Kindred true cs (v ++ r') := by
      rw [hv]
      exact hr.of_numeral (numeral_of_false hnumeral)
    rw [basePrefix?_eq_none hkindred hbase]
    exact hsame r' hr

end LetTag.Script
