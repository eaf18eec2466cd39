/-
  Where a pass puts its marks.

  A pass reads the body from left to right, and all that it knows of a place is what the reading
  remembers of the text before it (`along_eq`).  So it puts marks in the body and changes nothing else,
  and whether there is one at a place can be said of the text before and behind it (`occurs_along`): a
  whole word, behind no dot, that is not the name of an argument as the mask shows it.

  That the reading is not in a closed literal is said of the literals of the text (`Divides`).  These
  are not the ones that the reading skips: a quote that is not closed takes the rest of the line into its
  literal, but the reading goes on behind it and can skip from one quote in there to the next.  Still it
  is between two pieces of the text whenever it comes to the end of one (`literal_boundary`), so closed
  literals are skipped as a whole and nothing outside literals is (`mark_places`).

  The mask does not know comments.  Behind one there is no bracket or comma to see, and the name of an
  argument is marked there (`argument_behind_comment_marked`).
-/
import LetTag.Proofs.Division
import LetTag.Proofs.Shifting
import LetTag.Script.Parse

namespace LetTag

open Text Arrow Arrow.Reading Script

/-- A part of the pieces divides its part of the text. -/
theorem Divides.of_append {spanning : Bool} {front tail : List Stretch} : ∀ {s : List Char},
    Divides spanning (front ++ tail) s → Divides spanning tail (tail.flatMap Stretch.text) := by
  induction front with
  | nil =>
    intro s h
    have htext : s = tail.flatMap Stretch.text := h.text_eq
    rw [← htext]
    exact h
  | cons p front ih =>
    intro s h
    cases h with
    | plain _ h => exact ih h
    | closed _ _ h => exact ih h
    | halted _ _ _ h => exact ih h

/-- A closed literal starts with a quote, and its content stays within it. -/
theorem Divides.of_closed {spanning : Bool} {q : Char} {v : List Char} {ps : List Stretch}
    {s : List Char} (h : Divides spanning (.literal q v true :: ps) s) :
    Quoting.isQuote q = true ∧ Within spanning q v := by
  cases h with
  | closed hq hv _ => exact ⟨hq, hv⟩

/-- The inside of a literal that ends with its line. -/
theorem Within.enclosed {q : Char} {v : List Char} (h : Within false q v) : Enclosed q v := by
  induction h with
  | nil => exact .nil
  | plain hc hfeed hquote _ ih => exact .plain hc hfeed hquote ih
  | escaped hfeed _ ih => exact .escaped (fun hc => Bool.false_ne_true (hfeed hc)) ih

namespace Arrow

/-! ## Places in a body -/

/-- The text with marks at the places that are `chosen`, from what is before and behind them. -/
def markAt (chosen : List Char → List Char → Bool) (before : List Char) : List Char → List Char
  | [] => []
  | c :: s =>
    (if chosen before (c :: s) then parameterMark else []) ++ c :: markAt chosen (before ++ [c]) s

/-- The whole word `w` is behind the place, and neither a word character nor a dot before it. -/
def WordAt (w before behind : List Char) : Prop :=
  ∃ rest, behind = w ++ rest ∧ rest.head?.any isWord = false ∧ before.getLast?.any joins = false

/-- The mask shows the word as the name of an argument: in round brackets, behind the bracket or a
    comma and in front of a single `=`. -/
def NamesArgument (w before behind : List Char) : Prop :=
  assigns ((mask (before ++ behind)).drop (before ++ w).length) = true
    ∧ ((trimRight (mask before)).getLast? = some '(' ∨ (trimRight (mask before)).getLast? = some ',')
    ∧ ((mask before).foldl bracketsAfter []).head? = some '('

/-- The place is in a literal that is closed on its line. -/
def InClosed (before behind : List Char) : Prop :=
  ∃ front q v w tail, before = front.flatMap Stretch.text ++ q :: v
    ∧ Divides false (front ++ .literal q (v ++ w) true :: tail) (before ++ behind)

/-- The place is at a character outside literals. -/
def IsOutside (before behind : List Char) : Prop :=
  ∃ front c tail, before = front.flatMap Stretch.text
    ∧ Divides false (front ++ .plain c :: tail) (before ++ behind)

/-! ## What the reading knows of a place -/

namespace Reading

/-- Where the reading stands behind `u`, which `rest` follows. -/
def along (r : Reading) : List Char → List Char → Reading
  | [], _ => r
  | c :: u, rest => (r.next c (u ++ rest)).along u rest

/-- A reading goes along two texts one behind the other. -/
theorem along_append (u u' rest : List Char) : ∀ r : Reading,
    r.along (u ++ u') rest = (r.along u (u' ++ rest)).along u' rest := by
  induction u with
  | nil => exact fun _ => rfl
  | cons c u ih =>
    intro r
    rw [List.cons_append, along, along, ih, List.append_assoc]

/-- **What the reading remembers of a text**, literals apart. -/
theorem along_eq (u rest : List Char) : ∀ r : Reading,
    (r.along u rest).previous = u.getLast?.or r.previous
    ∧ (r.along u rest).quoting = u.foldl Quoting.next r.quoting
    ∧ (r.along u rest).brackets = (maskFrom r.quoting u).foldl bracketsAfter r.brackets
    ∧ (r.along u rest).shown = (trimRight (maskFrom r.quoting u)).getLast?.or r.shown := by
  induction u with
  | nil => exact fun _ => ⟨rfl, rfl, rfl, rfl⟩
  | cons c u ih =>
    intro r
    obtain ⟨hprevious, hquoting, hbrackets, hshown⟩ := ih (r.next c (u ++ rest))
    refine ⟨?_, hquoting, hbrackets, ?_⟩
    · rw [along, hprevious, List.getLast?_cons]
      show u.getLast?.or (some c) = _
      rw [Option.or_some]
      rfl
    · rw [along, hshown, maskFrom, trimRight_cons]
      show (trimRight (maskFrom (r.quoting.next c) u)).getLast?.or
        (if isBlank (r.quoting.shown c) then r.shown else some (r.quoting.shown c)) = _
      cases htail : trimRight (maskFrom (r.quoting.next c) u) with
      | nil =>
        cases hblank : isBlank (r.quoting.shown c) with
        | true => simp
        | false => simp
      | cons d t => simp [List.getLast?_cons]

/-- The character in front is the last one that was read. -/
theorem previous_along (u rest : List Char) : (start.along u rest).previous = u.getLast? := by
  rw [(along_eq u rest start).1]
  exact Option.or_none

/-- A word is the name of an argument if the mask shows it as one. -/
theorem isKeyword_along {p u rest : List Char} :
    (start.along u rest).isKeyword p.length rest = true ↔ NamesArgument p u rest := by
  obtain ⟨-, hquoting, hbrackets, hshown⟩ := along_eq u rest start
  have hdrop : (mask (u ++ rest)).drop (u ++ p).length
      = (maskFrom (u.foldl Quoting.next .outside) rest).drop p.length := by
    rw [mask, maskFrom_append, List.length_append, ← length_maskFrom .outside u,
      List.drop_length_add_append]
  unfold isKeyword NamesArgument
  rw [hdrop, hquoting, hbrackets, hshown]
  show (_ && ((trimRight (mask u)).getLast?.or none == _ || (trimRight (mask u)).getLast?.or none == _)
    && ((mask u).foldl bracketsAfter []).head? == _) = true ↔ _
  rw [Option.or_none]
  simp only [Bool.and_eq_true, Bool.or_eq_true, beq_iff_eq, and_assoc]
  exact Iff.rfl

/-- **What is at the places that are marked.** -/
theorem occurs_along {p u rest : List Char} : (start.along u rest).occurs p rest = true
    ↔ (start.along u rest).literal = 0 ∧ WordAt p u rest ∧ ¬ NamesArgument p u rest := by
  have hword : (start.along u rest).isWordHere p rest = true ↔ WordAt p u rest := by
    unfold isWordHere WordAt
    rw [previous_along]
    simp only [Bool.and_eq_true, Bool.not_eq_true', List.isPrefixOf_iff_prefix]
    constructor
    · rintro ⟨⟨hbefore, behind, rfl⟩, hbehind⟩
      rw [List.drop_left] at hbehind
      exact ⟨behind, rfl, hbehind, hbefore⟩
    · rintro ⟨behind, rfl, hbehind, hbefore⟩
      rw [List.drop_left]
      exact ⟨⟨hbefore, behind, rfl⟩, hbehind⟩
  rw [← hword, ← isKeyword_along, occurs]
  simp only [Bool.and_eq_true, beq_iff_eq, Bool.not_eq_true', Bool.not_eq_true, and_assoc]

/-! ## Closed literals on the way -/

/-- Inside a literal, what is left of it shrinks by what is read. -/
theorem literal_along {u rest : List Char} : ∀ {r : Reading}, u.length ≤ r.literal →
    (r.along u rest).literal = r.literal - u.length := by
  induction u with
  | nil => exact fun _ => rfl
  | cons c u ih =>
    intro r h
    rw [List.length_cons] at h
    have hnext : (r.next c (u ++ rest)).literal = r.literal - 1 := next_literal_inside (by omega) _
    rw [along, ih (by omega), hnext, List.length_cons]
    omega

/-- What the reading skips ends with the line. -/
theorem literal_along_le {u rest : List Char} (hu : '\n' ∉ u) : ∀ {r : Reading},
    r.literal ≤ (firstLine (u ++ rest)).length →
    (r.along u rest).literal ≤ (firstLine rest).length := by
  induction u with
  | nil => exact fun h => h
  | cons c u ih =>
    intro r h
    obtain ⟨hc, hu⟩ := List.ne_and_not_mem_of_not_mem_cons hu
    exact ih hu (literal_next_le hc.symm h)

section

variable {r : Reading} (hr : r.literal = 0) {q : Char} (hq : Quoting.isQuote q = true)
include hr hq

/-- A closed literal is skipped as a whole. -/
theorem literal_closed {u v rest : List Char} (hv : Within false q (u ++ v)) :
    (r.along (q :: u) (v ++ q :: rest)).literal = v.length + 1 := by
  have hlength : literalLength q (u ++ (v ++ q :: rest)) = (u ++ v).length + 1 := by
    rw [← List.append_assoc, literalLength, unescapedEnd_of_enclosed hq hv.enclosed]
    rfl
  have hnext : (r.next q (u ++ (v ++ q :: rest))).literal = u.length + v.length + 1 := by
    rw [next_literal_quote (by omega) hq, hlength, List.length_append]
  rw [along, literal_along (by omega), hnext]
  omega

/-- Behind a closed literal nothing is left of it. -/
theorem literal_behind_closed {v : List Char} (hv : Within false q v) (rest : List Char) :
    (r.along (q :: (v ++ [q])) rest).literal = 0 := by
  have hend : (r.along (q :: v) ([q] ++ rest)).literal = 1 :=
    literal_closed hr hq (v := []) (by rwa [List.append_nil])
  rw [← List.cons_append, along_append, literal_along (by rw [hend]; rfl), hend]
  rfl

/-- Behind a literal that is not closed there is nothing left to skip. -/
theorem literal_behind_halted {v w rest : List Char} (hv : Within false q v)
    (hw : Halts false w rest) : (r.along (q :: (v ++ w)) rest).literal = 0 := by
  have hfeed : '\n' ∉ v ++ w := by
    rw [List.mem_append, not_or]
    refine ⟨hv.enclosed.notMem_feed, ?_⟩
    rcases hw.last with rfl | rfl
    · exact List.not_mem_nil
    · decide
  have hline : firstLine rest = [] := by
    cases rest with
    | nil => rfl
    | cons c rest =>
      rw [hw.ending c rfl]
      rfl
  have hle : (r.along (q :: (v ++ w)) rest).literal ≤ (firstLine rest).length := by
    rw [along]
    refine literal_along_le hfeed ?_
    rw [next_literal_quote (by omega) hq]
    exact literalLength_le_firstLine hq _
  rw [hline] at hle
  exact Nat.le_zero.mp hle

end

/-- **Between two pieces of a text** the reading is in no closed literal. -/
theorem literal_boundary {front tail : List Stretch} : ∀ {s : List Char} {r : Reading},
    Divides false (front ++ tail) s → r.literal = 0 →
    (r.along (front.flatMap Stretch.text) (tail.flatMap Stretch.text)).literal = 0 := by
  induction front with
  | nil => exact fun _ hr => hr
  | cons p front ih =>
    intro s r h hr
    rw [List.flatMap_cons, along_append, ← List.flatMap_append]
    cases h with
    | plain hc h =>
      refine ih h (next_literal_plain (by omega) ?_ _)
      rw [hc]
      exact Bool.false_ne_true
    | closed hq hv h => exact ih h (literal_behind_closed hr hq hv _)
    | @halted q v w ps s hq hv hw h =>
      have htext : s = (front ++ tail).flatMap Stretch.text := h.text_eq
      refine ih h ?_
      rw [← htext]
      show (r.along (q :: (v ++ w ++ [])) s).literal = 0
      rw [List.append_nil]
      exact literal_behind_halted hr hq hv hw

end Reading

/-- Outside of all literals nothing is left of one. -/
theorem literal_of_isOutside {before behind : List Char} (h : IsOutside before behind) :
    (start.along before behind).literal = 0 := by
  obtain ⟨front, c, tail, rfl, hdivides⟩ := h
  have htext := hdivides.text_eq
  rw [List.flatMap_append] at htext
  rw [List.append_cancel_left htext]
  exact literal_boundary hdivides rfl

/-- Inside a closed literal something is left of it. -/
theorem literal_of_inClosed {before behind : List Char} (h : InClosed before behind) :
    (start.along before behind).literal ≠ 0 := by
  obtain ⟨front, q, v, w, tail, rfl, hdivides⟩ := h
  have hfront := literal_boundary hdivides (r := start) rfl
  have htext := hdivides.text_eq
  have hbehind : v ++ behind = v ++ (w ++ q :: tail.flatMap Stretch.text) := by
    simpa [Stretch.text, Stretch.closing] using htext
  obtain rfl := List.append_cancel_left hbehind
  have hrest : (Stretch.literal q (v ++ w) true :: tail).flatMap Stretch.text
      = (q :: v) ++ (w ++ q :: tail.flatMap Stretch.text) := by
    simp [Stretch.text, Stretch.closing]
  rw [hrest] at hfront
  obtain ⟨hq, hv⟩ := hdivides.of_append.of_closed
  rw [along_append, literal_closed hfront hq hv]
  exact Nat.succ_ne_zero _

/-! ## One pass, and one more -/

/-- A pass puts marks in the text. -/
theorem markFrom_eq_markAt (p s : List Char) : ∀ before : List Char,
    markFrom p (start.along before s) s
      = markAt (fun before behind => (start.along before behind).occurs p behind) before s := by
  induction s with
  | nil => exact fun _ => rfl
  | cons c s ih =>
    intro before
    rw [markFrom, markAt, ← ih, along_append]
    rfl

/-- **A second pass finds nothing to mark.** -/
theorem mark_mark {p : List Char} (hp : isParameter p = true) (body : List Char) :
    mark p (mark p body) = mark p body := by
  have hpasses : ∀ ps : List (List Char), (∀ q ∈ ps, q = p) →
      ps.foldl (fun b q => mark q b) body = weave (markOnce ps) body := by
    intro ps hps
    rw [foldl_mark (fun q hq => by rw [hps q hq]; exact hp), weave_marksFor_iff]
    intro w _ hclash
    -- with its mark the word is another one
    obtain ⟨hw, hmark⟩ := hclash.mem
    exact mark_append_ne w ((hps _ hmark).trans (hps _ hw).symm)
  have hsame : markOnce [p, p] = markOnce [p] := by
    funext w
    simp [markOnce]
  calc mark p (mark p body)
      = weave (markOnce [p, p]) body := hpasses [p, p] (by simp)
    _ = weave (markOnce [p]) body := by rw [hsame]
    _ = mark p body := (hpasses [p] (by simp)).symm

/-- **A pass puts marks in the body and changes nothing else.**  Each is in front of a whole word that
    is the parameter, behind no dot, not in a literal closed on its line and not the name of an argument
    as the mask shows it; outside literals all of these are marked.  A second pass changes nothing. -/
theorem mark_places {p : List Char} (hp : isParameter p = true) (body : List Char) :
    (∃ chosen, mark p body = markAt chosen [] body ∧ ∀ before behind, before ++ behind = body →
      (chosen before behind = true → WordAt p before behind ∧ ¬ NamesArgument p before behind
        ∧ ¬ InClosed before behind)
      ∧ (IsOutside before behind → WordAt p before behind → ¬ NamesArgument p before behind →
        chosen before behind = true))
    ∧ mark p (mark p body) = mark p body := by
  refine ⟨⟨fun before behind => (start.along before behind).occurs p behind,
    markFrom_eq_markAt p body [], ?_⟩, mark_mark hp body⟩
  intro before behind _
  constructor
  · intro h
    obtain ⟨hliteral, hword, hname⟩ := occurs_along.mp h
    exact ⟨hword, hname, fun hclosed => literal_of_inClosed hclosed hliteral⟩
  · intro houtside hword hname
    exact occurs_along.mpr ⟨literal_of_isOutside houtside, hword, hname⟩

/-- The name of an argument and its value, which are both named like the parameter. -/
theorem mark_places_of_argument : ∃ chosen,
    markAt chosen [] "f(x=x)".toList = "f(x=_p_x)".toList
    ∧ chosen "f(".toList "x=x)".toList = false ∧ chosen "f(x=".toList "x)".toList = true
    ∧ mark ['x'] "f(x=_p_x)".toList = "f(x=_p_x)".toList := by
  have hmark : mark ['x'] "f(x=x)".toList = "f(x=_p_x)".toList := by decide
  have hname : NamesArgument ['x'] "f(".toList "x=x)".toList :=
    ⟨by decide, Or.inl (by decide), by decide⟩
  have hvalue : ¬ NamesArgument ['x'] "f(x=".toList "x)".toList :=
    fun h => absurd h.1 (by decide)
  have houtside : IsOutside "f(x=".toList "x)".toList :=
    ⟨[.plain 'f', .plain '(', .plain 'x', .plain '='], 'x', [.plain ')'], by decide,
      .plain (by decide) <| .plain (by decide) <| .plain (by decide) <| .plain (by decide) <|
      .plain (by decide) <| .plain (by decide) .nil⟩
  obtain ⟨⟨chosen, heq, hplaces⟩, htwice⟩ :=
    mark_places (p := ['x']) (by decide) "f(x=x)".toList
  rw [hmark] at heq htwice
  refine ⟨chosen, heq.symm, ?_, ?_, htwice⟩
  · refine Bool.eq_false_iff.mpr fun h => ?_
    exact ((hplaces _ _ (by decide)).1 h).2.1 hname
  · exact (hplaces _ _ (by decide)).2 houtside ⟨[')'], by decide⟩ hvalue

/-- Behind a comment the name of an argument is marked, and the call has an argument of another name. -/
theorem argument_behind_comment_marked :
    mark ['p'] "dict(a=1, # first\n p=2)".toList = "dict(a=1, # first\n _p_p=2)".toList
    ∧ Expr.parse? "dict(a=1, # first\n p=2)".toList
      = some (.call (.name "dict") [] [("a", .constant (.int 1)), ("p", .constant (.int 2))])
    ∧ Expr.parse? "dict(a=1, # first\n _p_p=2)".toList
      = some (.call (.name "dict") [] [("a", .constant (.int 1)), ("_p_p", .constant (.int 2))]) := by
  refine ⟨by decide, ?_, ?_⟩
  · cbv
  · cbv

end Arrow

end LetTag
