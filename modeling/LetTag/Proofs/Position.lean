/-
  Lines that stay inside a function.

  A function ends where a line of the script begins at its left edge, unless that line is no line of
  its own: brackets or a literal may be open there.  `Position` is a scan of the text, character by
  character, that knows as much, and `keepsLines` says with it that every line is blank, begins with
  a margin, or goes on with something open.

  The reader of tokens works with longer steps.  Each token takes the scan from code to code, with as
  many brackets open as the reader counts (`after_token`), so between two tokens both agree.
-/
import LetTag.Proofs.Marking

namespace LetTag.Script

open Text

/-! ## Where a text stands between two characters -/

/-- Where a scan stands: in code with so many brackets open, in a comment, in a literal, or where
    the next character is passed over, whatever it is. -/
inductive Position where
  | code (depth : Nat)
  | comment (depth : Nat)
  | literal (depth : Nat) (quote : Char) (long : Bool)
  | passing (next : Position)
  deriving DecidableEq, Repr

namespace Position

/-- Where the scan stands after `c`, which `rest` follows.  Three quotes open and close a literal that
    may hold line ends; any other literal ends with its line. -/
def next : Position → Char → List Char → Position
  | code depth, c, rest =>
    if c = '#' then comment depth
    else if c = '\\' then passing (code depth)
    else if Quoting.isQuote c then
      if [c, c].isPrefixOf rest then passing (passing (literal depth c true))
      else literal depth c false
    else if isOpener c then code (depth + 1)
    else if isCloser c then code (depth - 1)
    else code depth
  | comment depth, c, _ => if c = '\n' then code depth else comment depth
  | literal depth quote long, c, rest =>
    if c = '\\' then passing (literal depth quote long)
    else if (closingQuotes quote long).isPrefixOf (c :: rest) then
      if long then passing (passing (code depth)) else code depth
    else if c = '\n' ∧ long = false then code depth
    else literal depth quote long
  | passing p, _, _ => p

/-- Is a bracket or a literal open? -/
def isOpen : Position → Bool
  | code depth | comment depth => depth > 0
  | literal _ _ _ => true
  | passing p => p.isOpen

/-- Where the scan stands behind `u`, which `rest` follows. -/
def after : Position → List Char → List Char → Position
  | p, [], _ => p
  | p, c :: u, rest => (p.next c (u ++ rest)).after u rest

/-- A position goes along two texts one behind the other. -/
theorem after_append (p : Position) (u v rest : List Char) :
    p.after (u ++ v) rest = (p.after u (v ++ rest)).after v rest := by
  induction u generalizing p with
  | nil => rfl
  | cons c u ih =>
    show ((p.next c (u ++ v ++ rest)).after (u ++ v) rest) = _
    rw [ih, List.append_assoc]
    rfl

end Position

/-- Is the line blank, or does it begin with the margin of a body? -/
def isInside (line : List Char) : Bool :=
  allBlank line || Arrow.margin.isPrefixOf line

/-- Is the line that begins here inside? -/
def startsInside (s : List Char) : Bool :=
  isInside (s.takeWhile (!isBreak ·))

/-- Does each line that begins behind a line break stay inside, or go on with something open? -/
def keepsLines : Position → List Char → Bool
  | _, [] => true
  | p, c :: rest =>
    (!isBreak c || (p.next c rest).isOpen || startsInside rest) && keepsLines (p.next c rest) rest

/-- Lines are kept if the next one starts inside, unless something is open there. -/
theorem keepsLines_cons {p : Position} {c : Char} {rest : List Char} :
    keepsLines p (c :: rest) = true ↔ (isBreak c = true → (p.next c rest).isOpen = false →
      startsInside rest = true) ∧ keepsLines (p.next c rest) rest = true := by
  rw [keepsLines, Bool.and_eq_true]
  refine and_congr_left fun _ => ?_
  cases isBreak c <;> cases (p.next c rest).isOpen <;> simp

/-- What holds of the lines of a text holds of those behind any part of it. -/
theorem keepsLines_after {u rest : List Char} : ∀ {p : Position},
    keepsLines p (u ++ rest) = true → keepsLines (p.after u rest) rest = true := by
  induction u with
  | nil => exact fun h => h
  | cons c u ih => exact fun h => ih (keepsLines_cons.mp h).2

/-- A part without line breaks does not matter but for where it leaves the scan. -/
theorem keepsLines_append {u : List Char} (hu : ∀ c ∈ u, isBreak c = false) (rest : List Char) :
    ∀ p : Position, keepsLines p (u ++ rest) = keepsLines (p.after u rest) rest := by
  induction u with
  | nil => exact fun _ => rfl
  | cons c u ih =>
    intro p
    obtain ⟨hc, hu⟩ := List.forall_mem_cons.mp hu
    rw [List.cons_append, keepsLines, hc, ih hu]
    rfl

/-! ## Tokens -/

namespace Position

/-- The characters of code that open, close or end something. -/
def marks : List Char :=
  ['#', '\\', '\'', '"', '(', ')', '[', ']', '{', '}']

theorem next_of_notMem {c : Char} (hc : c ∉ marks) (depth : Nat) (rest : List Char) :
    (code depth).next c rest = code depth := by
  simp only [marks, List.mem_cons, List.not_mem_nil, or_false, not_or] at hc
  simp [next, Quoting.isQuote, isOpener, isCloser, hc]

theorem after_of_notMem {u : List Char} (hu : ∀ c ∈ u, c ∉ marks) (depth : Nat)
    (rest : List Char) : (code depth).after u rest = code depth := by
  induction u with
  | nil => rfl
  | cons c u ih =>
    obtain ⟨hc, hu⟩ := List.forall_mem_cons.mp hu
    rw [after, next_of_notMem hc, ih hu]

theorem notMem_of_isWordTail {c : Char} (h : isWordTail c = true) : c ∉ marks := by
  intro hc
  have hmarks : ∀ c ∈ marks, isWordTail c = false := by decide
  rw [hmarks c hc] at h
  cases h

/-- Quotes are neither backslashes nor the start of comments. -/
theorem ne_of_isQuote {q : Char} (hq : Quoting.isQuote q = true) : q ≠ '#' ∧ q ≠ '\\' := by
  constructor
  · rintro rfl
    cases hq
  · rintro rfl
    cases hq

/-- The closing quotes end a literal. -/
theorem after_closingQuotes {q : Char} (hq : Quoting.isQuote q = true) (depth : Nat) (long : Bool)
    (behind : List Char) :
    (literal depth q long).after (closingQuotes q long) behind = code depth := by
  have hescape := (ne_of_isQuote hq).2
  cases long with
  | true =>
    have hstep : (literal depth q true).next q ([q, q] ++ behind)
        = passing (passing (code depth)) := by
      rw [next, if_neg hescape, if_pos]
      · rfl
      · exact List.isPrefixOf_iff_prefix.mpr ⟨behind, rfl⟩
    show ((literal depth q true).next q ([q, q] ++ behind)).after [q, q] behind = _
    rw [hstep]
    rfl
  | false =>
    show (literal depth q false).next q behind = _
    rw [next, if_neg hescape, if_pos]
    · rfl
    · exact List.isPrefixOf_iff_prefix.mpr ⟨behind, rfl⟩

/-- A literal is read to its closing quotes. -/
theorem after_untilClosed {q : Char} {long : Bool} (hq : Quoting.isQuote q = true) (depth : Nat)
    (cs : List Char) : ∀ {content rest : List Char},
    untilClosed (closingQuotes q long) long cs = some (content, rest) → ∃ u, cs = u ++ rest
      ∧ (literal depth q long).after u rest = code depth := by
  have hescape := (ne_of_isQuote hq).2
  induction cs using untilClosed.induct (closingQuotes q long) long with
  | case1 =>
    intro content rest h
    cases h
  | case2 c tail ih =>
    intro content rest h
    rw [untilClosed_escape] at h
    obtain ⟨⟨inner, behind⟩, hinner, he⟩ := Option.map_eq_some_iff.mp h
    cases he
    obtain ⟨u, rfl, hu⟩ := ih hinner
    exact ⟨'\\' :: c :: u, rfl, hu⟩
  | case3 c tail hne hprefix =>
    intro content rest h
    -- the closing quotes
    obtain ⟨more, hquotes⟩ := closingQuotes_cons q long
    have hc : c ≠ '\\' := by
      rintro rfl
      rw [hquotes, List.isPrefixOf_cons_cons, Bool.and_eq_true] at hprefix
      exact hescape (eq_of_beq hprefix.1)
    rw [untilClosed_plain hc, if_pos hprefix] at h
    cases h
    obtain ⟨behind, hbehind⟩ := List.isPrefixOf_iff_prefix.mp hprefix
    rw [← hbehind, List.drop_left]
    exact ⟨closingQuotes q long, rfl, after_closingQuotes hq depth long behind⟩
  | case4 c tail hne hprefix hfeed =>
    intro content rest h
    have hc : c ≠ '\\' := by
      rintro rfl
      cases hfeed
    rw [untilClosed_plain hc, if_neg hprefix, if_pos hfeed] at h
    cases h
  | case5 c tail hne hprefix hfeed ih =>
    intro content rest h
    by_cases hc : c = '\\'
    · -- a backslash at the end
      subst hc
      cases tail with
      | nil =>
        rw [untilClosed_backslash (head?_closingQuotes q long) hescape] at h
        cases h
      | cons d tail => exact (hne d tail rfl rfl).elim
    · rw [untilClosed_plain hc, if_neg hprefix, if_neg hfeed] at h
      obtain ⟨⟨inner, behind⟩, hinner, he⟩ := Option.map_eq_some_iff.mp h
      cases he
      obtain ⟨u, rfl, hu⟩ := ih hinner
      -- a plain character; a line end only stands in a literal of three quotes
      refine ⟨c :: u, rfl, ?_⟩
      have hfeed' : ¬ (c = '\n' ∧ long = false) := by
        rintro ⟨rfl, rfl⟩
        exact hfeed rfl
      rw [after, next, if_neg hc, if_neg hprefix, if_neg hfeed']
      exact hu

/-- A quote opens a literal, which has three quotes if two more follow. -/
theorem next_quote {q : Char} (hq : Quoting.isQuote q = true) (depth : Nat) (rest : List Char) :
    (code depth).next q rest = if [q, q].isPrefixOf rest
      then passing (passing (literal depth q true)) else literal depth q false := by
  rw [next, if_neg (ne_of_isQuote hq).1, if_neg (ne_of_isQuote hq).2, if_pos hq]

/-- A literal closes what it opens, and holds brackets only as text. -/
theorem after_readLiteral {m : Marking} {q : Char} {cs rest : List Char} {t : Token}
    (hq : Quoting.isQuote q = true) (h : readLiteral m (q :: cs) = some (t, rest)) (depth : Nat) :
    depthAfter? depth t = some depth
      ∧ ∃ u, q :: cs = u ++ rest ∧ (code depth).after u rest = code depth := by
  rw [readLiteral_eq] at h
  dsimp only at h
  obtain ⟨⟨content, behind⟩, hclosed, ht⟩ := Option.bind_eq_some_iff.mp h
  obtain ⟨t, hliteral, he⟩ := Option.map_eq_some_iff.mp ht
  cases he
  obtain ⟨u, hcs, hu⟩ := after_untilClosed hq depth _ hclosed
  have hdepth : depthAfter? depth t = some depth := by
    rcases cases_of_literalToken hliteral with ⟨_, _, rfl⟩ | ⟨_, rfl⟩
    · rfl
    · rfl
  refine ⟨hdepth, ?_⟩
  cases hlong : [q, q, q].isPrefixOf (q :: cs) with
  | true =>
    rw [hlong] at hcs hu
    obtain ⟨more, rfl⟩ := (isPrefixOf_quotes q cs).mp hlong
    obtain rfl : more = u ++ behind := hcs
    refine ⟨q :: q :: q :: u, rfl, ?_⟩
    have htwo : [q, q].isPrefixOf (q :: q :: (u ++ behind)) = true :=
      List.isPrefixOf_iff_prefix.mpr ⟨u ++ behind, rfl⟩
    show ((code depth).next q (q :: q :: (u ++ behind))).after (q :: q :: u) behind = _
    rw [next_quote hq, if_pos htwo]
    exact hu
  | false =>
    rw [hlong] at hcs hu
    obtain rfl : cs = u ++ behind := hcs
    refine ⟨q :: u, rfl, ?_⟩
    have htwo : ¬ [q, q].isPrefixOf (u ++ behind) = true := by
      intro htwo
      obtain ⟨more, hmore⟩ := List.isPrefixOf_iff_prefix.mp htwo
      exact Bool.eq_false_iff.mp hlong ((isPrefixOf_quotes q _).mpr ⟨more, hmore.symm⟩)
    rw [after, next_quote hq, if_neg htwo]
    exact hu

/-- So does a word, which may be the letters of a literal. -/
theorem after_readWord {cs rest : List Char} {t : Token} (h : readWord cs = some (t, rest))
    (depth : Nat) : depthAfter? depth t = some depth
      ∧ ∃ u, cs = u ++ rest ∧ (code depth).after u rest = code depth := by
  have hsplit := List.takeWhile_append_dropWhile (p := isWordTail) (l := cs)
  have hw : ∀ c ∈ cs.takeWhile isWordTail, c ∉ marks := fun c hc =>
    notMem_of_isWordTail (List.all_eq_true.mp List.all_takeWhile c hc)
  unfold readWord at h
  dsimp only at h
  generalize cs.takeWhile isWordTail = w at hsplit hw h
  generalize cs.dropWhile isWordTail = r at hsplit h
  split at h
  · rename_i q m hquote _
    obtain ⟨hhead, hq⟩ := Option.filter_eq_some_iff.mp hquote
    obtain ⟨more, rfl⟩ := List.head?_eq_some_iff.mp hhead
    obtain ⟨hdepth, u, hu, hafter⟩ := after_readLiteral hq h depth
    refine ⟨hdepth, w ++ u, by rw [← hsplit, hu, List.append_assoc], ?_⟩
    rw [after_append, after_of_notMem hw, hafter]
  · have hrest : depthAfter? depth t = some depth ∧ rest = r := by
      split at h
      · cases h
        exact ⟨rfl, rfl⟩
      · split at h
        · cases h
          exact ⟨rfl, rfl⟩
        · cases h
    obtain ⟨hdepth, rfl⟩ := hrest
    exact ⟨hdepth, w, hsplit.symm, after_of_notMem hw depth rest⟩

/-- The brackets that a sign opens and closes are the ones that the reader counts. -/
theorem after_sign {x : String} (hx : x ∈ signs) {depth next : Nat}
    (h : depthAfter? depth (.sign x) = some next) (rest : List Char) :
    (code depth).after x.toList rest = code next := by
  have hsigns : ∀ x ∈ signs, x ∈ ["(", ")", "[", "]", "\x7b", "\x7d"] ∨ ∀ c ∈ x.toList, c ∉ marks := by
    decide
  rcases hsigns x hx with hbracket | hplain
  · simp only [List.mem_cons, List.not_mem_nil, or_false] at hbracket
    rcases hbracket with rfl | rfl | rfl | rfl | rfl | rfl
    all_goals
      obtain ⟨_, hnext⟩ := Option.ite_none_left_eq_some.mp h
      rw [← Option.some.inj hnext]
      rfl
  · rw [after_of_notMem hplain]
    have hsame : depthAfter? depth (.sign x) = some depth := by
      have hne : ∀ y : String, y ∈ ["(", ")", "[", "]", "\x7b", "\x7d"] → x ≠ y := by
        rintro y hy rfl
        have hmem : ∀ y ∈ ["(", ")", "[", "]", "\x7b", "\x7d"], ¬ ∀ c ∈ y.toList, c ∉ marks := by
          decide
        exact hmem x hy hplain
      unfold depthAfter?
      split
      all_goals first | rfl | (rename_i he; cases he; exact absurd rfl (hne _ (by decide)))
    rw [hsame] at h
    rw [Option.some.inj h]

/-- **A token** takes the scan from code to code, and the brackets that are then open are those that
    the reader counts. -/
theorem after_token {cs rest : List Char} {t : Token} (h : readToken cs = some (t, rest))
    {depth next : Nat} (hdepth : depthAfter? depth t = some next) :
    ∃ u, cs = u ++ rest ∧ (code depth).after u rest = code next := by
  cases cs with
  | nil => cases h
  | cons c cs =>
    rw [readToken_cons] at h
    split at h
    · -- a number
      rename_i hstart
      obtain ⟨⟨s, behind⟩, hnumber, he⟩ := Option.map_eq_some_iff.mp h
      cases he
      have hcs : (c :: cs).head?.any Char.isDigit = true ∨ (c :: cs).head? = some '.' := by
        rcases Bool.or_eq_true_iff.mp hstart with hc | hc
        · exact Or.inl hc
        · exact Or.inr (congrArg some (eq_of_beq (Bool.and_eq_true_iff.mp hc).1))
      obtain ⟨v, hv, hnumeral, -⟩ := readNumber_spec hcs hnumber
      have hplain : ∀ d ∈ v, d ∉ marks := by
        intro d hd hmark
        have hmarks : ∀ c ∈ marks, Arrow.inNumeral c = false := by decide
        have hin := Arrow.inNumeral_of_mem hnumeral d hd
        rw [hmarks d hmark] at hin
        cases hin
      rw [← Option.some.inj hdepth]
      exact ⟨v, hv, after_of_notMem hplain depth _⟩
    · split at h
      · -- a literal without letters
        rename_i hq
        obtain ⟨hsame, hu⟩ := after_readLiteral hq h depth
        rw [← Option.some.inj (hsame.symm.trans hdepth)]
        exact hu
      · split at h
        · -- a word
          obtain ⟨hsame, hu⟩ := after_readWord h depth
          rw [← Option.some.inj (hsame.symm.trans hdepth)]
          exact hu
        · -- a sign
          obtain ⟨⟨x, behind⟩, hsign, he⟩ := Option.map_eq_some_iff.mp h
          cases he
          obtain ⟨hx, hcs, -⟩ := readSign_spec hsign
          exact ⟨x.toList, hcs, after_sign hx hdepth behind⟩

end Position
end LetTag.Script
