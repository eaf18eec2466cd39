/-
  Blocks and the lines that keep them open.

  The reader closes the block of a function at the first line with no indentation, unless that line is
  blank, a comment, or goes on with something open.  So where all lines stay inside (`keepsLines`), the
  tokens of a body open one block and close it with the last token (`tokens_inside`), and the program
  has no statement behind its function (`trailing_of_staysInside`).

  What the induction carries is the stack of open blocks: widths, all of them positive, on top of the
  one of the left edge.
-/
import LetTag.Proofs.Enclosure
import LetTag.Proofs.MarkedText
import LetTag.Proofs.Position

namespace LetTag.Script

open Text Position

/-! ## Blanks -/

/-- A line break is a blank. -/
theorem isBlank_of_isBreak {c : Char} (h : isBreak c = true) : isBlank c = true := by
  unfold isBreak at h
  dsimp only at h
  simp only [Bool.or_eq_true, Bool.and_eq_true, decide_eq_true_eq, beq_iff_eq] at h
  simp only [isBlank, inRanges, blankTable, List.any_cons, List.any_nil, Bool.or_eq_true,
    Bool.and_eq_true, decide_eq_true_eq]
  omega

/-- No name begins with a blank. -/
theorem isNameStart_of_isBlank {c : Char} (h : isBlank c = true) : isNameStart c = false := by
  have hsmall : c.toNat < 128 → (c.isAlpha || c == '_') = false :=
    of_isBlank (p := fun c => c.toNat < 128 → (c.isAlpha || c == '_') = false) (by decide) h
  have hmark : inRanges markTable c = false :=
    inRanges_of_apart (t := blankTable) (by decide +kernel) h
  unfold isNameStart
  split
  · exact hsmall ‹_›
  · rename_i hlarge
    rw [isNamePart, if_neg hlarge, isWord_of_isBlank h, hmark]
    rfl

/-- No token begins with a blank. -/
theorem Shape.notBlank {t : Token} {c : Char} {u : List Char} (h : Shape t (c :: u)) :
    isBlank c = false := by
  refine Bool.eq_false_iff.mpr fun hc => ?_
  generalize hv : c :: u = v at h
  cases h with
  | name hname _ =>
    subst hv
    unfold isName at hname
    dsimp only at hname
    rw [isNameStart_of_isBlank hc] at hname
    cases hname
  | keyword hkeyword _ =>
    subst hv
    have hkeywords : ∀ k ∈ keywords, ∀ d ∈ k.toList, isBlank d = false := by decide
    have hblank := hkeywords _ (List.contains_iff_mem.mp hkeyword)
    rw [String.toList_ofList] at hblank
    rw [hblank c List.mem_cons_self] at hc
    cases hc
  | number hnumeral =>
    subst hv
    have hin := (Arrow.inNumeral_class (Arrow.inNumeral_of_mem hnumeral c List.mem_cons_self)).1
    rw [hin] at hc
    cases hc
  | @literal _ m letters content q long _ hmark hq _ _ =>
    cases letters with
    | nil =>
      obtain ⟨more, hquotes⟩ := closingQuotes_cons q long
      rw [hquotes] at hv
      obtain rfl : c = q := (List.cons.inj hv).1
      rw [(Arrow.isQuote_class hq).1] at hc
      cases hc
    | cons d letters =>
      obtain rfl : c = d := (List.cons.inj hv).1
      have hword := Arrow.isWord_of_marking? hmark c List.mem_cons_self
      rw [isWord_of_isBlank hc] at hword
      cases hword
  | @sign x hx =>
    have hin : c ∈ x.toList := hv ▸ List.mem_cons_self
    rw [(Arrow.sign_class x hx c hin).1] at hc
    cases hc

/-- Only the starts and ends of lines open or close a block. -/
theorem Shape.notBlock {t : Token} {u : List Char} (h : Shape t u) : t.isBlock = false := by
  cases h with
  | literal _ _ _ _ hliteral =>
    rcases cases_of_literalToken hliteral with ⟨_, _, rfl⟩ | ⟨_, rfl⟩
    · rfl
    · rfl
  | name _ _ => rfl
  | keyword _ _ => rfl
  | number _ => rfl
  | sign _ => rfl

theorem readToken_of_isBlank {c : Char} (hc : isBlank c = true) (rest : List Char) :
    readToken (c :: rest) = none := by
  cases h : readToken (c :: rest) with
  | none => rfl
  | some found =>
    obtain ⟨t, after⟩ := found
    obtain ⟨u, hu, htakes⟩ := readToken_spec h
    cases u with
    | nil => exact absurd rfl htakes.nonempty
    | cons d u =>
      obtain rfl : c = d := (List.cons.inj hu).1
      rw [htakes.shape.notBlank] at hc
      cases hc

/-- The characters that may stand between the tokens of a line. -/
def isSpacing (c : Char) : Bool :=
  c == ' ' || c == '\t' || c == '\x0c' || c == '\n'

/-- The reader stops at any other blank. -/
theorem tokensFrom_of_isBlank {c : Char} (hc : isBlank c = true) (hspace : isSpacing c = false)
    (n : Nat) (blocks : List Width) (depth : Nat) (rest : List Char) :
    tokensFrom n false blocks depth (c :: rest) = none := by
  simp only [isSpacing, Bool.or_eq_false_iff, beq_eq_false_iff_ne] at hspace
  obtain ⟨⟨⟨hblank, htab⟩, hfeed⟩, hline⟩ := hspace
  have hplain := plain_of_isBlank hc
  simp only [List.mem_cons, List.not_mem_nil, or_false, not_or] at hplain
  have hsharp : c ≠ '#' := by
    rintro rfl
    exact absurd hc (by decide)
  cases n with
  | zero => rfl
  | succ n =>
    rw [tokensFrom]
    · rw [readToken_of_isBlank hc]
      rfl
    all_goals simp_all

/-! ## The start of a line -/

/-- A text that starts inside starts with a blank. -/
theorem startsInside_cons {c : Char} {rest : List Char} (h : startsInside (c :: rest) = true) :
    isBlank c = true := by
  unfold startsInside isInside at h
  by_cases hc : isBreak c = true
  · exact isBlank_of_isBreak hc
  · rw [List.takeWhile_cons_of_pos (by simpa using hc), Bool.or_eq_true] at h
    rcases h with h | h
    · exact (Bool.and_eq_true_iff.mp h).1
    · rw [Arrow.margin, List.isPrefixOf_cons_cons, Bool.and_eq_true] at h
      rw [← eq_of_beq h.1]
      decide

/-- Behind its indentation a line that stays inside is over, or has a blank of another kind next. -/
theorem first_of_startsInside {c : Char} {rest : List Char} (h : startsInside (c :: rest) = true)
    (hne : c ≠ ' ' ∧ c ≠ '\t' ∧ c ≠ '\x0c') :
    isBlank c = true ∧ (c = '\n' ∨ isSpacing c = false) := by
  refine ⟨startsInside_cons h, ?_⟩
  by_cases hline : c = '\n'
  · exact Or.inl hline
  · exact Or.inr (by simp [isSpacing, hne, hline])

/-- The blanks at the start of a line that stays inside are its indentation, or all of the line but
    blanks of other kinds. -/
theorem measureFrom_inside (held w : Width) (cs : List Char) : ∀ {w' : Width} {rest : List Char},
    measureFrom held w cs = some (w', rest) → keepsLines (code 0) cs = true →
    (0 < held.wide ∨ 0 < w.wide ∨ startsInside cs = true) → keepsLines (code 0) rest = true
      ∧ (0 < w'.wide ∨ ∀ c tail, rest = c :: tail →
        isBlank c = true ∧ (c = '\n' ∨ isSpacing c = false)) := by
  induction held, w, cs using measureFrom.induct with
  | case1 held w rest ih =>
    intro w' after h hkeeps _
    exact ih h (keepsLines_cons.mp hkeeps).2 (Or.inr (Or.inl (Nat.succ_pos _)))
  | case2 held w rest ih =>
    intro w' after h hkeeps _
    refine ih h (keepsLines_cons.mp hkeeps).2 (Or.inr (Or.inl ?_))
    dsimp only
    omega
  | case3 held w rest ih =>
    -- a form feed starts a line, and the width over
    intro w' after h hkeeps hinside
    obtain ⟨hline, hrest⟩ := keepsLines_cons.mp hkeeps
    exact ih h hrest (Or.inr (Or.inr (hline (by decide) rfl)))
  | case4 held w after hempty =>
    intro w' rest h
    rw [measureFrom, if_pos hempty] at h
    cases h
  | case5 held w after hempty ih =>
    intro w' rest h hkeeps _
    rw [measureFrom, if_neg hempty] at h
    obtain ⟨hline, hafter⟩ := keepsLines_cons.mp (keepsLines_cons.mp hkeeps).2
    exact ih h hafter (Or.inr (Or.inr (hline (by decide) rfl)))
  | case6 held w rest hrest =>
    intro w' after h
    rw [measureFrom] at h
    · cases h
    · exact hrest
  | case7 held w cs hspace htab hfeed hbackslash =>
    intro w' rest h hkeeps hinside
    rw [measureFrom] at h
    · cases h
      refine ⟨hkeeps, ?_⟩
      by_cases hheld : held.wide = 0
      · rw [if_pos hheld]
        rcases hinside with hpos | hpos | hinside
        · omega
        · exact Or.inl hpos
        · right
          rintro c tail rfl
          exact first_of_startsInside hinside ⟨fun he => hspace tail (by rw [he]),
            fun he => htab tail (by rw [he]), fun he => hfeed tail (by rw [he])⟩
      · rw [if_neg hheld]
        exact Or.inl (Nat.pos_of_ne_zero hheld)
    · exact hspace
    · exact htab
    · exact hfeed
    · exact hbackslash

/-! ## The stack of blocks -/

/-- The left edge of a script. -/
def edge : Width :=
  ⟨0, 0⟩

/-- A stack of blocks on top of the left edge. -/
def Stacked (inner : List Width) : Prop :=
  ∀ v ∈ inner, 0 < v.wide

/-- The tokens of a body in front of a line: none any more, or they open the one block that all are
    inside of, unless blocks are open already. -/
def Opens : Nat → List Token → Prop
  | 0, ts => ts = [] ∨ ∃ us, ts = .indent :: us ∧ Inside 1 us
  | depth + 1, ts => Inside (depth + 1) ts

/-- Blocks are closed one by one. -/
theorem Inside.dedents {depth : Nat} {ts : List Token} (hpos : 0 < depth) (h : Inside depth ts)
    (count : Nat) : Inside (count + depth) (List.replicate count .dedent ++ ts) := by
  induction count with
  | zero =>
    rw [Nat.zero_add]
    exact h
  | succ count ih =>
    obtain ⟨below, hbelow⟩ : ∃ below, count + depth = below + 1 := ⟨count + depth - 1, by omega⟩
    have hdepth : count + 1 + depth = below + 2 := by omega
    rw [hbelow] at ih
    rw [hdepth]
    exact .dedent ih

/-- All blocks end with the text. -/
theorem Inside.all_dedents (depth : Nat) :
    Inside (depth + 1) (List.replicate (depth + 1) .dedent) := by
  have h := Inside.last.dedents Nat.one_pos depth
  rw [← List.replicate_succ'] at h
  exact h

/-- A line that is inside closes blocks, but not the outermost of them. -/
theorem closing_inside {w : Width} (hw : 0 < w.wide) (outer : List Width) :
    ∀ {ts : List Token} {blocks : List Width},
    blockTokens.closing w (outer ++ [edge]) = some (ts, blocks) → ∃ dropped inner,
      outer = dropped ++ inner ∧ blocks = inner ++ [edge] ∧ inner ≠ []
        ∧ ts = List.replicate dropped.length .dedent := by
  induction outer with
  | nil =>
    intro ts blocks h
    have hne : w.wide ≠ edge.wide := Nat.ne_of_gt hw
    have hgt : w.wide > edge.wide := hw
    rw [List.nil_append, blockTokens.closing, if_neg hne, if_pos hgt] at h
    cases h
  | cons v outer ih =>
    intro ts blocks h
    rw [List.cons_append, blockTokens.closing] at h
    split at h
    · obtain ⟨-, h⟩ := Option.ite_none_right_eq_some.mp h
      cases h
      exact ⟨[], v :: outer, rfl, rfl, List.cons_ne_nil v outer, rfl⟩
    · obtain ⟨-, h⟩ := Option.ite_none_left_eq_some.mp h
      obtain ⟨⟨us, ws⟩, hclosing, h⟩ := Option.bind_eq_some_iff.mp h
      cases h
      obtain ⟨dropped, inner, rfl, rfl, hne, rfl⟩ := ih hclosing
      exact ⟨v :: dropped, inner, rfl, rfl, hne, rfl⟩

/-- A line with an indentation leaves blocks open, and its tokens keep to the outermost of them. -/
theorem blockTokens_inside {w : Width} (hw : 0 < w.wide) {inner : List Width} (hinner : Stacked inner)
    {ts : List Token} {blocks : List Width}
    (h : blockTokens w (inner ++ [edge]) = some (ts, blocks)) : ∃ inner',
      blocks = inner' ++ [edge] ∧ 0 < inner'.length ∧ Stacked inner'
        ∧ ∀ us, Inside inner'.length us → Opens inner.length (ts ++ us) := by
  cases inner with
  | nil =>
    have hne : w.wide ≠ edge.wide := Nat.ne_of_gt hw
    have hgt : w.wide > edge.wide := hw
    rw [List.nil_append, blockTokens, if_neg hne, if_pos hgt] at h
    obtain ⟨-, h⟩ := Option.ite_none_left_eq_some.mp h
    cases h
    refine ⟨[w], rfl, Nat.one_pos, fun v hv => ?_, fun us hus => Or.inr ⟨us, rfl, hus⟩⟩
    rw [List.mem_singleton.mp hv]
    exact hw
  | cons v outer =>
    rw [List.cons_append, blockTokens] at h
    split at h
    · obtain ⟨-, h⟩ := Option.ite_none_right_eq_some.mp h
      cases h
      exact ⟨v :: outer, rfl, Nat.succ_pos _, hinner, fun us hus => hus⟩
    · split at h
      · obtain ⟨-, h⟩ := Option.ite_none_left_eq_some.mp h
        cases h
        refine ⟨w :: v :: outer, rfl, Nat.succ_pos _, ?_, fun us hus => .indent hus⟩
        exact List.forall_mem_cons.mpr ⟨hw, hinner⟩
      · obtain ⟨⟨us, ws⟩, hclosing, h⟩ := Option.bind_eq_some_iff.mp h
        cases h
        obtain ⟨dropped, inner, rfl, rfl, hne, rfl⟩ := closing_inside hw outer hclosing
        have hpos := List.length_pos_iff.mpr hne
        have hstacked : Stacked inner := fun u hu =>
          hinner u (List.mem_cons_of_mem v (List.mem_append_right dropped hu))
        refine ⟨inner, rfl, hpos, hstacked, fun us hus => ?_⟩
        have hdedents := hus.dedents hpos (dropped.length + 1)
        rw [List.length_cons, List.length_append]
        rw [Nat.add_right_comm] at hdedents
        exact hdedents

/-! ## The tokens of a body -/

/-- A comment ends where its line does. -/
theorem skipComment_head {cs rest : List Char} {c : Char} (h : skipComment cs = c :: rest) :
    c = '\n' := by
  have hnot := List.head?_dropWhile_not (· ≠ '\n') cs
  unfold skipComment at h
  rw [h] at hnot
  simpa using hnot

/-- Behind a comment the scan is in code again. -/
theorem keepsLines_comment {depth : Nat} (cs : List Char) :
    keepsLines (comment depth) cs = true → keepsLines (code depth) (skipComment cs) = true := by
  unfold skipComment
  induction cs with
  | nil => exact fun h => h
  | cons c cs ih =>
    intro h
    by_cases hc : c = '\n'
    · subst hc
      exact h
    · have hnext : (comment depth).next c cs = comment depth := if_neg hc
      rw [List.dropWhile_cons_of_pos (by simpa using hc)]
      exact ih (hnext ▸ (keepsLines_cons.mp h).2)

/-- All blocks on the stack are closed where the text ends. -/
theorem opens_dedents (inner : List Width) :
    Opens inner.length (((inner ++ [edge]).drop 1).map fun _ => .dedent) := by
  cases inner with
  | nil => exact Or.inl rfl
  | cons v inner =>
    have hmap : ((v :: inner ++ [edge]).drop 1).map (fun _ => Token.dedent)
        = List.replicate (inner.length + 1) .dedent := by
      rw [List.map_const', List.cons_append, List.drop_one, List.tail_cons, List.length_append]
      rfl
    rw [hmap]
    exact Inside.all_dedents inner.length

/-- Where blocks are open, none is opened for the body. -/
theorem Opens.inside {depth : Nat} {ts : List Token} (hpos : 0 < depth) (h : Opens depth ts) :
    Inside depth ts := by
  cases depth with
  | zero => exact absurd hpos (Nat.lt_irrefl 0)
  | succ depth => exact h

/-- A token that opens or closes no block leads on inside. -/
theorem Inside.behind {depth : Nat} {t : Token} {ts : List Token} (ht : t.isBlock = false)
    (h : Inside depth ts) : Inside depth (t :: ts) := by
  cases depth with
  | zero => cases h
  | succ depth => exact .token ht h

/-- What is read in so many steps from the start of a line that stays inside. -/
def StartInside (n : Nat) : Prop :=
  ∀ {inner : List Width} {cs : List Char} {ts : List Token}, Stacked inner → startsInside cs = true →
    keepsLines (code 0) cs = true → tokensFrom n true (inner ++ [edge]) 0 cs = some ts →
    Opens inner.length ts

/-- What is read in so many steps in a line of an open block. -/
def LineInside (n : Nat) : Prop :=
  ∀ {inner : List Width} {depth : Nat} {cs : List Char} {ts : List Token}, Stacked inner →
    0 < inner.length → keepsLines (code depth) cs = true →
    tokensFrom n false (inner ++ [edge]) depth cs = some ts → Inside inner.length ts

section

variable {n : Nat} (ihStart : StartInside n) (ihLine : LineInside n)

include ihStart ihLine

/-- The start of a line that is inside leads on inside. -/
theorem start_inside : StartInside (n + 1) := by
  intro inner cs ts hstacked hinside hkeeps h
  rw [tokensFrom] at h
  obtain ⟨⟨w, rest⟩, hmeasure, h⟩ := Option.bind_eq_some_iff.mp h
  obtain ⟨hrest, hwidth⟩ := measureFrom_inside _ _ _ hmeasure hkeeps (Or.inr (Or.inr hinside))
  dsimp only at h
  split at h
  · cases h
    exact opens_dedents inner
  · -- a line that holds a comment only
    rename_i tail
    have hcomment := keepsLines_comment tail (keepsLines_cons.mp hrest).2
    have hskip : skipComment ('#' :: tail) = skipComment tail := rfl
    rw [hskip] at h
    split at h
    · rename_i c after hbehind
      obtain rfl := skipComment_head hbehind
      rw [hbehind] at hcomment
      obtain ⟨hline, hafter⟩ := keepsLines_cons.mp hcomment
      exact ihStart hstacked (hline (by decide) rfl) hafter h
    · cases h
      exact opens_dedents inner
  · obtain ⟨hline, hafter⟩ := keepsLines_cons.mp hrest
    exact ihStart hstacked (hline (by decide) rfl) hafter h
  · rename_i hnil hcomment hfeed
    obtain ⟨⟨us, blocks⟩, hblocks, h⟩ := Option.bind_eq_some_iff.mp h
    obtain ⟨more, hmore, h⟩ := Option.bind_eq_some_iff.mp h
    cases h
    cases rest with
    | nil => exact absurd rfl hnil
    | cons c tail =>
      -- a line without indentation begins with a blank at which the reader stops
      have hpos : 0 < w.wide := by
        rcases hwidth with hpos | hblank
        · exact hpos
        · obtain ⟨hblank, hline | hspace⟩ := hblank c tail rfl
          · exact absurd (by rw [hline]) (hfeed tail)
          · rw [tokensFrom_of_isBlank hblank hspace] at hmore
            cases hmore
      obtain ⟨inner', rfl, hlength, hstacked', hopens⟩ := blockTokens_inside hpos hstacked hblocks
      exact hopens more (ihLine hstacked' hlength hrest hmore)

/-- The rest of such a line leads on inside too, up to the next one. -/
theorem line_inside : LineInside (n + 1) := by
  intro inner depth cs ts hstacked hlength hkeeps h
  rw [tokensFrom.eq_def] at h
  dsimp only at h
  split at h
  · obtain ⟨-, h⟩ := Option.ite_none_left_eq_some.mp h
    cases h
    exact ((opens_dedents inner).inside hlength).behind rfl
  · exact ihLine hstacked hlength (keepsLines_cons.mp hkeeps).2 h
  · exact ihLine hstacked hlength (keepsLines_cons.mp hkeeps).2 h
  · exact ihLine hstacked hlength (keepsLines_cons.mp hkeeps).2 h
  · rename_i tail
    exact ihLine hstacked hlength (keepsLines_comment tail (keepsLines_cons.mp hkeeps).2) h
  · obtain ⟨-, h⟩ := Option.ite_none_left_eq_some.mp h
    exact ihLine hstacked hlength (keepsLines_cons.mp (keepsLines_cons.mp hkeeps).2).2 h
  · -- the end of the line, unless brackets are open
    obtain ⟨hline, hafter⟩ := keepsLines_cons.mp hkeeps
    split at h
    · exact ihLine hstacked hlength hafter h
    · rename_i hzero
      obtain rfl : depth = 0 := by omega
      obtain ⟨us, hus, rfl⟩ := Option.map_eq_some_iff.mp h
      have hopens := ihStart hstacked (hline (by decide) rfl) hafter hus
      exact (hopens.inside hlength).behind rfl
  · obtain ⟨⟨t, rest⟩, hread, h⟩ := Option.bind_eq_some_iff.mp h
    obtain ⟨next, hdepth, h⟩ := Option.bind_eq_some_iff.mp h
    obtain ⟨us, hus, rfl⟩ := Option.map_eq_some_iff.mp h
    obtain ⟨_, -, htakes⟩ := readToken_spec hread
    obtain ⟨u, rfl, hafter⟩ := after_token hread hdepth
    have hrest := keepsLines_after hkeeps
    rw [hafter] at hrest
    exact (ihLine hstacked hlength hrest hus).behind htakes.shape.notBlock

end

/-- **The tokens of lines that stay inside** open one block and close it with the last token. -/
theorem tokens_inside (n : Nat) : StartInside n ∧ LineInside n := by
  induction n with
  | zero => exact ⟨fun _ _ _ h => (nomatch h), fun _ _ _ h => (nomatch h)⟩
  | succ n ih =>
    obtain ⟨ihStart, ihLine⟩ := ih
    exact ⟨start_inside ihStart ihLine, line_inside ihStart ihLine⟩

end LetTag.Script
