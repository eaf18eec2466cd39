/-
  The indentation of a block.

  A definition is shifted when the same margin is put in front of each of its lines but the first
  (`shift`).  A shifted text is read like the text itself: blanks stay blanks, no literal goes over a line,
  and behind a line feed the margin leaves a reading where it stood (`weaveFrom_shift`).  So the marked
  block is shifted as the block was, and its lines have the margin in common, which the layout takes away
  again (`dedent_shifted`).
-/
import LetTag.Proofs.Accord
import LetTag.Proofs.KeptText

namespace LetTag.Text

/-! ## Shifted texts -/

/-- The text with `w` in front of each line but the first. -/
def shift (w s : List Char) : List Char :=
  s.flatMap fun c => if c = '\n' then '\n' :: w else [c]

section

variable {w : List Char}

theorem shift_feed (s : List Char) : shift w ('\n' :: s) = '\n' :: (w ++ shift w s) :=
  rfl

theorem shift_cons {c : Char} (hc : c ≠ '\n') (s : List Char) : shift w (c :: s) = c :: shift w s := by
  rw [shift, List.flatMap_cons, if_neg hc]
  rfl

theorem shift_append (s t : List Char) : shift w (s ++ t) = shift w s ++ shift w t :=
  List.flatMap_append

theorem shift_of_notMem {s : List Char} (h : '\n' ∉ s) : shift w s = s := by
  induction s with
  | nil => rfl
  | cons c s ih =>
    obtain ⟨hc, hs⟩ := List.ne_and_not_mem_of_not_mem_cons h
    rw [shift_cons (Ne.symm hc), ih hs]

theorem shift_eq_nil_iff {s : List Char} : shift w s = [] ↔ s = [] := by
  cases s with
  | nil => exact iff_of_true rfl rfl
  | cons c s =>
    refine iff_of_false (fun h => ?_) (List.cons_ne_nil c s)
    by_cases hc : c = '\n'
    · rw [hc, shift_feed] at h
      cases h
    · rw [shift_cons hc] at h
      cases h

/-- A character of a shifted text is one of the text or of the margin. -/
theorem mem_shift_cases {s : List Char} {c : Char} (h : c ∈ shift w s) : c ∈ s ∨ c ∈ w := by
  obtain ⟨d, hd, hc⟩ := List.mem_flatMap.mp h
  split at hc
  · rename_i hfeed
    rcases List.mem_cons.mp hc with rfl | hc
    · exact Or.inl (hfeed ▸ hd)
    · exact Or.inr hc
  · rw [List.mem_singleton.mp hc]
    exact Or.inl hd

/-! ## Beginnings of shifted texts -/

/-- What ends before the first line feed is not shifted. -/
theorem takeWhile_shift {p : Char → Bool} (hp : p '\n' = false) (s : List Char) :
    (shift w s).takeWhile p = s.takeWhile p := by
  induction s with
  | nil => rfl
  | cons c s ih =>
    by_cases hc : c = '\n'
    · subst hc
      rw [shift_feed, List.takeWhile_cons, List.takeWhile_cons, hp]
      rfl
    · rw [shift_cons hc, List.takeWhile_cons, List.takeWhile_cons, ih]

/-- What is behind a run of characters that ends before a line feed is shifted as the text is. -/
theorem dropWhile_shift {p : Char → Bool} (hp : p '\n' = false) (s : List Char) :
    (shift w s).dropWhile p = shift w (s.dropWhile p) := by
  induction s with
  | nil => rfl
  | cons c s ih =>
    by_cases hc : c = '\n'
    · subst hc
      rw [shift_feed, List.dropWhile_cons, List.dropWhile_cons, hp]
      rfl
    · rw [shift_cons hc, List.dropWhile_cons, List.dropWhile_cons, ih]
      split
      · rfl
      · exact (shift_cons hc s).symm

end

section

variable {w : List Char} (hw : ∀ c ∈ w, isMargin c = true)

theorem isBlank_of_isMargin {c : Char} (h : isMargin c = true) : isBlank c = true := by
  rcases Bool.or_eq_true_iff.mp h with hc | hc
  · rw [eq_of_beq hc]
    decide
  · rw [eq_of_beq hc]
    decide

include hw

theorem isBlank_shift {s : List Char} (h : ∀ c ∈ s, isBlank c = true) :
    ∀ c ∈ shift w s, isBlank c = true := by
  intro c hc
  rcases mem_shift_cases hc with hc | hc
  · exact h c hc
  · exact isBlank_of_isMargin (hw c hc)

/-! ## Trimming -/

/-- Blanks in front are taken away with the margins among them. -/
theorem trimLeft_shift (s : List Char) : trimLeft (shift w s) = shift w (trimLeft s) := by
  obtain ⟨front, hs, hfront, hhead⟩ := trimLeft_between s
  have hstays : trimLeft (shift w (trimLeft s)) = shift w (trimLeft s) := by
    cases hleft : trimLeft s with
    | nil => rfl
    | cons c t =>
      rw [hleft] at hhead
      have hc : c ≠ '\n' := by
        rintro rfl
        exact absurd (hhead '\n' rfl) (by decide)
      rw [shift_cons hc, trimLeft_of_head (hhead c rfl)]
  conv => lhs; rw [hs, shift_append, trimLeft_append (isBlank_shift hw hfront)]
  exact hstays

theorem trimRight_shift (s : List Char) : trimRight (shift w s) = shift w (trimRight s) := by
  obtain ⟨back, hs, hback, hlast⟩ := trimRight_between s
  have hstays : trimRight (shift w (trimRight s)) = shift w (trimRight s) := by
    rcases List.eq_nil_or_concat (trimRight s) with hnil | ⟨init, c, hinit⟩
    · rw [hnil]
      rfl
    · rw [hinit, List.concat_eq_append] at hlast ⊢
      have hblank := hlast c List.getLast?_concat
      have hc : c ≠ '\n' := by
        rintro rfl
        exact absurd hblank (by decide)
      rw [shift_append, shift_cons hc]
      exact trimRight_behind _ hblank []
  conv => lhs; rw [hs, shift_append, trimRight_append _ (isBlank_shift hw hback)]
  exact hstays

theorem trim_shift (s : List Char) : trim (shift w s) = shift w (trim s) := by
  rw [trim, trimLeft_shift hw, trimRight_shift hw, trim]

end

/-! ## Pieces and lines of shifted texts -/

section

variable {w : List Char}

/-- A text without the separator is put in front of the first piece. -/
theorem cut_append_left {sep : Char} {u : List Char} (h : sep ∉ u) (t : List Char) :
    cut sep (u ++ t) = u.foldr extendFirst (cut sep t) := by
  induction u with
  | nil => rfl
  | cons c u ih =>
    obtain ⟨hc, hu⟩ := List.ne_and_not_mem_of_not_mem_cons h
    rw [List.cons_append, cut, if_neg (Ne.symm hc), ih hu]
    rfl

/-- A change of all pieces that leaves their first characters alone may come before or behind. -/
theorem extendFirst_map (c : Char) {f : List Char → List Char} {pieces : List (List Char)}
    (hc : ∀ s, f (c :: s) = c :: f s) (hne : pieces ≠ []) :
    (extendFirst c pieces).map f = extendFirst c (pieces.map f) := by
  cases pieces with
  | nil => exact absurd rfl hne
  | cons piece pieces => exact congrArg (· :: pieces.map f) (hc piece)

/-- The pieces of a shifted text are shifted, if no line feed separates them. -/
theorem cut_shift {sep : Char} (hsep : sep ≠ '\n') (hw : sep ∉ w) (s : List Char) :
    cut sep (shift w s) = (cut sep s).map (shift w) := by
  induction s with
  | nil => rfl
  | cons c s ih =>
    by_cases hfeed : c = '\n'
    · subst hfeed
      obtain ⟨piece, pieces, hpieces⟩ := List.exists_cons_of_ne_nil (cut_ne_nil sep s)
      rw [shift_feed, ← List.cons_append, cut_append_left, ih, cut, if_neg (Ne.symm hsep), hpieces,
        List.map_cons, foldr_extendFirst]
      · rfl
      · rw [List.mem_cons, not_or]
        exact ⟨hsep, hw⟩
    · rw [shift_cons hfeed, cut, cut]
      split
      · rw [ih]
        rfl
      · rw [ih, extendFirst_map c (shift_cons hfeed) (cut_ne_nil sep s)]

/-- The lines of a shifted text but the first have the margin in front of them. -/
theorem cut_feed_shift (hw : '\n' ∉ w) (s : List Char) : ∀ {first : List Char}
    {rest : List (List Char)}, cut '\n' s = first :: rest →
      cut '\n' (shift w s) = first :: rest.map (w ++ ·) := by
  induction s with
  | nil =>
    rintro first rest h
    cases h
    rfl
  | cons c s ih =>
    intro first rest h
    obtain ⟨line, lines, hlines⟩ := List.exists_cons_of_ne_nil (cut_ne_nil '\n' s)
    rw [cut, hlines] at h
    by_cases hfeed : c = '\n'
    · rw [if_pos hfeed] at h
      cases h
      rw [hfeed, shift_feed, cut, if_pos rfl, cut_append_left hw, ih hlines, foldr_extendFirst]
      rfl
    · rw [if_neg hfeed] at h
      cases h
      rw [shift_cons hfeed, cut, if_neg hfeed, ih hlines]
      rfl

/-- Pieces without the separator are cut where they were joined. -/
theorem cut_join {sep : Char} {pieces : List (List Char)} (hne : pieces ≠ [])
    (h : ∀ p ∈ pieces, sep ∉ p) : cut sep (join [sep] pieces) = pieces := by
  induction pieces with
  | nil => exact absurd rfl hne
  | cons p ps ih =>
    obtain ⟨hp, hps⟩ := List.forall_mem_cons.mp h
    cases ps with
    | nil => rw [join_singleton, cut_of_notMem hp]
    | cons q qs =>
      rw [join_cons_cons]
      exact (cut_append hp _).trans (congrArg (p :: ·) (ih (List.cons_ne_nil q qs) hps))

end

/-! ## Margins in common -/

section

variable {w : List Char}

/-- A common front is a part of what two texts have in common. -/
theorem commonStart_append (w a b : List Char) :
    commonStart (w ++ a) (w ++ b) = w ++ commonStart a b := by
  induction w with
  | nil => rfl
  | cons c w ih =>
    rw [List.cons_append, List.cons_append, commonStart, if_pos rfl, ih]
    rfl

theorem foldl_commonStart_append (ms : List (List Char)) : ∀ m : List Char,
    (ms.map (w ++ ·)).foldl commonStart (w ++ m) = w ++ ms.foldl commonStart m := by
  induction ms with
  | nil => exact fun _ => rfl
  | cons n ms ih =>
    intro m
    rw [List.map_cons, List.foldl_cons, List.foldl_cons, commonStart_append, ih]

variable (hw : ∀ c ∈ w, isMargin c = true)
include hw

/-- A line is all margin exactly if it is behind a margin. -/
theorem all_margin_append (l : List Char) : (w ++ l).all isMargin = l.all isMargin := by
  rw [List.all_append, List.all_eq_true.mpr hw, Bool.true_and]

/-- What lines have in common grows by what is put in front of all of them, if they are not all made
    of margin. -/
theorem commonMargin_map {ls : List (List Char)} {l : List Char} (hl : l ∈ ls)
    (hm : l.all isMargin = false) : commonMargin (ls.map (w ++ ·)) = w ++ commonMargin ls := by
  have hmargins : ((ls.map (w ++ ·)).filter fun l => !l.all isMargin).map (·.takeWhile isMargin)
      = ((ls.filter fun l => !l.all isMargin).map (·.takeWhile isMargin)).map (w ++ ·) := by
    have hfilter : (fun l : List Char => !l.all isMargin) ∘ (w ++ ·) = fun l => !l.all isMargin :=
      funext fun l => congrArg (!·) (all_margin_append hw l)
    rw [List.filter_map, hfilter, List.map_map, List.map_map]
    exact List.map_congr_left fun l _ => List.takeWhile_append_of_pos hw
  have hmem : l.takeWhile isMargin
      ∈ (ls.filter fun l => !l.all isMargin).map (·.takeWhile isMargin) :=
    List.mem_map.mpr ⟨l, List.mem_filter.mpr ⟨hl, by rw [hm]; rfl⟩, rfl⟩
  unfold commonMargin
  rw [hmargins]
  cases hms : (ls.filter fun l => !l.all isMargin).map (·.takeWhile isMargin) with
  | nil =>
    rw [hms] at hmem
    exact absurd hmem List.not_mem_nil
  | cons m ms => exact foldl_commonStart_append ms m

/-- **A margin in front of all lines goes again.** -/
theorem dedent_shifted {ls : List (List Char)} (hls : ∀ l ∈ ls, '\n' ∉ l) :
    dedent (join ['\n'] (ls.map (w ++ ·))) = dedent (join ['\n'] ls) := by
  by_cases hne : ls = []
  · rw [hne]
    rfl
  · have hfeed : '\n' ∉ w := fun hm => absurd (hw _ hm) (by decide)
    have hshifted : ∀ l ∈ ls.map (w ++ ·), '\n' ∉ l := by
      intro l hl
      obtain ⟨line, hline, rfl⟩ := List.mem_map.mp hl
      exact fun hm => (List.mem_append.mp hm).elim hfeed (hls line hline)
    unfold dedent
    rw [cut_join hne hls, cut_join (mt List.map_eq_nil_iff.mp hne) hshifted]
    dsimp only
    rw [List.map_map]
    refine congrArg _ (List.map_congr_left fun l hl => ?_)
    show (if (w ++ l).all isMargin then [] else _) = _
    rw [all_margin_append hw]
    cases hm : l.all isMargin with
    | true => rfl
    | false =>
      rw [if_neg Bool.false_ne_true, if_neg Bool.false_ne_true, commonMargin_map hw hl hm,
        List.length_append]
      exact List.drop_length_add_append _

end

end LetTag.Text

namespace LetTag.Arrow

open Text Arrow.Reading

/-! ## Reading a shifted text -/

/-- What a margin character is and is not. -/
theorem isMargin_class {c : Char} (h : isMargin c = true) : isWord c = false
    ∧ Quoting.isQuote c = false ∧ joins c = false ∧ c ∉ ['\\', '\n'] := by
  rcases Bool.or_eq_true_iff.mp h with hc | hc
  · rw [eq_of_beq hc]
    decide
  · rw [eq_of_beq hc]
    decide

/-- No backslash escapes what stands behind a line feed. -/
theorem next_feed_margin {q : Quoting} (hq : q.Valid) {c : Char} (hc : isMargin c = true) :
    (q.next '\n').next c = q.next '\n' := by
  obtain ⟨-, hquote, -, hplain⟩ := isMargin_class hc
  have houtside : Quoting.next .outside c = .outside := by
    show (if Quoting.isQuote c = true then _ else _) = _
    rw [hquote]
    rfl
  match q with
  | .outside => exact houtside
  | .inside quote true =>
    have hends : ¬ (c = quote ∨ c = '\n') := by
      rintro (rfl | rfl)
      · rw [Quoting.Valid, hquote] at hq
        cases hq
      · simp at hplain
    show (if c = '\\' then _ else if c = quote ∨ c = '\n' then _ else _) = _
    rw [if_neg (by rintro rfl; simp at hplain), if_neg hends]
    rfl
  | .inside quote false =>
    have hfeed : Quoting.next (.inside quote false) '\n' = .outside := by
      simp [Quoting.next]
    rw [hfeed, houtside]

/-- The mask shows no bracket for it. -/
theorem plain_shown {c : Char} (h : isMargin c = true) (q : Quoting) :
    q.shown c ∉ "()[]\x7b\x7d".toList := by
  rcases shown_cases q c with hshown | hshown
  · rw [hshown]
    rcases Bool.or_eq_true_iff.mp h with hc | hc
    · rw [eq_of_beq hc]
      decide
    · rw [eq_of_beq hc]
      decide
  · rw [hshown]
    decide

/-- What a reading says about words does not change with a margin behind a line feed. -/
theorem Reading.Agree.next_margin {r r' : Reading} (h : r.Agree r') {c : Char}
    (hc : isMargin c = true) (hlit : r.literal = 0) (hprevious : r.previous.any joins = false)
    (hq : r.quoting.next c = r.quoting) (rest : List Char) : r.Agree (r'.next c rest) := by
  obtain ⟨-, hquote, hjoins, -⟩ := isMargin_class hc
  have hblank := isBlank_shown (isBlank_of_isMargin hc) r'.quoting
  have hlit' : ¬ r'.literal > 0 := by rw [h.literal, hlit]; exact Nat.lt_irrefl 0
  refine ⟨?_, ?_, ?_, ?_, ?_⟩
  · rw [hprevious]
    exact hjoins
  · rw [hlit]
    exact next_literal_plain hlit' (by rw [hquote]; exact Bool.false_ne_true) rest
  · show r'.quoting.next c = _
    rw [h.quoting, hq]
  · have hbrackets : (r'.next c rest).brackets = r'.brackets :=
      bracketsAfter_of_ne (plain_shown hc r'.quoting) _
    rw [hbrackets]
    exact h.brackets
  · show opensArgument (if isBlank (r'.quoting.shown c) then r'.shown else _) = _
    rw [hblank, if_pos rfl, h.shown]

/-- Closed literals end on their line. -/
theorem literal_next_le {r : Reading} {c : Char} {s : List Char} (hc : c ≠ '\n')
    (h : r.literal ≤ (firstLine (c :: s)).length) :
    (r.next c s).literal ≤ (firstLine s).length := by
  have hline : firstLine (c :: s) = c :: firstLine s :=
    List.takeWhile_cons_of_pos (by simpa using hc)
  rw [hline, List.length_cons] at h
  by_cases hlit : r.literal > 0
  · rw [next_literal_inside hlit]
    omega
  · by_cases hquote : Quoting.isQuote c = true
    · rw [next_literal_quote hlit hquote]
      exact literalLength_le_firstLine hquote s
    · rw [next_literal_plain hlit hquote]
      exact Nat.zero_le _

section

variable {w : List Char} (hw : ∀ c ∈ w, isMargin c = true)
include hw

/-- The margin is passed over before an assignment. -/
theorem assigns_maskFrom_margin {q : Quoting} (hq : ∀ c ∈ w, q.next c = q) (s : List Char) :
    assigns (maskFrom q (w ++ s)) = assigns (maskFrom q s) := by
  induction w with
  | nil => rfl
  | cons c w ih =>
    obtain ⟨hc, hw⟩ := List.forall_mem_cons.mp hw
    obtain ⟨hnext, hq⟩ := List.forall_mem_cons.mp hq
    show assigns (q.shown c :: maskFrom (q.next c) (w ++ s)) = _
    rw [assigns_blank (isBlank_shown (isBlank_of_isMargin hc) q), hnext, ih hw hq]

/-- Whether a name is assigned does not change, since margins are blank. -/
theorem assigns_maskFrom_shift (s : List Char) : ∀ {q : Quoting}, q.Valid →
    assigns (maskFrom q (shift w s)) = assigns (maskFrom q s) := by
  induction s with
  | nil => exact fun _ => rfl
  | cons c s ih =>
    intro q hq
    by_cases hfeed : c = '\n'
    · have hblank : isBlank (q.shown '\n') = true := isBlank_shown (by decide) q
      have hmargin := assigns_maskFrom_margin hw (q := q.next '\n')
        (fun c hc => next_feed_margin hq (hw c hc)) (shift w s)
      rw [hfeed, shift_feed, maskFrom, maskFrom, assigns_blank hblank, assigns_blank hblank, hmargin,
        ih (hq.next _)]
    · rw [shift_cons hfeed, maskFrom, maskFrom]
      refine assigns_cons_congr _ (ih (hq.next c)) (Eq.congr_left ?_)
      -- what comes next is the same, a line feed included
      cases s with
      | nil => rfl
      | cons d s =>
        by_cases hd : d = '\n'
        · rw [hd]
          rfl
        · rw [shift_cons hd]
          rfl

/-- A reading that stands behind a line feed stands there behind the margin, too. -/
theorem weaveFrom_margin {f : List Char → List Char} (s : List Char) {r : Reading}
    (hlit : r.literal = 0) (hprevious : r.previous.any joins = false)
    (hq : ∀ c ∈ w, r.quoting.next c = r.quoting) : ∀ {r' : Reading}, r.Agree r' →
    ∃ r'', r.Agree r'' ∧ weaveFrom f r' (w ++ s) = w ++ weaveFrom f r'' s := by
  induction w with
  | nil => exact fun {r'} h => ⟨r', h, rfl⟩
  | cons c w ih =>
    intro r' h
    obtain ⟨hc, hw⟩ := List.forall_mem_cons.mp hw
    obtain ⟨hnext, hq⟩ := List.forall_mem_cons.mp hq
    obtain ⟨r'', hagree, hrest⟩ := ih hw hq (h.next_margin hc hlit hprevious hnext (w ++ s))
    refine ⟨r'', hagree, ?_⟩
    rw [List.cons_append, weaveFrom, isFree_of_not_word (isMargin_class hc).1, hrest]
    rfl

/-- **A shifted text is marked like the text.** -/
theorem weaveFrom_shift {f : List Char → List Char} (hf : ∀ v, ∀ c ∈ f v, isWord c = true)
    (s : List Char) : ∀ {r r' : Reading}, r.Agree r' → r.quoting.Valid →
    r.literal ≤ (firstLine s).length →
    weaveFrom f r' (shift w s) = shift w (weaveFrom f r s) := by
  induction s with
  | nil => exact fun _ _ _ => rfl
  | cons c s ih =>
    intro r r' h hr hlit
    by_cases hfeed : c = '\n'
    · -- no literal goes over the line feed
      subst hfeed
      have hzero : r.literal = 0 := Nat.le_zero.mp hlit
      have hplain : (r.next '\n' s).literal = 0 := next_literal_plain (by omega) (by decide) s
      have hbehind : (r.next '\n' s).Agree (r'.next '\n' (w ++ shift w s)) :=
        h.next fun hquote => absurd hquote (by decide)
      obtain ⟨r'', hagree, hmargin⟩ := weaveFrom_margin hw (shift w s) hplain rfl
        (fun c hc => next_feed_margin hr (hw c hc)) hbehind
      have hrest := ih hagree (hr.next '\n') (by omega)
      have hword : isWord '\n' = false := by decide
      rw [shift_feed, weaveFrom, weaveFrom, isFree_of_not_word hword, isFree_of_not_word hword, hmargin,
        hrest]
      rfl
    · have hword : (shift w (c :: s)).takeWhile isWord = (c :: s).takeWhile isWord :=
        takeWhile_shift (by decide) (c :: s)
      have hfree : r'.isFree (shift w (c :: s)) = r.isFree (c :: s) := by
        refine h.isFree_eq hr hword fun {q} hq => ?_
        rw [dropWhile_shift (by decide), assigns_maskFrom_shift hw _ hq]
      have hliteral : Quoting.isQuote c = true →
          literalLength c (shift w s) = literalLength c s := by
        intro hc
        rw [← literalLength_firstLine hc, firstLine, takeWhile_shift (by decide)]
        exact literalLength_firstLine hc s
      have hrest := ih (h.next hliteral) (hr.next c) (literal_next_le hfeed hlit)
      have hfront : ∀ b : Bool, shift w (if b then f ((c :: s).takeWhile isWord) else [])
          = if b then f ((c :: s).takeWhile isWord) else [] := by
        intro b
        refine shift_of_notMem ?_
        cases b with
        | false => exact List.not_mem_nil
        | true => exact fun hm => absurd (hf _ _ hm) (by decide)
      rw [shift_cons hfeed] at hword hfree ⊢
      rw [weaveFrom, weaveFrom, hword, hfree, hrest, shift_append, hfront, shift_cons hfeed]

end

/-! ## The layout of a shifted block -/

section

variable {w : List Char} (hw : ∀ c ∈ w, isMargin c = true)
include hw

theorem blockContent_shift (inner : List Char) :
    blockContent ('\x7b' :: shift w inner) = shift w (blockContent ('\x7b' :: inner)) := by
  obtain ⟨-, -, -, hlast⟩ := trimRight_between inner
  rw [blockContent_eq, blockContent_eq, trimRight_shift hw]
  rcases List.eq_nil_or_concat (trimRight inner) with hnil | ⟨init, c, hinit⟩
  · rw [hnil]
    rfl
  · rw [hinit, List.concat_eq_append] at hlast ⊢
    have hc : c ≠ '\n' := by
      rintro rfl
      exact absurd (hlast '\n' List.getLast?_concat) (by decide)
    have hshift : shift w (init ++ [c]) = shift w init ++ [c] := by
      rw [shift_append, shift_cons hc]
      rfl
    rw [hshift, List.getLast?_concat, List.getLast?_concat, List.dropLast_concat,
      List.dropLast_concat]
    split
    · rfl
    · rfl

/-- **The margin of a block goes in its layout.** -/
theorem layout_shift (inner : List Char) :
    layout (shift w ('\x7b' :: inner)) = layout ('\x7b' :: inner) := by
  have hfeed : '\n' ∉ w := fun hm => absurd (hw _ hm) (by decide)
  obtain ⟨first, rest, hlines⟩ :=
    List.exists_cons_of_ne_nil (cut_ne_nil '\n' (blockContent ('\x7b' :: inner)))
  have hrest : ∀ l ∈ rest, '\n' ∉ l := fun l hl =>
    notMem_cut _ l (hlines ▸ List.mem_cons_of_mem first hl)
  have hdedent : dedent (join ['\n'] (first :: rest.map (w ++ ·)).tail)
      = dedent (join ['\n'] (first :: rest).tail) := dedent_shifted hw hrest
  have hbody : blockBody ('\x7b' :: shift w inner) = blockBody ('\x7b' :: inner) := by
    unfold blockBody
    rw [blockContent_shift hw, cut_feed_shift hfeed _ hlines, hlines]
    dsimp only
    rw [hdedent]
    rfl
  rw [shift_cons (by decide), layout_block, layout_block, hbody]

/-! ## Shifted definitions -/

/-- The parts of a shifted definition are shifted. -/
theorem split?_shift {expr inner body : List Char} (h : split? expr = some (inner, body)) :
    split? (shift w expr) = some (shift w inner, shift w body) := by
  obtain ⟨blanks, rest, rfl, hinner, hblanks, rfl, hne⟩ := split?_iff.mp h
  have hclose : ')' ∉ shift w inner := fun hm => by
    rcases mem_shift_cases hm with hm | hm
    · exact hinner hm
    · exact absurd (hw _ hm) (by decide)
  refine split?_iff.mpr ⟨shift w blanks, shift w rest, ?_, hclose, isBlank_shift hw hblanks,
    (trimLeft_shift hw rest).symm, mt shift_eq_nil_iff.mp hne⟩
  simp [shift_append, shift_cons]

/-- Names are on one line each. -/
theorem namesOf_shift {inner : List Char} (h : ∀ p ∈ namesOf inner, '\n' ∉ p) :
    namesOf (shift w inner) = namesOf inner := by
  have hcomma : ',' ∉ w := fun hm => absurd (hw _ hm) (by decide)
  have htrim : trim ∘ shift w = shift w ∘ trim := funext (trim_shift hw)
  have hempty : (fun p : List Char => !p.isEmpty) ∘ shift w = fun p => !p.isEmpty := by
    funext p
    show (!(shift w p).isEmpty) = !p.isEmpty
    rw [Bool.eq_iff_iff, Bool.not_eq_true', Bool.not_eq_true', List.isEmpty_eq_false_iff,
      List.isEmpty_eq_false_iff]
    exact not_congr shift_eq_nil_iff
  rw [namesOf, cut_shift (by decide) hcomma, List.map_map, htrim, ← List.map_map, List.filter_map,
    hempty]
  exact (List.map_congr_left fun p hp => shift_of_notMem (h p hp)).trans (List.map_id _)

/-- **The indentation of a block does not matter.**  If a definition with a block as its body is
    accepted, then it is with the same spaces and tabs put in front of all its lines but the first, and
    its function has the same parameters, body and source. -/
theorem ofText_shift {expr inner content : List Char} {a : Arrow} (h : ofText expr = .ok a)
    (hblock : split? (trim expr) = some (inner, '\x7b' :: content)) :
    ofText (shift w expr) = .ok a := by
  obtain ⟨inner', body, hsplit, hps, hnodup, hnames, hbody, hsource⟩ := ofText_iff.mp h
  obtain ⟨rfl, rfl⟩ := Prod.mk.inj (Option.some.inj (hsplit.symm.trans hblock))
  have hsplitShift := split?_shift hw hsplit
  rw [← trim_shift hw] at hsplitShift
  refine ofText_iff.mpr ⟨_, _, hsplitShift, ?_, hnodup, hnames, ?_, hsource⟩
  · rw [namesOf_shift hw, hps]
    intro p hp hm
    rw [← hps] at hp
    exact absurd (isWord_of_parameter (hnames p hp) _ hm) (by decide)
  · have hweave : weave (marksFor a.parameters) (shift w (trim ('\x7b' :: content)))
        = shift w (weave (marksFor a.parameters) (trim ('\x7b' :: content))) :=
      weaveFrom_shift hw (isWord_marksFor _) _ (Agree.refl .start) trivial (Nat.zero_le _)
    obtain ⟨marked, hmarked⟩ : ∃ marked,
        weave (marksFor a.parameters) (trim ('\x7b' :: content)) = '\x7b' :: marked := by
      rw [show trim ('\x7b' :: content) = '\x7b' :: trimRight content from
        trim_behind (w := []) nofun (by decide) content]
      exact ⟨_, rfl⟩
    rw [hbody, trim_shift hw, hweave, hmarked, layout_shift hw]

end

/-- A block that is not closed, with a blank line and with code on its first and its last line, shifted
    by a tab and a space. -/
theorem ofText_shift_mixed : ∃ a, ofText "(n) => \x7bm = n\n\n return m".toList = .ok a
    ∧ ofText "(n) => \x7bm = n\n\t \n\t  return m".toList = .ok a
    ∧ a.body = "    m = _p_n\n    return m".toList := by
  have ha : ofText "(n) => \x7bm = n\n\n return m".toList = .ok
      ⟨[['n']], "    m = _p_n\n    return m".toList,
        sourceOf [['n']] "    m = _p_n\n    return m".toList⟩ := by
    rfl
  have hblock : split? (trim "(n) => \x7bm = n\n\n return m".toList)
      = some (['n'], '\x7b' :: "m = n\n\n return m".toList) := by
    rfl
  have hmargin : ∀ c ∈ "\t ".toList, isMargin c = true := List.forall_mem_iff_getElem.mpr (by decide)
  exact ⟨_, ha, ofText_shift hmargin ha hblock, rfl⟩

end LetTag.Arrow
