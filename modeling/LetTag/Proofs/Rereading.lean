/-
  Statements that are read again.

  What the reader makes of a text is a normal form: its statements, each on lines of its own, are the
  statements of the text that they make, and a statement that is not left open is the only one of
  itself.  Nothing of where a statement stood is needed to read it.  It starts outside literals with
  no brace open, wherever in a line that is, and the blanks that are cut off its ends neither end a
  literal nor open a block (`Alone`).

  The reader is followed twice.  Over any text, all that it finishes stands alone (`Settled.lines`);
  over a statement that stands alone it never flushes before the end (`Held.lines`).  Both times the
  buffer is a `Reading` that starts outside literals, and one character is `Held.kept` or a flush.
  Texts of several statements are then put together by `Statements.ofText_append`.
-/
import LetTag.Proofs.Composition
import LetTag.Proofs.Segmentation

namespace LetTag

open Text

/-! ## Lines of a statement -/

namespace Text

/-- The only line ends in the text are line feeds. -/
def OnlyFeeds (s : List Char) : Prop :=
  ∀ c ∈ s, isBreak c = true → c = '\n'

/-- A text whose line breaks are all line feeds is one behind its first character too. -/
theorem OnlyFeeds.of_cons {c : Char} {s : List Char} (h : OnlyFeeds (c :: s)) : OnlyFeeds s :=
  fun d hd => h d (List.mem_cons_of_mem c hd)

/-- The lines of a text that does not end with a line end, each with a line feed behind it, are the
    text and a line feed. -/
theorem flatMap_lines {s : List Char} (hfeeds : OnlyFeeds s) (hne : s ≠ [])
    (hlast : s.getLast? ≠ some '\n') :
    (lines s).flatMap (fun line => line ++ ['\n']) = s ++ ['\n'] := by
  induction s with
  | nil => exact absurd rfl hne
  | cons c s ih =>
    have hrest : s ≠ [] → (lines s).flatMap (fun line => line ++ ['\n']) = s ++ ['\n'] := by
      intro hs
      refine ih hfeeds.of_cons hs ?_
      cases s with
      | nil => exact absurd rfl hs
      | cons d s => rwa [List.getLast?_cons_cons] at hlast
    cases hc : isBreak c with
    | true =>
      obtain rfl := hfeeds c List.mem_cons_self hc
      have hs : s ≠ [] := by
        rintro rfl
        exact hlast rfl
      rw [lines_feed, List.flatMap_cons, hrest hs]
      rfl
    | false =>
      rw [lines_cons hc]
      cases s with
      | nil => rfl
      | cons d s =>
        have hs := hrest (List.cons_ne_nil d s)
        cases hlines : lines (d :: s) with
        | nil =>
          rw [hlines] at hs
          cases hs
        | cons line ls =>
          rw [hlines, List.flatMap_cons] at hs
          rw [extendFirst, List.flatMap_cons, List.cons_append, List.cons_append, hs]
          rfl

end Text

/-! ## Statements that stand alone -/

/-- A statement that starts outside literals, on lines that end with line feeds; `depth` braces are
    open behind it. -/
structure Alone (s : List Char) (depth : Nat) : Prop where
  statement : IsStatement .outside s depth
  feeds : OnlyFeeds s

/-- Blanks and semicolons open no literal. -/
theorem IsFiller.behind_eq {gap : List Char} (h : IsFiller gap) :
    Quoting.behind .outside gap = .outside := by
  induction gap with
  | nil => rfl
  | cons c gap ih =>
    obtain ⟨hc, hgap⟩ := List.forall_mem_cons.mp h
    have hquote : Quoting.isQuote c = false := by
      rcases hc with hc | rfl
      · have hplain := plain_of_isBlank hc
        simp only [List.mem_cons, not_or] at hplain
        rw [Quoting.isQuote, beq_false_of_ne hplain.1, beq_false_of_ne hplain.2.1]
        rfl
      · rfl
    have hnext : Quoting.inLine .outside c = .outside := by
      unfold Quoting.inLine
      split
      · rfl
      · rw [Quoting.next, hquote]
        rfl
    show Quoting.behind (Quoting.inLine .outside c) gap = .outside
    rw [hnext, ih hgap]

namespace Statements

open Quoting

/-- The buffer of the reader, whose scan stands at `q`, was read from a place outside literals. -/
structure Held (q : Quoting) (p : Progress) : Prop where
  reading : Reading .outside p.reading.reverse ⟨q, p.depth⟩
  valid : q.Valid
  feeds : OnlyFeeds p.reading

namespace Held

variable {q : Quoting} {p : Progress}

theorem nil (finished : List (List Char)) : Held .outside ⟨finished, [], 0⟩ where
  reading := .nil .outside
  valid := trivial
  feeds := fun _ hc => absurd hc List.not_mem_nil

/-- A character that goes into the buffer. -/
theorem kept (h : Held q p) {c : Char} (hfeed : isBreak c = true → c = '\n')
    (hc : (Scan.mk q p.depth).Separates c → 0 < p.depth) :
    Held (q.inLine c) { p with
      reading := c :: p.reading
      depth := (Scan.next (startsDeclaration (p.reading.reverse ++ [c])) ⟨q, p.depth⟩ c).depth } where
  reading := by
    rw [List.reverse_cons]
    exact h.reading.snoc hc
  valid := Valid.behind h.valid [c]
  feeds := List.forall_mem_cons.mpr ⟨hfeed, h.feeds⟩

/-- A line feed in a block. -/
theorem feed (h : Held q p) (hpos : 0 < p.depth) :
    Held .outside { p with reading := '\n' :: p.reading } := by
  have hkept := h.kept (c := '\n') (fun _ => rfl) fun _ => hpos
  have hdepth : (Scan.next (startsDeclaration (p.reading.reverse ++ ['\n'])) ⟨q, p.depth⟩
      '\n').depth = p.depth := by
    simp [Scan.next]
  rw [hdepth] at hkept
  exact hkept

/-- A character of a line: a bare semicolon outside blocks flushes, any other is kept. -/
theorem read_eq (h : Held q p) (c : Char) :
    p.read c (q.shown c) =
      if p.depth = 0 ∧ c = ';' ∧ q = .outside then p.flush
      else { p with
        reading := c :: p.reading
        depth := (Scan.next (startsDeclaration (p.reading.reverse ++ [c])) ⟨q, p.depth⟩ c).depth } :=
  Progress.read_eq h.valid fun hpos => h.reading.declares hpos [c]

/-- What a flush finishes stands alone. -/
theorem alone (h : Held q p) (hne : trim p.reading.reverse ≠ []) :
    Alone (trim p.reading.reverse) p.depth := by
  obtain ⟨front, back, hw, hfront, -, hs⟩ := h.reading.statement hne
  rw [hfront.behind_eq] at hs
  refine ⟨hs, fun c hc => h.feeds c (List.mem_reverse.mp ?_)⟩
  rw [hw]
  exact List.mem_append_right front (List.mem_append_left back hc)

end Held

/-! ## Reading a text -/

/-- The reader in a text: its buffer is held, and what it has finished stands alone. -/
structure Settled (q : Quoting) (p : Progress) : Prop where
  held : Held q p
  finished : ∀ s ∈ p.finished, Alone s 0

namespace Settled

variable {q : Quoting} {p : Progress}

/-- When a statement ends outside of literals, what is held is settled. -/
theorem flush (h : Settled q p) (hd : p.depth = 0) : Settled .outside p.flush := by
  unfold Progress.flush
  split
  · have hnil : p = { p with depth := 0 } := by rw [← hd]
    rw [hnil]
    exact ⟨.nil p.finished, h.finished⟩
  · rename_i hne
    have hs := h.held.alone hne
    rw [hd] at hs
    have hnil : p = { p with depth := 0 } := by rw [← hd]
    rw [hnil]
    exact ⟨.nil _, List.forall_mem_cons.mpr ⟨hs, h.finished⟩⟩

/-- One more character of a line leaves it settled. -/
theorem read (h : Settled q p) {c : Char} (hc : isBreak c = false) :
    Settled (q.inLine c) (p.read c (q.shown c)) := by
  have hfeed : c ≠ '\n' := by
    rintro rfl
    cases hc
  rw [h.held.read_eq]
  split
  · rename_i hs
    obtain ⟨hd, rfl, rfl⟩ := hs
    exact h.flush hd
  · rename_i hs
    refine ⟨h.held.kept (fun hb => absurd hb (by rw [hc]; exact Bool.false_ne_true)) ?_, h.finished⟩
    rintro (hnl | ⟨rfl, hout⟩)
    · exact absurd hnl hfeed
    · exact Nat.pos_of_ne_zero fun hzero => hs ⟨hzero, rfl, hout⟩

theorem chars (line : List Char) : ∀ {q : Quoting} {p : Progress}, Settled q p →
    (∀ c ∈ line, isBreak c = false) → ∃ q',
    Settled q' ((line.zip (maskFrom q line)).foldl (fun p (c, m) => p.read c m) p) := by
  induction line with
  | nil => exact fun h _ => ⟨_, h⟩
  | cons c line ih =>
    intro q p h hline
    obtain ⟨hc, hline⟩ := List.forall_mem_cons.mp hline
    have hread := h.read hc
    have hnext : q.inLine c = q.next c := by
      unfold inLine
      rw [if_neg]
      rintro rfl
      cases hc
    rw [hnext] at hread
    exact ih hread hline

/-- Behind a line what is held is settled, and no literal is open. -/
theorem readLine (h : Settled .outside p) {line : List Char}
    (hline : ∀ c ∈ line, isBreak c = false) : Settled .outside (p.readLine line) := by
  obtain ⟨q, hread⟩ := h.chars line hline
  unfold Progress.readLine
  dsimp only [mask]
  generalize (line.zip (maskFrom .outside line)).foldl (fun p (c, m) => p.read c m) p = r at hread ⊢
  split
  · rename_i hpos
    exact ⟨hread.held.feed hpos, hread.finished⟩
  · exact hread.flush (by omega)

theorem lines (ls : List (List Char)) : ∀ {p : Progress}, Settled .outside p →
    (∀ line ∈ ls, ∀ c ∈ line, isBreak c = false) →
    Settled .outside (ls.foldl Progress.readLine p) := by
  induction ls with
  | nil => exact fun h _ => h
  | cons line ls ih =>
    intro p h hls
    obtain ⟨hline, hls⟩ := List.forall_mem_cons.mp hls
    exact ih (h.readLine hline) hls

end Settled

/-- Every statement of a text stands alone, at depth zero behind it unless it is the one left open,
    which is the last. -/
theorem alone_of_ofText (code : List Char) : ∃ closed : List (List Char),
    (∀ s ∈ closed, Alone s 0)
      ∧ (ofText code = ⟨closed, none⟩
        ∨ ∃ s depth, Alone s depth ∧ 0 < depth ∧ ofText code = ⟨closed ++ [s], some s⟩) := by
  have hsettled := Settled.lines (Text.lines code) ⟨.nil [], fun _ hs => absurd hs List.not_mem_nil⟩
    fun _ hline => not_break_of_lines hline
  have hrests := Progress.rests_foldl_readLine (Text.lines code) (p := ⟨[], [], 0⟩) fun _ => rfl
  unfold ofText
  generalize (Text.lines code).foldl Progress.readLine ⟨[], [], 0⟩ = p at hsettled hrests ⊢
  refine ⟨p.finished.reverse, fun s hs => hsettled.finished s (List.mem_reverse.mp hs), ?_⟩
  obtain ⟨finished, reading, depth⟩ := p
  by_cases hpos : 0 < depth
  · right
    have hdecl := hsettled.held.reading.declares hpos []
    rw [List.append_nil] at hdecl
    have hne := trim_ne_nil_of_declaration hdecl
    refine ⟨_, depth, hsettled.held.alone hne, hpos, ?_⟩
    dsimp only at hne ⊢
    rw [if_pos hpos]
    unfold Progress.flush
    split
    · contradiction
    · rw [List.reverse_cons]
  · left
    obtain rfl : depth = 0 := by omega
    obtain rfl : reading = [] := hrests rfl
    rfl

/-! ## Reading a statement again -/

/-- The reader in a statement that stands alone: it has flushed nothing, and `w` is its buffer. -/
structure Rereads (w : List Char) (p : Progress) : Prop where
  held : Held (behind .outside w) p
  finished : p.finished = []
  buffer : p.reading.reverse = w

namespace Rereads

variable {s w : List Char} {p : Progress} {depth : Nat}

/-- Before the first character nothing was read again. -/
theorem nil : Rereads [] ⟨[], [], 0⟩ :=
  ⟨.nil [], rfl, rfl⟩

/-- A separator of the statement stands where a brace is open. -/
theorem pos_of_separates (h : Rereads w p) (hs : Alone s depth) {c : Char} {after : List Char}
    (hsplit : s = w ++ c :: after) (hc : (Scan.mk (behind .outside w) p.depth).Separates c) :
    0 < p.depth := by
  have hinner := hs.statement.inner w c after hsplit
  have hscan := h.held.reading.scanned (c :: after)
  rw [h.buffer, ← hsplit] at hscan
  rw [hscan] at hinner
  exact hinner hc

/-- A statement that stands alone is read again character by character, and does not end. -/
theorem read (h : Rereads w p) (hs : Alone s depth) {c : Char} {after : List Char}
    (hsplit : s = w ++ c :: after) (hc : isBreak c = false) :
    Rereads (w ++ [c]) (p.read c ((behind .outside w).shown c)) := by
  have hpos := h.pos_of_separates hs hsplit
  rw [h.held.read_eq, if_neg]
  · refine ⟨?_, h.finished, ?_⟩
    · rw [behind_append]
      exact h.held.kept (fun hb => absurd hb (by rw [hc]; exact Bool.false_ne_true)) hpos
    · rw [List.reverse_cons, h.buffer]
  · rintro ⟨hzero, rfl, hout⟩
    exact absurd hzero (Nat.ne_of_gt (hpos (Or.inr ⟨rfl, hout⟩)))

theorem chars (hs : Alone s depth) (line : List Char) : ∀ {w : List Char} {p : Progress}
    {after : List Char}, Rereads w p → s = w ++ (line ++ after) → (∀ c ∈ line, isBreak c = false) →
    Rereads (w ++ line)
      ((line.zip (maskFrom (behind .outside w) line)).foldl (fun p (c, m) => p.read c m) p) := by
  induction line with
  | nil =>
    intro w p after h _ _
    rw [List.append_nil]
    exact h
  | cons c line ih =>
    intro w p after h hsplit hline
    obtain ⟨hc, hline⟩ := List.forall_mem_cons.mp hline
    have hread := h.read hs hsplit hc
    have hbehind : behind .outside (w ++ [c]) = (behind .outside w).next c := by
      rw [behind_append]
      show inLine _ c = _
      unfold inLine
      rw [if_neg]
      rintro rfl
      cases hc
    have hsplit' : s = w ++ [c] ++ (line ++ after) := by
      rw [hsplit]
      simp
    have hrest := ih hread hsplit' hline
    rw [hbehind, List.append_assoc] at hrest
    exact hrest

/-- Behind the last character of the statement the reader is at its depth. -/
theorem depth_eq (h : Rereads s p) (hs : Alone s depth) : p.depth = depth := by
  have hscan := h.held.reading.scanned []
  rw [List.append_nil, h.buffer] at hscan
  rw [← hs.statement.ends, hscan]

/-- A line inside the statement ends in a block, or else its end would end the statement. -/
theorem readLine (h : Rereads w p) (hstart : behind .outside w = .outside) (hs : Alone s depth)
    {line rest : List Char} (hsplit : s = w ++ (line ++ '\n' :: rest))
    (hline : ∀ c ∈ line, isBreak c = false) :
    Rereads (w ++ (line ++ ['\n'])) (p.readLine line) := by
  have hread := h.chars hs line hsplit hline
  rw [hstart] at hread
  unfold Progress.readLine
  dsimp only [mask]
  generalize (line.zip (maskFrom .outside line)).foldl (fun p (c, m) => p.read c m) p = r at hread ⊢
  have hbreak : s = w ++ line ++ '\n' :: rest := by
    rw [hsplit, List.append_assoc]
  have hpos : 0 < r.depth := hread.pos_of_separates hs hbreak (Or.inl rfl)
  rw [if_pos hpos, ← List.append_assoc]
  refine ⟨?_, hread.finished, ?_⟩
  · rw [behind_append]
    exact hread.held.feed hpos
  · rw [List.reverse_cons, hread.buffer]

/-- What the reader makes of the last line of the statement, and of the end of the text. -/
theorem readLine_last (h : Rereads w p) (hstart : behind .outside w = .outside) (hs : Alone s depth)
    {line : List Char} (hsplit : s = w ++ line) (hline : ∀ c ∈ line, isBreak c = false) :
    p.readLine line = if 0 < depth then ⟨[], '\n' :: s.reverse, depth⟩ else ⟨[s], [], 0⟩ := by
  have hend : s = w ++ (line ++ []) := by
    rw [hsplit, List.append_nil]
  have hread := h.chars hs line hend hline
  rw [hstart, ← hsplit] at hread
  unfold Progress.readLine
  dsimp only [mask]
  generalize (line.zip (maskFrom .outside line)).foldl (fun p (c, m) => p.read c m) p = r at hread ⊢
  have hdepth := hread.depth_eq hs
  obtain ⟨finished, reading, d⟩ := r
  obtain rfl : finished = [] := hread.finished
  obtain rfl : d = depth := hdepth
  obtain rfl : reading = s.reverse := List.reverse_eq_iff.mp hread.buffer
  dsimp only
  split
  · rfl
  · rename_i hpos
    obtain rfl : d = 0 := by omega
    unfold Progress.flush
    dsimp only
    rw [List.reverse_reverse, hs.statement.trimmed]
    split
    · exact absurd rfl hs.statement.nonempty
    · rfl

/-- **All lines of a statement are read again as this statement.**  It ends with them, unless it is left
    open. -/
theorem lines (hs : Alone s depth) (ls : List (List Char)) : ∀ {w : List Char} {p : Progress},
    Rereads w p → behind .outside w = .outside → ls ≠ [] → s = w ++ join ['\n'] ls →
    (∀ line ∈ ls, ∀ c ∈ line, isBreak c = false) → ls.foldl Progress.readLine p
      = if 0 < depth then ⟨[], '\n' :: s.reverse, depth⟩ else ⟨[s], [], 0⟩ := by
  induction ls with
  | nil => exact fun _ _ hne => absurd rfl hne
  | cons line ls ih =>
    intro w p h hstart _ hsplit hls
    obtain ⟨hline, hls⟩ := List.forall_mem_cons.mp hls
    rw [List.foldl_cons]
    cases ls with
    | nil =>
      rw [join_singleton] at hsplit
      exact h.readLine_last hstart hs hsplit hline
    | cons next ls =>
      rw [join_cons_cons] at hsplit
      have hend : behind .outside (w ++ (line ++ ['\n'])) = .outside := by
        rw [← List.append_assoc, behind_append]
        rfl
      refine ih (h.readLine hstart hs hsplit hline) hend (List.cons_ne_nil next ls) ?_ hls
      rw [hsplit]
      simp

end Rereads

/-- **A statement is a text of one statement**, left open if it is. -/
theorem ofText_of_alone {s : List Char} {depth : Nat} (hs : Alone s depth) :
    ofText s = ⟨[s], if 0 < depth then some s else none⟩ := by
  have hlast : s.getLast? ≠ some '\n' := fun h => absurd (hs.statement.getLast h) (by decide)
  have hflat := flatMap_lines hs.feeds hs.statement.nonempty hlast
  have hne : Text.lines s ≠ [] := by
    intro hnil
    rw [hnil] at hflat
    exact List.cons_ne_nil _ _ (List.append_eq_nil_iff.mp hflat.symm).2
  rw [flatMap_line_feed hne] at hflat
  obtain ⟨hjoin, -⟩ := List.append_inj' hflat rfl
  have hread := Rereads.nil.lines hs (Text.lines s) rfl hne hjoin.symm
    fun _ hline => not_break_of_lines hline
  have htrim : trim (s ++ ['\n']) = s :=
    trim_append hs.statement.trimmed hs.statement.nonempty (by decide)
  unfold ofText
  rw [hread]
  split
  · rename_i hpos
    have hflush : Progress.flush ⟨[], '\n' :: s.reverse, depth⟩ = ⟨[s], [], depth⟩ := by
      unfold Progress.flush
      dsimp only
      rw [List.reverse_cons, List.reverse_reverse, htrim]
      split
      · exact absurd rfl hs.statement.nonempty
      · rfl
    have hbuffer : ('\n' :: s.reverse).reverse = s ++ ['\n'] := by
      rw [List.reverse_cons, List.reverse_reverse]
    dsimp only
    rw [hflush, if_pos hpos, hbuffer, htrim]
    rfl
  · rfl

/-- Statements that stand alone, each on lines of its own, are the statements of the text that they
    make. -/
theorem ofText_join_alone {closed : List (List Char)} (h : ∀ s ∈ closed, Alone s 0) :
    ofText (join ['\n'] closed) = ⟨closed, none⟩
      ∧ ∀ {s : List Char} {depth : Nat}, Alone s depth → 0 < depth →
        ofText (join ['\n'] (closed ++ [s])) = ⟨closed ++ [s], some s⟩ := by
  induction closed with
  | nil =>
    refine ⟨rfl, fun hs hpos => ?_⟩
    rw [List.nil_append, join_singleton, ofText_of_alone hs, if_pos hpos]
  | cons t ts ih =>
    obtain ⟨ht, hts⟩ := List.forall_mem_cons.mp h
    obtain ⟨hclosed, hopen⟩ := ih hts
    have halone := ofText_of_alone ht
    rw [if_neg (Nat.lt_irrefl 0)] at halone
    -- the first statement leaves no block open, so the others are read as if they stood alone
    have hcons : ∀ {ss : List (List Char)} {u : Option (List Char)}, ss ≠ [] →
        ofText (join ['\n'] ss) = ⟨ss, u⟩ → ofText (join ['\n'] (t :: ss)) = ⟨t :: ss, u⟩ := by
      intro ss u hne hss
      obtain ⟨next, rest, rfl⟩ := List.exists_cons_of_ne_nil hne
      have happend := ofText_append (a := t) (by rw [halone]) (join ['\n'] (next :: rest))
      rw [halone, hss] at happend
      rw [join_cons_cons]
      show ofText (t ++ '\n' :: join ['\n'] (next :: rest)) = _
      generalize ofText (t ++ '\n' :: join ['\n'] (next :: rest)) = r at happend ⊢
      obtain ⟨all, unclosed⟩ := r
      obtain ⟨hall, hunclosed⟩ := happend
      dsimp only at hall hunclosed
      rw [hall, hunclosed]
      rfl
    constructor
    · cases ts with
      | nil => rw [join_singleton, halone]
      | cons next ts => exact hcons (List.cons_ne_nil next ts) hclosed
    · intro s depth hs hpos
      have hne : ts ++ [s] ≠ [] := List.append_ne_nil_of_right_ne_nil ts (List.cons_ne_nil s [])
      exact hcons hne (hopen hs hpos)

end Statements

/-- **The statements of a text are a normal form of it.**  With a line feed between them they make a
    text of the same statements and the same diagnostics.  A statement that is not reported as a
    block left open is the only statement of itself, and has no diagnostic. -/
theorem statements_of_statements (code : List Char) :
    Statements.ofText (join ['\n'] (Statements.ofText code).all) = Statements.ofText code
      ∧ Registry.unclosedDiagnostics (join ['\n'] (Statements.ofText code).all)
        = Registry.unclosedDiagnostics code
      ∧ ∀ s ∈ (Statements.ofText code).all,
        ⟨.unclosedBlock, s⟩ ∉ Registry.unclosedDiagnostics code →
        Statements.ofText s = ⟨[s], none⟩ ∧ Registry.unclosedDiagnostics s = [] := by
  obtain ⟨closed, hclosed, hcode⟩ := Statements.alone_of_ofText code
  obtain ⟨hjoin, hjoinOpen⟩ := Statements.ofText_join_alone hclosed
  have hsame : Statements.ofText (join ['\n'] (Statements.ofText code).all)
      = Statements.ofText code := by
    rcases hcode with hcode | ⟨s, depth, hs, hpos, hcode⟩
    · rw [hcode]
      exact hjoin
    · rw [hcode]
      exact hjoinOpen hs hpos
  refine ⟨hsame, ?_, ?_⟩
  · unfold Registry.unclosedDiagnostics
    rw [hsame]
  · intro s hmem hreport
    have hs : Alone s 0 := by
      rcases hcode with hcode | ⟨t, depth, -, -, hcode⟩
      · rw [hcode] at hmem
        exact hclosed s hmem
      · -- the last statement is reported
        rw [Registry.unclosedDiagnostics, hcode] at hreport
        rw [hcode] at hmem
        rcases List.mem_append.mp hmem with hmem | hmem
        · exact hclosed s hmem
        · rw [List.mem_singleton.mp hmem] at hreport
          exact absurd List.mem_cons_self hreport
    have halone := Statements.ofText_of_alone hs
    rw [if_neg (Nat.lt_irrefl 0)] at halone
    refine ⟨halone, ?_⟩
    rw [Registry.unclosedDiagnostics, halone]
    rfl

end LetTag
