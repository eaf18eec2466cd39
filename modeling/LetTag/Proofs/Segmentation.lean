/-
  The statements of a text, read off the text itself.

  The reader keeps a buffer and flushes it at three places.  What comes out is this: the lines, put
  together again, are the statements in order with gaps of blanks and semicolons around them, and a
  line feed or a bare semicolon stands inside a statement only where one of its braces is open.
  `Laid` states it as a way to build the text, one statement at a time; every statement but the
  last has its braces closed, and the depth behind the last is the index of the relation.

  Two scans meet here.  `Scan` goes over a finished statement and knows from the start whether
  its braces count; the reader learns that only when it meets the first of them.  `Reading` says
  that for the buffer, whatever follows it, the two agree (`Reading.snoc` is the step), `Read` adds
  what was flushed before, and `Read.read`, `Read.readLine` and `Read.lines` take it through a
  character, a line and a text.
-/
import LetTag.Proofs.Pass
import LetTag.Proofs.Text

namespace LetTag

open Text

/-! ## Scans -/

namespace Quoting

/-- Where the scan stands after `c`, literals ending with their line. -/
def inLine (q : Quoting) (c : Char) : Quoting :=
  if c = '\n' then outside else q.next c

/-- Where the scan stands behind a text. -/
def behind (q : Quoting) (s : List Char) : Quoting :=
  s.foldl inLine q

/-- What opened the literal is a quote. -/
def Valid : Quoting → Prop
  | outside => True
  | inside q _ => isQuote q = true

/-- The quoting behind two texts is the one behind the second, from the one behind the first. -/
theorem behind_append (q : Quoting) (s t : List Char) :
    q.behind (s ++ t) = (q.behind s).behind t :=
  List.foldl_append

theorem Valid.next {q : Quoting} (h : q.Valid) (c : Char) : (q.next c).Valid := by
  match q with
  | outside =>
    show (if isQuote c then inside c false else outside).Valid
    split
    · assumption
    · trivial
  | inside quote true => exact h
  | inside quote false =>
    show (if c = '\\' then inside quote true
      else if c = quote ∨ c = '\n' then outside else inside quote false).Valid
    split
    · exact h
    · split
      · trivial
      · exact h

theorem Valid.behind {q : Quoting} (h : q.Valid) (s : List Char) : (q.behind s).Valid := by
  induction s generalizing q with
  | nil => exact h
  | cons c s ih =>
    refine ih ?_
    unfold inLine
    split
    · trivial
    · exact h.next c

/-- A brace or a semicolon that the mask shows stands outside literals. -/
theorem shown_eq_iff {q : Quoting} (h : q.Valid) {m : Char} (hm : m ∈ ['{', '}', ';']) (c : Char) :
    q.shown c = m ↔ q = outside ∧ c = m := by
  have hmark : m ≠ ' ' ∧ m ≠ '\n' ∧ isQuote m = false := by
    revert m
    decide
  match q with
  | outside => simp [shown]
  | inside quote true => simp [shown, hmark.1.symm]
  | inside quote false =>
    have hquote : quote ≠ m := by
      rintro rfl
      rw [Valid, hmark.2.2] at h
      cases h
    show (if c ≠ '\\' ∧ (c = quote ∨ c = '\n') then c else ' ') = m ↔ _
    split
    · rename_i hc
      rcases hc.2 with rfl | rfl
      · simp [hquote]
      · simp [hmark.2.1.symm]
    · simp [hmark.1.symm]

end Quoting

/-- Where the scan of a statement stands: in its line, and how many braces are open. -/
structure Scan where
  quoting : Quoting
  depth : Nat

namespace Scan

/-- Where it stands after `c`.  A brace opens only in a statement that `declares`, and one that
    closes nothing is ignored. -/
def next (declares : Bool) (s : Scan) (c : Char) : Scan where
  quoting := s.quoting.inLine c
  depth :=
    if s.quoting ≠ .outside then s.depth
    else if c = '{' ∧ declares = true then s.depth + 1
    else if c = '}' then s.depth - 1
    else s.depth

/-- Where it stands behind a text. -/
def along (declares : Bool) (s : Scan) (text : List Char) : Scan :=
  text.foldl (next declares) s

/-- Is `c` a line feed, or a semicolon outside literals? -/
def Separates (s : Scan) (c : Char) : Prop :=
  c = '\n' ∨ c = ';' ∧ s.quoting = .outside

/-- A scan goes along two texts one behind the other. -/
theorem along_append (declares : Bool) (s : Scan) (t u : List Char) :
    along declares s (t ++ u) = along declares (along declares s t) u :=
  List.foldl_append

/-- It matters only at a brace whether braces count. -/
theorem next_congr {a b : Bool} {c : Char} (h : c = '{' → a = b) (s : Scan) :
    next a s c = next b s c := by
  by_cases hc : c = '{'
  · rw [h hc]
  · simp [next, hc]

/-- Blanks open and close nothing. -/
theorem along_blanks (declares : Bool) (s : Scan) {t : List Char}
    (h : ∀ c ∈ t, isBlank c = true) : along declares s t = ⟨s.quoting.behind t, s.depth⟩ := by
  induction t generalizing s with
  | nil => rfl
  | cons c t ih =>
    have hc := plain_of_isBlank (h c List.mem_cons_self)
    have hdepth : (next declares s c).depth = s.depth := by
      have hopen : c ≠ '{' := fun he => hc (by simp [he])
      have hclose : c ≠ '}' := fun he => hc (by simp [he])
      simp [next, hopen, hclose]
    have hrest := ih (next declares s c) fun d hd => h d (List.mem_cons_of_mem c hd)
    rw [hdepth] at hrest
    exact hrest

end Scan

/-! ## Statements and gaps -/

/-- A statement that starts where the scan of its line stands at `q`, with `depth` braces open
    behind it. -/
structure IsStatement (q : Quoting) (s : List Char) (depth : Nat) : Prop where
  nonempty : s ≠ []
  trimmed : trim s = s
  ends : (Scan.along (startsDeclaration s) ⟨q, 0⟩ s).depth = depth
  inner : ∀ before c after, s = before ++ c :: after →
    (Scan.along (startsDeclaration s) ⟨q, 0⟩ before).Separates c →
    0 < (Scan.along (startsDeclaration s) ⟨q, 0⟩ before).depth

/-- Blanks and semicolons. -/
def IsFiller (gap : List Char) : Prop :=
  ∀ c ∈ gap, isBlank c = true ∨ c = ';'

/-- The gap behind some statements: filler, with a separator if there are any. -/
structure IsGap (ss : List (List Char)) (gap : List Char) : Prop where
  filler : IsFiller gap
  separates : ss ≠ [] → ∃ c ∈ gap, c = '\n' ∨ c = ';'

/-- A text that is laid out as statements, each behind its gap.  The number is the depth behind the
    last statement; every other one ends at depth zero. -/
inductive Laid : Nat → List Char → List (List Char) → Prop
  | nil : Laid 0 [] []
  | snoc {text gap s : List Char} {ss : List (List Char)} {depth : Nat} :
    Laid 0 text ss → IsGap ss gap →
    IsStatement (Quoting.behind .outside (text ++ gap)) s depth →
    Laid depth (text ++ (gap ++ s)) (ss ++ [s])

theorem IsFiller.append {a b : List Char} (ha : IsFiller a) (hb : IsFiller b) :
    IsFiller (a ++ b) := by
  intro c hc
  rcases List.mem_append.mp hc with hc | hc
  · exact ha c hc
  · exact hb c hc

theorem IsFiller.of_blank {gap : List Char} (h : ∀ c ∈ gap, isBlank c = true) : IsFiller gap :=
  fun c hc => Or.inl (h c hc)

theorem IsStatement.getLast {q : Quoting} {s : List Char} {depth : Nat} (h : IsStatement q s depth)
    {c : Char} (hc : s.getLast? = some c) : isBlank c = false := by
  obtain ⟨_, _, _, _, _, _, hlast⟩ := trim_between s
  rw [h.trimmed] at hlast
  exact hlast c hc

/-- No text that is laid out ends with a blank. -/
theorem Laid.getLast {depth : Nat} {text : List Char} {ss : List (List Char)}
    (h : Laid depth text ss) {c : Char} (hc : text.getLast? = some c) : isBlank c = false := by
  cases h with
  | nil => cases hc
  | snoc _ _ hs =>
    have hd := List.getLast?_eq_some_getLast hs.nonempty
    rw [← List.append_assoc, List.getLast?_append, hd, Option.some_or] at hc
    exact hs.getLast (hd.trans hc)

/-! ## The statement being read -/

/-- The buffer `w`, read from a place where its line stands at `q`: whatever follows, the scan of the
    statement it becomes stands at `scan` behind it, and separators lie at positive depth. -/
structure Reading (q : Quoting) (w : List Char) (scan : Scan) : Prop where
  scanned : ∀ v, Scan.along (startsDeclaration (w ++ v)) ⟨q, 0⟩ w = scan
  inner : ∀ v before c after, w = before ++ c :: after →
    (Scan.along (startsDeclaration (w ++ v)) ⟨q, 0⟩ before).Separates c →
    0 < (Scan.along (startsDeclaration (w ++ v)) ⟨q, 0⟩ before).depth
  declares : 0 < scan.depth → ∀ v, startsDeclaration (w ++ v) = true

namespace Reading

theorem nil (q : Quoting) : Reading q [] ⟨q, 0⟩ where
  scanned _ := rfl
  inner v before c after h := by simp at h
  declares h := absurd h (Nat.lt_irrefl 0)

/-- One more character, which is no separator unless a brace is open. -/
theorem snoc {q : Quoting} {w : List Char} {scan : Scan} (h : Reading q w scan) {c : Char}
    (hc : scan.Separates c → 0 < scan.depth) :
    Reading q (w ++ [c]) (scan.next (startsDeclaration (w ++ [c])) c) where
  scanned v := by
    have hflag : c = '{' →
        startsDeclaration (w ++ [c] ++ v) = startsDeclaration (w ++ [c]) := by
      rintro rfl
      rw [List.append_assoc]
      exact startsDeclaration_brace w v
    have hw := h.scanned ([c] ++ v)
    rw [← List.append_assoc] at hw
    rw [Scan.along_append, hw]
    exact Scan.next_congr hflag scan
  inner v before d after hsplit := by
    have hw := h.scanned ([c] ++ v)
    have hinner := h.inner ([c] ++ v)
    rw [← List.append_assoc] at hw hinner
    rcases List.eq_nil_or_concat after with rfl | ⟨init, last, rfl⟩
    · -- the new character
      obtain ⟨rfl, hcd⟩ := List.append_inj' hsplit rfl
      cases hcd
      rw [hw]
      exact hc
    · have hsplit' : w ++ [c] = (before ++ d :: init) ++ [last] := by
        rw [hsplit, List.concat_eq_append, List.append_assoc, List.cons_append]
      obtain ⟨hbefore, -⟩ := List.append_inj' hsplit' rfl
      exact hinner before d init hbefore
  declares hpos v := by
    rw [List.append_assoc]
    by_cases hd : 0 < scan.depth
    · exact h.declares hd ([c] ++ v)
    · have hzero : scan.depth = 0 := by omega
      -- only a brace in a declaration goes up from zero
      have hopen : c = '{' ∧ startsDeclaration (w ++ [c]) = true := by
        refine Decidable.byContradiction fun hno => ?_
        simp [Scan.next, hno, hzero] at hpos
      obtain ⟨rfl, hflag⟩ := hopen
      rw [← hflag]
      exact startsDeclaration_brace w v

/-- The trimmed buffer is a statement, if it is not empty. -/
theorem statement {q : Quoting} {w : List Char} {scan : Scan} (h : Reading q w scan)
    (hne : trim w ≠ []) : ∃ front back, w = front ++ (trim w ++ back)
      ∧ IsFiller front ∧ IsFiller back
      ∧ IsStatement (q.behind front) (trim w) scan.depth := by
  obtain ⟨front, back, hw, hfront, hback, -⟩ := trim_between w
  refine ⟨front, back, hw, .of_blank hfront, .of_blank hback, hne, trim_trim w, ?_, ?_⟩
  · have hscan := h.scanned []
    rw [List.append_nil] at hscan
    rw [startsDeclaration_trim]
    generalize startsDeclaration w = declares at hscan ⊢
    rw [hw, Scan.along_append, Scan.along_blanks _ _ hfront, Scan.along_append,
      Scan.along_blanks _ _ hback] at hscan
    rw [← hscan]
  · intro before c after hs
    have hinner := h.inner [] (front ++ before) c (after ++ back) (by
      rw [hw, hs, List.append_assoc, List.append_assoc, List.cons_append])
    rw [List.append_nil, Scan.along_append, Scan.along_blanks _ _ hfront] at hinner
    rw [startsDeclaration_trim]
    exact hinner

end Reading

/-! ## The reader -/

namespace Statements

open Quoting

/-- One character: at a bare semicolon outside blocks the buffer is flushed; any other is put into
    the buffer, and the depth goes on as the scan of the statement has it. -/
theorem Progress.read_eq {p : Progress} {q : Quoting} (hq : q.Valid) {c : Char}
    (hd : 0 < p.depth → startsDeclaration (p.reading.reverse ++ [c]) = true) :
    p.read c (q.shown c) =
      if p.depth = 0 ∧ c = ';' ∧ q = .outside then p.flush
      else { p with
        reading := c :: p.reading
        depth := (Scan.next (startsDeclaration (p.reading.reverse ++ [c])) ⟨q, p.depth⟩ c).depth } := by
  have hopen := shown_eq_iff hq (m := '{') (by simp) c
  have hclose := shown_eq_iff hq (m := '}') (by simp) c
  have hsemi := shown_eq_iff hq (m := ';') (by simp) c
  generalize q.shown c = m at hopen hclose hsemi ⊢
  unfold Progress.read
  by_cases hpos : 0 < p.depth
  · have hne : ¬ p.depth = 0 := by omega
    have hif : ¬ (p.depth = 0 ∧ c = ';' ∧ q = .outside) := fun h => hne h.1
    rw [if_pos hpos, if_neg hif, hd hpos]
    by_cases hout : q = .outside
    · simp [hopen, hclose, hout, Scan.next]
    · simp [hopen, hclose, hout, Scan.next]
  · have hzero : p.depth = 0 := by omega
    rw [if_neg hpos]
    by_cases hs : c = ';' ∧ q = .outside
    · rw [if_pos (hsemi.mpr hs.symm), if_pos ⟨hzero, hs⟩]
    · rw [if_neg (fun h => hs (hsemi.mp h).symm), if_neg (fun h => hs h.2)]
      by_cases hout : q = .outside
      · simp [hopen, hout, Scan.next, hzero]
      · simp [hopen, hout, Scan.next, hzero]

/-- What was read so far: the flushed statements, laid out, a gap, and the buffer. -/
def Read (text : List Char) (p : Progress) : Prop :=
  ∃ t gap, text = t ++ (gap ++ p.reading.reverse)
    ∧ Laid 0 t p.finished.reverse
    ∧ IsGap p.finished.reverse gap
    ∧ Reading (behind .outside (t ++ gap)) p.reading.reverse ⟨behind .outside text, p.depth⟩

namespace Read

variable {text : List Char} {p : Progress}

theorem nil : Read [] ⟨[], [], 0⟩ :=
  ⟨[], [], rfl, .nil, ⟨by simp [IsFiller], fun h => absurd rfl h⟩, .nil _⟩

/-- Flushing ends the statement being read, at whatever depth it stands. -/
theorem flush (h : Read text p) : ∃ t gap, text = t ++ gap
    ∧ Laid p.depth t p.flush.finished.reverse ∧ IsFiller gap := by
  obtain ⟨t, gap, htext, hlaid, hgap, hreading⟩ := h
  unfold Progress.flush
  split
  · rename_i htrim
    obtain ⟨front, back, hw, hfront, hback, -⟩ := trim_between p.reading.reverse
    have hzero : p.depth = 0 := by
      refine Decidable.byContradiction fun hne => ?_
      have hdecl := hreading.declares (Nat.pos_of_ne_zero hne) []
      rw [List.append_nil] at hdecl
      exact trim_ne_nil_of_declaration hdecl htrim
    refine ⟨t, gap ++ p.reading.reverse, htext, ?_, ?_⟩
    · rw [hzero]
      exact hlaid
    · rw [hw, htrim, List.nil_append]
      exact hgap.filler.append (.append (.of_blank hfront) (.of_blank hback))
  · rename_i hne
    obtain ⟨front, back, hw, hfront, hback, hs⟩ := hreading.statement hne
    refine ⟨t ++ (gap ++ front ++ trim p.reading.reverse), back, ?_, ?_, hback⟩
    · rw [htext]
      conv => lhs; rw [hw]
      simp only [List.append_assoc]
    · rw [List.reverse_cons]
      refine .snoc hlaid ⟨hgap.filler.append hfront, ?_⟩ ?_
      · intro hss
        obtain ⟨c, hc, hsep⟩ := hgap.separates hss
        exact ⟨c, List.mem_append_left _ hc, hsep⟩
      · rw [← List.append_assoc, behind_append]
        exact hs

/-- A flush outside blocks, and the separator that caused it. -/
theorem separated (h : Read text p) (hd : p.depth = 0) {c : Char} (hc : c = '\n' ∨ c = ';') :
    Read (text ++ [c]) p.flush := by
  obtain ⟨t, gap, htext, hlaid, hgap⟩ := h.flush
  have hempty : p.flush.reading = [] ∧ p.flush.depth = 0 := by
    unfold Progress.flush
    split
    · exact ⟨rfl, hd⟩
    · exact ⟨rfl, hd⟩
  rw [hd] at hlaid
  refine ⟨t, gap ++ [c], ?_, hlaid, ⟨hgap.append ?_, ?_⟩, ?_⟩
  · rw [htext, hempty.1, List.reverse_nil, List.append_nil, List.append_assoc]
  · intro d hd'
    obtain rfl := List.mem_singleton.mp hd'
    rcases hc with rfl | rfl
    · exact Or.inl (by decide)
    · exact Or.inr rfl
  · exact fun _ => ⟨c, by simp, hc⟩
  · rw [hempty.1, hempty.2, htext, List.append_assoc]
    exact .nil _

/-- A character that goes into the buffer. -/
theorem kept (h : Read text p) {c : Char}
    (hc : (Scan.mk (behind .outside text) p.depth).Separates c → 0 < p.depth) :
    Read (text ++ [c]) { p with
      reading := c :: p.reading
      depth := (Scan.next (startsDeclaration (p.reading.reverse ++ [c]))
        ⟨behind .outside text, p.depth⟩ c).depth } := by
  obtain ⟨t, gap, htext, hlaid, hgap, hreading⟩ := h
  refine ⟨t, gap, ?_, hlaid, hgap, ?_⟩
  · rw [List.reverse_cons]
    conv => lhs; rw [htext]
    simp only [List.append_assoc]
  · rw [List.reverse_cons, behind_append .outside text]
    exact hreading.snoc hc

/-- Where a brace is open, what is being read starts with a declaration. -/
theorem declares (h : Read text p) (hpos : 0 < p.depth) (v : List Char) :
    startsDeclaration (p.reading.reverse ++ v) = true := by
  obtain ⟨_, _, _, _, _, hreading⟩ := h
  exact hreading.declares hpos v

/-- A character within a line is read with its mask, and the statements so far stay. -/
theorem read (h : Read text p) {c : Char} (hc : c ≠ '\n') :
    Read (text ++ [c]) (p.read c ((behind .outside text).shown c)) := by
  have hvalid : (behind .outside text).Valid := Valid.behind (q := .outside) trivial text
  rw [Progress.read_eq hvalid fun hpos => h.declares hpos [c]]
  split
  · rename_i hs
    exact h.separated hs.1 (Or.inr hs.2.1)
  · rename_i hs
    refine h.kept ?_
    rintro (hnl | ⟨rfl, hout⟩)
    · exact absurd hnl hc
    · exact Nat.pos_of_ne_zero fun hzero => hs ⟨hzero, rfl, hout⟩

theorem chars (line : List Char) : ∀ {text : List Char} {p : Progress}, Read text p →
    '\n' ∉ line → Read (text ++ line)
      ((line.zip (maskFrom (behind .outside text) line)).foldl (fun p (c, m) => p.read c m) p) := by
  induction line with
  | nil =>
    intro text p h _
    rw [List.append_nil]
    exact h
  | cons c line ih =>
    intro text p h hline
    have hc : c ≠ '\n' := fun he => hline (by rw [he]; exact List.mem_cons_self)
    have hnext := ih (h.read hc) fun hm => hline (List.mem_cons_of_mem c hm)
    have hbehind : behind .outside (text ++ [c]) = (behind .outside text).next c := by
      rw [behind_append]
      simp [behind, inLine, hc]
    rw [hbehind, List.append_assoc] at hnext
    exact hnext

/-- A line and its end. -/
theorem readLine (h : Read text p) (hstart : behind .outside text = .outside) {line : List Char}
    (hline : '\n' ∉ line) : Read (text ++ (line ++ ['\n'])) (p.readLine line) := by
  have hread := h.chars line hline
  rw [hstart] at hread
  unfold Progress.readLine
  rw [← List.append_assoc]
  dsimp only [mask]
  generalize (line.zip (maskFrom .outside line)).foldl (fun p (c, m) => p.read c m) p = q at hread ⊢
  split
  · rename_i hpos
    have hkept := hread.kept (c := '\n') fun _ => hpos
    -- a line feed changes no depth
    have hdepth : (Scan.next (startsDeclaration (q.reading.reverse ++ ['\n']))
        ⟨behind .outside (text ++ line), q.depth⟩ '\n').depth = q.depth := by
      simp [Scan.next]
    rw [hdepth] at hkept
    exact hkept
  · exact hread.separated (by omega) (Or.inl rfl)

/-- A text, line by line. -/
theorem lines (ls : List (List Char)) : ∀ {text : List Char} {p : Progress}, Read text p →
    behind .outside text = .outside → (∀ line ∈ ls, '\n' ∉ line) →
    Read (text ++ ls.flatMap fun line => line ++ ['\n']) (ls.foldl Progress.readLine p) := by
  induction ls with
  | nil =>
    intro text p h _ _
    rw [List.flatMap_nil, List.append_nil]
    exact h
  | cons line ls ih =>
    intro text p h hstart hls
    have hline := h.readLine hstart (hls line List.mem_cons_self)
    have hend : behind .outside (text ++ (line ++ ['\n'])) = .outside := by
      rw [← List.append_assoc, behind_append]
      rfl
    have hrest := ih hline hend fun l hl => hls l (List.mem_cons_of_mem line hl)
    rw [List.append_assoc] at hrest
    exact hrest

end Read
/-- A whole text, with a line feed behind its last line. -/
theorem ofText_laid (code : List Char) : ∃ depth text gap,
    (Text.lines code).flatMap (fun line => line ++ ['\n']) = text ++ gap ∧ IsFiller gap
      ∧ Laid depth text (ofText code).all
      ∧ (ofText code).unclosed = if 0 < depth then (ofText code).all.getLast? else none := by
  have hread := Read.nil.lines (Text.lines code) rfl fun _ hline => notMem_lines hline
  unfold ofText
  generalize (Text.lines code).foldl Progress.readLine ⟨[], [], 0⟩ = p at hread ⊢
  obtain ⟨text, gap, htext, hlaid, hgap⟩ := hread.flush
  refine ⟨p.depth, text, gap, htext, hgap, hlaid, ?_⟩
  dsimp only
  split
  · rename_i hpos
    -- the block left open is what the last flush puts on
    have hdecl := hread.declares hpos []
    rw [List.append_nil] at hdecl
    have hne := trim_ne_nil_of_declaration hdecl
    unfold Progress.flush
    split
    · contradiction
    · rw [List.reverse_cons, List.getLast?_concat]
  · rfl

end Statements

/-- **The statements are the text.**  The lines of a text, joined with line feeds, are its statements
    in order with gaps of blanks and semicolons before, between and behind them.  In a statement
    line feeds and bare semicolons stand only at positive depth.  Every statement ends at depth
    zero, but the last one at a positive depth exactly if there is a diagnostic: that of a block
    left open, which is the last statement. -/
theorem statements_of_text (code : List Char) : ∃ depth text gap,
    join ['\n'] (lines code) = text ++ gap ∧ IsFiller gap
      ∧ Laid depth text (Statements.ofText code).all
      ∧ Registry.unclosedDiagnostics code =
        if 0 < depth then
          (Statements.ofText code).all.getLast?.toList.map fun s => ⟨.unclosedBlock, s⟩
        else [] := by
  obtain ⟨depth, text, gap, htext, hgap, hlaid, hunclosed⟩ := Statements.ofText_laid code
  have hdiag : Registry.unclosedDiagnostics code =
      if 0 < depth then
        (Statements.ofText code).all.getLast?.toList.map fun s => ⟨.unclosedBlock, s⟩
      else [] := by
    rw [Registry.unclosedDiagnostics, hunclosed]
    split
    · rfl
    · rfl
  by_cases hls : lines code = []
  · rw [hls] at htext ⊢
    exact ⟨depth, text, gap, htext, hgap, hlaid, hdiag⟩
  · rw [flatMap_line_feed hls] at htext
    -- the line feed behind the last line belongs to the gap
    rcases List.eq_nil_or_concat gap with rfl | ⟨init, last, rfl⟩
    · rw [List.append_nil] at htext
      have hlast := hlaid.getLast (c := '\n') (by rw [← htext, List.getLast?_concat])
      exact absurd hlast (by decide)
    · rw [List.concat_eq_append] at htext hgap
      rw [← List.append_assoc] at htext
      obtain ⟨hjoin, -⟩ := List.append_inj' htext rfl
      exact ⟨depth, text, init, hjoin, fun c hc => hgap c (List.mem_append_left _ hc), hlaid,
        hdiag⟩

end LetTag
