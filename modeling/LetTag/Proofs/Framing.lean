/-
  A declaration around a literal, and what a line break in the literal makes of it.

  The reader takes a declaration line by line, and the mask of a line ends every literal with it.  So
  where the text of a literal has no line break, a declaration around it is the one statement
  (`Frame.ofText_raw`).  At the first line break the literal is cut, and the first statement begins
  with what stands before the break (`Frame.ofText_broken`).  Either the statement ends there, or a
  brace is open and it goes on in the next line; both leave the literal open.  `Begins` is what the
  reader keeps of this from the first line on.
-/
import LetTag.Proofs.Indentation
import LetTag.Proofs.Nesting
import LetTag.Proofs.RawText

namespace LetTag

open Text Arrow

/-- A text with a line break, cut at the first one. -/
theorem Text.exists_first_break {s : List Char} (h : ∃ c ∈ s, isBreak c = true) : ∃ a b w,
    s = a ++ b :: w ∧ (∀ c ∈ a, isBreak c = false) ∧ isBreak b = true := by
  induction s with
  | nil =>
    obtain ⟨c, hc, -⟩ := h
    cases hc
  | cons d s ih =>
    cases hd : isBreak d with
    | true => exact ⟨[], d, s, rfl, nofun, hd⟩
    | false =>
      have hrest : ∃ c ∈ s, isBreak c = true := by
        obtain ⟨c, hc, hcb⟩ := h
        rcases List.mem_cons.mp hc with rfl | hc
        · rw [hd] at hcb
          cases hcb
        · exact ⟨c, hc, hcb⟩
      obtain ⟨a, b, w, rfl, ha, hb⟩ := ih hrest
      exact ⟨d :: a, b, w, rfl, List.forall_mem_cons.mpr ⟨hd, ha⟩, hb⟩

/-! ## The mask -/

theorem maskFrom_plain {w : List Char} (hw : ∀ c ∈ w, Quoting.isQuote c = false) (rest : List Char) :
    maskFrom .outside (w ++ rest) = w ++ maskFrom .outside rest := by
  induction w with
  | nil => rfl
  | cons c w ih =>
    obtain ⟨hc, hw⟩ := List.forall_mem_cons.mp hw
    rw [List.cons_append, maskFrom_cons hc, ih hw, List.cons_append]

/-- The mask hides what stands behind a quote up to the end of the line. -/
theorem maskFrom_raw {a : List Char} (ha : ∀ c ∈ a, IsRaw c) :
    maskFrom (.inside '"' false) a = List.replicate a.length ' ' := by
  induction a with
  | nil => rfl
  | cons c a ih =>
    obtain ⟨hc, ha⟩ := List.forall_mem_cons.mp ha
    rw [maskFrom]
    simp only [Quoting.shown, Quoting.next, hc.1, hc.2.1, hc.ne_feed, or_self, and_false, if_false]
    rw [ih ha]
    rfl

/-- Text without line ends, quotes and backslashes may stand in a literal. -/
theorem enclosed_of_raw {s : List Char} (hs : ∀ c ∈ s, IsRaw c) : Enclosed '"' s := by
  induction s with
  | nil => exact .nil
  | cons c s ih =>
    obtain ⟨hc, hs⟩ := List.forall_mem_cons.mp hs
    exact .plain hc.2.1 hc.ne_feed hc.1 (ih hs)

namespace Statements

/-- Text without quotes goes into statements as it is. -/
theorem masked_plain {w : List Char} (hw : ∀ c ∈ w, Quoting.isQuote c = false) (rest : List Char) :
    masked (w ++ rest) = w.zip w ++ masked rest := by
  unfold masked
  rw [maskFrom_plain hw, List.zip_append rfl]

/-- A literal that is not closed is read as it stands. -/
theorem readAll_raw {a : List Char} (ha : ∀ c ∈ a, IsRaw c) (p : Progress) :
    p.readAll (masked ('"' :: a)) = { p with reading := a.reverse ++ '"' :: p.reading } := by
  have hmasked : masked ('"' :: a) = ('"' :: a).zip ('"' :: List.replicate a.length ' ') := by
    show ('"' :: a).zip ('"' :: maskFrom (.inside '"' false) a) = _
    rw [maskFrom_raw ha]
  have hplain : ∀ x ∈ ('"' :: a).zip ('"' :: List.replicate a.length ' '),
      x.2 ∉ ['\x7b', '\x7d', ';'] := by
    intro x hx
    rcases List.mem_cons.mp (List.of_mem_zip hx).2 with hx | hx
    · rw [hx]
      decide
    · rw [List.eq_of_mem_replicate hx]
      decide
  have hfst : (('"' :: a).zip ('"' :: List.replicate a.length ' ')).map Prod.fst = '"' :: a :=
    List.map_fst_zip (by simp)
  rw [hmasked, Progress.readAll_plain _ p hplain, hfst, List.reverse_cons, List.append_assoc]
  rfl

/-! ## The first statement -/

/-- The first statement begins with `front`, and what follows in it starts a line: it is finished, or
    it is being read. -/
inductive Begins (front : List Char) (p : Progress) : Prop where
  | finished (u : List Char) : LeavesOpen u → p.finished.getLast? = some (trim (front ++ u)) →
    Begins front p
  | reading (u : List Char) : p.finished = [] → p.reading.reverse = front ++ '\n' :: u →
    Begins front p

/-- One more character in the buffer. -/
theorem Begins.snoc {front : List Char} {p : Progress} (h : Begins front p) (c : Char) (depth : Nat) :
    Begins front ⟨p.finished, c :: p.reading, depth⟩ := by
  cases h with
  | finished u hu hlast => exact .finished u hu hlast
  | reading u hfinished hreading =>
    refine .reading (u ++ [c]) hfinished ?_
    show (c :: p.reading).reverse = _
    rw [List.reverse_cons, hreading, List.append_assoc]
    rfl

section

variable {front : List Char} (hfront : front.head?.any (!isBlank ·) = true)
include hfront

/-- Text that starts with no blank is not all blank. -/
theorem trim_ne_nil_of_head (u : List Char) : trim (front ++ u) ≠ [] := by
  cases front with
  | nil => cases hfront
  | cons c front =>
    have hc : isBlank c = false := Bool.not_eq_true' _ ▸ hfront
    rw [List.cons_append, trim, trimLeft_of_head hc]
    have htrim := trimRight_behind [] hc (front ++ u)
    rw [List.nil_append] at htrim
    rw [htrim]
    exact List.cons_ne_nil _ _

/-- A text that is all there is of a statement is finished as it is. -/
theorem flush_first {p : Progress} (hfinished : p.finished = []) {u : List Char}
    (hreading : p.reading.reverse = front ++ u) : p.flush.finished = [trim (front ++ u)] := by
  have hne := trim_ne_nil_of_head hfront u
  unfold Progress.flush
  rw [hreading]
  split
  · contradiction
  · dsimp only
    rw [hfinished]

/-- When the statement ends, it is what stood in front with what was left open behind. -/
theorem Begins.flush {p : Progress} (h : Begins front p) : ∃ u, LeavesOpen u
    ∧ p.flush.finished.getLast? = some (trim (front ++ u)) := by
  cases h with
  | finished u hu hlast =>
    refine ⟨u, hu, ?_⟩
    unfold Progress.flush
    split
    · exact hlast
    · dsimp only
      rw [List.getLast?_cons, hlast]
      rfl
  | reading u hfinished hreading =>
    refine ⟨'\n' :: u, .feed, ?_⟩
    rw [flush_first hfront hfinished hreading]
    rfl

/-- Statements that end later leave the first one as it is. -/
theorem Begins.flushed {p : Progress} (h : Begins front p) : Begins front p.flush := by
  obtain ⟨u, hu, hlast⟩ := h.flush hfront
  exact .finished u hu hlast

theorem Begins.read {p : Progress} (h : Begins front p) (c m : Char) : Begins front (p.read c m) := by
  unfold Progress.read
  split
  · exact h.snoc c _
  · split
    · exact h.flushed hfront
    · exact h.snoc c _

theorem Begins.readLine {p : Progress} (h : Begins front p) (line : List Char) :
    Begins front (p.readLine line) := by
  have hall : ∀ (cs : List (Char × Char)) {q : Progress}, Begins front q →
      Begins front (q.readAll cs) := by
    intro cs
    induction cs with
    | nil => exact fun hq => hq
    | cons x cs ih => exact fun hq => ih (hq.read hfront x.1 x.2)
  rw [Progress.readLine_eq]
  dsimp only
  split
  · exact (hall (masked line) h).snoc '\n' _
  · exact (hall (masked line) h).flushed hfront

theorem Begins.lines (ls : List (List Char)) : ∀ {p : Progress}, Begins front p →
    Begins front (ls.foldl Progress.readLine p) := by
  induction ls with
  | nil => exact fun h => h
  | cons line ls ih => exact fun h => ih (h.readLine hfront line)

end

/-! ## Frames -/

/-- A declaration with a place for a literal; `depth` braces are open there. -/
structure Frame where
  before : List Char
  behind : List Char
  depth : Nat
  unquoted : ∀ c ∈ before, Quoting.isQuote c = false
  unbroken : ∀ c ∈ before ++ behind, isBreak c = false
  starts : before.head?.any (!isBlank ·) = true
  ends : ∀ c, behind.getLast? = some c → isBlank c = false
  opens : Progress.readAll ⟨[], [], 0⟩ (before.zip before) = ⟨[], before.reverse, depth⟩
  closes : ∀ buffer, Progress.readAll ⟨[], buffer, depth⟩ (masked behind)
    = ⟨[], behind.reverse ++ buffer, 0⟩

namespace Frame

/-- The declaration with the literal of a text. -/
def text (f : Frame) (s : List Char) : List Char :=
  f.before ++ '"' :: (s ++ '"' :: f.behind)

/-- What stands in front of the text starts with no blank. -/
theorem head_before (f : Frame) (d : Char) (hd : f.before.head? = some d) : isBlank d = false := by
  have hstarts := f.starts
  rw [hd] at hstarts
  exact Bool.not_eq_true' _ ▸ hstarts

theorem trim_text (f : Frame) (s : List Char) : trim (f.text s) = f.text s := by
  have hsplit : f.text s = (f.before ++ '"' :: s) ++ '"' :: f.behind := by
    unfold text
    rw [List.append_assoc, List.cons_append]
  have hhead : ∀ d, (f.before ++ '"' :: s).head? = some d → isBlank d = false := by
    intro d hd
    cases hbefore : f.before with
    | nil =>
      rw [hbefore] at hd
      exact Option.some.inj hd ▸ isBlank_quote
    | cons c before =>
      rw [hbefore] at hd
      exact f.head_before d (hbefore ▸ hd)
  rw [hsplit, trim_behind hhead isBlank_quote, trimRight_of_last f.ends]

/-- Up to the opening quote, what stands in front has been read, and no statement has ended. -/
theorem readAll_before (f : Frame) (rest : List Char) :
    Progress.readAll ⟨[], [], 0⟩ (masked (f.before ++ rest))
      = Progress.readAll ⟨[], f.before.reverse, f.depth⟩ (masked rest) := by
  rw [masked_plain f.unquoted, Progress.readAll_append, f.opens]

/-- **A text without line breaks stays in its statement.** -/
theorem ofText_raw (f : Frame) {s : List Char} (hs : ∀ c ∈ s, IsRaw c) :
    ofText (f.text s) = ⟨[f.text s], none⟩ := by
  have hbreak : ∀ c ∈ f.text s, isBreak c = false := by
    obtain ⟨hbefore, hbehind⟩ := List.forall_mem_append.mp f.unbroken
    have hplain : ∀ c ∈ s, isBreak c = false := fun c hc => (hs c hc).2.2
    have hquote : isBreak '"' = false := rfl
    have hclosed := List.forall_mem_append.mpr ⟨hplain, List.forall_mem_cons.mpr ⟨hquote, hbehind⟩⟩
    exact List.forall_mem_append.mpr ⟨hbefore, List.forall_mem_cons.mpr ⟨hquote, hclosed⟩⟩
  have hne : f.text s ≠ [] := List.append_ne_nil_of_right_ne_nil _ (List.cons_ne_nil _ _)
  have hread : Progress.readAll ⟨[], [], 0⟩ (masked (f.text s)) = ⟨[], (f.text s).reverse, 0⟩ := by
    unfold text
    rw [f.readAll_before, readAll_literal (by decide) (enclosed_of_raw hs), f.closes]
    simp
  have hline : Progress.readLine ⟨[], [], 0⟩ (f.text s) = ⟨[f.text s], [], 0⟩ := by
    rw [Progress.readLine_eq, hread]
    dsimp only
    rw [if_neg (Nat.lt_irrefl 0), Progress.flush, List.reverse_reverse, f.trim_text]
    split
    · contradiction
    · rfl
  unfold ofText
  rw [lines_of_not_break hbreak hne, List.foldl_cons, hline]
  rfl

theorem starts_open (f : Frame) (a : List Char) :
    (f.before ++ '"' :: a).head?.any (!isBlank ·) = true := by
  have hstarts := f.starts
  cases hbefore : f.before with
  | nil =>
    rw [hbefore] at hstarts
    cases hstarts
  | cons c before =>
    rw [hbefore] at hstarts
    exact hstarts

/-- Behind a first line that ends in the literal, the first statement begins with this line. -/
theorem begins (f : Frame) {a : List Char} (ha : ∀ c ∈ a, IsRaw c) :
    Begins (f.before ++ '"' :: a) (Progress.readLine ⟨[], [], 0⟩ (f.before ++ '"' :: a)) := by
  have hread : Progress.readAll ⟨[], [], 0⟩ (masked (f.before ++ '"' :: a))
      = ⟨[], (f.before ++ '"' :: a).reverse, f.depth⟩ := by
    rw [f.readAll_before, readAll_raw ha]
    simp
  rw [Progress.readLine_eq, hread]
  dsimp only
  split
  · refine .reading [] rfl ?_
    rw [List.reverse_cons, List.reverse_reverse]
  · refine .finished [] .ended ?_
    rw [flush_first (f.starts_open a) (u := []) rfl (by rw [List.reverse_reverse, List.append_nil])]
    rfl

/-- **At a line break the literal is cut.**  The first statement begins as the declaration does, and
    its literal is not closed. -/
theorem ofText_broken (f : Frame) {s : List Char} (hs : ∀ c ∈ s, c ≠ '"' ∧ c ≠ '\\')
    (hbreak : ∃ c ∈ s, isBreak c = true) : ∃ t rest, LeavesOpen t
      ∧ (ofText (f.text s)).all = (f.before ++ '"' :: t) :: rest := by
  obtain ⟨a, b, w, rfl, ha, hb⟩ := exists_first_break hbreak
  have hraw : ∀ c ∈ a, IsRaw c := fun c hc =>
    ⟨(hs c (List.mem_append_left _ hc)).1, (hs c (List.mem_append_left _ hc)).2, ha c hc⟩
  have htext : f.text (a ++ b :: w) = f.before ++ '"' :: a ++ b :: (w ++ '"' :: f.behind) := by
    unfold text
    simp only [List.append_assoc, List.cons_append]
  have hunbroken : ∀ c ∈ f.before ++ '"' :: a, isBreak c = false :=
    List.forall_mem_append.mpr ⟨(List.forall_mem_append.mp f.unbroken).1,
      List.forall_mem_cons.mpr ⟨rfl, ha⟩⟩
  obtain ⟨ls, hlines, -⟩ := lines_append_break hunbroken hb (w ++ '"' :: f.behind)
  -- the first line leaves the literal open, and no later line changes how the statement begins
  have hbegins := (f.begins hraw).lines (f.starts_open a) ls
  obtain ⟨u, hu, hlast⟩ := hbegins.flush (f.starts_open a)
  have hopen : LeavesOpen (trimRight (a ++ u)) :=
    ((LeavesOpen.of_raw hraw).append hu).of_initial (trimRight_initial _)
  have htrim : trim (f.before ++ '"' :: a ++ u) = f.before ++ '"' :: trimRight (a ++ u) := by
    rw [List.append_assoc, List.cons_append]
    exact trim_behind f.head_before isBlank_quote _
  rw [htrim, ← List.head?_reverse] at hlast
  obtain ⟨rest, hrest⟩ := List.head?_eq_some_iff.mp hlast
  refine ⟨_, rest, hopen, ?_⟩
  unfold ofText
  rw [htext, hlines]
  exact hrest

end Frame

end Statements
end LetTag
