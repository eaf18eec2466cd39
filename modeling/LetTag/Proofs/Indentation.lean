/-
  Indented text stays inside.

  Indentation and the scan of lines go by the same line breaks.  So where all lines but the first are
  inside, the scan finds that they keep to the function, whatever is open (`keepsLines_of_lines`).  Every
  line of an indented text is inside (`isInside_of_mem_indent`), and carriage returns that are read as
  line feeds change no line.
-/
import LetTag.Proofs.Position
import LetTag.Proofs.Source

namespace LetTag.Text

open Script

/-! ## The lines of a text -/

/-- A break ends a line, alone or with the line feed behind it. -/
theorem lines_of_break {c : Char} (hc : isBreak c = true) (s : List Char) :
    lines (c :: s) = [] :: lines s
      ∨ ∃ tail, s = '\n' :: tail ∧ lines (c :: s) = [] :: lines tail := by
  by_cases hreturn : c = '\r' → s.head? ≠ some '\n'
  · exact Or.inl (lines_break hc hreturn)
  · simp only [Classical.not_imp, ne_eq, not_not] at hreturn
    obtain ⟨rfl, hs⟩ := hreturn
    obtain ⟨tail, rfl⟩ := List.head?_eq_some_iff.mp hs
    exact Or.inr ⟨tail, rfl, lines_return_feed tail⟩

/-- The first line goes to the first break. -/
theorem lines_head {s l : List Char} {ls : List (List Char)} (h : lines s = l :: ls) :
    l = s.takeWhile (!isBreak ·) := by
  induction s generalizing l ls with
  | nil => cases h
  | cons c rest ih =>
    cases hc : isBreak c with
    | true =>
      rw [List.takeWhile_cons_of_neg (by simp [hc])]
      rcases lines_of_break hc rest with hlines | ⟨_, -, hlines⟩
      all_goals
        rw [hlines] at h
        exact (List.cons.inj h).1.symm
    | false =>
      rw [List.takeWhile_cons_of_pos (by simp [hc])]
      rw [lines_cons hc] at h
      cases hlines : lines rest with
      | nil =>
        rw [hlines] at h
        rw [eq_nil_of_lines hlines]
        exact (List.cons.inj h).1.symm
      | cons m ms =>
        rw [hlines] at h
        rw [← ih hlines]
        exact (List.cons.inj h).1.symm

/-- Where carriage returns are read as line feeds, the lines are the same. -/
theorem lines_unifyNewlines (s : List Char) : lines (unifyNewlines s) = lines s := by
  induction s using unifyNewlines.induct with
  | case1 => rfl
  | case2 rest ih =>
    rw [unifyNewlines, lines_feed, ih]
    rfl
  | case3 c rest hreturn ih =>
    rw [unifyNewlines]
    · by_cases hc : c = '\r'
      · subst hc
        rw [if_pos rfl, lines_feed, lines_break (by decide), ih]
        intro _ hhead
        obtain ⟨tail, rfl⟩ := List.head?_eq_some_iff.mp hhead
        exact hreturn tail rfl rfl
      · rw [if_neg hc]
        cases hbreak : isBreak c with
        | true => rw [lines_break hbreak fun h => absurd h hc, lines_break hbreak fun h => absurd h hc, ih]
        | false => rw [lines_cons hbreak, lines_cons hbreak, ih]
    · exact hreturn

/-- Behind a break that ends a line, there are the lines of the rest. -/
theorem lines_append_break {u : List Char} (hu : ∀ d ∈ u, isBreak d = false) {c : Char}
    (hc : isBreak c = true) (s : List Char) :
    ∃ ls, lines (u ++ c :: s) = u :: ls ∧ ∀ l ∈ ls, l ∈ lines s := by
  induction u with
  | nil =>
    rw [List.nil_append]
    rcases lines_of_break hc s with hlines | ⟨tail, rfl, hlines⟩
    · exact ⟨lines s, hlines, fun l hl => hl⟩
    · refine ⟨lines tail, hlines, fun l hl => ?_⟩
      rw [lines_feed]
      exact List.mem_cons_of_mem _ hl
  | cons d u ih =>
    obtain ⟨hd, hu⟩ := List.forall_mem_cons.mp hu
    obtain ⟨ls, hlines, hls⟩ := ih hu
    refine ⟨ls, ?_, hls⟩
    rw [List.cons_append, lines_cons hd, hlines]
    rfl

/-! ## Lines inside -/

/-- A text of lines that are inside starts inside. -/
theorem startsInside_of_lines {s : List Char} (h : ∀ l ∈ lines s, isInside l = true) :
    startsInside s = true := by
  cases hlines : lines s with
  | nil =>
    rw [eq_nil_of_lines hlines]
    rfl
  | cons l ls =>
    have hl := h l (by rw [hlines]; exact List.mem_cons_self)
    rw [lines_head hlines] at hl
    exact hl

/-- **Lines inside keep to the function**, wherever the scan stands. -/
theorem keepsLines_of_lines {s : List Char} (h : ∀ l ∈ (lines s).tail, isInside l = true)
    (p : Position) : keepsLines p s = true := by
  induction s generalizing p with
  | nil => rfl
  | cons c rest ih =>
    refine keepsLines_cons.mpr ?_
    cases hc : isBreak c with
    | false =>
      refine ⟨nofun, ih ?_ _⟩
      rw [lines_cons hc] at h
      cases hlines : lines rest with
      | nil => exact fun l hl => absurd hl List.not_mem_nil
      | cons m ms =>
        rw [hlines] at h
        exact h
    | true =>
      have hrest : ∀ l ∈ lines rest, isInside l = true := by
        rcases lines_of_break hc rest with hlines | ⟨tail, rfl, hlines⟩
        · rw [hlines] at h
          exact h
        · rw [hlines] at h
          rw [lines_feed]
          exact List.forall_mem_cons.mpr ⟨rfl, h⟩
      exact ⟨fun _ _ => startsInside_of_lines hrest, ih (fun l hl => hrest l (List.mem_of_mem_tail hl)) _⟩

/-! ## Indentation -/

/-- The endings of the lines of a text: each is one break, and only the last line may have none. -/
def Ended : List (List Char × List Char) → Prop
  | [] => True
  | (_, ending) :: more =>
    (ending = [] ∧ more = [] ∨ ending = ['\r', '\n'] ∨ ∃ c, ending = [c] ∧ isBreak c = true)
    ∧ Ended more

/-- All lines of a text but the last one end in a line break. -/
theorem ended_brokenLines (s : List Char) : Ended (brokenLines s) := by
  induction s using brokenLines.induct with
  | case1 => trivial
  | case2 rest ih =>
    rw [brokenLines]
    exact ⟨Or.inr (Or.inl rfl), ih⟩
  | case3 c rest hreturn hbreak ih =>
    rw [brokenLines, if_pos hbreak]
    · exact ⟨Or.inr (Or.inr ⟨c, rfl, hbreak⟩), ih⟩
    · exact hreturn
  | case4 c rest hreturn hbreak hrest _ =>
    rw [brokenLines, if_neg hbreak, hrest]
    · exact ⟨Or.inl ⟨rfl, rfl⟩, trivial⟩
    · exact hreturn
  | case5 c rest hreturn hbreak line ending more hrest ih =>
    rw [brokenLines, if_neg hbreak, hrest]
    · rw [hrest] at ih
      exact ih
    · exact hreturn

/-- Lines that are indented, put together again. -/
theorem isInside_of_mem_indented {pieces : List (List Char × List Char)} (hended : Ended pieces)
    (hlines : ∀ piece ∈ pieces, ∀ c ∈ piece.1, isBreak c = false) :
    ∀ l ∈ lines (pieces.flatMap (fun (line, ending) =>
      (if allBlank line then [] else Arrow.margin) ++ line ++ ending) ++ ['\n']), isInside l = true := by
  induction pieces with
  | nil => decide
  | cons piece pieces ih =>
    obtain ⟨line, ending⟩ := piece
    obtain ⟨hending, hmore⟩ := hended
    obtain ⟨hline, hlines⟩ := List.forall_mem_cons.mp hlines
    have ih := ih hmore hlines
    rw [List.flatMap_cons]
    dsimp only
    rw [List.append_assoc, List.append_assoc]
    generalize hs : pieces.flatMap _ ++ ['\n'] = s at ih ⊢
    -- the line with its margin is one line, and inside
    generalize hindented : (if allBlank line then [] else Arrow.margin) ++ line = indented
    have hinside : isInside indented = true := by
      rw [← hindented]
      unfold isInside
      split
      · rename_i hblank
        rw [List.nil_append, hblank]
        rfl
      · rw [List.isPrefixOf_iff_prefix.mpr (List.prefix_append _ _), Bool.or_true]
    have hplain : ∀ c ∈ indented, isBreak c = false := by
      intro c hc
      rw [← hindented] at hc
      rcases List.mem_append.mp hc with hc | hc
      · have hmargin : ∀ c ∈ Arrow.margin, isBreak c = false := by decide
        split at hc
        · exact absurd hc List.not_mem_nil
        · exact hmargin c hc
      · exact hline c hc
    have hbehind : ∀ {c : Char} {t : List Char}, isBreak c = true →
        (∀ l ∈ lines t, isInside l = true) → ∀ l ∈ lines (indented ++ c :: t), isInside l = true := by
      intro c t hc ht
      obtain ⟨ls, hlines, hls⟩ := lines_append_break hplain hc t
      rw [hlines]
      exact List.forall_mem_cons.mpr ⟨hinside, fun l hl => ht l (hls l hl)⟩
    rcases hending with ⟨rfl, rfl⟩ | rfl | ⟨c, rfl, hc⟩
    · rw [← hs]
      exact hbehind (c := '\n') rfl nofun
    · refine hbehind (c := '\r') rfl ?_
      show ∀ l ∈ lines ('\n' :: s), isInside l = true
      rw [lines_feed]
      exact List.forall_mem_cons.mpr ⟨rfl, ih⟩
    · exact hbehind hc ih

/-- **Every line of an indented text is inside.** -/
theorem isInside_of_mem_indent (s : List Char) :
    ∀ l ∈ lines (indent Arrow.margin s ++ ['\n']), isInside l = true :=
  isInside_of_mem_indented (ended_brokenLines s) (not_break_of_brokenLines s)

end LetTag.Text
