/-
  The split of a text at its top-level separators, said by its pieces.

  A scan through a text has a `Bracketing`: whether it stands in a literal, and how many brackets are
  open.
  A separator cuts where the scan is at the `top`, outside both.  `Cuts` says what the pieces of a text
  are: none has a separator at the top, each but the last ends at the top again, and the text is the
  pieces with separators between them.  The scan is deterministic, so a text is cut in one way, and
  `topLevelPieces` finds it (`pieces_eq_iff`): to know the parts of a text it is enough to exhibit
  them.

  Each piece begins with the scan at the top, as the text does, and so would it on its own.  So texts that
  leave nothing open are the parts of what joins them, and a part is never split further
  (`topLevelParts_of_joined`).
-/
import LetTag.Proofs.Nesting

namespace LetTag

open Text

/-- Where a scan stands: in a literal or not, and how many brackets are open. -/
structure Bracketing where
  quoting : Quoting
  depth : Nat
  deriving DecidableEq

namespace Bracketing

/-- Outside literals and brackets. -/
def top : Bracketing :=
  ⟨.outside, 0⟩

/-- Where the scan stands after `c`.  Brackets count where the mask shows them, and one that closes
    nothing is ignored. -/
def next (l : Bracketing) (c : Char) : Bracketing where
  quoting := l.quoting.next c
  depth :=
    if isOpener (l.quoting.shown c) then l.depth + 1
    else if isCloser (l.quoting.shown c) then l.depth - 1
    else l.depth

/-- Where the scan stands behind a text. -/
def behind (l : Bracketing) (s : List Char) : Bracketing :=
  s.foldl next l

/-- The brackets behind two texts are those behind the second, from those behind the first. -/
theorem behind_append (l : Bracketing) (s t : List Char) : l.behind (s ++ t) = (l.behind s).behind t :=
  List.foldl_append

/-- A text without a separator at the top, where the scan starts at `l`. -/
def Unsplit (sep : Char) (l : Bracketing) (s : List Char) : Prop :=
  ∀ before after, s = before ++ sep :: after → l.behind before ≠ top

/-- The pieces that the separators at the top make of a text, where the scan starts at `l`. -/
inductive Cuts (sep : Char) : Bracketing → List Char → List (List Char) → Prop where
  | last {l : Bracketing} {s : List Char} : Unsplit sep l s → Cuts sep l s [s]
  | cut {l : Bracketing} {piece rest : List Char} {pieces : List (List Char)} :
    Unsplit sep l piece → l.behind piece = top → Cuts sep top rest pieces →
    Cuts sep l (piece ++ sep :: rest) (piece :: pieces)

end Bracketing

/-- What a separator has to be: no bracket, no quote and no blank. -/
structure IsSeparator (sep : Char) : Prop where
  opener : isOpener sep = false
  closer : isCloser sep = false
  quote : Quoting.isQuote sep = false
  blank : isBlank sep = false

theorem isSeparator_comma : IsSeparator ',' :=
  ⟨by decide, by decide, by decide, by decide⟩

theorem isSeparator_colon : IsSeparator ':' :=
  ⟨by decide, by decide, by decide, by decide⟩

section

variable {sep : Char}

/-- The mask shows a separator only where one stands outside literals. -/
theorem IsSeparator.shown_iff (hsep : IsSeparator sep) {q : Quoting} (h : q.Valid) (c : Char) :
    q.shown c = sep ↔ q = .outside ∧ c = sep := by
  have hspace : ' ' ≠ sep := by
    rintro rfl
    exact absurd hsep.blank (by decide)
  have hfeed : '\n' ≠ sep := by
    rintro rfl
    exact absurd hsep.blank (by decide)
  match q with
  | .outside => simp [Quoting.shown]
  | .inside quote true => simp [Quoting.shown, hspace]
  | .inside quote false =>
    have hquote : quote ≠ sep := by
      rintro rfl
      rw [Quoting.Valid, hsep.quote] at h
      cases h
    show (if c ≠ '\\' ∧ (c = quote ∨ c = '\n') then c else ' ') = sep ↔ _
    split
    · rename_i hc
      rcases hc.2 with rfl | rfl
      · simp [hquote]
      · simp [hfeed]
    · simp [hspace]

theorem IsSeparator.next_top (hsep : IsSeparator sep) : Bracketing.top.next sep = .top := by
  simp [Bracketing.next, Bracketing.top, Quoting.next, Quoting.shown, hsep.opener, hsep.closer, hsep.quote]

namespace Bracketing

theorem Unsplit.nil (l : Bracketing) : Unsplit sep l [] := by
  intro before after h
  cases before with
  | nil => cases h
  | cons c before => cases h

/-- The first character is no separator at the top, and there is none behind it. -/
theorem unsplit_cons_iff {l : Bracketing} {c : Char} {s : List Char} :
    Unsplit sep l (c :: s) ↔ (c = sep → l ≠ top) ∧ Unsplit sep (l.next c) s := by
  constructor
  · refine fun h => ⟨?_, fun before after hs => h (c :: before) after (congrArg (c :: ·) hs)⟩
    rintro rfl
    exact h [] s rfl
  · rintro ⟨hc, hs⟩ before after heq
    cases before with
    | nil =>
      obtain ⟨rfl, rfl⟩ := List.cons.inj heq
      exact hc rfl
    | cons d before =>
      obtain ⟨rfl, rfl⟩ := List.cons.inj heq
      exact hs before after rfl

/-! ## The split makes the pieces -/

/-- One character of the split: it cuts at the top, and goes on with the piece otherwise. -/
theorem pieces_step (hsep : IsSeparator sep) {l : Bracketing} (h : l.quoting.Valid) (c : Char)
    (rest : List Char) : topLevelPieces sep l.quoting l.depth (c :: rest)
      = if l = top ∧ c = sep then [] :: topLevelPieces sep .outside 0 rest
        else extendFirst c (topLevelPieces sep (l.next c).quoting (l.next c).depth rest) := by
  have hcut : l.quoting.shown c = sep ∧ l.depth = 0 ↔ l = top ∧ c = sep := by
    rw [hsep.shown_iff h]
    constructor
    · rintro ⟨⟨hq, hc⟩, hd⟩
      exact ⟨by cases l; cases hq; cases hd; rfl, hc⟩
    · rintro ⟨rfl, hc⟩
      exact ⟨⟨rfl, hc⟩, rfl⟩
  rw [topLevelPieces]
  by_cases htop : l = top ∧ c = sep
  · obtain ⟨rfl, rfl⟩ := htop
    have hnext : Quoting.outside.next c = .outside := congrArg Bracketing.quoting hsep.next_top
    have hshown : (top.quoting).shown c = c := rfl
    have hdepth : top.depth = 0 := rfl
    simp only [hshown, hdepth, hsep.opener, hsep.closer, Bool.false_eq_true, if_false, and_self,
      if_true]
    exact congrArg _ (congrArg (topLevelPieces c · 0 rest) hnext)
  · rw [if_neg htop]
    simp only [hcut, htop, if_false]
    unfold next
    split
    · rfl
    · split
      · rfl
      · rfl

/-- A text without separators at the top belongs to the piece in which it begins. -/
theorem Unsplit.pieces_append (hsep : IsSeparator sep) (s rest : List Char) : ∀ {l : Bracketing},
    l.quoting.Valid → Unsplit sep l s → topLevelPieces sep l.quoting l.depth (s ++ rest)
      = s.foldr extendFirst (topLevelPieces sep (l.behind s).quoting (l.behind s).depth rest) := by
  induction s with
  | nil => exact fun _ _ => rfl
  | cons c s ih =>
    intro l hvalid h
    obtain ⟨hc, hs⟩ := unsplit_cons_iff.mp h
    rw [List.cons_append, pieces_step hsep hvalid, if_neg fun hcut => hc hcut.2 hcut.1,
      ih (hvalid.next c) hs]
    rfl

/-- Put before a text, a character goes to its first piece, unless it cuts. -/
theorem Cuts.extend {l : Bracketing} {c : Char} {s : List Char} {pieces : List (List Char)}
    (hc : c = sep → l ≠ top) (h : Cuts sep (l.next c) s pieces) :
    Cuts sep l (c :: s) (extendFirst c pieces) := by
  cases h with
  | last hs => exact .last (unsplit_cons_iff.mpr ⟨hc, hs⟩)
  | cut hpiece hend hrest => exact .cut (unsplit_cons_iff.mpr ⟨hc, hpiece⟩) hend hrest

/-- What the split makes are the pieces. -/
theorem cuts_pieces (hsep : IsSeparator sep) (s : List Char) : ∀ {l : Bracketing}, l.quoting.Valid →
    Cuts sep l s (topLevelPieces sep l.quoting l.depth s) := by
  induction s with
  | nil => exact fun _ => .last (Unsplit.nil _)
  | cons c s ih =>
    intro l hvalid
    rw [pieces_step hsep hvalid]
    split
    · rename_i htop
      obtain ⟨rfl, rfl⟩ := htop
      exact .cut (Unsplit.nil _) rfl (ih (l := top) trivial)
    · rename_i htop
      exact (ih (hvalid.next c)).extend fun hc hl => htop ⟨hl, hc⟩

/-- There are no others. -/
theorem Cuts.pieces_eq (hsep : IsSeparator sep) {l : Bracketing} {s : List Char}
    {pieces : List (List Char)} (h : Cuts sep l s pieces) (hvalid : l.quoting.Valid) :
    topLevelPieces sep l.quoting l.depth s = pieces := by
  induction h with
  | @last l s hs =>
    have hall := hs.pieces_append hsep s [] hvalid
    rw [List.append_nil, topLevelPieces, foldr_extendFirst, List.append_nil] at hall
    exact hall
  | @cut l piece rest pieces hpiece hend _ ih =>
    have hrest : topLevelPieces sep .outside 0 rest = pieces := ih trivial
    rw [hpiece.pieces_append hsep piece _ hvalid, hend, pieces_step hsep (l := top) trivial,
      if_pos ⟨rfl, rfl⟩, hrest, foldr_extendFirst, List.append_nil]

/-- The split is the only way to cut a text. -/
theorem pieces_eq_iff (hsep : IsSeparator sep) {s : List Char} {pieces : List (List Char)} :
    topLevelPieces sep .outside 0 s = pieces ↔ Cuts sep top s pieces := by
  constructor
  · rintro rfl
    exact cuts_pieces hsep s (l := top) trivial
  · exact fun h => h.pieces_eq hsep trivial

end Bracketing

/-- The parts of a text: its pieces, trimmed, without the blank ones. -/
def HasParts (sep : Char) (s : List Char) (parts : List (List Char)) : Prop :=
  ∃ pieces, Bracketing.Cuts sep .top s pieces ∧ parts = (pieces.map trim).filter (!·.isEmpty)

/-- **The parts at the top level** of a text are those that `HasParts` describes, and no others. -/
theorem topLevelParts_eq_iff (hsep : IsSeparator sep) {s : List Char} {parts : List (List Char)} :
    topLevelParts sep s = parts ↔ HasParts sep s parts := by
  constructor
  · rintro rfl
    exact ⟨_, (Bracketing.pieces_eq_iff hsep).mp rfl, rfl⟩
  · rintro ⟨pieces, hpieces, rfl⟩
    rw [topLevelParts, (Bracketing.pieces_eq_iff hsep).mpr hpieces]

/-! ## Splitting and joining -/

namespace Bracketing

/-- A text that leaves nothing open and has no separator at the top. -/
structure Closed (sep : Char) (s : List Char) : Prop where
  ends : top.behind s = top
  unsplit : Unsplit sep top s

/-- Closed texts are the pieces of what joins them. -/
theorem cuts_join {parts : List (List Char)} (hne : parts ≠ []) (h : ∀ p ∈ parts, Closed sep p) :
    Cuts sep top (join [sep] parts) parts := by
  induction parts with
  | nil => exact absurd rfl hne
  | cons p ps ih =>
    obtain ⟨hp, hps⟩ := List.forall_mem_cons.mp h
    cases ps with
    | nil =>
      rw [join_singleton]
      exact .last hp.unsplit
    | cons q qs =>
      rw [join_cons_cons]
      exact .cut hp.unsplit hp.ends (ih (List.cons_ne_nil q qs) hps)

/-- Each piece begins where the scan is at the top, and has no separator there. -/
theorem Cuts.unsplit {l : Bracketing} {s : List Char} {pieces : List (List Char)}
    (h : Cuts sep l s pieces) (hl : l = top) : ∀ p ∈ pieces, Unsplit sep top p := by
  induction h with
  | last hs =>
    subst hl
    exact List.forall_mem_singleton.mpr hs
  | cut hpiece _ _ ih =>
    subst hl
    exact List.forall_mem_cons.mpr ⟨hpiece, ih rfl⟩

/-- A text has no separator at the top exactly if the split makes one piece of it. -/
theorem unsplit_iff (hsep : IsSeparator sep) {s : List Char} :
    Unsplit sep top s ↔ topLevelPieces sep .outside 0 s = [s] := by
  rw [pieces_eq_iff hsep]
  constructor
  · exact .last
  · exact fun h => h.unsplit rfl s List.mem_cons_self

theorem next_top_of_isBlank {c : Char} (hc : isBlank c = true) : top.next c = top := by
  have hplain : Quoting.isQuote c = false ∧ isOpener c = false ∧ isCloser c = false :=
    of_isBlank (p := fun c => Quoting.isQuote c = false ∧ isOpener c = false ∧ isCloser c = false)
      (by decide) hc
  obtain ⟨hquote, hopener, hcloser⟩ := hplain
  simp [next, top, Quoting.next, Quoting.shown, hquote, hopener, hcloser]

theorem behind_blanks {s : List Char} (h : ∀ c ∈ s, isBlank c = true) : top.behind s = top := by
  induction s with
  | nil => rfl
  | cons c s ih =>
    obtain ⟨hc, hs⟩ := List.forall_mem_cons.mp h
    show (top.next c).behind s = top
    rw [next_top_of_isBlank hc, ih hs]

/-- The blanks at the ends of a text hide no separator. -/
theorem Unsplit.trim {s : List Char} (h : Unsplit sep top s) : Unsplit sep top (trim s) := by
  obtain ⟨front, back, hs, hfront, -⟩ := trim_between s
  intro before after htrim
  have hbehind := h (front ++ before) (after ++ back) (by rw [hs, htrim]; simp)
  rwa [behind_append, behind_blanks hfront] at hbehind

end Bracketing

theorem filter_nonempty {parts : List (List Char)} (h : ∀ p ∈ parts, p ≠ []) :
    parts.filter (!·.isEmpty) = parts := by
  refine List.filter_eq_self.mpr fun p hp => ?_
  rw [Bool.not_eq_true', List.isEmpty_eq_false_iff]
  exact h p hp

/-- Trimmed pieces are the parts. -/
theorem parts_of_cuts (hsep : IsSeparator sep) {s : List Char} {pieces : List (List Char)}
    (hcuts : Bracketing.Cuts sep .top s pieces) (h : ∀ p ∈ pieces, p ≠ [] ∧ trim p = p) :
    topLevelParts sep s = pieces := by
  refine (topLevelParts_eq_iff hsep).mpr ⟨pieces, hcuts, ?_⟩
  have htrim : pieces.map trim = pieces :=
    (List.map_congr_left fun p hp => (h p hp).2).trans (List.map_id pieces)
  rw [htrim, filter_nonempty fun p hp => (h p hp).1]

/-- **Splitting undoes joining**: trimmed texts that are not empty and leave nothing open are the parts
    of what joins them.  And a part is split no further: whatever the text, open literals and brackets
    included, each of its parts has itself as its only part. -/
theorem topLevelParts_of_joined (hsep : IsSeparator sep) :
    (∀ parts, (∀ p ∈ parts, p ≠ [] ∧ trim p = p ∧ Bracketing.Closed sep p) →
      topLevelParts sep (join [sep] parts) = parts)
    ∧ ∀ text, ∀ part ∈ topLevelParts sep text, topLevelParts sep part = [part] := by
  constructor
  · intro parts h
    by_cases hne : parts = []
    · subst hne
      rfl
    · have hcuts := Bracketing.cuts_join hne fun p hp => (h p hp).2.2
      exact parts_of_cuts hsep hcuts fun p hp => ⟨(h p hp).1, (h p hp).2.1⟩
  · intro text part hpart
    obtain ⟨hmem, hne⟩ := List.mem_filter.mp hpart
    obtain ⟨piece, hpiece, rfl⟩ := List.mem_map.mp hmem
    have hcuts := Bracketing.cuts_pieces hsep text (l := .top) trivial
    have hunsplit := (hcuts.unsplit rfl piece hpiece).trim
    refine parts_of_cuts hsep (.last hunsplit) (List.forall_mem_singleton.mpr ⟨?_, trim_trim piece⟩)
    simpa using hne

/-- A call, a literal that holds separators and a bracket, and a bracket that closes nothing; then a
    text whose last part stays open. -/
theorem topLevelParts_of_joined_calls :
    topLevelParts ',' (join [','] ["f(a, b)".toList, "'x,)'".toList, "]".toList])
      = ["f(a, b)".toList, "'x,)'".toList, "]".toList]
    ∧ topLevelParts ',' "a, [b, 'c".toList = ["a".toList, "[b, 'c".toList]
    ∧ topLevelParts ',' "[b, 'c".toList = ["[b, 'c".toList] := by
  obtain ⟨hjoin, halone⟩ := topLevelParts_of_joined isSeparator_comma
  have hsplit : topLevelParts ',' "a, [b, 'c".toList = ["a".toList, "[b, 'c".toList] := by
    decide
  refine ⟨hjoin _ fun p hp => ?_, hsplit, halone "a, [b, 'c".toList _ ?_⟩
  · have hpart : p ≠ [] ∧ trim p = p ∧ Bracketing.top.behind p = .top
        ∧ topLevelPieces ',' .outside 0 p = [p] := by
      revert p
      decide
    obtain ⟨hne, htrim, hends, hpieces⟩ := hpart
    exact ⟨hne, htrim, hends, (Bracketing.unsplit_iff isSeparator_comma).mpr hpieces⟩
  · rw [hsplit]
    exact List.mem_cons_of_mem _ List.mem_cons_self

end

end LetTag
