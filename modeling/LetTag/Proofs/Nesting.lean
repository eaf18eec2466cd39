/-
  Texts whose literals and brackets are closed, and what every scan makes of them.

  Four scans read a statement: the mask, the search for an arrow, the split at top-level separators
  and the reader that cuts a program into statements.  A text is `Nested` if it is made of plain
  characters, literals that close on their line, and brackets around such texts; then no scan can be
  in a literal or at another depth behind it than before it.  So each scan takes it in one go:

  * `Nested.mask_append`     — the mask goes on behind it as if it started there;
  * `Nested.pieces_append`   — no top-level separator is in it;
  * `Nested.foldl_read`      — the reader puts it into its buffer and stands where it stood.

  The index says which separators may not stand in it outside brackets.  Inside brackets they may, as
  no scan cuts there.
-/
import LetTag.Proofs.Marking
import LetTag.Proofs.Segmentation

namespace LetTag

open Text Arrow

/-! ## Joined texts -/

namespace Text

/-- What holds of the separator and of all pieces holds of the joined text. -/
theorem forall_mem_join {p : Char → Prop} {sep : List Char} {pieces : List (List Char)}
    (hsep : ∀ c ∈ sep, p c) (h : ∀ w ∈ pieces, ∀ c ∈ w, p c) : ∀ c ∈ join sep pieces, p c := by
  induction pieces with
  | nil => exact fun c hc => absurd hc List.not_mem_nil
  | cons w ws ih =>
    obtain ⟨hw, hws⟩ := List.forall_mem_cons.mp h
    cases ws with
    | nil => rwa [join_singleton]
    | cons v vs =>
      rw [join_cons_cons]
      exact List.forall_mem_append.mpr ⟨hw, List.forall_mem_append.mpr ⟨hsep, ih hws⟩⟩

end Text

/-! ## Nested texts -/

/-- Does the character mean nothing to a scan, separators apart? -/
def isPlain (c : Char) : Bool :=
  !(Quoting.isQuote c || isOpener c || isCloser c || isBreak c || c == ';' || c == '>')

/-- The brackets that belong together. -/
def bracketPairs : List (Char × Char) :=
  [('(', ')'), ('[', ']'), ('\x7b', '\x7d')]

/-- A text made of plain characters, closed literals and closed brackets, with none of the separators
    outside brackets. -/
inductive Nested : List Char → List Char → Prop
  | nil {seps : List Char} : Nested seps []
  | plain {seps : List Char} {c : Char} {w : List Char} : isPlain c = true → c ∉ seps →
    Nested seps w → Nested seps (c :: w)
  | literal {seps : List Char} {q : Char} {body w : List Char} : Quoting.isQuote q = true →
    Enclosed q body → (∀ c ∈ body, isBreak c = false) → Nested seps w →
    Nested seps (q :: (body ++ q :: w))
  | group {seps : List Char} {o c : Char} {inner w : List Char} : (o, c) ∈ bracketPairs →
    Nested [] inner → Nested seps w → Nested seps (o :: (inner ++ c :: w))

namespace Nested

/-- Two texts that are nested are nested one behind the other. -/
theorem append {seps v w : List Char} (hv : Nested seps v) (hw : Nested seps w) :
    Nested seps (v ++ w) := by
  induction hv with
  | nil => exact hw
  | plain hc hsep _ ih => exact .plain hc hsep (ih hw)
  | literal hq hbody hbreak _ ih =>
    rw [List.cons_append, List.append_assoc, List.cons_append]
    exact .literal hq hbody hbreak (ih hw)
  | group hpair hinner _ _ ih =>
    rw [List.cons_append, List.append_assoc, List.cons_append]
    exact .group hpair hinner (ih hw)

/-- Fewer separators are asked for. -/
theorem mono {seps fewer w : List Char} (h : Nested seps w) (hsub : ∀ c ∈ fewer, c ∈ seps) :
    Nested fewer w := by
  induction h with
  | nil => exact .nil
  | plain hc hsep _ ih => exact .plain hc (fun hm => hsep (hsub _ hm)) (ih hsub)
  | literal hq hbody hbreak _ ih => exact .literal hq hbody hbreak (ih hsub)
  | group hpair hinner _ _ ih => exact .group hpair hinner (ih hsub)

theorem of_plain {seps w : List Char} (h : ∀ c ∈ w, isPlain c = true ∧ c ∉ seps) :
    Nested seps w := by
  induction w with
  | nil => exact .nil
  | cons c w ih =>
    obtain ⟨hc, hw⟩ := List.forall_mem_cons.mp h
    exact .plain hc.1 hc.2 (ih hw)

end Nested

/-- What a plain character is not. -/
theorem isPlain_class {c : Char} (h : isPlain c = true) : Quoting.isQuote c = false
    ∧ isOpener c = false ∧ isCloser c = false ∧ isBreak c = false ∧ c ≠ ';' ∧ c ≠ '>' := by
  unfold isPlain at h
  simp only [Bool.not_eq_true', Bool.or_eq_false_iff, beq_eq_false_iff_ne] at h
  obtain ⟨⟨⟨⟨⟨hquote, hopen⟩, hclose⟩, hbreak⟩, hsemi⟩, hgreater⟩ := h
  exact ⟨hquote, hopen, hclose, hbreak, hsemi, hgreater⟩

/-- What brackets are and are not. -/
theorem bracketPairs_class {o c : Char} (h : (o, c) ∈ bracketPairs) :
    (Quoting.isQuote o = false ∧ isOpener o = true ∧ isBreak o = false ∧ o ≠ '>' ∧ o ≠ ';')
    ∧ Quoting.isQuote c = false ∧ isOpener c = false ∧ isCloser c = true ∧ isBreak c = false
    ∧ c ≠ '>' ∧ c ≠ ';' ∧ (o = '\x7b' ↔ c = '\x7d') ∧ o ≠ '\x7d' ∧ c ≠ '\x7b' := by
  simp only [bracketPairs, List.mem_cons, Prod.mk.injEq, List.not_mem_nil, or_false] at h
  rcases h with ⟨rfl, rfl⟩ | ⟨rfl, rfl⟩ | ⟨rfl, rfl⟩
  · decide
  · decide
  · decide

/-- What else a quote is not. -/
theorem isQuote_mark {q : Char} (h : Quoting.isQuote q = true) : isOpener q = false
    ∧ isCloser q = false ∧ isBreak q = false ∧ q ∉ ['>', ';', ',', ':', '\x7b', '\x7d'] := by
  rcases Bool.or_eq_true_iff.mp h with h | h
  · rw [eq_of_beq h]
    decide
  · rw [eq_of_beq h]
    decide

/-- No line ends in a nested text. -/
theorem Nested.not_break {seps w : List Char} (h : Nested seps w) : ∀ c ∈ w, isBreak c = false := by
  induction h with
  | nil => exact fun c hc => absurd hc List.not_mem_nil
  | plain hc _ _ ih => exact List.forall_mem_cons.mpr ⟨(isPlain_class hc).2.2.2.1, ih⟩
  | literal hq _ hbreak _ ih =>
    have hquote := (isQuote_mark hq).2.2.1
    refine List.forall_mem_cons.mpr ⟨hquote, List.forall_mem_append.mpr ⟨hbreak, ?_⟩⟩
    exact List.forall_mem_cons.mpr ⟨hquote, ih⟩
  | group hpair _ _ ihinner ih =>
    obtain ⟨⟨_, _, ho, _⟩, _, _, _, hc, _⟩ := bracketPairs_class hpair
    refine List.forall_mem_cons.mpr ⟨ho, List.forall_mem_append.mpr ⟨ihinner, ?_⟩⟩
    exact List.forall_mem_cons.mpr ⟨hc, ih⟩

/-! ## The mask -/

theorem length_maskFrom (q : Quoting) (w : List Char) : (maskFrom q w).length = w.length := by
  induction w generalizing q with
  | nil => rfl
  | cons c w ih => rw [maskFrom, List.length_cons, List.length_cons, ih]

/-- Inside a literal the mask shows blanks up to the closing quote. -/
theorem maskFrom_enclosed {q : Char} (hq : Quoting.isQuote q = true) {body : List Char}
    (h : Enclosed q body) (w : List Char) : maskFrom (.inside q false) (body ++ q :: w)
      = List.replicate body.length ' ' ++ q :: maskFrom .outside w := by
  have hescape := (isQuote_class hq).2.1
  induction h with
  | nil =>
    rw [List.nil_append, maskFrom]
    simp [Quoting.shown, Quoting.next, hescape]
  | plain hc hfeed hquote _ ih =>
    rw [List.cons_append, maskFrom]
    simp only [Quoting.shown, Quoting.next, hc, hfeed, hquote, or_self, and_false, if_false]
    rw [ih]
    rfl
  | escaped hfeed _ ih =>
    rw [List.cons_append, List.cons_append, maskFrom, maskFrom]
    simp only [Quoting.shown, Quoting.next, ne_eq, not_true_eq_false, false_and, if_false, if_true]
    rw [ih]
    rfl

/-- The mask of a literal shows its quotes, and blanks between them. -/
theorem maskFrom_literal {q : Char} (hq : Quoting.isQuote q = true) {body : List Char}
    (h : Enclosed q body) (w : List Char) : maskFrom .outside (q :: (body ++ q :: w))
      = q :: (List.replicate body.length ' ' ++ q :: maskFrom .outside w) := by
  rw [maskFrom, Quoting.next, hq, if_pos rfl, maskFrom_enclosed hq h]
  rfl

/-- What is no quote is shown outside of literals. -/
theorem maskFrom_cons {c : Char} (hc : Quoting.isQuote c = false) (w : List Char) :
    maskFrom .outside (c :: w) = c :: maskFrom .outside w := by
  rw [maskFrom, Quoting.next, hc, if_neg Bool.false_ne_true]
  rfl

/-- The mask behind a nested text is as if it started there. -/
theorem Nested.mask_append {seps w : List Char} (h : Nested seps w) (rest : List Char) :
    maskFrom .outside (w ++ rest) = maskFrom .outside w ++ maskFrom .outside rest := by
  induction h generalizing rest with
  | nil => rfl
  | plain hc _ _ ih =>
    have hquote := (isPlain_class hc).1
    rw [List.cons_append, maskFrom_cons hquote, maskFrom_cons hquote, ih, List.cons_append]
  | literal hq hbody _ _ ih =>
    rw [List.cons_append, List.append_assoc, List.cons_append, maskFrom_literal hq hbody,
      maskFrom_literal hq hbody, ih, List.cons_append, List.append_assoc, List.cons_append]
  | @group _ o c inner w hpair _ _ ihinner ih =>
    obtain ⟨⟨ho, _⟩, hc, _⟩ := bracketPairs_class hpair
    rw [List.cons_append, List.append_assoc, List.cons_append, maskFrom_cons ho, maskFrom_cons ho,
      ihinner, ihinner, maskFrom_cons hc, maskFrom_cons hc, ih, List.cons_append, List.append_assoc,
      List.cons_append]

/-- No `>` stands outside the literals of a nested text. -/
theorem Nested.notMem_mask {seps w : List Char} (h : Nested seps w) : '>' ∉ maskFrom .outside w := by
  induction h with
  | nil => exact List.not_mem_nil
  | plain hc _ _ ih =>
    obtain ⟨hquote, _, _, _, _, hne⟩ := isPlain_class hc
    rw [maskFrom_cons hquote]
    exact List.not_mem_cons_of_ne_of_not_mem hne.symm ih
  | literal hq hbody _ _ ih =>
    have hne := Ne.symm (List.ne_of_not_mem_cons (isQuote_mark hq).2.2.2)
    rw [maskFrom_literal hq hbody]
    refine List.not_mem_cons_of_ne_of_not_mem hne fun hm => ?_
    rcases List.mem_append.mp hm with hm | hm
    · exact absurd (List.eq_of_mem_replicate hm) (by decide)
    · exact List.not_mem_cons_of_ne_of_not_mem hne ih hm
  | group hpair hinner _ ihinner ih =>
    obtain ⟨⟨ho, _, _, hone, _⟩, hc, _, _, _, hcne, _⟩ := bracketPairs_class hpair
    rw [maskFrom_cons ho, hinner.mask_append, maskFrom_cons hc]
    refine List.not_mem_cons_of_ne_of_not_mem hone.symm fun hm => ?_
    rcases List.mem_append.mp hm with hm | hm
    · exact ihinner hm
    · exact List.not_mem_cons_of_ne_of_not_mem hcne.symm ih hm

/-- What occurs in a text has its characters in it. -/
theorem mem_of_occursIn {token s : List Char} (h : occursIn token s = true) :
    ∀ c ∈ token, c ∈ s := by
  induction s with
  | nil =>
    rw [List.isEmpty_iff.mp h]
    exact fun c hc => hc
  | cons d s ih =>
    rw [occursIn, Bool.or_eq_true] at h
    rcases h with h | h
    · exact fun c hc => (List.isPrefixOf_iff_prefix.mp h).subset hc
    · exact fun c hc => List.mem_cons_of_mem d (ih h c hc)

/-- No arrow stands outside the literals of a nested text. -/
theorem Nested.no_arrow {seps w : List Char} (h : Nested seps w) :
    occursUnquoted w "=>".toList = false :=
  Bool.eq_false_iff.mpr fun hocc => h.notMem_mask (mem_of_occursIn hocc '>' (by decide))

/-! ## The split at top-level separators -/

/-- A text in front of some pieces is put in front of the first. -/
theorem foldr_extendFirst (w piece : List Char) (pieces : List (List Char)) :
    w.foldr extendFirst (piece :: pieces) = (w ++ piece) :: pieces := by
  induction w with
  | nil => rfl
  | cons c w ih =>
    rw [List.foldr_cons, ih]
    rfl

/-- The scan goes on behind a character that neither opens, closes nor separates where it shows. -/
theorem pieces_cons {sep c m : Char} {q : Quoting} {depth : Nat} (hm : q.shown c = m)
    (hopen : isOpener m = false) (hclose : isCloser m = false) (hsep : ¬ (m = sep ∧ depth = 0))
    (rest : List Char) : topLevelPieces sep q depth (c :: rest)
      = extendFirst c (topLevelPieces sep (q.next c) depth rest) := by
  rw [topLevelPieces, hm]
  simp only [hopen, hclose, hsep, Bool.false_eq_true, if_false]

/-- So it does behind one that the mask hides. -/
theorem pieces_hidden {sep c : Char} {q : Quoting} (hshown : q.shown c = ' ') (hsep : ' ' ≠ sep)
    (depth : Nat) (rest : List Char) : topLevelPieces sep q depth (c :: rest)
      = extendFirst c (topLevelPieces sep (q.next c) depth rest) :=
  pieces_cons hshown rfl rfl (fun h => hsep h.1) rest

/-- A literal belongs to the piece in which it begins. -/
theorem pieces_enclosed {sep q : Char} (hsep : sep = ',' ∨ sep = ':')
    (hq : Quoting.isQuote q = true) (depth : Nat) {body : List Char} (h : Enclosed q body)
    (rest : List Char) : topLevelPieces sep (.inside q false) depth (body ++ q :: rest)
      = body.foldr extendFirst (extendFirst q (topLevelPieces sep .outside depth rest)) := by
  have hescape := (isQuote_class hq).2.1
  obtain ⟨hopen, hclose, -, hmark⟩ := isQuote_mark hq
  have hquote : q ≠ sep := by
    rintro rfl
    rcases hsep with rfl | rfl
    · exact hmark (by decide)
    · exact hmark (by decide)
  have hblank : ' ' ≠ sep := by
    rintro rfl
    revert hsep
    decide
  induction h with
  | nil =>
    have hshown : (Quoting.inside q false).shown q = q := by simp [Quoting.shown, hescape]
    have hnext : (Quoting.inside q false).next q = .outside := by simp [Quoting.next, hescape]
    rw [List.nil_append, pieces_cons hshown hopen hclose fun h => hquote h.1, hnext]
    rfl
  | @plain c v hc hfeed hne _ ih =>
    have hshown : (Quoting.inside q false).shown c = ' ' := by
      simp [Quoting.shown, hfeed, hne]
    have hnext : (Quoting.inside q false).next c = .inside q false := by
      simp [Quoting.next, hc, hfeed, hne]
    rw [List.cons_append, pieces_hidden hshown hblank, hnext, ih]
    rfl
  | @escaped c v hfeed _ ih =>
    have hshown : (Quoting.inside q false).shown '\\' = ' ' := by simp [Quoting.shown]
    have hnext : (Quoting.inside q false).next '\\' = .inside q true := by simp [Quoting.next]
    have hshown' : (Quoting.inside q true).shown c = ' ' := rfl
    have hnext' : (Quoting.inside q true).next c = .inside q false := rfl
    rw [List.cons_append, List.cons_append, pieces_hidden hshown hblank, hnext,
      pieces_hidden hshown' hblank, hnext', ih]
    rfl

/-- A nested text belongs to the piece in which it begins. -/
theorem Nested.pieces_append {seps w : List Char} (h : Nested seps w) {sep : Char}
    (hsep : sep = ',' ∨ sep = ':') : ∀ {depth : Nat}, (depth = 0 → sep ∈ seps) →
    ∀ rest : List Char, topLevelPieces sep .outside depth (w ++ rest)
      = w.foldr extendFirst (topLevelPieces sep .outside depth rest) := by
  induction h with
  | nil => exact fun _ _ => rfl
  | @plain seps c w hc hout _ ih =>
    intro depth hdepth rest
    obtain ⟨hquote, hopen, hclose, _⟩ := isPlain_class hc
    have hnone : ¬ (c = sep ∧ depth = 0) := fun h => hout (h.1 ▸ hdepth h.2)
    have hnext : Quoting.outside.next c = .outside := by
      rw [Quoting.next, hquote, if_neg Bool.false_ne_true]
    have hshown : Quoting.outside.shown c = c := rfl
    rw [List.cons_append, pieces_cons hshown hopen hclose hnone, hnext, ih hdepth]
    rfl
  | @literal seps q body w hq hbody _ _ ih =>
    intro depth hdepth rest
    obtain ⟨hopen, hclose, -, hmark⟩ := isQuote_mark hq
    have hnone : ¬ (q = sep ∧ depth = 0) := by
      rintro ⟨rfl, -⟩
      rcases hsep with rfl | rfl
      · exact hmark (by decide)
      · exact hmark (by decide)
    have hnext : Quoting.outside.next q = .inside q false := by
      rw [Quoting.next, hq, if_pos rfl]
    have hshown : Quoting.outside.shown q = q := rfl
    rw [List.cons_append, List.append_assoc, List.cons_append, pieces_cons hshown hopen hclose hnone,
      hnext, pieces_enclosed hsep hq depth hbody, ih hdepth, List.foldr_cons, List.foldr_append,
      List.foldr_cons]
  | @group seps o c inner w hpair _ _ ihinner ih =>
    intro depth hdepth rest
    -- one deeper inside, where a separator does not split, and back behind it
    obtain ⟨⟨ho, hopen, _⟩, hc, hcopen, hclose, _⟩ := bracketPairs_class hpair
    have honext : Quoting.outside.next o = .outside := by
      rw [Quoting.next, ho, if_neg Bool.false_ne_true]
    have hcnext : Quoting.outside.next c = .outside := by
      rw [Quoting.next, hc, if_neg Bool.false_ne_true]
    have hclosed : topLevelPieces sep .outside (depth + 1) (c :: (w ++ rest))
        = extendFirst c (topLevelPieces sep .outside depth (w ++ rest)) := by
      rw [topLevelPieces]
      simp only [Quoting.shown, hcopen, hclose, hcnext, Bool.false_eq_true, if_false, if_true,
        Nat.add_sub_cancel]
    have hopened : topLevelPieces sep .outside depth (o :: (inner ++ c :: (w ++ rest)))
        = extendFirst o (topLevelPieces sep .outside (depth + 1) (inner ++ c :: (w ++ rest))) := by
      rw [topLevelPieces]
      simp only [Quoting.shown, hopen, honext, if_true]
    rw [List.cons_append, List.append_assoc, List.cons_append, hopened,
      ihinner (fun h => absurd h (Nat.succ_ne_zero depth)), hclosed, ih hdepth, List.foldr_cons,
      List.foldr_append, List.foldr_cons]

/-- Texts without a separator at top level, joined by separators and blanks, are the pieces again, up
    to the blanks. -/
theorem pieces_join {sep : Char} (hsep : sep = ',' ∨ sep = ':') (w : List Char)
    (ws : List (List Char)) (h : ∀ v ∈ w :: ws, Nested [sep] v) :
    topLevelPieces sep .outside 0 (join [sep, ' '] (w :: ws)) = w :: ws.map (' ' :: ·) := by
  induction ws generalizing w with
  | nil =>
    have hw := h w List.mem_cons_self
    rw [join_singleton, ← List.append_nil w, hw.pieces_append hsep fun _ => List.mem_singleton_self sep, topLevelPieces,
      foldr_extendFirst, List.append_nil]
    rfl
  | cons v ws ih =>
    obtain ⟨hw, hrest⟩ := List.forall_mem_cons.mp h
    have hjoin : join [sep, ' '] (w :: v :: ws) = w ++ sep :: ' ' :: join [sep, ' '] (v :: ws) :=
      join_cons_cons _ _ _ _
    have hblank : ' ' ≠ sep := by
      rintro rfl
      revert hsep
      decide
    have hclass : isOpener sep = false ∧ isCloser sep = false
        ∧ Quoting.outside.next sep = .outside := by
      rcases hsep with rfl | rfl
      · decide
      · decide
    have hcut : topLevelPieces sep .outside 0 (sep :: ' ' :: join [sep, ' '] (v :: ws))
        = [] :: (' ' :: v) :: ws.map (' ' :: ·) := by
      rw [topLevelPieces]
      simp only [Quoting.shown, hclass, Bool.false_eq_true, if_false, and_self, if_true]
      have hspace := pieces_hidden (q := .outside) (c := ' ') rfl hblank 0
        (join [sep, ' '] (v :: ws))
      rw [hspace, show Quoting.outside.next ' ' = .outside from rfl, ih v hrest]
      rfl
    rw [hjoin, hw.pieces_append hsep (fun _ => List.mem_singleton_self sep), hcut,
      foldr_extendFirst, List.append_nil]
    rfl

/-- Trimmed texts are the parts of what joins them. -/
theorem topLevelParts_join {sep : Char} (hsep : sep = ',' ∨ sep = ':') {ws : List (List Char)}
    (h : ∀ w ∈ ws, Nested [sep] w ∧ w ≠ [] ∧ trim w = w) :
    topLevelParts sep (join [sep, ' '] ws) = ws := by
  have hmap : ∀ vs : List (List Char), (∀ w ∈ vs, trim w = w) →
      (vs.map (' ' :: ·)).map trim = vs := by
    intro vs hvs
    rw [List.map_map]
    exact (List.map_congr_left fun w hw => (trim_space w).trans (hvs w hw)).trans (List.map_id vs)
  have hkept : ws.filter (!·.isEmpty) = ws := by
    refine List.filter_eq_self.mpr fun w hw => ?_
    obtain ⟨-, hne, -⟩ := h w hw
    cases w with
    | nil => exact absurd rfl hne
    | cons c w => rfl
  unfold topLevelParts
  cases ws with
  | nil => rfl
  | cons w ws =>
    obtain ⟨hw, hrest⟩ := List.forall_mem_cons.mp h
    rw [pieces_join hsep w ws fun v hv => (h v hv).1, List.map_cons, hw.2.2,
      hmap ws fun v hv => (hrest v hv).2.2, hkept]

/-! ## The reader of statements -/

namespace Statements

/-- The characters of a text, each with what the mask shows for it. -/
def masked (w : List Char) : List (Char × Char) :=
  w.zip (maskFrom .outside w)

/-- A text whose quotes are closed is masked apart from what follows. -/
theorem masked_append {seps v : List Char} (h : Nested seps v) (w : List Char) :
    masked (v ++ w) = masked v ++ masked w := by
  unfold masked
  rw [h.mask_append, List.zip_append (length_maskFrom .outside v).symm]

/-- A character that is no quote is masked apart from what follows. -/
theorem masked_cons {c : Char} (hc : Quoting.isQuote c = false) (w : List Char) :
    masked (c :: w) = (c, c) :: masked w := by
  unfold masked
  rw [maskFrom_cons hc, List.zip_cons_cons]

/-- Reads characters, each with what the mask shows for it. -/
def Progress.readAll (p : Progress) (cs : List (Char × Char)) : Progress :=
  cs.foldl (fun p x => p.read x.1 x.2) p

/-- A line is read with its mask, and what is behind it depends on the braces that are open. -/
theorem Progress.readLine_eq (p : Progress) (line : List Char) :
    p.readLine line = let q := p.readAll (masked line)
      if q.depth > 0 then { q with reading := '\n' :: q.reading } else q.flush := rfl

theorem Progress.readAll_append (p : Progress) (as bs : List (Char × Char)) :
    p.readAll (as ++ bs) = (p.readAll as).readAll bs :=
  List.foldl_append

/-- A brace or semicolon that the mask does not show changes nothing but the buffer. -/
theorem Progress.read_plain (p : Progress) (c : Char) {m : Char} (hm : m ∉ ['\x7b', '\x7d', ';']) :
    p.read c m = { p with reading := c :: p.reading } := by
  have hopen : m ≠ '\x7b' := fun h => hm (by simp [h])
  have hclose : m ≠ '\x7d' := fun h => hm (by simp [h])
  have hsemi : m ≠ ';' := fun h => hm (by simp [h])
  unfold Progress.read
  split
  · rfl
  · rename_i hzero
    have hdepth : p.depth = 0 := by omega
    simp [hopen, hdepth]

/-- Characters that are shown as no brace and no semicolon are only put behind what was read. -/
theorem Progress.readAll_plain (cs : List (Char × Char)) : ∀ p : Progress,
    (∀ x ∈ cs, x.2 ∉ ['\x7b', '\x7d', ';']) →
    p.readAll cs = { p with reading := (cs.map Prod.fst).reverse ++ p.reading } := by
  induction cs with
  | nil => exact fun _ _ => rfl
  | cons x cs ih =>
    intro p h
    obtain ⟨hx, hcs⟩ := List.forall_mem_cons.mp h
    show (p.read x.1 x.2).readAll cs = _
    rw [p.read_plain x.1 hx, ih _ hcs, List.map_cons, List.reverse_cons, List.append_assoc]
    rfl

/-- In a declaration a brace goes one deeper, from wherever the reader stands. -/
theorem Progress.read_open {p : Progress}
    (h : startsDeclaration (p.reading.reverse ++ ['\x7b']) = true) :
    p.read '\x7b' '\x7b' = { p with reading := '\x7b' :: p.reading, depth := p.depth + 1 } := by
  unfold Progress.read
  split
  · rfl
  · rename_i hzero
    have hdepth : p.depth = 0 := by omega
    simp [h, hdepth]

theorem Progress.read_close {p : Progress} (h : 0 < p.depth) :
    p.read '\x7d' '\x7d' = { p with reading := '\x7d' :: p.reading, depth := p.depth - 1 } := by
  rw [Progress.read, if_pos h]
  rfl

/-- Does the text in the buffer declare something, whatever follows? -/
def Progress.Declares (p : Progress) : Prop :=
  ∀ v, startsDeclaration (p.reading.reverse ++ v) = true

/-- What starts like a declaration does so with more behind it. -/
theorem Progress.Declares.snoc {p : Progress} (h : p.Declares) (w : List Char) (depth : Nat) :
    Progress.Declares { p with reading := w.reverse ++ p.reading, depth := depth } := by
  intro v
  show startsDeclaration ((w.reverse ++ p.reading).reverse ++ v) = true
  rw [List.reverse_append, List.reverse_reverse, List.append_assoc]
  exact h (w ++ v)

/-- A literal is read as it stands: the mask shows its quotes, and blanks between them. -/
theorem readAll_literal {q : Char} {body : List Char} (hq : Quoting.isQuote q = true)
    (hbody : Enclosed q body) (w : List Char) (p : Progress) :
    p.readAll (masked (q :: (body ++ q :: w)))
      = Progress.readAll { p with reading := (q :: (body ++ [q])).reverse ++ p.reading }
        (masked w) := by
  have hmark := (isQuote_mark hq).2.2.2
  have hmasked : masked (q :: (body ++ q :: w))
      = ((q :: (body ++ [q])).zip (q :: (List.replicate body.length ' ' ++ [q]))) ++ masked w := by
    unfold masked
    rw [maskFrom_literal hq hbody, ← List.zip_append (by simp)]
    simp
  have hplain : ∀ x ∈ (q :: (body ++ [q])).zip (q :: (List.replicate body.length ' ' ++ [q])),
      x.2 ∉ ['\x7b', '\x7d', ';'] := by
    intro x hx
    have hx2 : x.2 ∈ q :: (List.replicate body.length ' ' ++ [q]) := (List.of_mem_zip hx).2
    have hcases : x.2 = q ∨ x.2 = ' ' := by
      simp only [List.mem_cons, List.mem_append, List.mem_replicate, List.not_mem_nil,
        or_false] at hx2
      rcases hx2 with hx2 | hx2 | hx2
      · exact Or.inl hx2
      · exact Or.inr hx2.2
      · exact Or.inl hx2
    rcases hcases with heq | heq
    · rw [heq]
      exact fun hm => hmark (by revert hm; simp; tauto)
    · rw [heq]
      decide
  have hfst : ((q :: (body ++ [q])).zip (q :: (List.replicate body.length ' ' ++ [q]))).map
      Prod.fst = q :: (body ++ [q]) := List.map_fst_zip (by simp)
  rw [hmasked, Progress.readAll_append, Progress.readAll_plain _ p hplain, hfst]

/-- What stands between brackets is read between the brackets. -/
theorem readAll_group {o c : Char} (ho : Quoting.isQuote o = false) (hc : Quoting.isQuote c = false)
    {inner : List Char} (hinner : Nested [] inner) (w : List Char) (p : Progress) :
    p.readAll (masked (o :: (inner ++ c :: w)))
      = (((p.read o o).readAll (masked inner)).read c c).readAll (masked w) := by
  have hmasked : masked (o :: (inner ++ c :: w))
      = (o, o) :: (masked inner ++ (c, c) :: masked w) := by
    rw [masked_cons ho, masked_append hinner, masked_cons hc]
  rw [hmasked]
  show (p.read o o).readAll (masked inner ++ (c, c) :: masked w) = _
  rw [Progress.readAll_append]
  rfl

/-- The reader takes a nested text of a declaration into its buffer, and stands where it stood. -/
theorem readAll_nested {seps w : List Char} (h : Nested seps w) : ∀ {p : Progress}, p.Declares →
    p.readAll (masked w) = { p with reading := w.reverse ++ p.reading } := by
  induction h with
  | nil => exact fun _ => rfl
  | @plain seps c w hc _ _ ih =>
    intro p hdecl
    -- no brace and no semicolon, so the character is only kept
    obtain ⟨hquote, hopen, hclose, _, hsemi, _⟩ := isPlain_class hc
    have hmark : c ∉ ['\x7b', '\x7d', ';'] := by
      intro hm
      rcases List.mem_cons.mp hm with rfl | hm
      · cases hopen
      rcases List.mem_cons.mp hm with rfl | hm
      · cases hclose
      · exact hsemi (List.mem_singleton.mp hm)
    have hrest : Progress.readAll { p with reading := c :: p.reading } (masked w)
        = { p with reading := w.reverse ++ c :: p.reading } := ih (hdecl.snoc [c] p.depth)
    rw [masked_cons hquote]
    show (p.read c c).readAll (masked w) = _
    rw [p.read_plain c hmark, hrest, List.reverse_cons, List.append_assoc]
    rfl
  | @literal seps q body w hq hbody _ _ ih =>
    intro p hdecl
    rw [readAll_literal hq hbody, ih (hdecl.snoc (q :: (body ++ [q])) p.depth)]
    simp only [List.reverse_cons, List.reverse_append, List.append_assoc, List.reverse_nil,
      List.nil_append, List.cons_append]
  | @group seps o c inner w hpair hinner _ ihinner ih =>
    intro p hdecl
    obtain ⟨⟨ho, _, _, _, hosemi⟩, hc, _, _, _, _, hcsemi, hbrace, hoclose, hcopen⟩ :=
      bracketPairs_class hpair
    have hbuffer : w.reverse ++ c :: (inner.reverse ++ o :: p.reading)
        = (o :: (inner ++ c :: w)).reverse ++ p.reading := by
      simp only [List.reverse_cons, List.reverse_append, List.append_assoc, List.nil_append,
        List.cons_append]
    have hbehind : Progress.readAll { p with reading := c :: (inner.reverse ++ o :: p.reading) }
        (masked w) = { p with reading := w.reverse ++ c :: (inner.reverse ++ o :: p.reading) } := by
      have hdecl' := hdecl.snoc (o :: (inner ++ [c])) p.depth
      simp only [List.reverse_cons, List.reverse_append, List.append_assoc, List.reverse_nil,
        List.nil_append, List.cons_append] at hdecl'
      exact ih hdecl'
    rw [readAll_group ho hc hinner, ← hbuffer, ← hbehind]
    by_cases hb : o = '\x7b'
    · -- a brace: one deeper inside, and back behind it
      obtain rfl := hb
      obtain rfl := hbrace.mp rfl
      have hinside : Progress.readAll
          { p with reading := '\x7b' :: p.reading, depth := p.depth + 1 } (masked inner)
          = { p with reading := inner.reverse ++ '\x7b' :: p.reading, depth := p.depth + 1 } :=
        ihinner (hdecl.snoc ['\x7b'] (p.depth + 1))
      rw [Progress.read_open (hdecl ['\x7b']), hinside, Progress.read_close (Nat.succ_pos p.depth)]
      rfl
    · have hc' : c ≠ '\x7d' := fun h => hb (hbrace.mpr h)
      -- the reader counts no other brackets
      have hinside : Progress.readAll { p with reading := o :: p.reading } (masked inner)
          = { p with reading := inner.reverse ++ o :: p.reading } :=
        ihinner (hdecl.snoc [o] p.depth)
      rw [p.read_plain o (by simp [hb, hoclose, hosemi]), hinside,
        Progress.read_plain _ c (by simp [hc', hcopen, hcsemi])]

/-! ## Programs -/

/-- A text that begins with `let`, has nothing open at its end and no blanks at its ends. -/
def IsPrinted (t : List Char) : Prop :=
  ∃ w, t = "let ".toList ++ w ∧ Nested [] w ∧ trim t = t

theorem IsPrinted.nested {t : List Char} (h : IsPrinted t) : Nested [] t := by
  obtain ⟨w, rfl, hw, -⟩ := h
  exact .append (.of_plain (by decide)) hw

theorem IsPrinted.ne_nil {t : List Char} (h : IsPrinted t) : t ≠ [] := by
  obtain ⟨w, rfl, -, -⟩ := h
  exact List.cons_ne_nil _ _

/-- The reader has such a text in its buffer behind it. -/
theorem IsPrinted.readAll {t : List Char} (h : IsPrinted t) (finished : List (List Char)) :
    Progress.readAll ⟨finished, [], 0⟩ (masked t) = ⟨finished, t.reverse, 0⟩ := by
  obtain ⟨w, rfl, hw, -⟩ := h
  have hstart : Nested [] "let ".toList := .of_plain (by decide)
  have hfirst : Progress.readAll ⟨finished, [], 0⟩ (masked "let ".toList)
      = ⟨finished, "let ".toList.reverse, 0⟩ :=
    Progress.readAll_plain _ _ (by decide)
  have hdecl : Progress.Declares ⟨finished, "let ".toList.reverse, 0⟩ := fun v => by
    show startsDeclaration ("let ".toList ++ v) = true
    rfl
  rw [masked_append hstart, Progress.readAll_append, hfirst, readAll_nested hw hdecl,
    List.reverse_append]

theorem IsPrinted.flush {t : List Char} (h : IsPrinted t) (finished : List (List Char)) :
    Progress.flush ⟨finished, t.reverse, 0⟩ = ⟨t :: finished, [], 0⟩ := by
  have hne := h.ne_nil
  obtain ⟨w, ht, -, htrim⟩ := h
  unfold Progress.flush
  rw [List.reverse_reverse, htrim]
  split
  · contradiction
  · rfl

/-- Such texts with semicolons between them leave the last of them in the buffer. -/
theorem readAll_join (t : List Char) (ts : List (List Char)) (h : ∀ s ∈ t :: ts, IsPrinted s)
    (finished : List (List Char)) : ∃ before last, IsPrinted last
      ∧ last :: before = (t :: ts).reverse ++ finished
      ∧ Progress.readAll ⟨finished, [], 0⟩ (masked (join [';'] (t :: ts)))
        = ⟨before, last.reverse, 0⟩ := by
  induction ts generalizing t finished with
  | nil =>
    have ht := h t List.mem_cons_self
    refine ⟨finished, t, ht, rfl, ?_⟩
    rw [join_singleton]
    exact ht.readAll finished
  | cons s ts ih =>
    obtain ⟨ht, hrest⟩ := List.forall_mem_cons.mp h
    obtain ⟨before, last, hlast, hall, hread⟩ := ih s hrest (t :: finished)
    refine ⟨before, last, hlast, ?_, ?_⟩
    · rw [hall]
      simp
    · have hjoin : join [';'] (t :: s :: ts) = t ++ ';' :: join [';'] (s :: ts) :=
        join_cons_cons _ _ _ _
      have hsemi : Progress.read ⟨finished, t.reverse, 0⟩ ';' ';' = ⟨t :: finished, [], 0⟩ :=
        ht.flush finished
      rw [hjoin, masked_append ht.nested, Progress.readAll_append, ht.readAll,
        masked_cons (by decide)]
      show (Progress.read ⟨finished, t.reverse, 0⟩ ';' ';').readAll (masked (join [';'] (s :: ts)))
        = _
      rw [hsemi, hread]

/-- A line of such texts with semicolons between them is read as these texts. -/
theorem readLine_join (t : List Char) (ts : List (List Char)) (h : ∀ s ∈ t :: ts, IsPrinted s)
    (finished : List (List Char)) :
    Progress.readLine ⟨finished, [], 0⟩ (join [';'] (t :: ts))
      = ⟨(t :: ts).reverse ++ finished, [], 0⟩ := by
  obtain ⟨before, last, hlast, hall, hread⟩ := readAll_join t ts h finished
  rw [Progress.readLine_eq, hread]
  dsimp only
  rw [if_neg (Nat.lt_irrefl 0), hlast.flush, hall]

/-- Lines of one such text each. -/
theorem foldl_readLine (ts : List (List Char)) (h : ∀ t ∈ ts, IsPrinted t) :
    ∀ finished, ts.foldl Progress.readLine ⟨finished, [], 0⟩ = ⟨ts.reverse ++ finished, [], 0⟩ := by
  induction ts with
  | nil => exact fun _ => rfl
  | cons t ts ih =>
    intro finished
    obtain ⟨ht, hrest⟩ := List.forall_mem_cons.mp h
    have hline := readLine_join t [] (List.forall_mem_singleton.mpr ht) finished
    rw [join_singleton] at hline
    rw [List.foldl_cons, hline, ih hrest]
    simp

end Statements

/-! ## Lines -/

namespace Text

/-- Characters that end no line go before the line that follows. -/
theorem brokenLines_append {w rest line ending : List Char} {more : List (List Char × List Char)}
    (hw : ∀ c ∈ w, isBreak c = false) (hrest : brokenLines rest = (line, ending) :: more) :
    brokenLines (w ++ rest) = (w ++ line, ending) :: more := by
  induction w with
  | nil => exact hrest
  | cons c w ih =>
    obtain ⟨hc, hw⟩ := List.forall_mem_cons.mp hw
    have hcr : c ≠ '\r' := by
      rintro rfl
      cases hc
    rw [List.cons_append, brokenLines, if_neg (by rw [hc]; exact Bool.false_ne_true), ih hw]
    · rfl
    · exact fun _ he => absurd he hcr

theorem lines_of_not_break {w : List Char} (hw : ∀ c ∈ w, isBreak c = false) (hne : w ≠ []) :
    lines w = [w] := by
  obtain ⟨init, last, rfl⟩ := (List.eq_nil_or_concat w).resolve_left hne
  rw [List.concat_eq_append] at hw ⊢
  obtain ⟨hinit, hlast⟩ := List.forall_mem_append.mp hw
  have hlast := List.forall_mem_singleton.mp hlast
  have hcr : last ≠ '\r' := by
    rintro rfl
    cases hlast
  have hend : brokenLines [last] = [([last], [])] := by
    rw [brokenLines, if_neg (by rw [hlast]; exact Bool.false_ne_true)]
    · rfl
    · exact fun _ he => absurd he hcr
  rw [lines, brokenLines_append hinit hend]
  rfl

theorem brokenLines_feed (s : List Char) : brokenLines ('\n' :: s) = ([], ['\n']) :: brokenLines s := by
  rw [brokenLines, if_pos (by decide)]
  exact fun _ he => absurd he (by decide)

/-- Lines without line ends in them, joined with line feeds, are the lines again. -/
theorem lines_join {ls : List (List Char)} (h : ∀ l ∈ ls, l ≠ [] ∧ ∀ c ∈ l, isBreak c = false) :
    lines (join ['\n'] ls) = ls := by
  induction ls with
  | nil => rfl
  | cons l ls ih =>
    obtain ⟨⟨hne, hl⟩, hrest⟩ := List.forall_mem_cons.mp h
    cases ls with
    | nil =>
      rw [join_singleton]
      exact lines_of_not_break hl hne
    | cons k ls =>
      have hjoin : join ['\n'] (l :: k :: ls) = l ++ '\n' :: join ['\n'] (k :: ls) :=
        join_cons_cons _ _ _ _
      have hbehind : (brokenLines (join ['\n'] (k :: ls))).map Prod.fst = k :: ls := ih hrest
      rw [hjoin, lines, brokenLines_append hl (brokenLines_feed _), List.map_cons, hbehind, List.append_nil]

end Text

namespace Statements

/-- Printed texts are the statements of what joins them, on lines of their own or on one line. -/
theorem ofText_join {sep : Char} (hsep : sep = '\n' ∨ sep = ';') {ts : List (List Char)}
    (h : ∀ t ∈ ts, IsPrinted t) : ofText (join [sep] ts) = ⟨ts, none⟩ := by
  have hbreak : ∀ t ∈ ts, t ≠ [] ∧ ∀ c ∈ t, isBreak c = false :=
    fun t ht => ⟨(h t ht).ne_nil, (h t ht).nested.not_break⟩
  have hread : (lines (join [sep] ts)).foldl Progress.readLine ⟨[], [], 0⟩ = ⟨ts.reverse, [], 0⟩ := by
    rcases hsep with rfl | rfl
    · rw [lines_join hbreak, foldl_readLine ts h, List.append_nil]
    · cases ts with
      | nil => rfl
      | cons t ts =>
        have hline : ∀ c ∈ join [';'] (t :: ts), isBreak c = false :=
          forall_mem_join (by decide) fun s hs => (hbreak s hs).2
        have hne : join [';'] (t :: ts) ≠ [] := by
          have hne := (hbreak t List.mem_cons_self).1
          cases ts with
          | nil => rwa [join_singleton]
          | cons s ts =>
            rw [join_cons_cons]
            exact List.append_ne_nil_of_left_ne_nil hne _
        rw [lines_of_not_break hline hne, List.foldl_cons, readLine_join t ts h, List.append_nil]
        rfl
  unfold ofText
  rw [hread]
  show Statements.mk (Progress.flush ⟨ts.reverse, [], 0⟩).finished.reverse none = _
  rw [show Progress.flush ⟨ts.reverse, [], 0⟩ = ⟨ts.reverse, [], 0⟩ from rfl, List.reverse_reverse]

end Statements
end LetTag
