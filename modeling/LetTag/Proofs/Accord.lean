/-
  What the function of a definition depends on.

  A definition is accepted if it has its parts and distinct names between its parentheses, and then it
  is made of these (`ofText_iff`).  What becomes of the body is a matter of its free words.  Two
  readings that `Agree` take the same words as free: they stand alike with respect to literals, and no
  keyword argument tells them apart, although one may know of brackets around the other.  A literal ends
  on its line, so only the line that a quote stands on decides about it (`literalLength_firstLine`).
-/
import LetTag.Proofs.MarkedOnce

namespace LetTag.Text

/-! ## Pieces -/

/-- Cutting a text leaves one piece at least, the empty one for an empty text. -/
theorem cut_ne_nil (sep : Char) (s : List Char) : cut sep s ≠ [] := by
  cases s with
  | nil => exact List.cons_ne_nil _ _
  | cons c s =>
    rw [cut]
    split
    · exact List.cons_ne_nil _ _
    · cases cut sep s with
      | nil => exact List.cons_ne_nil _ _
      | cons piece pieces => exact List.cons_ne_nil _ _

/-- The first piece of a text ends where the separator stands for the first time. -/
theorem cut_append {sep : Char} {s : List Char} (h : sep ∉ s) (t : List Char) :
    cut sep (s ++ sep :: t) = s :: cut sep t := by
  induction s with
  | nil => exact if_pos rfl
  | cons c s ih =>
    obtain ⟨hc, hs⟩ := List.ne_and_not_mem_of_not_mem_cons h
    rw [List.cons_append, cut, if_neg (Ne.symm hc), ih hs]
    rfl

end LetTag.Text

namespace LetTag.Arrow

open Text Arrow.Reading

/-! ## Accepted definitions -/

/-- What stands between the parentheses of an arrow has no closing one in it, and there is a body behind
    it. -/
theorem notMem_of_split? {expr inner body : List Char} (h : split? expr = some (inner, body)) :
    ')' ∉ inner ∧ body ≠ [] := by
  unfold split? at h
  split at h
  · dsimp only at h
    split at h
    · split at h
      · split at h
        · cases h
        · rename_i hne
          cases h
          refine ⟨fun hm => ?_, by simpa using hne⟩
          simpa using List.all_eq_true.mp List.all_takeWhile _ hm
      · cases h
    · cases h
  · cases h

/-- When a text has the form of a definition: its parts, and blanks around the arrow. -/
theorem split?_iff {expr inner body : List Char} : split? expr = some (inner, body)
    ↔ ∃ blanks rest, expr = '(' :: (inner ++ ')' :: (blanks ++ '=' :: '>' :: rest)) ∧ ')' ∉ inner
      ∧ (∀ c ∈ blanks, isBlank c = true) ∧ body = trimLeft rest ∧ body ≠ [] := by
  constructor
  · intro h
    obtain ⟨hinner, hbody⟩ := notMem_of_split? h
    obtain ⟨blanks, rest, hexpr, hblanks, hrest⟩ := split?_some h
    exact ⟨blanks, rest, hexpr, hinner, hblanks, hrest, hbody⟩
  · rintro ⟨blanks, rest, rfl, hinner, hblanks, rfl, hne⟩
    have hplain : ∀ c ∈ inner, decide (c ≠ ')') = true := fun c hc =>
      decide_eq_true fun he => hinner (he ▸ hc)
    have harrow : trimLeft (blanks ++ '=' :: '>' :: rest) = '=' :: '>' :: rest := by
      rw [trimLeft_append hblanks, trimLeft_of_head (by decide)]
    obtain ⟨c, body, hbody⟩ := List.exists_cons_of_ne_nil hne
    have hinner' : (inner ++ ')' :: (blanks ++ '=' :: '>' :: rest)).takeWhile (· ≠ ')') = inner := by
      rw [List.takeWhile_append_of_pos hplain, List.takeWhile_cons_of_neg (by decide), List.append_nil]
    have hbehind : (inner ++ ')' :: (blanks ++ '=' :: '>' :: rest)).dropWhile (· ≠ ')')
        = ')' :: (blanks ++ '=' :: '>' :: rest) := by
      rw [List.dropWhile_append_of_pos hplain, List.dropWhile_cons_of_neg (by decide)]
    unfold split?
    simp only [hbehind, harrow, hinner']
    rw [hbody]
    rfl

/-- Names that come once each pass the check for distinct names. -/
theorem distinct_of_nodup {names : List (List Char)} (h : names.Nodup) : distinct names = true := by
  induction names with
  | nil => rfl
  | cons n names ih =>
    obtain ⟨hn, hnames⟩ := List.nodup_cons.mp h
    rw [distinct, ih hnames, Bool.and_true, Bool.not_eq_true', ← Bool.not_eq_true,
      List.contains_iff_mem]
    exact hn

/-- The names that stand between the parentheses of a definition. -/
def namesOf (inner : List Char) : List (List Char) :=
  ((cut ',' inner).map trim).filter (!·.isEmpty)

/-- **The definitions that are accepted**, and what their functions are made of. -/
theorem ofText_iff {expr : List Char} {a : Arrow} : ofText expr = .ok a
    ↔ ∃ inner body, split? (trim expr) = some (inner, body) ∧ a.parameters = namesOf inner
      ∧ a.parameters.Nodup ∧ (∀ p ∈ a.parameters, isParameter p = true)
      ∧ a.body = layout (weave (marksFor a.parameters) (trim body))
      ∧ a.source = sourceOf a.parameters a.body := by
  constructor
  · intro h
    obtain ⟨inner, body, hsplit, hps, hnodup, hnames, hbody, hsource⟩ := parts_of_ofText h
    rw [foldl_mark hnames] at hbody
    exact ⟨inner, body, hsplit, hps, hnodup, hnames, hbody, hsource⟩
  · obtain ⟨ps, body, source⟩ := a
    dsimp only
    rintro ⟨inner, text, hsplit, hps, hnodup, hnames, rfl, rfl⟩
    have hfind : ps.find? (!isParameter ·) = none := by
      refine List.find?_eq_none.mpr fun p hp => ?_
      rw [hnames p hp]
      exact Bool.false_ne_true
    rw [hps, namesOf] at hfind hnodup hnames ⊢
    unfold ofText
    dsimp only
    rw [hsplit]
    dsimp only
    rw [hfind]
    dsimp only
    rw [if_pos (distinct_of_nodup hnodup), foldl_mark hnames]

/-- A body that begins with a brace is laid out as a block. -/
theorem layout_block (inner : List Char) : layout ('\x7b' :: inner) = blockBody ('\x7b' :: inner) :=
  if_pos rfl

/-- The marks of a parameter are word characters. -/
theorem isWord_marksFor (ps : List (List Char)) (w : List Char) :
    ∀ c ∈ marksFor ps w, isWord c = true := by
  have hfold : ∀ front : List Char, (∀ c ∈ front, isWord c = true) →
      ∀ c ∈ ps.foldl (fun front p => if front ++ w = p then parameterMark ++ front else front) front,
        isWord c = true := by
    induction ps with
    | nil => exact fun _ h => h
    | cons p ps ih =>
      intro front h
      rw [List.foldl_cons]
      refine ih _ ?_
      split
      · exact List.forall_mem_append.mpr ⟨isWord_mark, h⟩
      · exact h
  exact hfold [] fun c hc => absurd hc List.not_mem_nil

/-! ## Literals and lines -/

/-- A character on the first line of two texts together is on the first line of one of them. -/
theorem mem_firstLine_of_append {d : Char} (s : List Char) {t : List Char}
    (h : d ∈ firstLine (s ++ t)) : d ∈ firstLine s ∨ d ∈ firstLine t := by
  induction s with
  | nil => exact Or.inr h
  | cons c s ih =>
    rw [List.cons_append, mem_firstLine_cons] at h
    rw [mem_firstLine_cons]
    obtain ⟨hc, rfl | hmem⟩ := h
    · exact Or.inl ⟨hc, Or.inl rfl⟩
    · exact (ih hmem).imp_left fun hs => ⟨hc, Or.inr hs⟩

/-- A text is its first line, and behind that nothing or a line feed. -/
theorem firstLine_between (s : List Char) : ∃ behind, s = firstLine s ++ behind
    ∧ firstLine behind = [] := by
  refine ⟨s.dropWhile (· != '\n'), List.takeWhile_append_dropWhile.symm, ?_⟩
  induction s with
  | nil => rfl
  | cons c s ih =>
    rw [List.dropWhile_cons]
    split
    · exact ih
    · rename_i hc
      exact List.takeWhile_cons_of_neg hc

section

variable {q : Char} (hq : Quoting.isQuote q = true)
include hq

/-- A literal ends where it did if no quote comes to its line behind it. -/
theorem literalLength_append_of_notMem (s : List Char) {t : List Char} (ht : q ∉ firstLine t) :
    literalLength q (s ++ t) = literalLength q s := by
  have hfeed : q ≠ '\n' := by
    rintro rfl
    exact absurd hq (by decide)
  have hfirst : unescapedEnd q (s ++ t) = unescapedEnd q s := by
    cases hend : unescapedEnd q s with
    | none =>
      rw [← List.append_nil s] at hend
      exact unescapedEnd_append_eq_none hq hend ht
    | some n =>
      obtain ⟨body, rest, rfl, rfl, hbody⟩ := enclosed_of_unescapedEnd (isQuote_class hq).2.1 s hend
      rw [List.append_assoc, List.cons_append, unescapedEnd_of_enclosed hq hbody]
  have hlast : lastEnd q (s ++ t) = lastEnd q s := by
    cases hend : lastEnd q s with
    | none =>
      have hnot := (lastEnd_eq_none_iff hfeed s).mp hend
      refine (lastEnd_eq_none_iff hfeed _).mpr fun hmem => ?_
      rcases mem_firstLine_of_append s hmem with hs | hmem
      · exact hnot hs
      · exact ht hmem
    | some n =>
      obtain ⟨v, u, rfl, rfl, hv, hu⟩ := (lastEnd_eq_some_iff hfeed s).mp hend
      refine (lastEnd_eq_some_iff hfeed _).mpr ⟨v, u ++ t, by simp, rfl, hv, fun hmem => ?_⟩
      rcases mem_firstLine_of_append u hmem with hu' | hmem
      · exact hu hu'
      · exact ht hmem
  rw [literalLength, literalLength, hfirst, hlast]

/-- Only the first line decides where a literal ends. -/
theorem literalLength_firstLine (s : List Char) :
    literalLength q (firstLine s) = literalLength q s := by
  obtain ⟨behind, hs, hbehind⟩ := firstLine_between s
  conv => rhs; rw [hs]
  rw [literalLength_append_of_notMem hq _ (by rw [hbehind]; exact List.not_mem_nil)]

/-- A literal ends on its line. -/
theorem literalLength_le_firstLine (s : List Char) : literalLength q s ≤ (firstLine s).length := by
  rw [← literalLength_firstLine hq]
  exact literalLength_le hq _

end

/-! ## Assignments under the mask -/

/-- A text without an equals sign assigns nothing. -/
theorem assigns_of_notMem {s : List Char} (h : '=' ∉ s) : assigns s = false := by
  obtain ⟨front, hs, -⟩ := trimLeft_between s
  have hleft : '=' ∉ trimLeft s := fun hm => h (by rw [hs]; exact List.mem_append_right _ hm)
  unfold assigns
  split
  · rfl
  · rename_i heq
    rw [heq] at hleft
    exact absurd List.mem_cons_self hleft
  · rfl

/-- Behind a first character that is the same, it is the rest that decides, and behind an equals sign
    whether another one follows. -/
theorem assigns_cons_congr (c : Char) {s t : List Char} (h : assigns s = assigns t)
    (hhead : s.head? = some '=' ↔ t.head? = some '=') : assigns (c :: s) = assigns (c :: t) := by
  cases hblank : isBlank c with
  | true => rw [assigns_blank hblank, assigns_blank hblank, h]
  | false =>
    by_cases hc : c = '='
    · rw [hc, assigns_equals, assigns_equals, Bool.eq_iff_iff, bne_iff_ne, bne_iff_ne]
      exact not_congr hhead
    · rw [assigns_of_ne hblank hc, assigns_of_ne hblank hc]

/-- The mask of two texts together: behind the first, the quoting is what the first leaves. -/
theorem maskFrom_append (s t : List Char) : ∀ q : Quoting,
    maskFrom q (s ++ t) = maskFrom q s ++ maskFrom (s.foldl Quoting.next q) t := by
  induction s with
  | nil => exact fun _ => rfl
  | cons c s ih => exact fun q => congrArg (q.shown c :: ·) (ih (q.next c))

/-- The mask shows a character or a blank in its place. -/
theorem shown_cases (q : Quoting) (c : Char) : q.shown c = c ∨ q.shown c = ' ' := by
  match q with
  | .outside => exact Or.inl rfl
  | .inside quote true => exact Or.inr rfl
  | .inside quote false =>
    show (if c ≠ '\\' ∧ (c = quote ∨ c = '\n') then c else ' ') = c ∨ _
    split
    · exact Or.inl rfl
    · exact Or.inr (if_neg ‹_›)

/-- Blanks are blanks in the mask too, inside literals and outside of them. -/
theorem isBlank_shown {c : Char} (hc : isBlank c = true) (q : Quoting) :
    isBlank (q.shown c) = true := by
  rcases shown_cases q c with h | h
  · rw [h]
    exact hc
  · rw [h]
    exact isBlank_space

/-! ## Readings that agree -/

/-- The first character has a property exactly if a run of such characters stands in front. -/
theorem head?_any (p : Char → Bool) (s : List Char) :
    s.head?.any p = !(s.takeWhile p).isEmpty := by
  cases s with
  | nil => rfl
  | cons c s =>
    rw [List.takeWhile_cons]
    show p c = _
    cases p c
    · rfl
    · rfl

/-- Does an argument of a call begin behind the character? -/
def opensArgument (shown : Option Char) : Bool :=
  shown == some '(' || shown == some ','

/-- The second reading decides about words as the first does.  It may stand in brackets that the first
    does not know of, as long as these belong to no call. -/
structure Reading.Agree (r r' : Reading) : Prop where
  joined : r'.previous.any joins = r.previous.any joins
  literal : r'.literal = r.literal
  quoting : r'.quoting = r.quoting
  brackets : ∃ outer, '(' ∉ outer ∧ r'.brackets = r.brackets ++ outer
  shown : opensArgument r'.shown = opensArgument r.shown

/-- Outer brackets are closed only when the inner ones are. -/
theorem bracketsAfter_append {outer : List Char} (h : '(' ∉ outer) (brackets : List Char) (c : Char) :
    ∃ outer', '(' ∉ outer'
      ∧ bracketsAfter (brackets ++ outer) c = bracketsAfter brackets c ++ outer' := by
  unfold bracketsAfter
  split
  · exact ⟨outer, h, rfl⟩
  · cases hc : partner? c with
    | none => exact ⟨outer, h, rfl⟩
    | some o =>
      cases brackets with
      | cons b inner =>
        refine ⟨outer, h, ?_⟩
        show (if b = o then inner ++ outer else _) = (if b = o then inner else b :: inner) ++ outer
        split
        · rfl
        · rfl
      | nil =>
        cases outer with
        | nil => exact ⟨[], h, rfl⟩
        | cons b outer =>
          refine ⟨if b = o then outer else b :: outer, ?_, rfl⟩
          split
          · exact fun hm => h (List.mem_cons_of_mem b hm)
          · exact h

namespace Reading.Agree

variable {r r' : Reading}

theorem refl (r : Reading) : r.Agree r :=
  ⟨rfl, rfl, rfl, ⟨[], List.not_mem_nil, (List.append_nil _).symm⟩, rfl⟩

/-- Readings that agree still do behind the same character, whatever text they find behind it, if a
    literal ends at the same place there. -/
theorem next (h : r.Agree r') {c : Char} {s s' : List Char}
    (hliteral : Quoting.isQuote c = true → literalLength c s' = literalLength c s) :
    (r.next c s).Agree (r'.next c s') := by
  obtain ⟨outer, houter, hbrackets⟩ := h.brackets
  have hshown : r'.quoting.shown c = r.quoting.shown c := by rw [h.quoting]
  refine ⟨rfl, ?_, ?_, ?_, ?_⟩
  · by_cases hlit : r.literal > 0
    · rw [next_literal_inside hlit, next_literal_inside (h.literal ▸ hlit), h.literal]
    · by_cases hquote : Quoting.isQuote c = true
      · rw [next_literal_quote hlit hquote, next_literal_quote (h.literal ▸ hlit) hquote,
          hliteral hquote]
      · rw [next_literal_plain hlit hquote, next_literal_plain (h.literal ▸ hlit) hquote]
  · show r'.quoting.next c = r.quoting.next c
    rw [h.quoting]
  · show ∃ outer, _ ∧ bracketsAfter r'.brackets (r'.quoting.shown c)
      = bracketsAfter r.brackets (r.quoting.shown c) ++ outer
    rw [hbrackets, hshown]
    exact bracketsAfter_append houter r.brackets _
  · show opensArgument (if isBlank (r'.quoting.shown c) then r'.shown else some (r'.quoting.shown c))
      = opensArgument (if isBlank (r.quoting.shown c) then r.shown else some (r.quoting.shown c))
    rw [hshown]
    split
    · exact h.shown
    · rfl

/-- A word is free for both, if it ends where it did and what is assigned behind it is the same. -/
theorem isFree_eq (h : r.Agree r') (hr : r.quoting.Valid) {s s' : List Char}
    (hword : s'.takeWhile isWord = s.takeWhile isWord)
    (hassigns : ∀ {q : Quoting}, q.Valid → assigns (maskFrom q (s'.dropWhile isWord))
      = assigns (maskFrom q (s.dropWhile isWord))) : r'.isFree s' = r.isFree s := by
  obtain ⟨outer, houter, hbrackets⟩ := h.brackets
  have hcall : (r'.brackets.head? == some '(') = (r.brackets.head? == some '(') := by
    rw [hbrackets]
    cases r.brackets with
    | nil =>
      show (outer.head? == some '(') = false
      refine beq_false_of_ne fun hhead => houter ?_
      exact List.mem_of_head? hhead
    | cons b inner => rfl
  have hkeyword : s.takeWhile isWord ≠ [] → r'.isKeyword (s'.takeWhile isWord).length s'
      = r.isKeyword (s.takeWhile isWord).length s := by
    intro hne
    have hall : ∀ c ∈ s.takeWhile isWord, isWord c = true := List.all_eq_true.mp List.all_takeWhile
    have hdrop : (maskFrom r.quoting s).drop (s.takeWhile isWord).length
        = maskFrom (onWord r.quoting) (s.dropWhile isWord) := by
      have hbehind := drop_maskFrom_word hne hall (s.dropWhile isWord) hr
      rwa [List.takeWhile_append_dropWhile] at hbehind
    have hdrop' : (maskFrom r.quoting s').drop (s.takeWhile isWord).length
        = maskFrom (onWord r.quoting) (s'.dropWhile isWord) := by
      have hbehind := drop_maskFrom_word hne hall (s'.dropWhile isWord) hr
      rwa [← hword, List.takeWhile_append_dropWhile, hword] at hbehind
    unfold isKeyword
    rw [hword, h.quoting, hdrop, hdrop', hassigns (valid_onWord hr), hcall]
    exact congrArg (fun b => _ && b && _) h.shown
  unfold isFree
  rw [h.literal, h.joined, head?_any, head?_any, hword]
  by_cases hne : s.takeWhile isWord = []
  · rw [hne]
    simp
  · have hkeyword' := hkeyword hne
    rw [hword] at hkeyword'
    rw [hkeyword']

end Reading.Agree

end LetTag.Arrow
