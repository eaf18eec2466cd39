/-
  A pass of the marking over a body that was marked before.

  The passes before it only put word characters in front of words (`Woven`).  That moves neither the
  end of a literal (`literalLength_append`) nor what is seen behind a name
  (`Woven.assigns_maskFrom`), and outside the words the reading stands where it stood before.  So a
  pass finds the same words in the same places: what two passes do is one pass over the body as it
  was, which puts more in front of some of its free words (`markFrom_weaveFrom`).
-/
import LetTag.Proofs.MarkedText
import LetTag.Proofs.Nesting

namespace LetTag.Arrow

open Text Arrow.Reading

/-! ## Texts with word characters put in front of words -/

/-- The second text is the first with word characters put in front of some of its word characters. -/
inductive Woven : List Char → List Char → Prop
  | nil : Woven [] []
  | keep (c : Char) {s t : List Char} : Woven s t → Woven (c :: s) (c :: t)
  | front {front : List Char} {c : Char} {s t : List Char} : (∀ d ∈ front, isWord d = true) →
    isWord c = true → Woven s t → Woven (c :: s) (front ++ c :: t)

/-- What is on the first line, its feed apart. -/
def firstLine (s : List Char) : List Char :=
  s.takeWhile (· != '\n')

/-- The first line goes on behind what is no line feed. -/
theorem mem_firstLine_cons {d c : Char} {s : List Char} :
    d ∈ firstLine (c :: s) ↔ c ≠ '\n' ∧ (d = c ∨ d ∈ firstLine s) := by
  unfold firstLine
  rw [List.takeWhile_cons]
  by_cases hc : c = '\n'
  · simp [hc]
  · simp [hc]

theorem word_ne_feed {c : Char} (h : isWord c = true) : c ≠ '\n' := by
  rintro rfl
  exact absurd h (by decide)

/-- A word in front leaves the other characters of the first line. -/
theorem mem_firstLine_word {d : Char} (hd : isWord d = false) {w : List Char}
    (hw : ∀ c ∈ w, isWord c = true) (s : List Char) : d ∈ firstLine (w ++ s) ↔ d ∈ firstLine s := by
  induction w with
  | nil => exact Iff.rfl
  | cons c w ih =>
    have hc := hw c List.mem_cons_self
    have hrest := ih fun e he => hw e (List.mem_cons_of_mem c he)
    have hne : d ≠ c := by
      rintro rfl
      rw [hc] at hd
      cases hd
    rw [List.cons_append, mem_firstLine_cons]
    constructor
    · rintro ⟨-, hdc | hmem⟩
      · exact absurd hdc hne
      · exact hrest.mp hmem
    · intro hmem
      exact ⟨word_ne_feed hc, Or.inr (hrest.mpr hmem)⟩

/-- Weaving puts nothing on a line but word characters. -/
theorem Woven.mem_firstLine {s t : List Char} (h : Woven s t) {d : Char} (hd : isWord d = false) :
    d ∈ firstLine t ↔ d ∈ firstLine s := by
  induction h with
  | nil => exact Iff.rfl
  | keep c _ ih => rw [mem_firstLine_cons, mem_firstLine_cons, ih]
  | front hfront hc _ ih =>
    rw [mem_firstLine_word hd hfront, mem_firstLine_cons, mem_firstLine_cons, ih]

/-! ## Words under the mask -/

/-- Where a scan stands behind a word. -/
def onWord : Quoting → Quoting
  | .outside => .outside
  | .inside q _ => .inside q false

/-- What letters do to the quoting depends on it alone: they end an escape. -/
theorem next_of_word {q : Quoting} (hq : q.Valid) {c : Char} (hc : isWord c = true) :
    q.next c = onWord q := by
  obtain ⟨-, hquote, -, -⟩ := isWord_class hc
  match q with
  | .outside =>
    show (if Quoting.isQuote c = true then _ else _) = _
    rw [hquote]
    rfl
  | .inside quote true => rfl
  | .inside quote false =>
    have hslash : c ≠ '\\' := by
      rintro rfl
      exact absurd hc (by decide)
    have hends : ¬ (c = quote ∨ c = '\n') := by
      rintro (rfl | rfl)
      · rw [Quoting.Valid, hquote] at hq
        cases hq
      · exact word_ne_feed hc rfl
    show (if c = '\\' then _ else if c = quote ∨ c = '\n' then _ else _) = _
    rw [if_neg hslash, if_neg hends]
    rfl

/-- Letters are shown outside of literals, and are blanks inside. -/
theorem shown_of_word {q : Quoting} (hq : q.Valid) {c : Char} (hc : isWord c = true) :
    q.shown c = if q = .outside then c else ' ' := by
  obtain ⟨-, hquote, -, -⟩ := isWord_class hc
  match q with
  | .outside => rfl
  | .inside quote true => rfl
  | .inside quote false =>
    have hends : ¬ (c ≠ '\\' ∧ (c = quote ∨ c = '\n')) := by
      rintro ⟨-, rfl | rfl⟩
      · rw [Quoting.Valid, hquote] at hq
        cases hq
      · exact word_ne_feed hc rfl
    show (if c ≠ '\\' ∧ (c = quote ∨ c = '\n') then c else ' ') = _
    rw [if_neg hends]
    rfl

theorem onWord_onWord (q : Quoting) : onWord (onWord q) = onWord q := by
  cases q with
  | outside => rfl
  | inside quote escaped => rfl

/-- The quoting behind a letter is one that there can be. -/
theorem valid_onWord {q : Quoting} (hq : q.Valid) : (onWord q).Valid := by
  cases q with
  | outside => exact hq
  | inside quote escaped => exact hq

theorem onWord_eq_outside (q : Quoting) : onWord q = .outside ↔ q = .outside := by
  cases q with
  | outside => exact Iff.rfl
  | inside quote escaped =>
    constructor
    · intro h
      cases h
    · intro h
      cases h

/-- The mask behind a word does not depend on the word. -/
theorem drop_maskFrom_word {w : List Char} (hne : w ≠ []) (hw : ∀ c ∈ w, isWord c = true)
    (t : List Char) : ∀ {q : Quoting}, q.Valid →
    (maskFrom q (w ++ t)).drop w.length = maskFrom (onWord q) t := by
  induction w with
  | nil => exact absurd rfl hne
  | cons c w ih =>
    intro q hq
    have hnext := next_of_word hq (hw c List.mem_cons_self)
    show (q.shown c :: maskFrom (q.next c) (w ++ t)).drop (w.length + 1) = _
    rw [List.drop_succ_cons, hnext]
    cases w with
    | nil => rfl
    | cons d w =>
      rw [ih (List.cons_ne_nil d w) (fun e he => hw e (List.mem_cons_of_mem c he)) (valid_onWord hq),
        onWord_onWord]

/-! ## What is seen behind a name -/

/-- Blanks in front make no difference to whether something is assigned. -/
theorem assigns_blank {c : Char} (hc : isBlank c = true) (s : List Char) :
    assigns (c :: s) = assigns s := by
  unfold assigns
  rw [show trimLeft (c :: s) = trimLeft s from
    trimLeft_append (s := [c]) (by simpa using hc) s]

/-- An equals sign assigns, unless another one follows. -/
theorem assigns_equals (s : List Char) : assigns ('=' :: s) = (s.head? != some '=') := by
  cases s with
  | nil => rfl
  | cons d s =>
    by_cases hd : d = '='
    · rw [hd, assigns_double]
      rfl
    · rw [assigns_single hd]
      simp [hd]

theorem isBlank_space : isBlank ' ' = true := by
  decide

/-- A word that the mask shows is no assignment, and one that it hides is passed over. -/
theorem assigns_word {w : List Char} (hne : w ≠ []) (hw : ∀ c ∈ w, isWord c = true)
    (t : List Char) : ∀ {q : Quoting}, q.Valid → assigns (maskFrom q (w ++ t))
      = if q = .outside then false else assigns (maskFrom (onWord q) t) := by
  induction w with
  | nil => exact absurd rfl hne
  | cons c w ih =>
    intro q hq
    have hc := hw c List.mem_cons_self
    show assigns (q.shown c :: maskFrom (q.next c) (w ++ t)) = _
    rw [shown_of_word hq hc, next_of_word hq hc]
    by_cases hout : q = .outside
    · rw [if_pos hout, if_pos hout]
      refine assigns_of_ne (isWord_class hc).1 ?_ _
      rintro rfl
      exact absurd hc (by decide)
    · rw [if_neg hout, if_neg hout, assigns_blank isBlank_space]
      cases w with
      | nil => rfl
      | cons d w =>
        have hrest := ih (List.cons_ne_nil d w) (fun e he => hw e (List.mem_cons_of_mem c he))
          (valid_onWord hq)
        rw [hrest, onWord_onWord, if_neg (mt (onWord_eq_outside q).mp hout)]

/-- An equals sign that comes next in the mask still does. -/
theorem Woven.head_maskFrom {s t : List Char} (h : Woven s t) {q : Quoting} (hq : q.Valid) :
    (maskFrom q t).head? = some '=' ↔ (maskFrom q s).head? = some '=' := by
  have hword : ∀ {c : Char} (u : List Char), isWord c = true →
      (maskFrom q (c :: u)).head? ≠ some '=' := by
    intro c u hc heq
    have hshown : q.shown c = '=' := Option.some.inj heq
    rw [shown_of_word hq hc] at hshown
    split at hshown
    · rw [hshown] at hc
      exact absurd hc (by decide)
    · exact absurd hshown (by decide)
  cases h with
  | nil => exact Iff.rfl
  | keep c _ => exact Iff.rfl
  | @front front c s t hfront hc _ =>
    refine iff_of_false ?_ (hword s hc)
    cases front with
    | nil => exact hword t hc
    | cons d front => exact hword _ (hfront d List.mem_cons_self)

/-- Weaving does not change whether a name is assigned to. -/
theorem Woven.assigns_maskFrom {s t : List Char} (h : Woven s t) : ∀ {q : Quoting}, q.Valid →
    assigns (maskFrom q t) = assigns (maskFrom q s) := by
  induction h with
  | nil => exact fun _ => rfl
  | @keep c s t hwoven ih =>
    intro q hq
    show assigns (q.shown c :: maskFrom (q.next c) t) = assigns (q.shown c :: maskFrom (q.next c) s)
    cases hblank : isBlank (q.shown c) with
    | true => rw [assigns_blank hblank, assigns_blank hblank, ih (hq.next c)]
    | false =>
      by_cases heq : q.shown c = '='
      · have hhead := hwoven.head_maskFrom (hq.next c)
        rw [heq, assigns_equals, assigns_equals, Bool.eq_iff_iff, bne_iff_ne, bne_iff_ne]
        exact not_congr hhead
      · rw [assigns_of_ne hblank heq, assigns_of_ne hblank heq]
  | @front front c s t hfront hc _ ih =>
    intro q hq
    have hword : ∀ d ∈ front ++ [c], isWord d = true := by
      intro d hd
      rcases List.mem_append.mp hd with hd | hd
      · exact hfront d hd
      · rw [List.mem_singleton.mp hd]
        exact hc
    have hwoven := assigns_word (by simp) hword t hq
    have hplain := assigns_word (w := [c]) (by simp) (by simpa using hc) s hq
    rw [List.append_assoc] at hwoven
    rw [show c :: s = [c] ++ s from rfl, hplain, ← ih (valid_onWord hq)]
    exact hwoven

/-! ## Where literals end -/

/-- A literal has no end exactly if its quote is not on the rest of the line. -/
theorem lastEnd_eq_none_iff {q : Char} (hq : q ≠ '\n') (s : List Char) :
    lastEnd q s = none ↔ q ∉ firstLine s := by
  induction s with
  | nil => simp [lastEnd, firstLine]
  | cons c s ih =>
    rw [mem_firstLine_cons, lastEnd]
    by_cases hfeed : c = '\n'
    · rw [if_pos hfeed]
      simp [hfeed]
    · rw [if_neg hfeed]
      cases hlast : lastEnd q s with
      | some n =>
        rw [hlast] at ih
        have hmem : q ∈ firstLine s := by simpa using ih
        simp [hfeed, hmem]
      | none =>
        have hnot : q ∉ firstLine s := ih.mp hlast
        by_cases hc : c = q
        · simp [hc, hq]
        · have hc' : q ≠ c := fun h => hc h.symm
          simp [hc, hc', hnot]

theorem lastEnd_quote {q : Char} (hq : q ≠ '\n') {v u : List Char} (hv : '\n' ∉ v)
    (hu : q ∉ firstLine u) : lastEnd q (v ++ q :: u) = some (v.length + 1) := by
  induction v with
  | nil =>
    rw [List.nil_append, lastEnd, if_neg hq, (lastEnd_eq_none_iff hq u).mpr hu]
    exact if_pos rfl
  | cons c v ih =>
    have hc : c ≠ '\n' := fun h => hv (h ▸ List.mem_cons_self)
    have hrest : '\n' ∉ v := fun h => hv (List.mem_cons_of_mem c h)
    rw [List.cons_append, lastEnd, if_neg hc, ih hrest]
    rfl

/-- The last end of a literal has a quote in front, and none behind it on the line. -/
theorem exists_of_lastEnd {q : Char} (hq : q ≠ '\n') (s : List Char) : ∀ {n : Nat},
    lastEnd q s = some n → ∃ v u, s = v ++ q :: u ∧ n = v.length + 1 ∧ '\n' ∉ v
      ∧ q ∉ firstLine u := by
  induction s with
  | nil =>
    intro n h
    cases h
  | cons c s ih =>
    intro n h
    rw [lastEnd] at h
    by_cases hfeed : c = '\n'
    · rw [if_pos hfeed] at h
      cases h
    · rw [if_neg hfeed] at h
      cases hlast : lastEnd q s with
      | some m =>
        rw [hlast] at h
        cases h
        obtain ⟨v, u, rfl, rfl, hv, hu⟩ := ih hlast
        exact ⟨c :: v, u, rfl, rfl, by simpa [Ne.symm hfeed] using hv, hu⟩
      | none =>
        -- no quote behind it on this line, so `c` has to be the quote
        rw [hlast] at h
        dsimp only at h
        split at h
        · rename_i hc
          cases h
          have hnot := (lastEnd_eq_none_iff hq s).mp hlast
          exact ⟨[], s, by rw [hc]; rfl, rfl, List.not_mem_nil, hnot⟩
        · cases h

/-- The last quote on the line has no other one behind it. -/
theorem lastEnd_eq_some_iff {q : Char} (hq : q ≠ '\n') (s : List Char) : ∀ {n : Nat},
    lastEnd q s = some n ↔ ∃ v u, s = v ++ q :: u ∧ n = v.length + 1 ∧ '\n' ∉ v
      ∧ q ∉ firstLine u := by
  intro n
  constructor
  · exact exists_of_lastEnd hq s
  · rintro ⟨v, u, rfl, rfl, hv, hu⟩
    exact lastEnd_quote hq hv hu

theorem Enclosed.notMem_feed {q : Char} {body : List Char} (h : Enclosed q body) :
    '\n' ∉ body := by
  induction h with
  | nil => exact List.not_mem_nil
  | plain _ hfeed _ _ ih => simp [Ne.symm hfeed, ih]
  | escaped hfeed _ ih => simp [Ne.symm hfeed, ih]

/-- A quote on the first line is on it with text without line feeds in front. -/
theorem mem_firstLine_append {q : Char} (hq : q ≠ '\n') {v : List Char} (hv : '\n' ∉ v)
    (u : List Char) : q ∈ firstLine (v ++ q :: u) := by
  induction v with
  | nil => exact mem_firstLine_cons.mpr ⟨hq, Or.inl rfl⟩
  | cons c v ih =>
    have hc : c ≠ '\n' := by
      rintro rfl
      exact hv List.mem_cons_self
    exact mem_firstLine_cons.mpr ⟨hc, Or.inr (ih fun h => hv (List.mem_cons_of_mem c h))⟩

/-- If no quote ends a literal, and none comes to its line behind it, still no quote does. -/
theorem unescapedEnd_append_eq_none {q : Char} (hq : Quoting.isQuote q = true) {v u u' : List Char}
    (h : unescapedEnd q (v ++ u) = none) (hu : q ∉ firstLine u') :
    unescapedEnd q (v ++ u') = none := by
  have hfeed : q ≠ '\n' := by
    rintro rfl
    exact absurd hq (by decide)
  have hslash : q ≠ '\\' := (isQuote_class hq).2.1
  refine Option.eq_none_iff_forall_not_mem.mpr fun m hm => ?_
  obtain ⟨body, rest, heq, -, hbody⟩ := enclosed_of_unescapedEnd hslash (v ++ u') hm
  rcases List.append_eq_append_iff.mp heq with ⟨x, hx, hx'⟩ | ⟨x, hx, hx'⟩
  · -- the quote stands behind `v`
    refine hu ?_
    rw [hx']
    refine mem_firstLine_append hfeed (fun hmem => hbody.notMem_feed ?_) rest
    rw [hx]
    exact List.mem_append_right v hmem
  · cases x with
    | nil =>
      refine hu ?_
      rw [List.nil_append] at hx'
      rw [← hx']
      exact mem_firstLine_cons.mpr ⟨hfeed, Or.inl rfl⟩
    | cons d x =>
      -- it stands in `v`, so it ended the literal before
      obtain ⟨rfl, -⟩ := List.cons.inj hx'
      rw [hx, List.append_assoc, List.cons_append, unescapedEnd_of_enclosed hq hbody (x ++ u)] at h
      cases h

/-- **A literal ends where it did**, whatever is behind it, if no quote comes to its line there. -/
theorem literalLength_append {q : Char} (hq : Quoting.isQuote q = true) {v u u' : List Char}
    (h : literalLength q (v ++ u) = v.length) (hu : q ∈ firstLine u' → q ∈ firstLine u) :
    literalLength q (v ++ u') = v.length := by
  have hfeed : q ≠ '\n' := by
    rintro rfl
    exact absurd hq (by decide)
  have hslash : q ≠ '\\' := (isQuote_class hq).2.1
  -- a part that ends with the quote, and is as long as `v`, is `v`
  have hsplit : ∀ {w rest : List Char}, v ++ u = w ++ q :: rest → v.length = w.length + 1 →
      v = w ++ [q] ∧ u = rest := by
    intro w rest heq hlength
    refine List.append_inj ?_ ?_
    · rw [heq, List.append_assoc]
      rfl
    · rw [hlength, List.length_append]
      rfl
  unfold literalLength at h ⊢
  cases hend : unescapedEnd q (v ++ u) with
  | some n =>
    rw [hend] at h
    obtain rfl : n = v.length := h
    obtain ⟨body, rest, heq, hn, hbody⟩ := enclosed_of_unescapedEnd hslash (v ++ u) hend
    obtain ⟨hv, -⟩ := hsplit heq hn
    rw [hv, List.append_assoc]
    show ((unescapedEnd q (body ++ q :: u')).or _).getD 0 = _
    rw [unescapedEnd_of_enclosed hq hbody u', List.length_append]
    rfl
  | none =>
    rw [hend, Option.none_or] at h
    cases hlast : lastEnd q (v ++ u) with
    | none =>
      rw [hlast] at h
      obtain rfl : v = [] := List.length_eq_zero_iff.mp h.symm
      have hnot : q ∉ firstLine u' := mt hu ((lastEnd_eq_none_iff hfeed u).mp hlast)
      have hlast' := (lastEnd_eq_none_iff hfeed u').mpr hnot
      rw [unescapedEnd_append_eq_none hq hend hnot, List.nil_append, hlast']
      rfl
    | some n =>
      rw [hlast] at h
      obtain rfl : n = v.length := h
      obtain ⟨w, u₀, heq, hn, hw, hu₀⟩ := (lastEnd_eq_some_iff hfeed (v ++ u)).mp hlast
      obtain ⟨hv, rfl⟩ := hsplit heq hn
      have hnot : q ∉ firstLine u' := mt hu hu₀
      have hlast' : lastEnd q (v ++ u') = some v.length := by
        refine (lastEnd_eq_some_iff hfeed (v ++ u')).mpr ⟨w, u', ?_, hn, hw, hnot⟩
        rw [hv, List.append_assoc]
        rfl
      rw [unescapedEnd_append_eq_none hq hend hnot, hlast']
      rfl

theorem literalLength_le {q : Char} (hq : Quoting.isQuote q = true) (s : List Char) :
    literalLength q s ≤ s.length := by
  have hfeed : q ≠ '\n' := by
    rintro rfl
    exact absurd hq (by decide)
  unfold literalLength
  cases hend : unescapedEnd q s with
  | some n =>
    obtain ⟨body, rest, rfl, rfl, -⟩ := enclosed_of_unescapedEnd (isQuote_class hq).2.1 s hend
    show body.length + 1 ≤ _
    rw [List.length_append, List.length_cons]
    omega
  | none =>
    cases hlast : lastEnd q s with
    | none => exact Nat.zero_le _
    | some n =>
      obtain ⟨v, u, rfl, rfl, -, -⟩ := (lastEnd_eq_some_iff hfeed s).mp hlast
      show v.length + 1 ≤ _
      rw [List.length_append, List.length_cons]
      omega

/-! ## One pass over a body -/

/-- Does a free word start at the start of `s`: outside closed literals, not behind a word character
    or a dot, and not the name of a keyword argument? -/
def Reading.isFree (r : Reading) (s : List Char) : Bool :=
  r.literal == 0 && !r.previous.any joins && s.head?.any isWord
    && !r.isKeyword (s.takeWhile isWord).length s

namespace Reading

variable {r : Reading} {c : Char}

theorem next_literal_inside (h : r.literal > 0) (rest : List Char) :
    (r.next c rest).literal = r.literal - 1 :=
  if_pos h

theorem next_literal_quote (h : ¬ r.literal > 0) (hc : Quoting.isQuote c = true)
    (rest : List Char) : (r.next c rest).literal = literalLength c rest :=
  (if_neg h).trans (if_pos hc)

theorem next_literal_plain (h : ¬ r.literal > 0) (hc : ¬ Quoting.isQuote c = true)
    (rest : List Char) : (r.next c rest).literal = 0 :=
  (if_neg h).trans (if_neg hc)

/-- Only the length of a literal depends on the text behind its quote. -/
theorem next_eq {s t : List Char} (h : (r.next c s).literal = (r.next c t).literal) :
    r.next c s = r.next c t := by
  show { r.next c t with literal := (r.next c s).literal } = _
  rw [h]

end Reading

/-- The rest of a body with something put in front of each free word. -/
def weaveFrom (front : List Char → List Char) : Reading → List Char → List Char
  | _, [] => []
  | r, c :: rest =>
    (if r.isFree (c :: rest) then front ((c :: rest).takeWhile isWord) else [])
      ++ c :: weaveFrom front (r.next c rest) rest

/-- The body with something put in front of each free word, in one pass. -/
def weave (front : List Char → List Char) (body : List Char) : List Char :=
  weaveFrom front .start body

/-- The free words of the rest of a body. -/
def freeWordsFrom : Reading → List Char → List (List Char)
  | _, [] => []
  | r, c :: rest =>
    (if r.isFree (c :: rest) then [(c :: rest).takeWhile isWord] else [])
      ++ freeWordsFrom (r.next c rest) rest

/-- The free words of a body. -/
def freeWords (body : List Char) : List (List Char) :=
  freeWordsFrom .start body

theorem isWord_of_isFree {r : Reading} {c : Char} {rest : List Char}
    (h : r.isFree (c :: rest) = true) : isWord c = true := by
  unfold Reading.isFree at h
  simp only [Bool.and_eq_true] at h
  exact h.1.2

theorem isFree_of_literal {r : Reading} (h : r.literal ≠ 0) (s : List Char) :
    r.isFree s = false := by
  unfold Reading.isFree
  rw [beq_false_of_ne h]
  rfl

theorem isFree_of_joined {r : Reading} (h : r.previous.any joins = true) (s : List Char) :
    r.isFree s = false := by
  unfold Reading.isFree
  rw [h]
  simp

theorem isFree_of_not_word {r : Reading} {c : Char} (h : isWord c = false) (rest : List Char) :
    r.isFree (c :: rest) = false := by
  refine Bool.eq_false_iff.mpr fun hfree => ?_
  rw [isWord_of_isFree hfree] at h
  cases h

section

variable {front : List Char → List Char} (hfront : ∀ w, ∀ c ∈ front w, isWord c = true)
include hfront

/-- A weave is woven of the text and what is put in. -/
theorem woven_weaveFrom (s : List Char) : ∀ r : Reading, Woven s (weaveFrom front r s) := by
  induction s with
  | nil => exact fun r => .nil
  | cons c s ih =>
    intro r
    rw [weaveFrom]
    split
    · rename_i hfree
      exact .front (hfront _) (isWord_of_isFree hfree) (ih _)
    · exact .keep c (ih _)

/-- Nothing is put into a closed literal. -/
theorem weaveFrom_literal (s : List Char) : ∀ r : Reading, ∃ t,
    weaveFrom front r s = s.take r.literal ++ t ∧ Woven (s.drop r.literal) t := by
  induction s with
  | nil =>
    intro r
    refine ⟨[], ?_, ?_⟩
    · simp [weaveFrom]
    · rw [List.drop_nil]
      exact .nil
  | cons c s ih =>
    intro r
    cases hlit : r.literal with
    | zero => exact ⟨_, rfl, woven_weaveFrom hfront (c :: s) r⟩
    | succ n =>
      have hnext : (r.next c s).literal = n := by
        rw [next_literal_inside (by omega), hlit]
        rfl
      obtain ⟨t, ht, hwoven⟩ := ih (r.next c s)
      rw [hnext] at ht hwoven
      refine ⟨t, ?_, hwoven⟩
      rw [weaveFrom, isFree_of_literal (by omega), ht]
      rfl

/-- Nothing is put into a word. -/
theorem weaveFrom_word {v rest : List Char} (hv : ∀ c ∈ v, isWord c = true)
    (hrest : rest.head?.any isWord = false) : ∀ {r : Reading}, r.previous.any isWord = true →
    ∃ t, weaveFrom front r (v ++ rest) = v ++ t ∧ Woven rest t ∧ t.head?.any isWord = false := by
  induction v with
  | nil =>
    intro r _
    refine ⟨_, rfl, woven_weaveFrom hfront rest r, ?_⟩
    cases rest with
    | nil => rfl
    | cons d rest =>
      have hd : isWord d = false := hrest
      show (weaveFrom front r (d :: rest)).head?.any isWord = false
      rw [weaveFrom, isFree_of_not_word hd]
      exact hd
  | cons c v ih =>
    intro r hprevious
    have hjoined : r.previous.any joins = true := by
      cases hp : r.previous with
      | none =>
        rw [hp] at hprevious
        cases hprevious
      | some d =>
        rw [hp] at hprevious
        exact (isWord_class hprevious).2.2.1
    have hc := hv c List.mem_cons_self
    obtain ⟨t, ht, hwoven, hhead⟩ := ih (fun d hd => hv d (List.mem_cons_of_mem c hd))
      (r := r.next c (v ++ rest)) hc
    refine ⟨t, ?_, hwoven, hhead⟩
    rw [List.cons_append, weaveFrom, isFree_of_joined hjoined, ht]
    rfl

/-- What the reading makes of a character does not change if the text behind it was marked. -/
theorem next_weaveFrom (r : Reading) (c : Char) (rest : List Char) :
    r.next c (weaveFrom front (r.next c rest) rest) = r.next c rest := by
  apply next_eq
  by_cases hlit : r.literal > 0
  · rw [next_literal_inside hlit, next_literal_inside hlit]
  · by_cases hquote : Quoting.isQuote c = true
    · rw [next_literal_quote hlit hquote, next_literal_quote hlit hquote]
      obtain ⟨t, ht, hwoven⟩ := weaveFrom_literal hfront rest (r.next c rest)
      rw [next_literal_quote hlit hquote] at ht hwoven
      have htake : (rest.take (literalLength c rest)).length = literalLength c rest := by
        have hle := literalLength_le hquote rest
        rw [List.length_take]
        omega
      have hword : isWord c = false := by
        refine Bool.eq_false_iff.mpr fun h => ?_
        rw [(isWord_class h).2.1] at hquote
        cases hquote
      have happend : literalLength c (rest.take (literalLength c rest) ++ t)
          = (rest.take (literalLength c rest)).length := by
        refine literalLength_append hquote ?_ (hwoven.mem_firstLine hword).mp
        rw [List.take_append_drop, htake]
      rw [ht, happend, htake]
    · rw [next_literal_plain hlit hquote, next_literal_plain hlit hquote]

end

/-! ## A pass over a body that was marked before -/

namespace Reading

/-- Where the reading stands behind a word that ends with `c`. -/
def behindWord (r : Reading) (c : Char) : Reading :=
  ⟨some c, 0, onWord r.quoting, r.brackets, if r.quoting = .outside then some c else r.shown⟩

/-- Outside of literals, a letter is passed over, and what follows is behind a word. -/
theorem next_word {r : Reading} (hlit : r.literal = 0) (hr : r.quoting.Valid) {c : Char}
    (hc : isWord c = true) (rest : List Char) : r.next c rest = r.behindWord c := by
  obtain ⟨hblank, hquote, -, hplain⟩ := isWord_class hc
  have hliteral : (r.next c rest).literal = 0 :=
    next_literal_plain (by omega) (by rw [hquote]; exact Bool.false_ne_true) rest
  have hquoting : (r.next c rest).quoting = onWord r.quoting := next_of_word hr hc
  have hshown := shown_of_word hr hc
  have hbrackets : (r.next c rest).brackets = r.brackets := by
    show bracketsAfter r.brackets (r.quoting.shown c) = _
    rw [hshown]
    split
    · exact bracketsAfter_of_ne hplain _
    · exact bracketsAfter_of_ne (by decide) _
  have hlast : (r.next c rest).shown = if r.quoting = .outside then some c else r.shown := by
    show (if isBlank (r.quoting.shown c) then r.shown else some (r.quoting.shown c)) = _
    rw [hshown]
    split
    · rw [if_neg (by rw [hblank]; exact Bool.false_ne_true)]
    · rw [if_pos isBlank_space]
  show Reading.mk (some c) (r.next c rest).literal (r.next c rest).quoting
    (r.next c rest).brackets (r.next c rest).shown = _
  rw [hliteral, hquoting, hbrackets, hlast]
  rfl

/-- A reading behind two letters is the one behind the second. -/
theorem behindWord_behindWord (r : Reading) (c d : Char) :
    (r.behindWord c).behindWord d = r.behindWord d := by
  unfold behindWord
  dsimp only
  rw [onWord_onWord]
  by_cases hout : r.quoting = .outside
  · rw [if_pos ((onWord_eq_outside r.quoting).mpr hout), if_pos hout]
  · rw [if_neg (mt (onWord_eq_outside r.quoting).mp hout), if_neg hout, if_neg hout]

end Reading

section

variable {p : List Char} {c : Char} (hc : isWord c = true)
include hc

/-- In a word that goes on nothing is marked. -/
theorem markFrom_joined (t : List Char) {v : List Char} (hv : ∀ d ∈ v, isWord d = true) :
    ∀ {r : Reading}, r.literal = 0 → r.quoting.Valid → r.previous.any joins = true →
    markFrom p r (v ++ c :: t) = v ++ c :: markFrom p (r.behindWord c) t := by
  induction v with
  | nil =>
    intro r hlit hr hjoined
    rw [List.nil_append, markFrom, occurs_of_joined hjoined, next_word hlit hr hc]
    rfl
  | cons d v ih =>
    intro r hlit hr hjoined
    have hd := hv d List.mem_cons_self
    rw [List.cons_append, markFrom, occurs_of_joined hjoined, next_word hlit hr hd,
      ih (fun e he => hv e (List.mem_cons_of_mem d he)) (r := r.behindWord d) rfl
        (valid_onWord hr) (isWord_class hd).2.2.1, behindWord_behindWord]
    rfl

/-- A word is marked in front or not at all, also in a literal that is never closed. -/
theorem markFrom_run (t : List Char) {v : List Char} (hv : ∀ d ∈ v, isWord d = true) {r : Reading}
    (hlit : r.literal = 0) (hr : r.quoting.Valid) : markFrom p r (v ++ c :: t)
      = (if r.occurs p (v ++ c :: t) then parameterMark else [])
        ++ (v ++ c :: markFrom p (r.behindWord c) t) := by
  cases v with
  | nil =>
    rw [List.nil_append, markFrom, next_word hlit hr hc]
    rfl
  | cons d v =>
    have hd := hv d List.mem_cons_self
    rw [List.cons_append, markFrom, next_word hlit hr hd,
      markFrom_joined hc t (fun e he => hv e (List.mem_cons_of_mem d he)) (r := r.behindWord d) rfl
        (valid_onWord hr) (isWord_class hd).2.2.1, behindWord_behindWord]
    rfl

end

/-- The name of a keyword argument is one whatever was put in front of it. -/
theorem isKeyword_word {r : Reading} (hr : r.quoting.Valid) {w w' s t : List Char} (hne : w ≠ [])
    (hw : ∀ c ∈ w, isWord c = true) (hne' : w' ≠ []) (hw' : ∀ c ∈ w', isWord c = true)
    (h : Woven s t) : r.isKeyword w'.length (w' ++ t) = r.isKeyword w.length (w ++ s) := by
  unfold isKeyword
  rw [drop_maskFrom_word hne hw s hr, drop_maskFrom_word hne' hw' t hr,
    h.assigns_maskFrom (valid_onWord hr)]

/-- A text starts with a word, which may be empty, and goes on differently. -/
theorem exists_word (s : List Char) : ∃ v behind, s = v ++ behind ∧ (∀ c ∈ v, isWord c = true)
    ∧ behind.head?.any isWord = false := by
  induction s with
  | nil => exact ⟨[], [], rfl, by simp, rfl⟩
  | cons c s ih =>
    cases hc : isWord c with
    | true =>
      obtain ⟨v, behind, rfl, hv, hbehind⟩ := ih
      refine ⟨c :: v, behind, rfl, ?_, hbehind⟩
      intro d hd
      rcases List.mem_cons.mp hd with rfl | hd
      · exact hc
      · exact hv d hd
    | false => exact ⟨[], c :: s, rfl, by simp, hc⟩

theorem takeWhile_isWord {v : List Char} (hv : ∀ c ∈ v, isWord c = true) {behind : List Char}
    (h : behind.head?.any isWord = false) : (v ++ behind).takeWhile isWord = v := by
  have hnone : behind.takeWhile isWord = [] := by
    cases behind with
    | nil => rfl
    | cons d behind => exact List.takeWhile_cons_of_neg (Bool.eq_false_iff.mp h)
  rw [List.takeWhile_append_of_pos hv, hnone, List.append_nil]

theorem isWord_of_start {c : Char} (h : (c.isAlpha || c == '_') = true) : isWord c = true := by
  apply isWord_of_alphanum
  rcases Bool.or_eq_true_iff.mp h with hc | hc
  · rw [Char.isAlphanum, hc]
    rfl
  · rw [hc, Bool.or_true]

/-- What is put in front of a word when `p` is marked too. -/
def marking (p : List Char) (front : List Char → List Char) (w : List Char) : List Char :=
  if front w ++ w = p then parameterMark ++ front w else front w

theorem isWord_mark : ∀ c ∈ parameterMark, isWord c = true := by
  decide

section

variable {p : List Char} (hp : isParameter p = true) {front : List Char → List Char}
  (hfront : ∀ w, ∀ c ∈ front w, isWord c = true)
include hfront

theorem isWord_marking (p w : List Char) : ∀ c ∈ marking p front w, isWord c = true := by
  intro c hc
  unfold marking at hc
  split at hc
  · rcases List.mem_append.mp hc with hc | hc
    · exact isWord_mark c hc
    · exact hfront w c hc
  · exact hfront w c hc

include hp

/-- In the woven text `p` stands where a free word makes `p` with what is put in front of it. -/
theorem occurs_weaveFrom {r : Reading} (hlit : r.literal = 0) (hr : r.quoting.Valid) {c : Char}
    (hc : isWord c = true) (rest : List Char) {before : List Char}
    (hbefore : ∀ d ∈ before, isWord d = true) :
    r.occurs p (before ++ c :: weaveFrom front (r.next c rest) rest)
      = (r.isFree (c :: rest) && before ++ (c :: rest).takeWhile isWord == p) := by
  obtain ⟨v, behind, rfl, hv, hbehind⟩ := exists_word rest
  obtain ⟨t, ht, hwoven, hhead⟩ := weaveFrom_word hfront hv hbehind
    (r := r.next c (v ++ behind)) hc
  have hword : ∀ d ∈ c :: v, isWord d = true := by
    intro d hd
    rcases List.mem_cons.mp hd with rfl | hd
    · exact hc
    · exact hv d hd
  have htake : (c :: (v ++ behind)).takeWhile isWord = c :: v := takeWhile_isWord hword hbehind
  have hwhole : ∀ d ∈ before ++ c :: v, isWord d = true := by
    intro d hd
    rcases List.mem_append.mp hd with hd | hd
    · exact hbefore d hd
    · exact hword d hd
  have htext : before ++ c :: (v ++ t) = (before ++ c :: v) ++ t := by
    rw [List.append_assoc]
    rfl
  have hhere : r.isWordHere p ((before ++ c :: v) ++ t)
      = (!r.previous.any joins && p == before ++ c :: v) := by
    rw [← whole_word_eq (isWord_of_parameter hp) hwhole hhead, ← Bool.and_assoc]
    rfl
  rw [ht, htext, htake]
  unfold occurs Reading.isFree
  rw [hhere, htake, hlit]
  by_cases heq : before ++ c :: v = p
  · -- then it is the name of a keyword argument here if it is one in the body
    subst heq
    have hkeyword : r.isKeyword (before ++ c :: v).length ((before ++ c :: v) ++ t)
        = r.isKeyword (c :: v).length ((c :: v) ++ behind) :=
      isKeyword_word hr (List.cons_ne_nil c v) hword (by simp) hwhole hwoven
    rw [hkeyword]
    simp [hc]
  · have heq' : (p == before ++ c :: v) = false := beq_false_of_ne fun h => heq h.symm
    rw [heq', beq_false_of_ne heq]
    simp

/-- **A pass over a text that was marked before** is part of one pass: it marks the words that are
    `p` with what was put in front of them. -/
theorem markFrom_weaveFrom (s : List Char) : ∀ {r : Reading}, r.quoting.Valid →
    markFrom p r (weaveFrom front r s) = weaveFrom (marking p front) r s := by
  induction s with
  | nil => exact fun _ => rfl
  | cons c s ih =>
    intro r hr
    have hnext : (r.next c s).quoting.Valid := hr.next c
    rw [weaveFrom, weaveFrom]
    by_cases hword : r.literal = 0 ∧ isWord c = true
    · obtain ⟨hlit, hc⟩ := hword
      cases hfree : r.isFree (c :: s) with
      | true =>
        have hbefore := hfront ((c :: s).takeWhile isWord)
        have hoccurs := occurs_weaveFrom hp hfront hlit hr hc s hbefore
        rw [if_pos rfl, if_pos rfl, markFrom_run hc _ hbefore hlit hr, hoccurs, hfree,
          ← next_word hlit hr hc s, ih hnext]
        unfold marking
        by_cases heq : front ((c :: s).takeWhile isWord) ++ (c :: s).takeWhile isWord = p
        · simp [heq]
        · simp [heq]
      | false =>
        have hnone : ∀ d ∈ ([] : List Char), isWord d = true := by simp
        have hoccurs := occurs_weaveFrom hp hfront hlit hr hc s hnone
        have hrun := markFrom_run (p := p) hc (weaveFrom front (r.next c s) s) hnone hlit hr
        rw [hoccurs, hfree, ← next_word hlit hr hc s, ih hnext] at hrun
        exact hrun
    · have hfree : r.isFree (c :: s) = false := by
        by_cases hlit : r.literal = 0
        · exact isFree_of_not_word (Bool.eq_false_iff.mpr fun hc => hword ⟨hlit, hc⟩) s
        · exact isFree_of_literal hlit _
      have hoccurs : r.occurs p (c :: weaveFrom front (r.next c s) s) = false := by
        by_cases hlit : r.literal = 0
        · refine occurs_of_ne hp (fun hstart => hword ⟨hlit, isWord_of_start hstart⟩) _
        · unfold occurs
          rw [beq_false_of_ne hlit]
          rfl
      rw [hfree, if_neg Bool.false_ne_true, if_neg Bool.false_ne_true, List.nil_append, markFrom,
        hoccurs, next_weaveFrom hfront, ih hnext]
      rfl

end

end LetTag.Arrow
