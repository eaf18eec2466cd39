/-
  How the marking reads words, numbers, signs and literals.

  The marking reads a body character by character and knows nothing of tokens.  Between two of them
  it rests: no literal is open, and what it remembers is the last character, the last one that the
  mask shows, and the open brackets.  So it can be followed piece by piece, from rest to rest.  In
  most pieces no parameter can start (`Quiet`); a word is one or is none; a literal that closes on its
  line (`Enclosed`) is passed over.
-/
import LetTag.Arrow
import LetTag.Proofs.Spelling

namespace LetTag.Arrow

open Text Script

/-! ## Readings at rest -/

namespace Reading

/-- Outside literals. -/
def resting (previous shown : Option Char) (brackets : List Char) : Reading :=
  ⟨previous, 0, .outside, brackets, shown⟩

/-- Where a reading at rest stands after a character that is no quote. -/
def pass (r : Reading) (c : Char) : Reading :=
  resting (some c) (if isBlank c then r.shown else some c) (bracketsAfter r.brackets c)

end Reading

open Arrow.Reading

/-- Does a name directly behind `c` belong to what is before? -/
def joins (c : Char) : Bool :=
  isWord c || c == '.'

/-- A parameter starts with a letter or an underscore. -/
theorem isPrefixOf_of_parameter {p : List Char} (hp : isParameter p = true) {c : Char}
    (hc : ¬ (c.isAlpha || c == '_') = true) (rest : List Char) : p.isPrefixOf (c :: rest) = false := by
  unfold isParameter at hp
  split at hp
  · rename_i d more
    refine Bool.eq_false_iff.mpr fun h => hc ?_
    obtain ⟨behind, hbehind⟩ := List.isPrefixOf_iff_prefix.mp h
    rw [← (List.cons.inj hbehind).1]
    exact (Bool.and_eq_true_iff.mp hp).1
  · cases hp

/-- No parameter occurs behind something that joins it. -/
theorem occurs_of_joined {r : Reading} {p s : List Char} (h : r.previous.any joins = true) :
    r.occurs p s = false := by
  have hprevious : r.previous.any (fun c => isWord c || c == '.') = true := h
  unfold occurs isWordHere
  rw [hprevious]
  simp

theorem occurs_of_ne {r : Reading} {p : List Char} (hp : isParameter p = true) {c : Char}
    (hc : ¬ (c.isAlpha || c == '_') = true) (rest : List Char) : r.occurs p (c :: rest) = false := by
  unfold occurs isWordHere
  rw [isPrefixOf_of_parameter hp hc]
  simp

theorem bracketsAfter_of_ne {c : Char} (h : c ∉ "()[]\x7b\x7d".toList) (brackets : List Char) :
    bracketsAfter brackets c = brackets := by
  have hne : c ≠ '(' ∧ c ≠ ')' ∧ c ≠ '[' ∧ c ≠ ']' ∧ c ≠ '\x7b' ∧ c ≠ '\x7d' := by
    refine ⟨?_, ?_, ?_, ?_, ?_, ?_⟩
    all_goals
      rintro rfl
      exact h (by decide)
  have hopener : isOpener c = false := by
    rw [isOpener, beq_false_of_ne hne.1, beq_false_of_ne hne.2.2.1, beq_false_of_ne hne.2.2.2.2.1]
    rfl
  have hpartner : partner? c = none := by
    unfold partner?
    split
    · exact absurd rfl hne.2.1
    · exact absurd rfl hne.2.2.2.1
    · exact absurd rfl hne.2.2.2.2.2
    · rfl
  unfold bracketsAfter
  rw [hopener, hpartner]
  rfl

/-- What the characters of a word are, and are not. -/
theorem isWord_class {c : Char} (h : isWord c = true) : isBlank c = false
    ∧ Quoting.isQuote c = false ∧ joins c = true ∧ c ∉ "()[]\x7b\x7d".toList := by
  refine ⟨?_, ?_, ?_, ?_⟩
  · refine Bool.eq_false_iff.mpr fun hblank => ?_
    rw [isWord_of_isBlank hblank] at h
    cases h
  · refine Bool.eq_false_iff.mpr fun hquote => ?_
    rcases Bool.or_eq_true_iff.mp hquote with hc | hc
    · rw [eq_of_beq hc] at h
      cases h
    · rw [eq_of_beq hc] at h
      cases h
  · rw [joins, h, Bool.true_or]
  · intro hc
    have hnone : ∀ c ∈ "()[]\x7b\x7d".toList, isWord c = false := by decide
    rw [hnone c hc] at h
    cases h

theorem small_of_alphanum {c : Char} (h : (c.isAlphanum || c == '_') = true) : c.toNat < 128 := by
  rcases Bool.or_eq_true_iff.mp h with hc | hc
  · rcases Bool.or_eq_true_iff.mp hc with hc | hc
    · rcases (isAlpha_iff c).mp hc with hc | hc
      · omega
      · omega
    · have hdigit := (isDigit_iff c).mp hc
      omega
  · rw [eq_of_beq hc]
    decide

/-- Letters, digits and the underscore are word characters. -/
theorem isWord_of_alphanum {c : Char} (h : (c.isAlphanum || c == '_') = true) : isWord c = true := by
  rw [isWord, if_pos (small_of_alphanum h)]
  exact h

/-- They may stand in names, too. -/
theorem isNamePart_of_alphanum {c : Char} (h : (c.isAlphanum || c == '_') = true) :
    isNamePart c = true := by
  rw [isNamePart, if_pos (small_of_alphanum h)]
  exact h

/-- The characters of a parameter. -/
theorem alphanum_of_parameter {p : List Char} (hp : isParameter p = true) :
    ∀ c ∈ p, (c.isAlphanum || c == '_') = true := by
  intro c hc
  unfold isParameter at hp
  split at hp
  · rename_i d rest
    obtain ⟨hd, hrest⟩ := Bool.and_eq_true_iff.mp hp
    rcases List.mem_cons.mp hc with rfl | hc
    · rcases Bool.or_eq_true_iff.mp hd with hd | hd
      · rw [Char.isAlphanum, hd, Bool.true_or, Bool.true_or]
      · rw [hd, Bool.or_true]
    · exact List.all_eq_true.mp hrest c hc
  · cases hp

/-- The characters of parameters are letters of words. -/
theorem isWord_of_parameter {p : List Char} (hp : isParameter p = true) :
    ∀ c ∈ p, isWord c = true :=
  fun c hc => isWord_of_alphanum (alphanum_of_parameter hp c hc)

/-- Of two words that end where the text goes on differently, one starts with the other only if they
    are equal. -/
theorem whole_word_eq {p w rest : List Char} (hp : ∀ c ∈ p, isWord c = true)
    (hw : ∀ c ∈ w, isWord c = true) (hrest : rest.head?.any isWord = false) :
    (p.isPrefixOf (w ++ rest) && !((w ++ rest).drop p.length).head?.any isWord) = (p == w) := by
  induction p generalizing w with
  | nil =>
    cases w with
    | nil =>
      rw [List.nil_append, List.length_nil, List.drop_zero, hrest]
      rfl
    | cons c w =>
      have hc := hw c List.mem_cons_self
      show (true && !isWord c) = false
      rw [hc]
      rfl
  | cons d p ih =>
    cases w with
    | nil =>
      have hprefix : (d :: p).isPrefixOf rest = false := by
        refine Bool.eq_false_iff.mpr fun h => ?_
        obtain ⟨behind, rfl⟩ := List.isPrefixOf_iff_prefix.mp h
        have hd : isWord d = false := hrest
        rw [hp d List.mem_cons_self] at hd
        cases hd
      rw [List.nil_append, hprefix]
      rfl
    | cons c w =>
      have hwords := ih (fun e he => hp e (List.mem_cons_of_mem d he))
        (fun e he => hw e (List.mem_cons_of_mem c he))
      rw [List.cons_append, List.isPrefixOf_cons_cons, List.length_cons, List.drop_succ_cons,
        Bool.and_assoc, hwords]
      rfl

/-- The inside of a literal on one line: every quote of its kind is escaped. -/
inductive Enclosed (q : Char) : List Char → Prop
  | nil : Enclosed q []
  | plain {c : Char} {v : List Char} : c ≠ '\\' → c ≠ '\n' → c ≠ q → Enclosed q v →
    Enclosed q (c :: v)
  | escaped {c : Char} {v : List Char} : c ≠ '\n' → Enclosed q v → Enclosed q ('\\' :: c :: v)

/-- What quotes are not. -/
theorem isQuote_class {q : Char} (hq : Quoting.isQuote q = true) : isBlank q = false ∧ q ≠ '\\'
    ∧ ¬ (q.isAlpha || q == '_') = true ∧ q ∉ "()[]\x7b\x7d".toList := by
  rcases Bool.or_eq_true_iff.mp hq with hq | hq
  · rw [eq_of_beq hq]
    decide
  · rw [eq_of_beq hq]
    decide

/-- At what is no backslash a literal is broken off by a line feed, ends at its quote, or goes on. -/
theorem unescapedEnd_plain {q c : Char} (hc : c ≠ '\\') (rest : List Char) :
    unescapedEnd q (c :: rest) = if c = '\n' then none else if c = q then some 1
      else (unescapedEnd q rest).map (· + 1) := by
  rw [unescapedEnd]
  exact fun _ _ he => absurd he hc

/-- What stands behind a backslash does not end a literal. -/
theorem unescapedEnd_escaped (q c : Char) (rest : List Char) : unescapedEnd q ('\\' :: c :: rest)
    = if c = '\n' then none else (unescapedEnd q rest).map (· + 2) := by
  rw [unescapedEnd]

/-- What is before the first quote that is not escaped. -/
theorem enclosed_of_unescapedEnd {q : Char} (hq : q ≠ '\\') (s : List Char) : ∀ {n : Nat},
    unescapedEnd q s = some n →
    ∃ body rest, s = body ++ q :: rest ∧ n = body.length + 1 ∧ Enclosed q body := by
  induction s using unescapedEnd.induct q with
  | case1 => exact fun h => nomatch h
  | case2 rest =>
    intro n h
    rw [unescapedEnd_escaped, if_pos rfl] at h
    cases h
  | case3 c rest hfeed ih =>
    intro n h
    rw [unescapedEnd_escaped, if_neg hfeed] at h
    obtain ⟨k, hk, rfl⟩ := Option.map_eq_some_iff.mp h
    obtain ⟨body, behind, rfl, rfl, hbody⟩ := ih hk
    exact ⟨'\\' :: c :: body, behind, rfl, rfl, .escaped hfeed hbody⟩
  | case4 rest hne =>
    intro n h
    rw [unescapedEnd_plain (by decide), if_pos rfl] at h
    cases h
  | case5 rest hne hfeed =>
    intro n h
    rw [unescapedEnd_plain hq, if_neg hfeed, if_pos rfl] at h
    cases h
    exact ⟨[], rest, rfl, rfl, .nil⟩
  | case6 c rest hne hfeed hquote ih =>
    intro n h
    by_cases hc : c = '\\'
    · -- a backslash at the end
      subst hc
      cases rest with
      | nil =>
        rw [unescapedEnd, if_neg hfeed, if_neg hquote] at h
        · cases h
        · simp
      | cons d rest => exact (hne d rest rfl rfl).elim
    · rw [unescapedEnd_plain hc, if_neg hfeed, if_neg hquote] at h
      obtain ⟨k, hk, rfl⟩ := Option.map_eq_some_iff.mp h
      obtain ⟨body, behind, rfl, rfl, hbody⟩ := ih hk
      exact ⟨c :: body, behind, rfl, rfl, .plain hc hfeed hquote hbody⟩

/-- A text that may stand in a literal is followed by the end of that. -/
theorem unescapedEnd_of_enclosed {q : Char} (hq : Quoting.isQuote q = true) {body : List Char}
    (h : Enclosed q body) (rest : List Char) :
    unescapedEnd q (body ++ q :: rest) = some (body.length + 1) := by
  induction h with
  | nil =>
    have hescape : q ≠ '\\' := by
      rintro rfl
      cases hq
    have hfeed : q ≠ '\n' := by
      rintro rfl
      cases hq
    rw [List.nil_append, unescapedEnd_plain hescape, if_neg hfeed, if_pos rfl]
    rfl
  | plain hc hfeed hquote _ ih =>
    rw [List.cons_append, unescapedEnd_plain hc, if_neg hfeed, if_neg hquote, ih]
    rfl
  | escaped hfeed _ ih =>
    rw [List.cons_append, List.cons_append, unescapedEnd_escaped, if_neg hfeed, ih]
    rfl

/-- Does the first unescaped quote behind the opening ones close the literal, on its line? -/
def closesInLine (w : List Char) : Bool :=
  match w with
  | q :: rest =>
    if [q, q, q].isPrefixOf w then unescapedEnd q (w.drop 3) == some (w.length - 5)
    else unescapedEnd q rest == some (w.length - 1)
  | [] => false

/-- May `c` stand in a number? -/
def inNumeral (c : Char) : Bool :=
  c.isAlphanum || c == '_' || ['.', '+', '-'].contains c

/-- What the characters of numbers are, and are not. -/
theorem inNumeral_class {c : Char} (h : inNumeral c = true) : isBlank c = false ∧ c.toNat < 128
    ∧ Quoting.isQuote c = false ∧ c ∉ "()[]\x7b\x7d=;".toList := by
  rcases Bool.or_eq_true_iff.mp h with hc | hc
  · obtain ⟨hblank, hquote, -, -⟩ := isWord_class (isWord_of_alphanum hc)
    refine ⟨hblank, small_of_alphanum hc, hquote, fun hmem => ?_⟩
    have hnone : ∀ c ∈ "()[]\x7b\x7d=;".toList, (c.isAlphanum || c == '_') = false := by
      decide
    rw [hnone c hmem] at hc
    cases hc
  · have hsigns : ∀ c ∈ ['.', '+', '-'], isBlank c = false ∧ c.toNat < 128
        ∧ Quoting.isQuote c = false ∧ c ∉ "()[]\x7b\x7d=;".toList := by decide
    exact hsigns c (List.contains_iff_mem.mp hc)

/-- The first character of a number, and the rest. -/
theorem numeral_cons {stuck last : Bool} {c : Char} {v : List Char}
    (h : numeral stuck (c :: v) = some last) : inNumeral c = true
    ∧ ((c.isAlpha || c == '_') = true → stuck = true) ∧ numeral (joins c) v = some last := by
  unfold numeral at h
  rw [List.foldlM_cons] at h
  split at h
  · rename_i hc
    rcases Bool.or_eq_true_iff.mp hc with hdigit | hpoint
    · have halnum : (c.isAlphanum || c == '_') = true := by
        rw [Char.isAlphanum, hdigit, Bool.or_true, Bool.true_or]
      refine ⟨by rw [inNumeral, halnum, Bool.true_or], fun hstart => ?_, ?_⟩
      · have hdigit' := (isDigit_iff c).mp hdigit
        rcases Bool.or_eq_true_iff.mp hstart with halpha | hbar
        · have halpha' := (isAlpha_iff c).mp halpha
          omega
        · rw [eq_of_beq hbar] at hdigit
          cases hdigit
      · rw [(isWord_class (isWord_of_alphanum halnum)).2.2.1]
        exact h
    · rw [eq_of_beq hpoint]
      exact ⟨rfl, fun hstart => absurd hstart (by decide), h⟩
  · split at h
    · rename_i hsign
      rcases Bool.or_eq_true_iff.mp hsign with hc | hc
      · rw [eq_of_beq hc]
        exact ⟨rfl, fun hstart => absurd hstart (by decide), h⟩
      · rw [eq_of_beq hc]
        exact ⟨rfl, fun hstart => absurd hstart (by decide), h⟩
    · split at h
      · rename_i hc
        obtain ⟨hstuck, hw⟩ := Bool.and_eq_true_iff.mp hc
        refine ⟨by rw [inNumeral, hw, Bool.true_or], fun _ => hstuck, ?_⟩
        rw [(isWord_class (isWord_of_alphanum hw)).2.2.1]
        exact h
      · cases h

theorem inNumeral_of_mem {v : List Char} : ∀ {stuck last : Bool}, numeral stuck v = some last →
    ∀ c ∈ v, inNumeral c = true := by
  induction v with
  | nil => exact fun _ _ hc => nomatch hc
  | cons d v ih =>
    intro stuck last h c hc
    obtain ⟨hd, -, hrest⟩ := numeral_cons h
    rcases List.mem_cons.mp hc with rfl | hc
    · exact hd
    · exact ih hrest c hc

/-- What the characters of signs are, and are not. -/
theorem sign_class : ∀ x ∈ signs, ∀ c ∈ x.toList, isBlank c = false ∧ c.toNat < 128
    ∧ Quoting.isQuote c = false ∧ (c.isAlpha || c == '_') = false := by
  decide

end LetTag.Arrow
