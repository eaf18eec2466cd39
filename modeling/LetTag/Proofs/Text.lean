/-
  What texts keep: blanks at the ends, line breaks, and the word that a statement begins with.

  A text is its trimmed part between two runs of blanks (`trim_between`), and nothing that is asked
  about a statement depends on these.  The blanks are few, so a property of all of them is tested on
  each (`of_isBlank`).  Whether a text begins with `let` is settled before its first brace.
-/
import LetTag.Statements
import LetTag.Text.Digits

namespace LetTag.Text

/-- A property of the characters of a list is tested on the list, never on all characters. -/
instance decidableForallMem {P : Char → Prop} [DecidablePred P] (l : List Char) :
    Decidable (∀ c ∈ l, P c) :=
  List.decidableBAll P l

instance decidableExistsMem {P : Char → Prop} [DecidablePred P] (o : Option Char) :
    Decidable (∃ c ∈ o, P c) :=
  decidable_of_iff (o.any fun c => decide (P c))
    (by simp only [Option.any_eq_true, decide_eq_true_eq, Option.mem_def])

/-! ## Letters and digits -/

/-- Digits are ten characters one behind the other. -/
theorem isDigit_iff (c : Char) : c.isDigit = true ↔ 48 ≤ c.toNat ∧ c.toNat ≤ 57 := by
  unfold Char.isDigit
  rw [Bool.and_eq_true, decide_eq_true_eq, decide_eq_true_eq, ge_iff_le, UInt32.le_iff_toNat_le,
    UInt32.le_iff_toNat_le]
  exact Iff.rfl

theorem isAlpha_iff (c : Char) : c.isAlpha = true ↔
    (65 ≤ c.toNat ∧ c.toNat ≤ 90) ∨ (97 ≤ c.toNat ∧ c.toNat ≤ 122) := by
  unfold Char.isAlpha Char.isUpper Char.isLower
  simp only [Bool.or_eq_true, Bool.and_eq_true, decide_eq_true_eq, ge_iff_le,
    UInt32.le_iff_toNat_le]
  exact Iff.rfl

/-- Only letters have letters as their lower case. -/
theorem isAlpha_of_toLower {c : Char} (h : c.toLower.isAlpha = true) : c.isAlpha = true := by
  unfold Char.toLower at h
  split at h
  · rename_i hupper
    rw [isAlpha_iff]
    exact Or.inl hupper
  · exact h

/-- The digits of every base are letters or digits. -/
theorem isAlphanum_of_isDigitIn {base : Nat} {c : Char} (h : isDigitIn base c = true) :
    c.isAlphanum = true := by
  obtain ⟨hc, -⟩ := Bool.and_eq_true_iff.mp h
  unfold Char.isAlphanum
  rcases Bool.or_eq_true_iff.mp hc with hc | hc
  · rw [hc, Bool.or_true]
  · obtain ⟨hlow, hhigh⟩ := Bool.and_eq_true_iff.mp hc
    have hlow : 97 ≤ c.toLower.toNat := of_decide_eq_true hlow
    have hhigh : c.toLower.toNat ≤ 102 := of_decide_eq_true hhigh
    have hletter : c.toLower.isAlpha = true := (isAlpha_iff _).mpr (Or.inr ⟨hlow, by omega⟩)
    rw [isAlpha_of_toLower hletter, Bool.true_or]

/-! ## Tables -/

/-- Do no two ranges of the tables meet? -/
def apart (t u : List (Nat × Nat)) : Bool :=
  t.all fun r => u.all fun s => Nat.blt r.2 s.1 || Nat.blt s.2 r.1

/-- Tables that are apart have no character in common. -/
theorem inRanges_of_apart {t u : List (Nat × Nat)} (h : apart t u = true) {c : Char}
    (hc : inRanges t c = true) : inRanges u c = false := by
  refine Bool.eq_false_iff.mpr fun hu => ?_
  obtain ⟨r, hr, hin⟩ := List.any_eq_true.mp hc
  obtain ⟨s, hs, hin'⟩ := List.any_eq_true.mp hu
  have hapart := List.all_eq_true.mp (List.all_eq_true.mp h r hr) s hs
  simp only [Bool.and_eq_true, decide_eq_true_eq] at hin hin'
  simp only [Bool.or_eq_true, Nat.blt_eq] at hapart
  omega

/-! ## Blanks -/

/-- A property of every blank. -/
theorem of_isBlank {p : Char → Prop}
    (h : ∀ r ∈ blankTable, ∀ n ∈ List.range' r.1 (r.2 + 1 - r.1), p (Char.ofNat n)) {c : Char}
    (hc : isBlank c = true) : p c := by
  unfold isBlank inRanges at hc
  obtain ⟨r, hr, hle⟩ := List.any_eq_true.mp hc
  have hle' : r.1 ≤ c.toNat ∧ c.toNat ≤ r.2 := by simpa using hle
  have hmem : c.toNat ∈ List.range' r.1 (r.2 + 1 - r.1) := by
    rw [List.mem_range'_1]
    omega
  have hp := h r hr c.toNat hmem
  rwa [Char.ofNat_toNat] at hp

/-- No blank is a word character. -/
theorem isWord_of_isBlank {c : Char} (h : isBlank c = true) : isWord c = false := by
  have hsmall : c.toNat < 128 → (c.isAlphanum || c == '_') = false :=
    of_isBlank (p := fun c => c.toNat < 128 → (c.isAlphanum || c == '_') = false)
      (by decide) h
  unfold isWord
  split
  · exact hsmall ‹_›
  · exact inRanges_of_apart (t := blankTable) (by decide +kernel) h

/-- No blank is a quote, a brace, a semicolon or a backslash. -/
theorem plain_of_isBlank {c : Char} (h : isBlank c = true) : c ∉ ['\'', '"', '{', '}', ';', '\\'] :=
  of_isBlank (p := fun c => c ∉ ['\'', '"', '{', '}', ';', '\\']) (by decide) h

/-- Blanks put in front of a text make no difference once the blanks in front are taken away. -/
theorem trimLeft_append {s : List Char} (h : ∀ c ∈ s, isBlank c = true) (t : List Char) :
    trimLeft (s ++ t) = trimLeft t := by
  induction s with
  | nil => rfl
  | cons c s ih =>
    have hc := h c List.mem_cons_self
    rw [trimLeft, List.cons_append, List.dropWhile_cons_of_pos hc]
    exact ih fun d hd => h d (List.mem_cons_of_mem c hd)

theorem trimLeft_of_head {c : Char} {s : List Char} (h : isBlank c = false) :
    trimLeft (c :: s) = c :: s := by
  rw [trimLeft, List.dropWhile_cons_of_neg (by simp [h])]

/-- The blanks in front of a text, and the rest, which starts with no blank. -/
theorem trimLeft_between (s : List Char) : ∃ front, s = front ++ trimLeft s
    ∧ (∀ c ∈ front, isBlank c = true) ∧ ∀ c, (trimLeft s).head? = some c → isBlank c = false := by
  induction s with
  | nil => exact ⟨[], rfl, by simp, by simp [trimLeft]⟩
  | cons c s ih =>
    cases hc : isBlank c with
    | false =>
      refine ⟨[], ?_, by simp, ?_⟩
      · rw [trimLeft_of_head hc, List.nil_append]
      · rw [trimLeft_of_head hc]
        intro d hd
        rwa [← Option.some.inj hd]
    | true =>
      obtain ⟨front, hs, hfront, hhead⟩ := ih
      have hdrop : trimLeft (c :: s) = trimLeft s := by
        rw [trimLeft, List.dropWhile_cons_of_pos hc]
        rfl
      rw [hdrop]
      refine ⟨c :: front, ?_, ?_, hhead⟩
      · rw [List.cons_append, ← hs]
      · intro d hd
        rcases List.mem_cons.mp hd with rfl | hd
        · exact hc
        · exact hfront d hd

/-- A blank in front is taken away at the end only if nothing else is left. -/
theorem trimRight_cons (c : Char) (s : List Char) :
    trimRight (c :: s) = if trimRight s = [] ∧ isBlank c = true then [] else c :: trimRight s := by
  show (if (trimRight s).isEmpty && isBlank c then [] else c :: trimRight s) = _
  by_cases h : trimRight s = []
  · simp [h]
  · have hne : (trimRight s).isEmpty = false := by simpa using h
    rw [hne, Bool.false_and, if_neg Bool.false_ne_true, if_neg (fun hc => h hc.1)]

/-- The blanks at the end of a text, and what is before them, which ends with no blank. -/
theorem trimRight_between (s : List Char) : ∃ back, s = trimRight s ++ back
    ∧ (∀ c ∈ back, isBlank c = true) ∧ ∀ c, (trimRight s).getLast? = some c → isBlank c = false := by
  induction s with
  | nil => exact ⟨[], rfl, by simp, by simp [trimRight, dropEndWhile]⟩
  | cons c s ih =>
    obtain ⟨back, hs, hback, hlast⟩ := ih
    rw [trimRight_cons]
    split
    · rename_i h
      refine ⟨c :: s, rfl, ?_, by simp⟩
      intro d hd
      rcases List.mem_cons.mp hd with rfl | hd
      · exact h.2
      · rw [h.1, List.nil_append] at hs
        exact hback d (hs ▸ hd)
    · rename_i h
      refine ⟨back, ?_, hback, ?_⟩
      · rw [List.cons_append, ← hs]
      · intro d hd
        rw [List.getLast?_cons] at hd
        cases ht : (trimRight s).getLast? with
        | some e =>
          rw [ht] at hd
          exact hlast d (ht.trans hd)
        | none =>
          rw [ht] at hd
          obtain rfl := Option.some.inj hd
          have hnil := List.getLast?_eq_none_iff.mp ht
          simpa [hnil] using h

/-- Blanks behind a text do not matter. -/
theorem trimRight_append (s : List Char) {back : List Char} (h : ∀ c ∈ back, isBlank c = true) :
    trimRight (s ++ back) = trimRight s := by
  induction s with
  | nil =>
    induction back with
    | nil => rfl
    | cons c back ih =>
      obtain ⟨hc, hback⟩ := List.forall_mem_cons.mp h
      rw [List.nil_append, trimRight_cons, if_pos ⟨ih hback, hc⟩]
      rfl
  | cons c s ih => rw [List.cons_append, trimRight_cons, trimRight_cons, ih]

/-- Nothing is dropped from a text whose last character stays. -/
theorem dropEndWhile_of_last {p : Char → Bool} {s : List Char}
    (h : ∀ c, s.getLast? = some c → p c = false) : dropEndWhile p s = s := by
  induction s with
  | nil => rfl
  | cons c s ih =>
    show (if (dropEndWhile p s).isEmpty && p c then [] else c :: dropEndWhile p s) = c :: s
    cases s with
    | nil =>
      rw [h c rfl, Bool.and_false]
      rfl
    | cons d s =>
      have hs := ih fun e he => h e (by rw [List.getLast?_cons_cons]; exact he)
      rw [hs]
      rfl

theorem trimRight_of_last {s : List Char} (h : ∀ c, s.getLast? = some c → isBlank c = false) :
    trimRight s = s :=
  dropEndWhile_of_last h

/-- A text is its trimmed part between blanks, and the trimmed part has none at its ends. -/
theorem trim_between (s : List Char) : ∃ front back, s = front ++ (trim s ++ back)
    ∧ (∀ c ∈ front, isBlank c = true) ∧ (∀ c ∈ back, isBlank c = true)
    ∧ (∀ c, (trim s).head? = some c → isBlank c = false)
    ∧ ∀ c, (trim s).getLast? = some c → isBlank c = false := by
  obtain ⟨front, hs, hfront, hhead⟩ := trimLeft_between s
  obtain ⟨back, hs', hback, hlast⟩ := trimRight_between (trimLeft s)
  refine ⟨front, back, ?_, hfront, hback, ?_, hlast⟩
  · rw [trim, ← hs']
    exact hs
  · intro c hc
    refine hhead c ?_
    rw [hs', List.head?_append]
    exact Option.or_eq_some_iff.mpr (Or.inl hc)

/-- A blank in front makes no difference to a trimmed text. -/
theorem trim_space (w : List Char) : trim (' ' :: w) = trim w := by
  have hleft := trimLeft_append (s := [' ']) (by decide) w
  rw [trim, trim, ← hleft]
  rfl

/-- A text with no blank at either end is trimmed. -/
theorem trim_of_ends {s : List Char} (hhead : ∀ c, s.head? = some c → isBlank c = false)
    (hlast : ∀ c, s.getLast? = some c → isBlank c = false) : trim s = s := by
  have hleft : trimLeft s = s := by
    cases s with
    | nil => rfl
    | cons c s => exact trimLeft_of_head (hhead c rfl)
  rw [trim, hleft, trimRight_of_last hlast]

/-- A trimmed text with blanks behind it is trimmed to itself. -/
theorem trim_append {s back : List Char} (hs : trim s = s) (hne : s ≠ [])
    (h : ∀ c ∈ back, isBlank c = true) : trim (s ++ back) = s := by
  obtain ⟨_, _, _, _, _, hhead, _⟩ := trim_between s
  rw [hs] at hhead
  cases s with
  | nil => exact absurd rfl hne
  | cons c s =>
    have hleft : trimLeft (c :: s) = c :: s := trimLeft_of_head (hhead c rfl)
    rw [trim, hleft] at hs
    rw [trim, List.cons_append, trimLeft_of_head (hhead c rfl), ← List.cons_append,
      trimRight_append _ h, hs]

@[simp] theorem trim_trim (s : List Char) : trim (trim s) = trim s := by
  obtain ⟨_, _, _, _, _, hhead, hlast⟩ := trim_between s
  exact trim_of_ends hhead hlast

/-! ## Lines -/

/-- What ends a line is none of its characters. -/
theorem not_break_of_brokenLines (s : List Char) :
    ∀ l ∈ brokenLines s, ∀ c ∈ l.1, isBreak c = false := by
  induction s using brokenLines.induct with
  | case1 => simp [brokenLines]
  | case2 rest ih =>
    rw [brokenLines]
    exact List.forall_mem_cons.mpr ⟨fun c hc => absurd hc List.not_mem_nil, ih⟩
  | case3 c rest hcr hbreak ih =>
    rw [brokenLines, if_pos hbreak]
    · exact List.forall_mem_cons.mpr ⟨fun c hc => absurd hc List.not_mem_nil, ih⟩
    · exact hcr
  | case4 c rest hcr hbreak hrest ih =>
    rw [brokenLines, if_neg hbreak, hrest]
    · simpa using hbreak
    · exact hcr
  | case5 c rest hcr hbreak line ending more hrest ih =>
    rw [hrest] at ih
    obtain ⟨hline, hmore⟩ := List.forall_mem_cons.mp ih
    rw [brokenLines, if_neg hbreak, hrest]
    · exact List.forall_mem_cons.mpr
        ⟨List.forall_mem_cons.mpr ⟨by simpa using hbreak, hline⟩, hmore⟩
    · exact hcr

theorem not_break_of_lines {s line : List Char} (h : line ∈ lines s) :
    ∀ c ∈ line, isBreak c = false := by
  obtain ⟨l, hl, rfl⟩ := List.mem_map.mp h
  exact not_break_of_brokenLines s l hl

/-- No line holds a line feed. -/
theorem notMem_lines {s line : List Char} (h : line ∈ lines s) : '\n' ∉ line := by
  intro hm
  exact absurd (not_break_of_lines h '\n' hm) (by decide)

theorem join_singleton (sep piece : List Char) : join sep [piece] = piece :=
  List.intercalate_singleton

theorem join_cons_cons (sep piece next : List Char) (pieces : List (List Char)) :
    join sep (piece :: next :: pieces) = piece ++ (sep ++ join sep (next :: pieces)) := by
  rw [join, List.intercalate_cons_cons, List.append_assoc]
  rfl

/-- Lines, each with a line feed behind it, are the joined lines with one at the end. -/
theorem flatMap_line_feed {ls : List (List Char)} (h : ls ≠ []) :
    ls.flatMap (fun line => line ++ ['\n']) = join ['\n'] ls ++ ['\n'] := by
  induction ls with
  | nil => exact absurd rfl h
  | cons line ls ih =>
    cases ls with
    | nil => simp [join]
    | cons next ls =>
      rw [List.flatMap_cons, ih (List.cons_ne_nil next ls)]
      simp [join, List.intercalate, List.intersperse]

end LetTag.Text

namespace LetTag

open Text

/-! ## The word at the start of a statement -/

/-- A text that is the word `let`, or begins with it. -/
def FirstWordLet (s : List Char) : Prop :=
  ∃ rest, s = 'l' :: 'e' :: 't' :: rest ∧ rest.head?.any isWord = false

/-- A declaration starts with the word `let`, behind blanks. -/
theorem startsDeclaration_iff (s : List Char) :
    startsDeclaration s = true ↔ FirstWordLet (trimLeft s) := by
  unfold startsDeclaration
  split
  · rename_i rest h
    constructor
    · intro hw
      exact ⟨rest, h, by simpa using hw⟩
    · rintro ⟨rest', h', hw⟩
      rw [h] at h'
      cases h'
      rw [hw]
      rfl
  · rename_i h
    constructor
    · intro hf
      cases hf
    · rintro ⟨rest, h', -⟩
      exact absurd h' (h rest)

/-- The first word is there before a character that is in no word. -/
theorem FirstWordLet.append_iff {s t : List Char} (ht : t.head?.any isWord = false) :
    FirstWordLet (s ++ t) ↔ FirstWordLet s := by
  constructor
  · rintro ⟨rest, hrest, hw⟩
    match s with
    | [] =>
      rw [List.nil_append] at hrest
      rw [hrest] at ht
      cases ht.symm.trans (show isWord 'l' = true by decide)
    | [a] =>
      obtain ⟨-, rfl⟩ := List.cons.inj hrest
      cases ht.symm.trans (show isWord 'e' = true by decide)
    | [a, b] =>
      obtain ⟨-, hrest⟩ := List.cons.inj hrest
      obtain ⟨-, rfl⟩ := List.cons.inj hrest
      cases ht.symm.trans (show isWord 't' = true by decide)
    | a :: b :: c :: s =>
      simp only [List.cons_append, List.cons.injEq] at hrest
      obtain ⟨rfl, rfl, rfl, rfl⟩ := hrest
      refine ⟨s, rfl, ?_⟩
      cases s with
      | nil => rfl
      | cons d s => exact hw
  · rintro ⟨rest, rfl, hw⟩
    refine ⟨rest ++ t, rfl, ?_⟩
    cases rest with
    | nil => exact ht
    | cons d rest => exact hw

/-- A declaration holds more than blanks. -/
theorem trim_ne_nil_of_declaration {s : List Char} (h : startsDeclaration s = true) :
    trim s ≠ [] := by
  obtain ⟨rest, hrest, -⟩ := (startsDeclaration_iff s).mp h
  intro hnil
  obtain ⟨back, hs, hback, -⟩ := trimRight_between (trimLeft s)
  rw [trim] at hnil
  rw [hnil, List.nil_append] at hs
  have hl := hback 'l' (by rw [← hs, hrest]; exact List.mem_cons_self)
  exact absurd hl (by decide)

/-- Blanks in front and behind do not matter. -/
theorem startsDeclaration_trim (s : List Char) :
    startsDeclaration (trim s) = startsDeclaration s := by
  obtain ⟨back, hs, hback, -⟩ := trimRight_between (trimLeft s)
  have hend : back.head?.any isWord = false := by
    cases back with
    | nil => rfl
    | cons c back => exact isWord_of_isBlank (hback c List.mem_cons_self)
  have hleft : trimLeft (trim s) = trim s := by
    obtain ⟨_, _, _, _, _, hhead, _⟩ := trim_between s
    cases h : trim s with
    | nil => rfl
    | cons c rest => exact trimLeft_of_head (hhead c (by rw [h]; rfl))
  rw [Bool.eq_iff_iff, startsDeclaration_iff, startsDeclaration_iff, hleft, hs, trim]
  exact (FirstWordLet.append_iff hend).symm

/-- Whether a text begins with `let` is settled before its first brace. -/
theorem startsDeclaration_brace (s t : List Char) :
    startsDeclaration (s ++ '{' :: t) = startsDeclaration (s ++ ['{']) := by
  have hleft : ∀ u, trimLeft (s ++ '{' :: u) = trimLeft s ++ '{' :: u := by
    intro u
    obtain ⟨front, hs, hfront, hhead⟩ := trimLeft_between s
    have hall : trimLeft (s ++ '{' :: u) = trimLeft (trimLeft s ++ '{' :: u) := by
      rw [← trimLeft_append hfront (trimLeft s ++ '{' :: u), ← List.append_assoc, ← hs]
    rw [hall]
    cases h : trimLeft s with
    | nil => exact trimLeft_of_head (by decide)
    | cons c rest => exact trimLeft_of_head (hhead c (by rw [h]; rfl))
  have hbrace (u : List Char) : ('{' :: u).head?.any isWord = false :=
    show isWord '{' = false by decide
  rw [Bool.eq_iff_iff, startsDeclaration_iff, startsDeclaration_iff, hleft, hleft,
    FirstWordLet.append_iff (hbrace t), FirstWordLet.append_iff (hbrace [])]

end LetTag
