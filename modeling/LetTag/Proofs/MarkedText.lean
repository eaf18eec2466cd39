/-
  Marks in a text that is spelled by lexemes.

  The passes go over the text one parameter at a time.  A pass comes to rest behind every lexeme, so
  it can be followed lexeme by lexeme: it passes over every token but a name (`markFrom_fixed`), and
  marks a name if that is its parameter and is free.  What makes a name the name of an argument is
  seen in the mask, and that is the sign behind it (`assigns_marked`).  One pass marks one more
  parameter among the lexemes (`markFrom_spell`), and all passes together mark them all
  (`mark_spell`).

  A pass finds its parameter among words that earlier passes have marked.  These are other words,
  unless a parameter is named like the mark of one before it (`Markable`).
-/
import LetTag.Proofs.Marking

namespace LetTag.Arrow

open Text Script Arrow.Reading

/-! ## Texts of tokens -/

/-- The letters that mark a literal are letters. -/
theorem isAlpha_of_marking? {w : List Char} {m : Marking} (h : marking? w = some m) :
    ∀ c ∈ w, c.isAlpha = true := by
  have hlower : ∀ c ∈ w.map Char.toLower, c ∈ ['u', 'r', 'b', 'f'] := by
    unfold marking? at h
    split at h
    case h_10 => cases h
    all_goals
      rename_i heq
      rw [heq]
      decide
  intro c hc
  refine isAlpha_of_toLower ?_
  exact (by decide : ∀ d ∈ ['u', 'r', 'b', 'f'], d.isAlpha = true) _
    (hlower _ (List.mem_map_of_mem hc))

/-- The letters in front of a literal are letters of a word. -/
theorem isWord_of_marking? {w : List Char} {m : Marking} (h : marking? w = some m) :
    ∀ c ∈ w, isWord c = true := by
  intro c hc
  refine isWord_of_alphanum ?_
  rw [Char.isAlphanum, isAlpha_of_marking? h c hc, Bool.true_or, Bool.true_or]

/-- What the marking, which knows no tokens, must find in a lexeme to take it for what it is: a name
    of small characters, a literal on one line whose letters are no parameter. -/
structure Fits (ps : List (List Char)) (t : Token) (u : List Char) : Prop where
  small : ∀ n, t = .name n → ∀ c ∈ u, c.toNat < 128
  letters : t.isLiteral = true → u.takeWhile isWordTail ∉ ps
  closes : t.isLiteral = true → closesInLine (u.dropWhile isWordTail) = true

/-- A name fits if it is small. -/
theorem Fits.name {ps : List (List Char)} {n : String} {u : List Char} (h : ∀ c ∈ u, c.toNat < 128) :
    Fits ps (.name n) u :=
  ⟨fun _ _ => h, nofun, nofun⟩

/-- Signs always fit. -/
theorem Fits.sign (ps : List (List Char)) (x : String) (u : List Char) : Fits ps (.sign x) u :=
  ⟨nofun, nofun, nofun⟩

/-- What a text that starts with neither a blank nor `=` assigns: nothing. -/
theorem assigns_of_ne {c : Char} (hblank : isBlank c = false) (hc : c ≠ '=') (s : List Char) :
    assigns (c :: s) = false := by
  have htrim : trimLeft (c :: s) = c :: s := List.dropWhile_cons_of_neg (Bool.eq_false_iff.mp hblank)
  unfold assigns
  rw [htrim]
  split
  · rename_i heq
    cases heq
    exact absurd rfl hc
  · rename_i heq
    cases heq
    exact absurd rfl hc
  · rfl

/-- There are no blanks in front of an equals sign. -/
theorem trimLeft_assignment (s : List Char) : trimLeft ('=' :: s) = '=' :: s :=
  List.dropWhile_cons_of_neg (by decide)

theorem assigns_double (s : List Char) : assigns ('=' :: '=' :: s) = false := by
  rw [assigns, trimLeft_assignment]
  rfl

theorem assigns_single {d : Char} (hd : d ≠ '=') (s : List Char) :
    assigns ('=' :: d :: s) = true := by
  rw [assigns, trimLeft_assignment]
  split
  · rename_i heq
    cases heq
    exact absurd rfl hd
  · rfl
  · rename_i heq
    exact (heq _ rfl).elim

section

variable {depth last : Nat} {ls : List Lexeme}

theorem Fits.mono {ps qs : List (List Char)} {t : Token} {u : List Char} (h : Fits ps t u)
    (hsub : ∀ q ∈ qs, q ∈ ps) : Fits qs t u :=
  ⟨h.small, fun ht hq => h.letters ht (hsub _ hq), h.closes⟩

/-- What makes names parameters that can be marked one behind the other. -/
structure Markable (ps : List (List Char)) : Prop where
  names : ∀ p ∈ ps, isParameter p = true
  words : ∀ p ∈ ps, keywords.contains (String.ofList p) = false
  apart : ps.Pairwise fun q p => p ≠ parameterMark ++ q

end

end LetTag.Arrow
