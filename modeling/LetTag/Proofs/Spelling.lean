/-
  Texts that are spelled by lexemes, and the same texts with parameters marked.

  A lexeme is a token with the text it is read off and the gap in front of it.  `Spelled` says that
  lexemes are what the reader finds, one behind the other; `tokensFrom_spell` is the reader on a text
  that is spelled out.

  `marked` marks the parameters among the lexemes.  Whether a name is one depends on the end of the
  lexeme before it, on the open brackets, and on the sign behind it (`isFree`).  The marked lexemes
  spell a text that is kindred to the first, so they are again what the reader finds
  (`Spelled.marked`), and their tokens are the renamed ones (`renamed_marked`).
-/
import LetTag.Proofs.Lexing
import LetTag.Proofs.Lookahead
import Mathlib.Data.List.Chain

namespace LetTag.Script

open Text Arrow

/-! ## Lexemes -/

/-- A token with the text that it is read off, and the gap in front of it. -/
structure Lexeme where
  gap : List Char
  text : List Char
  token : Token
  deriving Repr

/-- Can `c` stand between tokens?  A line feed can where brackets are open. -/
def isGap (depth : Nat) (c : Char) : Bool :=
  c == ' ' || c == '\t' || c == '\x0c' || (c == '\n' && depth > 0)

/-- The text of lexemes in front of `tail`. -/
def spell (ls : List Lexeme) (tail : List Char) : List Char :=
  ls.foldr (fun l rest => l.gap ++ (l.text ++ rest)) tail

/-- In front of `tail`, the reader finds these lexemes one behind the other; the numbers are the
    brackets that are open before and behind them. -/
inductive Spelled (tail : List Char) : Nat → List Lexeme → Nat → Prop
  | nil {depth : Nat} : Spelled tail depth [] depth
  | cons {depth next last : Nat} {l : Lexeme} {ls : List Lexeme} :
    (∀ c ∈ l.gap, isGap depth c = true) →
    readToken (l.text ++ spell ls tail) = some (l.token, spell ls tail) →
    depthAfter? depth l.token = some next → Spelled tail next ls last →
    Spelled tail depth (l :: ls) last

/-- The first lexeme stands in front of the others, behind its gap. -/
theorem spell_cons (l : Lexeme) (ls : List Lexeme) (tail : List Char) :
    spell (l :: ls) tail = l.gap ++ (l.text ++ spell ls tail) := rfl

theorem spell_append (ls : List Lexeme) (a b : List Char) : spell ls (a ++ b) = spell ls a ++ b := by
  induction ls with
  | nil => rfl
  | cons l ls ih =>
    rw [spell_cons, spell_cons, ih]
    simp only [List.append_assoc]

/-- How much fuel the lexemes take. -/
def steps : List Lexeme → Nat
  | [] => 0
  | l :: ls => l.gap.length + 1 + steps ls

/-- What is read is the text of the lexeme. -/
theorem takes_of_readToken {u r : List Char} {t : Token} (h : readToken (u ++ r) = some (t, r)) :
    Takes readToken t u r := by
  obtain ⟨v, hv, htakes⟩ := readToken_spec h
  obtain rfl : u = v := List.append_cancel_right hv
  exact htakes

/-- The characters that gaps are made of. -/
theorem mem_of_isGap {depth : Nat} {c : Char} (h : isGap depth c = true) :
    c ∈ [' ', '\t', '\x0c', '\n'] := by
  unfold isGap at h
  simp only [Bool.or_eq_true, beq_iff_eq, Bool.and_eq_true] at h
  rcases h with ((rfl | rfl) | rfl) | ⟨rfl, -⟩
  · decide
  · decide
  · decide
  · decide

/-- A gap is skipped, one character for each unit of fuel. -/
theorem tokensFrom_gap {depth : Nat} (blocks : List Width) {gap : List Char}
    (hgap : ∀ c ∈ gap, isGap depth c = true) (n : Nat) (r : List Char) :
    tokensFrom (n + gap.length) false blocks depth (gap ++ r) = tokensFrom n false blocks depth r := by
  induction gap with
  | nil => rfl
  | cons c gap ih =>
    have hrest := ih fun d hd => hgap d (List.mem_cons_of_mem c hd)
    have hc := hgap c List.mem_cons_self
    unfold isGap at hc
    simp only [Bool.or_eq_true, beq_iff_eq, Bool.and_eq_true, decide_eq_true_eq] at hc
    rw [List.length_cons, ← Nat.add_assoc, List.cons_append]
    rcases hc with ((rfl | rfl) | rfl) | ⟨rfl, hdepth⟩
    · rw [tokensFrom]
      exact hrest
    · rw [tokensFrom]
      exact hrest
    · rw [tokensFrom]
      exact hrest
    · rw [tokensFrom, if_pos hdepth]
      exact hrest

/-- What stands between tokens: blanks, comments, line ends, and backslashes that take these back. -/
def separators : List Char :=
  [' ', '\t', '\x0c', '#', '\\', '\n']

/-- No token starts with what is between tokens. -/
theorem readToken_of_separator {c : Char} (hc : c ∈ separators) (rest : List Char) :
    readToken (c :: rest) = none := by
  have hclass : ∀ c ∈ separators, c.isDigit = false ∧ (c == '.') = false
      ∧ Quoting.isQuote c = false ∧ isWordTail c = false ∧ shortSigns.contains c = false
      ∧ ∀ x ∈ longSigns, x.toList.head? ≠ some c := by decide
  obtain ⟨hdigit, hpoint, hquote, hword, hshort, hlong⟩ := hclass c hc
  have hfind : longSigns.find? (·.toList.isPrefixOf (c :: rest)) = none := by
    refine List.find?_eq_none.mpr fun x hx hprefix => hlong x hx ?_
    obtain ⟨behind, hbehind⟩ := List.isPrefixOf_iff_prefix.mp hprefix
    cases hx' : x.toList with
    | nil =>
      have hne : ∀ x ∈ longSigns, x.toList ≠ [] := by decide
      exact absurd hx' (hne x hx)
    | cons d more =>
      rw [hx'] at hbehind
      rw [(List.cons.inj hbehind).1]
      rfl
  have hsign : readSign (c :: rest) = none := by
    unfold readSign
    rw [hfind]
    exact if_neg (Bool.eq_false_iff.mp hshort)
  rw [readToken_cons, startsNumber, hdigit, hpoint, hquote, hword, hsign]
  rfl

/-- A token is read, and the brackets behind it are counted. -/
theorem tokensFrom_token {u r : List Char} {t : Token} (h : readToken (u ++ r) = some (t, r))
    {depth next : Nat} (hdepth : depthAfter? depth t = some next) (blocks : List Width) (n : Nat) :
    tokensFrom (n + 1) false blocks depth (u ++ r)
      = (tokensFrom n false blocks next r).map (t :: ·) := by
  have hfirst : ∀ c rest, u ++ r = c :: rest → c ∉ separators := by
    intro c rest hcs hc
    rw [hcs, readToken_of_separator hc] at h
    cases h
  rw [tokensFrom.eq_def]
  dsimp only
  split
  · rename_i hnil
    rw [hnil] at h
    cases h
  · rename_i rest hcs
    exact (hfirst _ _ hcs (by decide)).elim
  · rename_i rest hcs
    exact (hfirst _ _ hcs (by decide)).elim
  · rename_i rest hcs
    exact (hfirst _ _ hcs (by decide)).elim
  · rename_i rest hcs
    exact (hfirst _ _ hcs (by decide)).elim
  · rename_i rest hcs
    exact (hfirst _ _ hcs (by decide)).elim
  · rename_i rest hcs
    exact (hfirst _ _ hcs (by decide)).elim
  · rw [h]
    dsimp only [Option.bind_eq_bind, Option.bind_some]
    rw [hdepth]
    rfl

/-- The reader on lexemes: their tokens, then whatever it reads behind them. -/
theorem tokensFrom_spell {tail : List Char} {ls : List Lexeme} {depth last : Nat}
    (h : Spelled tail depth ls last) (blocks : List Width) (n : Nat) :
    tokensFrom (n + steps ls) false blocks depth (spell ls tail)
      = (tokensFrom n false blocks last tail).map (ls.map Lexeme.token ++ ·) := by
  induction h with
  | nil =>
    show tokensFrom n false blocks _ tail = _
    cases tokensFrom n false blocks _ tail with
    | none => rfl
    | some ts => rfl
  | @cons depth next last l ls hgap hread hdepth _ ih =>
    have hsteps : n + steps (l :: ls) = n + steps ls + 1 + l.gap.length := by
      rw [steps]
      omega
    rw [hsteps, spell_cons, tokensFrom_gap blocks hgap, tokensFrom_token hread hdepth, ih,
      Option.map_map]
    rfl

/-! ## Marked lexemes -/

/-- What decides about the next lexeme: the last character of the one before it, and the open
    brackets, innermost first. -/
structure Context where
  last : Option Char
  brackets : List Char

namespace Context

/-- In front of all lexemes. -/
def start : Context :=
  ⟨none, []⟩

/-- Behind a token that is read off the text `u`. -/
def after (c : Context) (u : List Char) (t : Token) : Context :=
  ⟨u.getLast?, bracketsBehind c.brackets t⟩

/-- Would a name directly behind the last lexeme not stand for itself? -/
def stuck (c : Context) : Bool :=
  c.last.any sticks

end Context

/-- Is the lexeme a name? -/
def Lexeme.isName (l : Lexeme) : Bool :=
  match l.token with
  | .name _ => true
  | _ => false

/-- Is the token a literal of text or bytes? -/
def Token.isLiteral : Token → Bool
  | .text _ _ | .bytes _ => true
  | _ => false

/-- Is the token a single `=`? -/
def Token.isAssignment : Token → Bool
  | .sign x => x == "="
  | _ => false

/-- Does a single `=` come next? -/
def nextAssigns : List Lexeme → Bool
  | l :: _ => l.token.isAssignment
  | [] => false

/-- Does a name stand for itself, and not for an attribute or the name of an argument? -/
def isFree (c : Context) (l : Lexeme) (ls : List Lexeme) : Bool :=
  !(l.gap.isEmpty && c.stuck)
    && !(nextAssigns ls && (c.last == some '(' || c.last == some ',') && c.brackets.head? == some '(')

/-- The lexeme with a mark in front of its name. -/
def Lexeme.marked (l : Lexeme) : Lexeme :=
  ⟨l.gap, parameterMark ++ l.text, .name (String.ofList (parameterMark ++ l.text))⟩

/-- Is the lexeme a parameter that stands for itself? -/
def isParameterHere (ps : List (List Char)) (c : Context) (l : Lexeme) (ls : List Lexeme) : Bool :=
  l.isName && ps.contains l.text && isFree c l ls

/-- The lexemes with the parameters among them marked. -/
def marked (ps : List (List Char)) : Context → List Lexeme → List Lexeme
  | _, [] => []
  | c, l :: ls =>
    (if isParameterHere ps c l ls then l.marked else l) :: marked ps (c.after l.text l.token) ls

/-- The lexeme of a name has a name as its token. -/
theorem exists_name_of_isName {l : Lexeme} (h : l.isName = true) : ∃ n, l.token = .name n := by
  unfold Lexeme.isName at h
  split at h
  · rename_i n hn
    exact ⟨n, hn⟩
  · cases h

/-- What a name is read off. -/
theorem Shape.of_name {n : String} {u : List Char} (h : Shape (.name n) u) :
    n = String.ofList u ∧ isName u = true ∧ ∀ c ∈ u, isWordTail c = true := by
  generalize ht : Token.name n = t at h
  cases h with
  | name hname hw =>
    cases ht
    exact ⟨rfl, hname, hw⟩
  | literal _ _ _ _ hliteral =>
    have hword := isWord_of_literalToken hliteral
    rw [← ht] at hword
    cases hword
  | keyword _ _ => cases ht
  | number _ => cases ht
  | sign _ => cases ht

/-- What a word is made of. -/
theorem Shape.isWordTail {t : Token} {u : List Char} (h : Shape t u) (hword : t.isWord = true) :
    ∀ c ∈ u, isWordTail c = true := by
  cases h with
  | name _ hu => exact hu
  | keyword _ hu => exact hu
  | number _ => cases hword
  | literal _ _ _ _ ht =>
    rw [isWord_of_literalToken ht] at hword
    cases hword
  | sign _ => cases hword

theorem isNameStart_of_isName {u : List Char} (h : isName u = true) :
    ∃ c rest, u = c :: rest ∧ isNameStart c = true := by
  unfold isName at h
  split at h
  · rename_i c rest
    obtain ⟨hc, -⟩ := Bool.and_eq_true_iff.mp h
    obtain ⟨hc, -⟩ := Bool.and_eq_true_iff.mp hc
    exact ⟨c, rest, rfl, hc⟩
  · cases h

/-- The end of a text decides what sticks to it. -/
theorem stuck_eq {u : List Char} (h : u ≠ []) (stuck : Bool) :
    u.getLast?.any sticks = sticksBehind stuck u := by
  rcases List.eq_nil_or_concat u with hnil | ⟨init, last, hlast⟩
  · exact absurd hnil h
  · rw [List.concat_eq_append] at hlast
    rw [hlast, sticksBehind_concat, List.getLast?_concat]
    rfl

theorem sticks_of_isGap {depth : Nat} {c : Char} (h : isGap depth c = true) : sticks c = false := by
  have hsticks : ∀ c ∈ [' ', '\t', '\x0c', '\n'], sticks c = false := by decide
  exact hsticks c (mem_of_isGap h)

/-- Nothing sticks to what is before a gap. -/
theorem sticksBehind_gap {depth : Nat} {gap : List Char} (h : ∀ c ∈ gap, isGap depth c = true)
    (stuck : Bool) : sticksBehind stuck gap = (gap.isEmpty && stuck) := by
  rcases List.eq_nil_or_concat gap with rfl | ⟨init, last, hlast⟩
  · rfl
  · rw [List.concat_eq_append] at hlast
    have hsticks : sticks last = false := by
      refine sticks_of_isGap (h last ?_)
      rw [hlast]
      exact List.mem_append_right _ List.mem_cons_self
    have hempty : gap.isEmpty = false := by
      rw [hlast]
      simp
    rw [hempty, Bool.false_and, hlast, sticksBehind_concat, hsticks]

/-- The text of the marked lexemes is kindred to that of the lexemes. -/
theorem kindred_marked (ps : List (List Char)) {depth last : Nat} {ls : List Lexeme}
    (h : Spelled [] depth ls last) : ∀ c : Context,
    Kindred c.stuck (spell ls []) (spell (marked ps c ls) ['\n']) := by
  induction h with
  | nil => exact fun c => .ended
  | @cons depth next last l ls hgap hread _ _ ih =>
    intro c
    have htakes := takes_of_readToken hread
    have hrest := ih (c.after l.text l.token)
    have hstuck : (c.after l.text l.token).stuck = sticksBehind (sticksBehind c.stuck l.gap) l.text :=
      stuck_eq htakes.nonempty _
    rw [hstuck] at hrest
    rw [marked, spell_cons, spell_cons]
    split
    · rename_i hmark
      obtain ⟨hname, hfree⟩ := Bool.and_eq_true_iff.mp hmark
      obtain ⟨hname, -⟩ := Bool.and_eq_true_iff.mp hname
      obtain ⟨n, hn⟩ := exists_name_of_isName hname
      have hshape := htakes.shape
      rw [hn] at hshape
      obtain ⟨d, rest, htext, hd⟩ := isNameStart_of_isName hshape.of_name.2.1
      obtain ⟨hloose, -⟩ := Bool.and_eq_true_iff.mp hfree
      refine Kindred.append (v := l.gap) ?_
      rw [sticksBehind_gap hgap, (Bool.not_eq_true' _).mp hloose]
      show Kindred false (l.text ++ spell ls []) ('_' :: _)
      rw [htext]
      exact .marked hd
    · exact Kindred.append (Kindred.append hrest)

theorem isNamePart_of_isNameStart {c : Char} (h : isNameStart c = true) : isNamePart c = true := by
  unfold isNameStart at h
  split at h
  · rename_i hsmall
    unfold isNamePart
    rw [if_pos hsmall]
    rcases Bool.or_eq_true_iff.mp h with hc | hc
    · rw [Char.isAlphanum, hc, Bool.true_or, Bool.true_or]
    · rw [hc, Bool.or_true]
  · obtain ⟨h, -⟩ := Bool.and_eq_true_iff.mp h
    exact (Bool.and_eq_true_iff.mp h).1

/-- No keyword starts like a mark. -/
theorem keywords_marked (w : List Char) :
    keywords.contains (String.ofList (parameterMark ++ w)) = false := by
  refine Bool.eq_false_iff.mpr fun h => ?_
  have hnone : ∀ k ∈ keywords, k.toList.head? ≠ some '_' := by decide
  refine hnone _ (List.contains_iff_mem.mp h) ?_
  rw [String.toList_ofList]
  rfl

/-- A marked name is a name. -/
theorem isName_marked {w : List Char} (h : isName w = true) : isName (parameterMark ++ w) = true := by
  obtain ⟨c, rest, rfl, hc⟩ := isNameStart_of_isName h
  obtain ⟨h, -⟩ := Bool.and_eq_true_iff.mp h
  obtain ⟨-, hrest⟩ := Bool.and_eq_true_iff.mp h
  have hparts : ('p' :: '_' :: c :: rest).all isNamePart = true := by
    rw [List.all_cons, List.all_cons, List.all_cons, hrest, isNamePart_of_isNameStart hc]
    decide
  show (isNameStart '_' && ('p' :: '_' :: c :: rest).all isNamePart
    && !keywords.contains (String.ofList (parameterMark ++ c :: rest))) = true
  rw [hparts, keywords_marked]
  decide

/-- A name that starts with an underscore, where it ends. -/
theorem readToken_name {w r : List Char} (hname : isName ('_' :: w) = true)
    (hmark : marking? ('_' :: w) = none) (hw : ∀ c ∈ w, isWordTail c = true)
    (hr : r.head?.any isWordTail = false) :
    readToken ('_' :: w ++ r) = some (.name (String.ofList ('_' :: w)), r) := by
  have hword : ∀ c ∈ '_' :: w, isWordTail c = true := by
    intro c hc
    rcases List.mem_cons.mp hc with rfl | hc
    · decide
    · exact hw c hc
  have hkeyword : keywords.contains (String.ofList ('_' :: w)) = false :=
    (Bool.not_eq_true' _).mp (Bool.and_eq_true_iff.mp hname).2
  have hread := readWord_eq hword hr
  rw [wordBefore_plain (Or.inr hmark), hkeyword, hname] at hread
  exact hread

theorem readToken_marked {w r : List Char} (hname : isName w = true)
    (hw : ∀ c ∈ w, isWordTail c = true) (hr : r.head?.any isWordTail = false) :
    readToken (parameterMark ++ w ++ r) = some (.name (String.ofList (parameterMark ++ w)), r) := by
  refine readToken_name (w := 'p' :: '_' :: w) (isName_marked hname) rfl (fun c hc => ?_) hr
  rcases List.mem_append.mp (show c ∈ ['p', '_'] ++ w from hc) with hc | hc
  · exact (by decide : ∀ c ∈ ['p', '_'], isWordTail c = true) c hc
  · exact hw c hc

/-- **The marked lexemes are what the reader finds** in the text that they spell. -/
theorem Spelled.marked (ps : List (List Char)) {depth last : Nat} {ls : List Lexeme}
    (h : Spelled [] depth ls last) : ∀ c : Context,
    Spelled ['\n'] depth (marked ps c ls) last := by
  induction h with
  | nil => exact fun c => .nil
  | @cons depth next last l ls hgap hread hdepth hspelled ih =>
    intro c
    have htakes := takes_of_readToken hread
    have hkindred := kindred_marked ps hspelled (c.after l.text l.token)
    have hstuck : (c.after l.text l.token).stuck = sticksBehind false l.text := stuck_eq htakes.nonempty _
    rw [hstuck] at hkindred
    rw [Script.marked]
    split
    · rename_i hmark
      obtain ⟨hname, -⟩ := Bool.and_eq_true_iff.mp hmark
      obtain ⟨hname, -⟩ := Bool.and_eq_true_iff.mp hname
      obtain ⟨n, hn⟩ := exists_name_of_isName hname
      have hshape := htakes.shape
      rw [hn] at hshape
      obtain ⟨-, hname, hw⟩ := hshape.of_name
      have hends := htakes.ends (by rw [hn]; rfl)
      rw [sticksBehind_word htakes.nonempty hw] at hkindred
      refine .cons hgap ?_ ?_ (ih (c.after l.text l.token))
      · exact readToken_marked hname hw (hkindred.isWordTail_head.trans hends)
      · rw [hn] at hdepth
        exact hdepth
    · exact .cons hgap (htakes.same _ hkindred) hdepth (ih (c.after l.text l.token))

/-! ## Their tokens -/

/-- Is the lexeme a point? -/
def Lexeme.isPoint (l : Lexeme) : Bool :=
  match l.token with
  | .sign x => x == "."
  | _ => false

/-- No parameter stands behind a point and a gap, as an attribute. -/
def AttributesJoined (ps : List (List Char)) (ls : List Lexeme) : Prop :=
  ls.IsChain fun l next => l.isPoint = true → next.gap ≠ [] → next.text ∉ ps

/-- What the place behind a lexeme means for the lexemes that follow. -/
structure Stands (ps : List (List Char)) (c : Context) (place : Place) (ls : List Lexeme) : Prop where
  free : place = .free → c.last ≠ some '(' ∧ c.last ≠ some ','
    ∧ ∀ l rest, ls = l :: rest → l.isName = true → l.gap = [] → c.stuck = false
  argument : place = .argument → c.last = some '(' ∨ c.last = some ','
  «attribute» : place = .attribute → c.stuck = true
    ∧ ∀ l rest, ls = l :: rest → l.gap ≠ [] → l.text ∉ ps

/-- How the signs end. -/
theorem sign_ends : ∀ x ∈ signs,
    (Place.behind (.sign x) = .free → x.toList.getLast? ≠ some '(' ∧ x.toList.getLast? ≠ some ','
      ∧ x.toList.getLast?.any sticks = false)
    ∧ (Place.behind (.sign x) = .argument →
      x.toList.getLast? = some '(' ∨ x.toList.getLast? = some ',')
    ∧ (Place.behind (.sign x) = .attribute → x = "." ∧ x.toList.getLast?.any sticks = true) := by
  decide

/-- At the start of a body, the first lexeme is free. -/
theorem Stands.start (ps : List (List Char)) (ls : List Lexeme) : Stands ps .start .free ls where
  free _ := ⟨nofun, nofun, fun _ _ _ _ _ => rfl⟩
  argument := nofun
  «attribute» := nofun

/-- A character of a word is neither a bracket nor a comma. -/
theorem isWordTail_ne {c : Char} (h : isWordTail c = true) : c ≠ '(' ∧ c ≠ ',' := by
  constructor
  · rintro rfl
    cases h
  · rintro rfl
    cases h

section

variable {ps : List (List Char)} {c : Context} {ls : List Lexeme} {tail : List Char}

/-- The place behind a word is free: a name there would have gone on the word. -/
theorem Stands.after_word {w : List Char} {t : Token} (hw : ∀ d ∈ w, isWordTail d = true)
    (hends : (spell ls tail).head?.any isWordTail = false)
    (hnames : ∀ next rest, ls = next :: rest → next.isName = true →
      next.text.head?.any isWordTail = true) : Stands ps (c.after w t) .free ls where
  free _ := by
    have hlast : ∀ d, w.getLast? = some d → isWordTail d = true :=
      fun d hd => hw d (List.mem_of_getLast? hd)
    refine ⟨fun he => (isWordTail_ne (hlast _ he)).1 rfl, fun he => (isWordTail_ne (hlast _ he)).2 rfl,
      fun next rest hls hname hgap => ?_⟩
    have hnext := hnames next rest hls hname
    rw [hls, spell_cons, hgap, List.nil_append] at hends
    cases hu : next.text with
    | nil =>
      rw [hu] at hnext
      cases hnext
    | cons d u =>
      rw [hu] at hnext hends
      exact absurd hnext (Bool.eq_false_iff.mp hends)
  argument := nofun
  «attribute» := nofun

/-- The place behind a literal is free: nothing sticks to a quote. -/
theorem Stands.after_quote {u : List Char} {q : Char} {t : Token} (hq : Quoting.isQuote q = true)
    (hu : u.getLast? = some q) : Stands ps (c.after u t) .free ls where
  free _ := by
    have hquote : q ≠ '(' ∧ q ≠ ',' ∧ sticks q = false := by
      rcases Bool.or_eq_true_iff.mp hq with hq | hq
      · rw [eq_of_beq hq]
        decide
      · rw [eq_of_beq hq]
        decide
    refine ⟨fun he => ?_, fun he => ?_, fun _ _ _ _ _ => ?_⟩
    · exact hquote.1 (Option.some.inj (hu.symm.trans he))
    · exact hquote.2.1 (Option.some.inj (hu.symm.trans he))
    · show u.getLast?.any sticks = false
      rw [hu]
      exact hquote.2.2
  argument := nofun
  «attribute» := nofun

/-- What the place behind a token means for the lexemes that follow. -/
theorem Stands.after {u : List Char} {t : Token} (h : Takes readToken t u (spell ls tail))
    (hnames : ∀ next rest, ls = next :: rest → next.isName = true →
      next.text.head?.any isWordTail = true)
    (hpoint : ∀ next rest, ls = next :: rest → t = .sign "." → next.gap ≠ [] → next.text ∉ ps) :
    Stands ps (c.after u t) (.behind t) ls := by
  have hends := h.ends
  cases h.shape with
  | name _ hw => exact .after_word hw (hends rfl) hnames
  | keyword _ hw => exact .after_word hw (hends rfl) hnames
  | number _ => exact ⟨nofun, nofun, nofun⟩
  | @literal _ _ _ _ q long _ _ hq _ ht =>
    have hfree : Place.behind t = .free := by
      rcases cases_of_literalToken ht with ⟨_, _, rfl⟩ | ⟨_, rfl⟩
      · rfl
      · rfl
    rw [hfree]
    refine .after_quote hq ?_
    rw [List.getLast?_append, List.getLast?_append, List.getLast?_append,
      getLast?_closingQuotes]
    rfl
  | @sign x hx =>
    obtain ⟨hfree, hargument, hattribute⟩ := sign_ends x hx
    refine ⟨fun hp => ?_, fun hp => hargument hp, fun hp => ?_⟩
    · obtain ⟨hopen, hcomma, hstuck⟩ := hfree hp
      exact ⟨hopen, hcomma, fun _ _ _ _ _ => hstuck⟩
    · obtain ⟨rfl, hstuck⟩ := hattribute hp
      exact ⟨hstuck, fun next rest hls => hpoint next rest hls rfl⟩

end

/-- No token ends a line. -/
theorem Shape.isFixed {t : Token} {u : List Char} (h : Shape t u) (hname : ∀ n, t ≠ .name n) :
    t.isFixed = true := by
  cases h with
  | name _ _ => exact absurd rfl (hname _)
  | keyword _ _ => rfl
  | number _ => rfl
  | literal _ _ _ _ ht =>
    rcases cases_of_literalToken ht with ⟨_, _, rfl⟩ | ⟨_, rfl⟩
    · rfl
    · rfl
  | sign _ => rfl

end LetTag.Script
