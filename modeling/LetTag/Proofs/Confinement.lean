/-
  What is written in a definition stays inside its function, or not.

  The source of a definition is the text of a function.  The lines of a block are indented one by one,
  so all of them are inside.  The lines of an expression are not: only the first one stands behind
  `return`, and the others are as they are in the definition.  So the source keeps its lines inside
  exactly if the body is a block or the expression does.  Then the program has no statements but the
  function, and starting it runs none (`Arrow.confined`).

  Otherwise a line at the left edge ends the function, and what it holds is run by the definition
  (`Arrow.not_confined`).
-/
import LetTag.Proofs.FunctionText
import LetTag.Proofs.Indentation
import LetTag.Proofs.Margin
import LetTag.Script.Run

namespace LetTag.Text

/-- Only carriage returns change. -/
theorem unifyNewlines_append {u : List Char} (h : '\r' ∉ u) (rest : List Char) :
    unifyNewlines (u ++ rest) = u ++ unifyNewlines rest := by
  induction u with
  | nil => rfl
  | cons c u ih =>
    obtain ⟨hc, hu⟩ := not_or.mp (fun he => h (List.mem_cons.mpr he))
    have hne : c ≠ '\r' := fun he => hc he.symm
    rw [List.cons_append, unifyNewlines, if_neg hne, ih hu]
    · rfl
    · exact fun _ he => absurd he hne

end LetTag.Text

namespace LetTag.Script

open Text Position

/-- Do all lines of a text but the first stay inside, or go on with something open? -/
def staysInside (s : List Char) : Bool :=
  keepsLines (code 0) (unifyNewlines s)

/-! ## The head of a function -/

/-- Lexemes take the scan from code to code. -/
theorem Spelled.after {tail : List Char} {ls : List Lexeme} {depth last : Nat}
    (h : Spelled tail depth ls last) : (code depth).after (spell ls []) tail = code last := by
  induction h with
  | nil => rfl
  | @cons depth next last l ls hgap hread hdepth _ ih =>
    have hplain : ∀ c ∈ l.gap, c ∉ marks := by
      intro c hc hmark
      have hgaps : ∀ c ∈ marks, isGap depth c = false := by
        intro c hc
        simp only [marks, List.mem_cons, List.not_mem_nil, or_false] at hc
        rcases hc with rfl | rfl | rfl | rfl | rfl | rfl | rfl | rfl | rfl | rfl
        all_goals rfl
      have hin := hgap c hc
      rw [hgaps c hmark] at hin
      cases hin
    obtain ⟨u, hu, hafter⟩ := after_token hread hdepth
    obtain rfl : l.text = u := List.append_cancel_right hu
    rw [spell_cons, after_append, after_of_notMem hplain, after_append]
    have hrest : spell ls [] ++ tail = spell ls tail := (spell_append ls [] tail).symm
    rw [hrest, hafter]
    exact ih

/-- A marked parameter is a name, whatever the parameter is. -/
theorem isNamed_parameter {p : List Char} (h : Arrow.isParameter p = true) :
    IsNamed (Arrow.parameterMark ++ p) := by
  have hchars : ∀ c ∈ 'p' :: '_' :: p, (c.isAlphanum || c == '_') = true :=
    List.forall_mem_cons.mpr ⟨rfl, List.forall_mem_cons.mpr ⟨rfl, Arrow.alphanum_of_parameter h⟩⟩
  have hparts : ('p' :: '_' :: p).all isNamePart = true :=
    List.all_eq_true.mpr fun c hc => Arrow.isNamePart_of_alphanum (hchars c hc)
  have hname : isName ('_' :: 'p' :: '_' :: p) = true := by
    have hstart : isNameStart '_' = true := by decide
    unfold isName
    dsimp only
    rw [hstart, hparts]
    have hkeyword : keywords.contains (String.ofList ('_' :: 'p' :: '_' :: p)) = false :=
      keywords_marked p
    rw [hkeyword]
    rfl
  intro r hr
  refine readToken_name (w := 'p' :: '_' :: p) hname rfl (fun c hc => ?_) hr
  rw [isWordTail, hchars c hc]
  rfl

section

variable {ps : List (List Char)} (hps : ∀ p ∈ ps, Arrow.isParameter p = true)

include hps

/-- Marked parameters are names for the reader of tokens. -/
theorem isNamed_parameters : ∀ w ∈ ps.map (Arrow.parameterMark ++ ·), IsNamed w :=
  List.forall_mem_map.mpr fun p hp => isNamed_parameter (hps p hp)

/-- The head of a function is one line. -/
theorem notMem_head {z : Char} (hz : isBreak z = true) :
    z ∉ spell (headLexemes (ps.map (Arrow.parameterMark ++ ·))) [] := by
  have hfixed : ∀ {s : List Char}, (∀ c ∈ s, isBreak c = false) → z ∉ s := by
    intro s hs hmem
    rw [hs z hmem] at hz
    cases hz
  have hword : ∀ c : Char, isWord c = true → isBreak c = false := by
    intro c hc
    refine Bool.eq_false_iff.mpr fun hbreak => ?_
    rw [isWord_of_isBlank (isBlank_of_isBreak hbreak)] at hc
    cases hc
  have hnames : z ∉ join [',', ' '] (ps.map (Arrow.parameterMark ++ ·)) := by
    rw [mem_join_iff (hfixed (by decide))]
    rintro ⟨w, hw, hmem⟩
    obtain ⟨p, hp, rfl⟩ := List.mem_map.mp hw
    rcases List.mem_append.mp hmem with hmem | hmem
    · exact hfixed (by decide) hmem
    · exact hfixed (fun c hc => hword c (Arrow.isWord_of_parameter (hps p hp) c hc)) hmem
  have hdef : z ∉ "def ".toList := hfixed (by decide)
  have hname : z ∉ Arrow.functionName := hfixed (by decide)
  have hopen : z ≠ '(' := by
    rintro rfl
    cases hz
  have hclose : z ∉ [')', ':'] := hfixed (by decide)
  rw [spell_headLexemes]
  simp only [List.mem_append, List.mem_cons, not_or] at hclose ⊢
  exact ⟨hdef, hname, hopen, hnames, hclose⟩

/-- What the reader takes the source of a function for. -/
theorem unifyNewlines_sourceOf (body : List Char) :
    unifyNewlines (Arrow.sourceOf ps body)
      = spell (headLexemes (ps.map (Arrow.parameterMark ++ ·)))
        ('\n' :: unifyNewlines (body ++ ['\n'])) := by
  have hhead := notMem_head hps (z := '\r') rfl
  rw [sourceOf_eq_spell]
  generalize headLexemes (ps.map (Arrow.parameterMark ++ ·)) = head at hhead ⊢
  have hspell : ∀ tail, spell head tail = spell head [] ++ tail := fun tail => spell_append head [] tail
  rw [hspell, unifyNewlines_append hhead, hspell ('\n' :: unifyNewlines _)]
  rfl

/-- **The lines of the source** stay inside if those of the body do, the first one with them. -/
theorem staysInside_sourceOf (body : List Char) :
    staysInside (Arrow.sourceOf ps body) = (startsInside (unifyNewlines (body ++ ['\n']))
      && keepsLines (code 0) (unifyNewlines (body ++ ['\n']))) := by
  unfold staysInside
  rw [unifyNewlines_sourceOf hps]
  generalize unifyNewlines (body ++ ['\n']) = rest
  have hbreak : ∀ c ∈ spell (headLexemes (ps.map (Arrow.parameterMark ++ ·))) [],
      isBreak c = false := fun c hc => Bool.eq_false_iff.mpr fun hbreak => notMem_head hps hbreak hc
  have hafter := (spelled_headLexemes (isNamed_parameters hps) rest).after
  have hspell : spell (headLexemes (ps.map (Arrow.parameterMark ++ ·))) ('\n' :: rest)
      = spell (headLexemes (ps.map (Arrow.parameterMark ++ ·))) [] ++ '\n' :: rest :=
    spell_append _ [] _
  rw [hspell, keepsLines_append hbreak, hafter, keepsLines]
  rfl

/-! ## The program of a source -/

/-- A source that is read as a program: the function has the marked parameters, and its body begins
    with the line behind the head. -/
theorem program_of_sourceOf {body : List Char} {p : Program}
    (h : Program.parse? (Arrow.sourceOf ps body) = some p) :
    p.function.name = String.ofList Arrow.functionName
      ∧ p.function.parameters = ps.map (fun q => String.ofList (Arrow.parameterMark ++ q))
      ∧ ∃ n m more rest, tokensFrom n true [edge] 0 (unifyNewlines (body ++ ['\n'])) = some more
        ∧ block m (.newline :: more) = some (p.function.body, rest)
        ∧ statements m rest = some (p.trailing, []) := by
  have hhead := isNamed_parameters hps
  obtain ⟨ts, hts, -⟩ := Option.bind_eq_some_iff.mp h
  have hts' := hts
  unfold tokens? at hts'
  rw [unifyNewlines_sourceOf hps] at hts'
  dsimp only at hts'
  obtain ⟨-, htokens⟩ := Option.ite_none_left_eq_some.mp hts'
  generalize hws : ps.map (Arrow.parameterMark ++ ·) = ws at hhead htokens
  generalize unifyNewlines (body ++ ['\n']) = rest at htokens ⊢
  obtain ⟨n, hn⟩ : ∃ n, (spell (headLexemes ws) ('\n' :: rest)).length + 2
      = n + 1 + steps (headLexemes ws) + 1 := by
    have hlength := (spelled_headLexemes hhead rest).steps_le
    exact ⟨(spell (headLexemes ws) ('\n' :: rest)).length - steps (headLexemes ws), by omega⟩
  rw [hn] at htokens
  obtain ⟨more, hmore, hcons⟩ := Option.map_eq_some_iff.mp ((tokensFrom_head hhead rest n).symm.trans htokens)
  rw [Program.parse?_of_tokens hts hcons.symm] at h
  obtain ⟨⟨ss, us⟩, hblock, h⟩ := Option.bind_eq_some_iff.mp h
  obtain ⟨⟨trailing, vs⟩, hstatements, h⟩ := Option.bind_eq_some_iff.mp h
  dsimp only at h
  split at h
  · rename_i hplaced
    obtain ⟨hplaced, -⟩ := Bool.and_eq_true_iff.mp hplaced
    obtain ⟨hempty, -⟩ := Bool.and_eq_true_iff.mp hplaced
    cases h
    obtain rfl : vs = [] := List.isEmpty_iff.mp hempty
    refine ⟨rfl, ?_, n, _, more, us, hmore, hblock, hstatements⟩
    rw [← hws, List.map_map]
    rfl
  · cases h

/-- **Where all lines stay inside, there is nothing behind the function.** -/
theorem trailing_of_staysInside {body : List Char} {p : Program}
    (h : Program.parse? (Arrow.sourceOf ps body) = some p)
    (hinside : staysInside (Arrow.sourceOf ps body) = true) : p.trailing = [] := by
  obtain ⟨-, -, n, m, more, rest, hmore, hblock, hstatements⟩ := program_of_sourceOf hps h
  rw [staysInside_sourceOf hps, Bool.and_eq_true] at hinside
  have hedge : Stacked [] := fun v hv => absurd hv List.not_mem_nil
  have hopens := (tokens_inside n).1 hedge hinside.1 hinside.2 hmore
  obtain rfl : rest = [] := by
    rcases hopens with rfl | ⟨us, rfl, hus⟩
    · exact block_newline hblock
    · exact block_inside hus hblock
  cases m with
  | zero => cases hstatements
  | succ m => exact (Prod.mk.inj (Option.some.inj hstatements)).1.symm

end

/-- A program of one function does nothing when it starts. -/
theorem Program.start_of_trailing {p : Program} (h : p.trailing = []) (s : Store) :
    p.start.run s = (.ok [], s) := by
  show p.start s = _
  unfold Program.start
  rw [h]
  rfl

end LetTag.Script

namespace LetTag.Arrow

open Text Script Position

/-- The text of the value that is returned, for a body whose parameters are marked. -/
def returned (body : List Char) : List Char :=
  trim (dropEndWhile (· == ';') body)

/-- Marking does not make a block of a body. -/
theorem head?_marked {ps : List (List Char)} (hps : ∀ p ∈ ps, isParameter p = true)
    (body : List Char) :
    (ps.foldl (fun b p => mark p b) body).head? = some '{' ↔ body.head? = some '{' := by
  induction ps generalizing body with
  | nil => exact Iff.rfl
  | cons p ps ih =>
    obtain ⟨hp, hps⟩ := List.forall_mem_cons.mp hps
    rw [List.foldl_cons, ih hps]
    cases body with
    | nil => exact Iff.rfl
    | cons c rest =>
      rw [mark, markFrom]
      split
      · rename_i hoccurs
        have hc : c ≠ '{' := by
          rintro rfl
          rw [occurs_of_ne hp (by decide)] at hoccurs
          cases hoccurs
        refine ⟨fun h => ?_, fun h => absurd (Option.some.inj h) hc⟩
        cases h
      · exact Iff.rfl

/-- The lines of a block are inside. -/
theorem inside_blockBody (body : List Char) :
    startsInside (unifyNewlines (blockBody body ++ ['\n'])) = true
      ∧ keepsLines (code 0) (unifyNewlines (blockBody body ++ ['\n'])) = true := by
  have hlines : ∀ l ∈ lines (unifyNewlines (blockBody body ++ ['\n'])), isInside l = true := by
    rw [lines_unifyNewlines]
    exact isInside_of_mem_indent _
  exact ⟨startsInside_of_lines hlines,
    keepsLines_of_lines (fun l hl => hlines l (List.mem_of_mem_tail hl)) _⟩

/-- Those of an expression are if they are inside on their own. -/
theorem inside_expressionBody (body : List Char) :
    startsInside (unifyNewlines (expressionBody body ++ ['\n'])) = true
      ∧ keepsLines (code 0) (unifyNewlines (expressionBody body ++ ['\n']))
        = staysInside (returned body ++ ['\n']) := by
  have hfront : '\r' ∉ margin ++ "return ".toList := by decide
  have hplain : ∀ c ∈ margin ++ "return ".toList, isBreak c = false ∧ c ∉ marks := by decide
  have hbody : expressionBody body ++ ['\n'] = margin ++ "return ".toList ++ (returned body ++ ['\n']) :=
    List.append_assoc _ _ _
  unfold staysInside
  rw [hbody, unifyNewlines_append hfront]
  constructor
  · rfl
  · rw [keepsLines_append fun c hc => (hplain c hc).1, after_of_notMem fun c hc => (hplain c hc).2]

/-- **A definition stays inside its function** if its body is a block, or if the expression that it
    returns keeps its lines inside, and only then.  A program of such a source is the function, and
    starting it runs nothing of the body. -/
theorem confined {expr : List Char} {a : Arrow} (h : ofText expr = .ok a) :
    (∃ inner body, split? (trim expr) = some (inner, body)
      ∧ (staysInside a.source = true ↔ (trim body).head? = some '{'
        ∨ staysInside (returned (a.parameters.foldl (fun b p => mark p b) (trim body)) ++ ['\n'])
          = true))
    ∧ ∀ p, Program.parse? a.source = some p → staysInside a.source = true →
      p.trailing = [] ∧ ∀ s, p.start.run s = (.ok [], s) := by
  obtain ⟨inner, body, hsplit, -, -, hnames, hbody, hsource⟩ := parts_of_ofText h
  rw [hsource]
  refine ⟨⟨inner, body, hsplit, ?_⟩, fun p hp hinside => ?_⟩
  · rw [staysInside_sourceOf hnames, ← head?_marked hnames, hbody, layout]
    generalize a.parameters.foldl (fun b p => mark p b) (trim body) = marked
    split
    · rename_i hblock
      obtain ⟨hstart, hkeeps⟩ := inside_blockBody marked
      simp [hstart, hkeeps, hblock]
    · rename_i hblock
      obtain ⟨hstart, hkeeps⟩ := inside_expressionBody marked
      simp [hstart, hkeeps, hblock]
  · have htrailing := trailing_of_staysInside hnames hp hinside
    exact ⟨htrailing, p.start_of_trailing htrailing⟩

/-- A block whose lines are at the left edge of the definition. -/
theorem confined_block : ∃ a p, ofText "(n) => \x7b\nm = n + 1\nreturn m\n\x7d".toList = .ok a
    ∧ Program.parse? a.source = some p ∧ staysInside a.source = true
    ∧ p.trailing = [] ∧ ∀ s, p.start.run s = (.ok [], s) := by
  obtain ⟨a, ha, hp⟩ : ∃ a, ofText "(n) => \x7b\nm = n + 1\nreturn m\n\x7d".toList = .ok a
      ∧ (Program.parse? a.source).isSome = true := ⟨_, rfl, by decide +kernel⟩
  obtain ⟨p, hp⟩ := Option.isSome_iff_exists.mp hp
  obtain ⟨⟨inner, body, hsplit, hinside⟩, hstart⟩ := confined ha
  have hblock : (trim body).head? = some '{' := by
    have hparts : split? (trim "(n) => \x7b\nm = n + 1\nreturn m\n\x7d".toList)
        = some (['n'], "\x7b\nm = n + 1\nreturn m\n\x7d".toList) := by decide
    obtain ⟨-, rfl⟩ := Prod.mk.inj (Option.some.inj (hsplit.symm.trans hparts))
    decide
  have hinside := hinside.mpr (Or.inl hblock)
  exact ⟨a, p, ha, hp, hinside, hstart p hp hinside⟩

/-- An expression with a line behind it that is no part of it: the line ends the function, and is run
    by the definition. -/
theorem not_confined : ∃ a p, ofText "() => 1 # \x7b\nraise ValueError('ran') # \x7d".toList = .ok a
    ∧ Program.parse? a.source = some p ∧ staysInside a.source = false ∧ p.trailing ≠ []
    ∧ ∃ f, (p.start.run Store.empty).1 = .error (.fault f) := by
  have hany : (ofText "() => 1 # \x7b\nraise ValueError('ran') # \x7d".toList).toOption.any (fun a =>
      !staysInside a.source && (Program.parse? a.source).any fun p => !p.trailing.isEmpty
        && ((p.start.run Store.empty).1 matches .error (.fault _))) = true := by
    decide +kernel
  obtain ⟨a, ha, hany⟩ := (Option.any_eq_true _ _).mp hany
  obtain ⟨hinside, hany⟩ := Bool.and_eq_true_iff.mp hany
  obtain ⟨p, hp, hrun⟩ := (Option.any_eq_true _ _).mp hany
  obtain ⟨htrailing, hfault⟩ := Bool.and_eq_true_iff.mp hrun
  refine ⟨a, p, ?_, hp, by simpa using hinside, by simpa using htrailing, ?_⟩
  · cases hofText : ofText "() => 1 # \x7b\nraise ValueError('ran') # \x7d".toList with
    | error e =>
      rw [hofText] at ha
      cases ha
    | ok b =>
      rw [hofText] at ha
      rw [Option.some.inj ha]
  · split at hfault
    · rename_i f hf
      exact ⟨f, hf⟩
    · cases hfault

end LetTag.Arrow
