/-
  The literal of a text that is written as it is, and what is read if it is not closed.

  Between double quotes a character stands for itself if it is no quote and no backslash and ends no
  line (`IsRaw`).  A literal of such characters gives them back: as a value
  (`evaluate_raw`), and as what a function returns (`program_of_raw`).  A quote with such characters
  behind it up to the end of the line opens a literal that nothing closes (`LeavesOpen`); then no token
  begins there, and neither the value nor the function is read (`evaluate_of_leavesOpen`,
  `program_of_leavesOpen`).
-/
import LetTag.Literal
import LetTag.Proofs.Compilation
import LetTag.Proofs.Confinement

namespace LetTag

open Text

/-! ## Trimming -/

namespace Text

/-- Without the blanks at its end a text starts as before. -/
theorem trimRight_initial (s : List Char) : trimRight s <+: s := by
  obtain ⟨back, hs, -⟩ := trimRight_between s
  exact ⟨back, hs.symm⟩

/-- Only what stands behind the last character that is no blank is trimmed. -/
theorem trimRight_behind (w : List Char) {c : Char} (hc : isBlank c = false) (s : List Char) :
    trimRight (w ++ c :: s) = w ++ c :: trimRight s := by
  induction w with
  | nil =>
    rw [List.nil_append, trimRight_cons, if_neg fun h => Bool.eq_false_iff.mp hc h.2]
    rfl
  | cons d w ih =>
    rw [List.cons_append, trimRight_cons, ih, if_neg fun h => List.append_ne_nil_of_right_ne_nil w
      (List.cons_ne_nil c _) h.1, List.cons_append]

/-- Only the end of a text is trimmed if something stands in front of it. -/
theorem trim_behind {w : List Char} (hw : ∀ d ∈ w.head?, isBlank d = false) {c : Char}
    (hc : isBlank c = false) (s : List Char) : trim (w ++ c :: s) = w ++ c :: trimRight s := by
  have hleft : trimLeft (w ++ c :: s) = w ++ c :: s := by
    cases w with
    | nil => exact trimLeft_of_head hc
    | cons d w => exact trimLeft_of_head (hw d rfl)
  rw [trim, hleft, trimRight_behind w hc]

theorem isBlank_quote : isBlank '"' = false := by
  decide

/-- A text that starts with a quote is trimmed at its end only. -/
theorem trim_quote (s : List Char) : trim ('"' :: s) = '"' :: trimRight s :=
  trim_behind (w := []) nofun isBlank_quote s

end Text

/-! ## What stands behind a quote -/

/-- A character that stands for itself in a text between double quotes. -/
def IsRaw (c : Char) : Prop :=
  c ≠ '"' ∧ c ≠ '\\' ∧ isBreak c = false

/-- What stands behind a quote that is not closed on its line. -/
inductive LeavesOpen : List Char → Prop
  | ended : LeavesOpen []
  | feed {rest : List Char} : LeavesOpen ('\n' :: rest)
  | raw {c : Char} {rest : List Char} : IsRaw c → LeavesOpen rest → LeavesOpen (c :: rest)

theorem IsRaw.ne_feed {c : Char} (h : IsRaw c) : c ≠ '\n' := by
  rintro rfl
  cases h.2.2

theorem IsRaw.ne_return {c : Char} (h : IsRaw c) : c ≠ '\r' := by
  rintro rfl
  cases h.2.2

theorem LeavesOpen.of_raw {s : List Char} (h : ∀ c ∈ s, IsRaw c) : LeavesOpen s := by
  induction s with
  | nil => exact .ended
  | cons c s ih =>
    obtain ⟨hc, hs⟩ := List.forall_mem_cons.mp h
    exact .raw hc (ih hs)

/-- What leaves it open still does so behind more of the same. -/
theorem LeavesOpen.append {t u : List Char} (ht : LeavesOpen t) (hu : LeavesOpen u) :
    LeavesOpen (t ++ u) := by
  induction ht with
  | ended => exact hu
  | feed => exact .feed
  | raw hc _ ih => exact .raw hc ih

/-- The beginning of a text that is not closed is not closed. -/
theorem LeavesOpen.of_initial {s t : List Char} (h : LeavesOpen t) (hst : s <+: t) : LeavesOpen s := by
  induction h generalizing s with
  | ended =>
    rw [List.prefix_nil.mp hst]
    exact .ended
  | feed =>
    cases s with
    | nil => exact .ended
    | cons c s =>
      obtain ⟨rfl, -⟩ := List.cons_prefix_cons.mp hst
      exact .feed
  | raw hc _ ih =>
    cases s with
    | nil => exact .ended
    | cons c s =>
      obtain ⟨rfl, hrest⟩ := List.cons_prefix_cons.mp hst
      exact .raw hc (ih hrest)

/-- The first line of such a text is raw. -/
theorem LeavesOpen.firstLine {t : List Char} (h : LeavesOpen t) :
    ∀ c ∈ t.takeWhile (· ≠ '\n'), IsRaw c := by
  induction h with
  | ended => exact fun c hc => absurd hc List.not_mem_nil
  | feed => exact fun c hc => absurd hc List.not_mem_nil
  | @raw c rest hc _ ih =>
    rw [List.takeWhile_cons_of_pos (by simpa using hc.ne_feed)]
    exact List.forall_mem_cons.mpr ⟨hc, ih⟩

namespace Script

/-! ## The token -/

/-- A raw character belongs to the content, wherever the literal ends. -/
theorem untilClosed_step {c : Char} (hc : IsRaw c) (rest : List Char) :
    untilClosed ['"'] false (c :: rest)
      = (untilClosed ['"'] false rest).map fun found => (c :: found.1, found.2) := by
  have hquote : ¬ ['"'].isPrefixOf (c :: rest) = true := by
    intro h
    exact hc.1 (eq_of_beq (Bool.and_eq_true_iff.mp h).1).symm
  have hfeed : ¬ (c == '\n' && !false) = true := by simpa using hc.ne_feed
  rw [untilClosed_plain hc.2.1, if_neg hquote, if_neg hfeed]

theorem untilClosed_raw {s : List Char} (hs : ∀ c ∈ s, IsRaw c) (rest : List Char) :
    untilClosed ['"'] false (s ++ '"' :: rest) = some (s, rest) := by
  induction s with
  | nil =>
    rw [List.nil_append, untilClosed_plain (by decide)]
    rfl
  | cons c s ih =>
    obtain ⟨hc, hs⟩ := List.forall_mem_cons.mp hs
    rw [List.cons_append, untilClosed_step hc, ih hs]
    rfl

theorem untilClosed_of_leavesOpen {t : List Char} (h : LeavesOpen t) :
    untilClosed ['"'] false t = none := by
  induction h with
  | ended => rfl
  | feed =>
    rw [untilClosed_plain (by decide)]
    rfl
  | raw hc _ ih =>
    rw [untilClosed_step hc, ih]
    rfl

/-- Without backslashes there is nothing to replace. -/
theorem unescape_raw {s : List Char} (hs : ∀ c ∈ s, IsRaw c) : unescape true s = some s := by
  unfold unescape
  induction s with
  | nil => rfl
  | cons c s ih =>
    obtain ⟨hc, hs⟩ := List.forall_mem_cons.mp hs
    rw [List.length_cons, unescapeFrom, ih hs]
    · rfl
    · exact fun _ _ he => absurd he hc.2.1

/-- The reader of a token leaves a quote to the reader of literals. -/
theorem readToken_quote (rest : List Char) :
    readToken ('"' :: rest) = readLiteral ⟨false, false, false⟩ ('"' :: rest) := rfl

theorem readToken_raw {s : List Char} (hs : ∀ c ∈ s, IsRaw c) (rest : List Char)
    (hrest : rest.head? ≠ some '"') : readToken ('"' :: (s ++ '"' :: rest))
      = some (.text false [.text (String.ofList s)], rest) := by
  have hlong : ['"', '"', '"'].isPrefixOf ('"' :: (s ++ '"' :: rest)) = false := by
    refine Bool.eq_false_iff.mpr fun h => ?_
    obtain ⟨more, hmore⟩ := (isPrefixOf_quotes '"' _).mp h
    cases s with
    | nil => exact hrest (congrArg List.head? (List.cons.inj hmore).2)
    | cons c s => exact (hs c List.mem_cons_self).1 (List.cons.inj hmore).1
  have htoken : literalToken ⟨false, false, false⟩ s = some (.text false [.text (String.ofList s)]) := by
    unfold literalToken
    simp only [Bool.false_eq_true, if_false, unescape_raw hs]
    rfl
  rw [readToken_quote, readLiteral_eq, hlong]
  show (untilClosed ['"'] false (s ++ '"' :: rest)).bind _ = _
  rw [untilClosed_raw hs, Option.bind_some, htoken]
  rfl

theorem readToken_of_leavesOpen {t : List Char} (h : LeavesOpen t) : readToken ('"' :: t) = none := by
  have hlong : ['"', '"', '"'].isPrefixOf ('"' :: t) = false := by
    refine Bool.eq_false_iff.mpr fun hprefix => ?_
    obtain ⟨more, rfl⟩ := (isPrefixOf_quotes '"' _).mp hprefix
    cases h with
    | raw hc _ => exact hc.1 rfl
  rw [readToken_quote, readLiteral_eq, hlong]
  show (untilClosed ['"'] false t).bind _ = _
  rw [untilClosed_of_leavesOpen h]
  rfl

/-- No tokens are read from such a quote on. -/
theorem tokensFrom_of_leavesOpen {t : List Char} (h : LeavesOpen t) (n : Nat) (blocks : List Width)
    (depth : Nat) : tokensFrom n false blocks depth ('"' :: t) = none := by
  cases n with
  | zero => rfl
  | succ n =>
    rw [tokensFrom]
    · rw [readToken_of_leavesOpen h]
      rfl
    all_goals
      intros
      simp_all

/-! ## The value -/

theorem notMem_literal {z : Char} (hz : z ≠ '"') {s : List Char} (hs : z ∉ s) :
    z ∉ '"' :: (s ++ ['"']) := by
  simp [hz, hs]

/-- The only token of the literal of a raw text. -/
theorem tokens_of_raw {s : List Char} (hs : ∀ c ∈ s, IsRaw c) (hzero : '\x00' ∉ s) :
    tokens? ('"' :: (s ++ ['"'])) = some [.text false [.text (String.ofList s)], .newline] := by
  have hreturn := notMem_literal (z := '\r') (by decide) fun h => (hs _ h).ne_return rfl
  have hzero' := notMem_literal (z := '\x00') (by decide) hzero
  have hlength : ('"' :: (s ++ ['"'])).length + 2 = s.length + 2 + 1 + 1 := by
    rw [List.length_cons, List.length_append]
    rfl
  have htoken := readToken_raw hs [] (by simp)
  have hdepth : depthAfter? 0 (.text false [.text (String.ofList s)]) = some 0 := rfl
  have hline := tokensFrom_token (u := '"' :: (s ++ ['"'])) (r := []) (by simpa using htoken) hdepth
    [edge] (s.length + 2)
  rw [List.append_nil] at hline
  rw [tokens?_eq hreturn hzero', hlength, tokensFrom_line (c := '"') rfl (by decide) (by decide) rfl]
  show (tokensFrom (s.length + 2 + 1) false [edge] 0 _).map _ = _
  rw [hline]
  rfl

/-- Carriage returns read as line feeds close nothing. -/
theorem leavesOpen_unifyNewlines {t : List Char} (h : LeavesOpen t) : LeavesOpen (unifyNewlines t) := by
  induction h with
  | ended => exact .ended
  | feed => exact .feed
  | @raw c rest hc _ ih =>
    have hunify : unifyNewlines (c :: rest) = c :: unifyNewlines rest :=
      unifyNewlines_append (u := [c]) (fun h => hc.ne_return (List.mem_singleton.mp h).symm) rest
    rw [hunify]
    exact .raw hc ih

/-- No tokens are read where the quote is not closed. -/
theorem tokens_of_leavesOpen {t : List Char} (h : LeavesOpen t) : tokens? ('"' :: t) = none := by
  have hunify : unifyNewlines ('"' :: t) = '"' :: unifyNewlines t :=
    unifyNewlines_append (u := ['"']) (by decide) t
  unfold tokens?
  rw [hunify]
  dsimp only
  split
  · rfl
  · rw [tokensFrom_line (c := '"') rfl (by decide) (by decide) rfl,
      tokensFrom_of_leavesOpen (leavesOpen_unifyNewlines h)]
    rfl

/-- Raw text between quotes is an expression: the text itself. -/
theorem parse_of_raw {s : List Char} (hs : ∀ c ∈ s, IsRaw c) (hzero : '\x00' ∉ s) :
    Expr.parse? ('"' :: (s ++ ['"'])) = some (.constant (.text (String.ofList s))) := by
  have hread : expressions (fuelFor [.text false [.text (String.ofList s)], .newline])
      [.text false [.text (String.ofList s)], .newline]
        = some (.constant (.text (String.ofList s)), [.newline]) := rfl
  unfold Expr.parse?
  rw [tokens_of_raw hs hzero]
  dsimp only [Option.bind_eq_bind, Option.bind_some]
  rw [hread]
  rfl

/-! ## The function -/

/-- The line that returns what stands behind it. -/
def returning (text : List Char) : List Char :=
  Arrow.margin ++ "return ".toList ++ text

/-- What stands neither in the frame of such a function nor in the text is not in its source. -/
theorem notMem_source {z : Char} (hz : z ∉ '"' :: Arrow.sourceOf [] (returning [])) {s : List Char}
    (hs : z ∉ s) : z ∉ Arrow.sourceOf [] (returning ('"' :: (s ++ ['"']))) := by
  intro hmem
  unfold Arrow.sourceOf returning at hz hmem
  simp only [List.mem_append, List.mem_cons, List.not_mem_nil, or_false, not_or] at hz hmem
  tauto

/-- The program that returns a raw text. -/
theorem program_of_raw {s : List Char} (hs : ∀ c ∈ s, IsRaw c) (hzero : '\x00' ∉ s) :
    Program.parse? (Arrow.sourceOf [] (returning ('"' :: (s ++ ['"']))))
      = some ⟨.returning [] (.constant (.text (String.ofList s))), []⟩ := by
  let ms : List Lexeme := [⟨[], '"' :: (s ++ ['"']), .text false [.text (String.ofList s)]⟩]
  have hspell : spell ms [] = '"' :: (s ++ ['"']) := List.append_nil _
  have hspelled : Spelled ['\n'] 0 ms 0 := by
    have htoken := readToken_raw hs ['\n'] (by decide)
    refine .cons nofun ?_ rfl .nil
    show readToken (('"' :: (s ++ ['"'])) ++ ['\n']) = some (_, ['\n'])
    rwa [List.cons_append, List.append_assoc]
  have hreturn : '\r' ∉ Arrow.sourceOf [] (returning (spell ms [])) := by
    rw [hspell]
    exact notMem_source (by decide) fun h => (hs _ h).ne_return rfl
  have hzero' : '\x00' ∉ Arrow.sourceOf [] (returning (spell ms [])) := by
    rw [hspell]
    exact notMem_source (by decide) hzero
  have hnone : ∀ p ∈ ([] : List (List Char)), IsNamed (Arrow.parameterMark ++ p) := nofun
  have htokens := tokens_of_function hnone hspelled hreturn hzero'
  have hread : ∀ m, fuelFor (ms.map Lexeme.token ++ [.newline, .dedent]) ≤ m →
      expressions m (ms.map Lexeme.token ++ [.newline, .dedent])
        = some (.constant (.text (String.ofList s)), [.newline, .dedent]) := by
    intro m hm
    obtain ⟨k, rfl⟩ := Nat.exists_eq_add_of_le' hm
    rfl
  have hprogram := Program.parse?_function htokens rfl hread
  rw [hspell] at hprogram
  exact hprogram

/-- A function that returns what is not closed is no program. -/
theorem program_of_leavesOpen {t : List Char} (h : LeavesOpen t) :
    Program.parse? (Arrow.sourceOf [] (returning ('"' :: t))) = none := by
  cases hp : Program.parse? (Arrow.sourceOf [] (returning ('"' :: t))) with
  | none => rfl
  | some p =>
    exfalso
    have hnone : ∀ p ∈ ([] : List (List Char)), Arrow.isParameter p = true := nofun
    obtain ⟨-, -, n, -, more, -, hmore, -⟩ := program_of_sourceOf hnone hp
    have hline : unifyNewlines (returning ('"' :: t) ++ ['\n'])
        = Arrow.margin ++ ("return".toList ++ ' ' :: '"' :: unifyNewlines (t ++ ['\n'])) := by
      have hfront : '\r' ∉ returning ['"'] := by decide
      have hunify := unifyNewlines_append hfront (t ++ ['\n'])
      have hsplit : returning ('"' :: t) ++ ['\n'] = returning ['"'] ++ (t ++ ['\n']) := by
        simp [returning]
      rw [hsplit, hunify]
      rfl
    have hfeed : LeavesOpen ['\n'] := .feed
    have hopen := leavesOpen_unifyNewlines (h.append hfeed)
    rw [hline] at hmore
    generalize unifyNewlines (t ++ ['\n']) = u at hmore hopen
    -- the line opens a block, `return` is read, and behind the blank nothing is
    cases n with
    | zero => cases hmore
    | succ n =>
      rw [tokensFrom_line (c := 'r') rfl (by decide) (by decide) rfl] at hmore
      obtain ⟨more, hmore, -⟩ := Option.map_eq_some_iff.mp hmore
      cases n with
      | zero => cases hmore
      | succ n =>
        have hreturn : tokensFrom (n + 1) false [⟨4, 4⟩, edge] 0
            ("return".toList ++ ' ' :: '"' :: u)
              = (tokensFrom n false [⟨4, 4⟩, edge] 0 (' ' :: '"' :: u)).map
                (.keyword "return" :: ·) :=
          tokensFrom_token (t := .keyword "return") rfl rfl _ n
        obtain ⟨more, hmore, -⟩ := Option.map_eq_some_iff.mp (hreturn.symm.trans hmore)
        cases n with
        | zero => cases hmore
        | succ n =>
          have hblank : tokensFrom (n + 1) false [⟨4, 4⟩, edge] 0 (' ' :: '"' :: u)
              = tokensFrom n false [⟨4, 4⟩, edge] 0 ('"' :: u) := rfl
          rw [hblank, tokensFrom_of_leavesOpen hopen] at hmore
          cases hmore

end Script

theorem evaluate_raw {s : List Char} (hs : ∀ c ∈ s, IsRaw c) (hzero : '\x00' ∉ s) :
    evaluate ('"' :: (s ++ ['"'])) = .ok (.text (String.ofList s)) := by
  have htrim : trim ('"' :: (s ++ ['"'])) = '"' :: (s ++ ['"']) :=
    trim_behind (w := '"' :: s) (fun d hd => Option.some.inj hd ▸ isBlank_quote) isBlank_quote []
  unfold evaluate Literal.parse
  dsimp only
  rw [htrim, Script.parse_of_raw hs hzero]
  rfl

/-- What starts with a literal that is left open has no value. -/
theorem evaluate_of_leavesOpen {t : List Char} (h : LeavesOpen t) (v : Value) :
    evaluate ('"' :: t) ≠ .ok v := by
  unfold evaluate Literal.parse Script.Expr.parse?
  dsimp only
  rw [trim_quote, Script.tokens_of_leavesOpen (h.of_initial (trimRight_initial t))]
  exact nofun

end LetTag
