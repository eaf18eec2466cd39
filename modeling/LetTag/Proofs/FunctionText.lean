/-
  The tokens of the text of a function.

  The text of a function that returns a value is laid out in lexemes: a head line with the name and
  the parameters, and an indented line with the body.  `tokens_of_function` reads it.  The body stands
  in it as lexemes that are followed by the end of their line, so nothing has to be known about it
  but that it is spelled.
-/
import LetTag.Arrow
import LetTag.Proofs.Spelling

namespace LetTag.Script

open Text

/-! ## Texts without carriage returns -/

/-- Without carriage returns, all line ends are line feeds already. -/
theorem unifyNewlines_of_notMem {s : List Char} (h : '\r' ∉ s) : unifyNewlines s = s := by
  induction s with
  | nil => rfl
  | cons c s ih =>
    obtain ⟨hc, hs⟩ := not_or.mp (fun he => h (List.mem_cons.mpr he))
    have hne : c ≠ '\r' := fun he => hc he.symm
    rw [unifyNewlines, if_neg hne, ih hs]
    exact fun _ he => absurd he hne

/-- The reader on a text that has neither carriage returns nor the character zero. -/
theorem tokens?_eq {s : List Char} (hreturn : '\r' ∉ s) (hzero : '\x00' ∉ s) :
    tokens? s = tokensFrom (s.length + 2) true [⟨0, 0⟩] 0 s := by
  have hcontains : s.contains '\x00' = false := by simpa using hzero
  unfold tokens?
  rw [unifyNewlines_of_notMem hreturn]
  dsimp only
  rw [hcontains]
  rfl

/-! ## More about lexemes -/

/-- Two lists of lexemes are spelled one behind the other. -/
theorem spell_append_lexemes (ls ms : List Lexeme) (tail : List Char) :
    spell (ls ++ ms) tail = spell ls (spell ms tail) := by
  unfold spell
  rw [List.foldr_append]

theorem Spelled.append {tail : List Char} {ls ms : List Lexeme} {depth next last : Nat}
    (h : Spelled (spell ms tail) depth ls next) (hms : Spelled tail next ms last) :
    Spelled tail depth (ls ++ ms) last := by
  induction h with
  | nil => exact hms
  | @cons depth next last' l ls hgap hread hdepth _ ih =>
    refine .cons hgap ?_ hdepth (ih hms)
    show readToken (l.text ++ spell (ls ++ ms) tail) = some (l.token, spell (ls ++ ms) tail)
    rw [spell_append_lexemes]
    exact hread

/-- Lexemes take no more fuel than they have characters. -/
theorem Spelled.steps_le {tail : List Char} {ls : List Lexeme} {depth last : Nat}
    (h : Spelled tail depth ls last) : steps ls + tail.length ≤ (spell ls tail).length := by
  induction h with
  | nil => exact (Nat.zero_add _).le
  | @cons depth next last l ls _ hread _ _ ih =>
    have hne := (takes_of_readToken hread).nonempty
    have hlen : 0 < l.text.length := List.length_pos_iff.mpr hne
    rw [steps, spell_cons, List.length_append, List.length_append]
    omega

/-! ## The head of a function -/

/-- A name behind a gap. -/
def nameLexeme (gap w : List Char) : Lexeme :=
  ⟨gap, w, .name (String.ofList w)⟩

/-- A sign of one character, right behind what is before. -/
def signLexeme (c : Char) : Lexeme :=
  ⟨[], [c], .sign (String.ofList [c])⟩

/-- The parameters of a function, up to the closing bracket. -/
def parameterLexemes (gap : List Char) : List (List Char) → List Lexeme
  | [] => [signLexeme ')']
  | [w] => [nameLexeme gap w, signLexeme ')']
  | w :: v :: ws => nameLexeme gap w :: signLexeme ',' :: parameterLexemes [' '] (v :: ws)

/-- The head of a function. -/
def headLexemes (ws : List (List Char)) : List Lexeme :=
  ⟨[], "def".toList, .keyword "def"⟩ :: nameLexeme [' '] Arrow.functionName :: signLexeme '('
    :: (parameterLexemes [] ws ++ [signLexeme ':'])

/-- The lexemes of parameters spell them with commas between them, and the closing bracket. -/
theorem spell_parameterLexemes (gap : List Char) (ws : List (List Char)) (hgap : ws = [] → gap = [])
    (tail : List Char) :
    spell (parameterLexemes gap ws) tail = gap ++ (join [',', ' '] ws ++ ')' :: tail) := by
  induction ws generalizing gap with
  | nil =>
    rw [hgap rfl]
    rfl
  | cons w ws ih =>
    cases ws with
    | nil =>
      have hjoin : join [',', ' '] [w] = w := List.intercalate_singleton
      rw [hjoin]
      rfl
    | cons v ws =>
      have hrest := ih [' '] nofun
      rw [parameterLexemes, spell_cons, spell_cons, hrest]
      have hjoin : join [',', ' '] (w :: v :: ws) = w ++ (',' :: ' ' :: join [',', ' '] (v :: ws)) := by
        unfold join
        rw [List.intercalate_cons_cons]
        simp
      rw [hjoin]
      simp [nameLexeme, signLexeme]

/-- Where it ends, the word is read as a name. -/
def IsNamed (w : List Char) : Prop :=
  ∀ r : List Char, r.head?.any isWordTail = false →
    readToken (w ++ r) = some (.name (String.ofList w), r)

theorem isNamed_functionName : IsNamed Arrow.functionName := by
  intro r hr
  exact readToken_name (w := "_metadsl_fn__".toList) (by decide) (by decide)
    (by decide) hr

/-- A name with a gap in front of it is read if no letter follows it. -/
theorem spelled_name {tail gap w : List Char} {ls : List Lexeme} {depth last : Nat}
    (hgap : ∀ c ∈ gap, isGap depth c = true) (hw : IsNamed w)
    (hends : (spell ls tail).head?.any isWordTail = false) (h : Spelled tail depth ls last) :
    Spelled tail depth (nameLexeme gap w :: ls) last :=
  .cons hgap (hw _ hends) rfl h

/-- The parameters are read up to the closing bracket. -/
theorem spelled_parameterLexemes {gap : List Char} {ws : List (List Char)} (hgap : ∀ c ∈ gap, c = ' ')
    (hws : ∀ w ∈ ws, IsNamed w) (tail : List Char) :
    Spelled tail 1 (parameterLexemes gap ws) 0 := by
  have hclose : Spelled tail 1 [signLexeme ')'] 0 := .cons nofun rfl rfl .nil
  have hblank : ∀ {gap : List Char}, (∀ c ∈ gap, c = ' ') → ∀ c ∈ gap, isGap 1 c = true := by
    intro gap hgap c hc
    rw [hgap c hc]
    rfl
  induction ws generalizing gap with
  | nil => exact hclose
  | cons w ws ih =>
    have hw := hws w List.mem_cons_self
    cases ws with
    | nil => exact spelled_name (hblank hgap) hw rfl hclose
    | cons v ws =>
      have hspace : ∀ c ∈ [' '], c = ' ' := fun c hc => List.mem_singleton.mp hc
      have hrest := ih hspace fun u hu => hws u (List.mem_cons_of_mem w hu)
      exact spelled_name (hblank hgap) hw rfl (.cons nofun rfl rfl hrest)

/-- The reader finds the head of a function in front of the end of its line. -/
theorem spelled_headLexemes {ws : List (List Char)} (hws : ∀ w ∈ ws, IsNamed w) (rest : List Char) :
    Spelled ('\n' :: rest) 0 (headLexemes ws) 0 := by
  have hcolon : Spelled ('\n' :: rest) 0 [signLexeme ':'] 0 := .cons nofun rfl rfl .nil
  have hparameters : Spelled ('\n' :: rest) 1 (parameterLexemes [] ws ++ [signLexeme ':']) 0 :=
    .append (spelled_parameterLexemes (fun c hc => absurd hc List.not_mem_nil) hws _) hcolon
  have hopen : Spelled ('\n' :: rest) 0
      (signLexeme '(' :: (parameterLexemes [] ws ++ [signLexeme ':'])) 0 := .cons nofun rfl rfl hparameters
  have hspace : ∀ c ∈ [' '], isGap 0 c = true := by decide
  have hname := spelled_name hspace isNamed_functionName rfl hopen
  exact .cons nofun rfl rfl hname

/-- The tokens of the parameters are the parameters, up to the closing bracket. -/
theorem parameters_lexemes (gap : List Char) (ws : List (List Char)) (ts : List Token) :
    parameters ((parameterLexemes gap ws).map Lexeme.token ++ ts)
      = some (ws.map String.ofList, ts) := by
  induction ws generalizing gap with
  | nil => rfl
  | cons w ws ih =>
    cases ws with
    | nil => rfl
    | cons v ws =>
      have hrest := ih [' ']
      show parameters (.name (String.ofList w) :: .sign ","
        :: ((parameterLexemes [' '] (v :: ws)).map Lexeme.token ++ ts)) = _
      rw [parameters, hrest]
      rfl

/-! ## The whole text -/

theorem spell_headLexemes (ws : List (List Char)) (tail : List Char) :
    spell (headLexemes ws) tail = "def ".toList ++ (Arrow.functionName
      ++ ('(' :: (join [',', ' '] ws ++ ')' :: ':' :: tail))) := by
  have hparameters := spell_parameterLexemes [] ws (fun _ => rfl) (':' :: tail)
  rw [List.nil_append] at hparameters
  rw [headLexemes, spell_cons, spell_cons, spell_cons, spell_append_lexemes, ← hparameters]
  rfl

/-- The text of a function: its head in lexemes, and the lines of the body. -/
theorem sourceOf_eq_spell (ps : List (List Char)) (body : List Char) :
    Arrow.sourceOf ps body
      = spell (headLexemes (ps.map (Arrow.parameterMark ++ ·))) ('\n' :: (body ++ ['\n'])) := by
  have hcolon : ":\n".toList = [':', '\n'] := by decide
  have hclose : ")".toList = [')'] := by decide
  have happend : ∀ a b c d : List Char, a ++ b ++ '(' :: c ++ [')'] ++ [':', '\n'] ++ d ++ ['\n']
      = a ++ (b ++ ('(' :: (c ++ (')' :: ':' :: '\n' :: (d ++ ['\n']))))) := by
    intro a b c d
    simp only [List.append_assoc, List.cons_append, List.nil_append]
  rw [spell_headLexemes]
  unfold Arrow.sourceOf
  rw [hclose, hcolon]
  exact happend _ _ _ _

/-- That of a function that returns a value. -/
theorem sourceOf_eq (ps : List (List Char)) (ms : List Lexeme) :
    Arrow.sourceOf ps (Arrow.margin ++ "return ".toList ++ spell ms [])
      = spell (headLexemes (ps.map (Arrow.parameterMark ++ ·)))
        ('\n' :: (Arrow.margin ++ ("return".toList ++ ([' '] ++ spell ms ['\n'])))) := by
  have hbody : spell ms ['\n'] = spell ms [] ++ ['\n'] := spell_append ms [] ['\n']
  have hreturn : "return ".toList = "return".toList ++ [' '] := by decide
  rw [sourceOf_eq_spell, hbody, hreturn, List.append_assoc, List.append_assoc, List.append_assoc]

/-- A line that holds something: the tokens of its blanks, and those of the rest. -/
theorem tokensFrom_line {cs rest : List Char} {c : Char} {w : Width} {blocks inner : List Width}
    {ts : List Token} (h : measure cs = some (w, c :: rest)) (hcomment : c ≠ '#') (hfeed : c ≠ '\n')
    (hblocks : blockTokens w blocks = some (ts, inner)) (n depth : Nat) :
    tokensFrom (n + 1) true blocks depth cs
      = (tokensFrom n false inner depth (c :: rest)).map (ts ++ ·) := by
  rw [tokensFrom, h]
  dsimp only [Option.bind_eq_bind, Option.bind_some]
  split
  · rename_i hnil
    cases hnil
  · rename_i hcons
    cases hcons
    exact absurd rfl hcomment
  · rename_i hcons
    cases hcons
    exact absurd rfl hfeed
  · rw [hblocks]
    dsimp only [Option.bind_some]
    cases tokensFrom n false inner depth (c :: rest) with
    | none => rfl
    | some more => rfl

/-- The tokens of the head of a function, and those of the lines behind it. -/
theorem tokensFrom_head {ws : List (List Char)} (hws : ∀ w ∈ ws, IsNamed w) (rest : List Char)
    (n : Nat) :
    tokensFrom (n + 1 + steps (headLexemes ws) + 1) true [⟨0, 0⟩] 0
      (spell (headLexemes ws) ('\n' :: rest))
        = (tokensFrom n true [⟨0, 0⟩] 0 rest).map
          ((headLexemes ws).map Lexeme.token ++ .newline :: ·) := by
  have hfeed : tokensFrom (n + 1) false [⟨0, 0⟩] 0 ('\n' :: rest)
      = (tokensFrom n true [⟨0, 0⟩] 0 rest).map (.newline :: ·) := rfl
  have hstart : tokensFrom (n + 1 + steps (headLexemes ws) + 1) true [⟨0, 0⟩] 0
      (spell (headLexemes ws) ('\n' :: rest))
        = (tokensFrom (n + 1 + steps (headLexemes ws)) false [⟨0, 0⟩] 0
          (spell (headLexemes ws) ('\n' :: rest))).map ([] ++ ·) :=
    tokensFrom_line (c := 'd') rfl (by decide) (by decide) rfl _ 0
  rw [hstart, tokensFrom_spell (spelled_headLexemes hws rest), hfeed, Option.map_map, Option.map_map]
  rfl

/-- What the parser makes of a function and of what stands behind it. -/
theorem Program.parse?_of_tokens {cs : List Char} {ws : List (List Char)} {tokens ts : List Token}
    (htokens : tokens? cs = some tokens) (hhead : tokens = (headLexemes ws).map Lexeme.token ++ ts) :
    Program.parse? cs = (block (fuelFor tokens) ts).bind fun (body, rest) =>
      (statements (fuelFor tokens) rest).bind fun (trailing, rest) =>
        if rest.isEmpty && listWellPlaced true false body && listWellPlaced false false trailing then
          some ⟨⟨String.ofList Arrow.functionName, ws.map String.ofList, body⟩, trailing⟩
        else none := by
  have hparameters := parameters_lexemes [] ws (.sign ":" :: ts)
  have hcons : tokens = .keyword "def" :: .name (String.ofList Arrow.functionName) :: .sign "("
      :: ((parameterLexemes [] ws).map Lexeme.token ++ (.sign ":" :: ts)) := by
    rw [hhead, headLexemes, List.map_cons, List.map_cons, List.map_cons, List.map_append,
      List.cons_append, List.cons_append, List.cons_append, List.append_assoc]
    rfl
  unfold Program.parse?
  rw [htokens]
  dsimp only [Option.bind_eq_bind, Option.bind_some]
  generalize fuelFor tokens = fuel
  rw [hcons]
  show Option.bind (parameters _) _ = _
  rw [hparameters]
  rfl

/-- **The tokens of a function** whose body is spelled by lexemes. -/
theorem tokens_of_function {ps : List (List Char)} {ms : List Lexeme}
    (hps : ∀ p ∈ ps, IsNamed (Arrow.parameterMark ++ p)) (hms : Spelled ['\n'] 0 ms 0)
    (hreturn : '\r' ∉ Arrow.sourceOf ps (Arrow.margin ++ "return ".toList ++ spell ms []))
    (hzero : '\x00' ∉ Arrow.sourceOf ps (Arrow.margin ++ "return ".toList ++ spell ms [])) :
    tokens? (Arrow.sourceOf ps (Arrow.margin ++ "return ".toList ++ spell ms []))
      = some ((headLexemes (ps.map (Arrow.parameterMark ++ ·))).map Lexeme.token
        ++ (.newline :: .indent :: .keyword "return" :: (ms.map Lexeme.token
          ++ [.newline, .dedent]))) := by
  rw [tokens?_eq hreturn hzero, sourceOf_eq]
  have hws : ∀ w ∈ ps.map (Arrow.parameterMark ++ ·), IsNamed w := List.forall_mem_map.mpr hps
  generalize ps.map (Arrow.parameterMark ++ ·) = ws at hws
  -- the line that returns, and how much of the fuel each part takes
  have hline : ∀ n, tokensFrom (n + 2 + steps ms + 1 + 1) false [⟨4, 4⟩, ⟨0, 0⟩] 0
      ("return".toList ++ ([' '] ++ spell ms ['\n']))
        = some (.keyword "return" :: (ms.map Lexeme.token ++ [.newline, .dedent])) := by
    intro n
    rw [tokensFrom_token (t := .keyword "return") rfl rfl]
    have hspace : ∀ c ∈ [' '], isGap 0 c = true := by decide
    have hgap := tokensFrom_gap [⟨4, 4⟩, ⟨0, 0⟩] hspace (n + 2 + steps ms) (spell ms ['\n'])
    rw [show n + 2 + steps ms + 1 = n + 2 + steps ms + [' '].length from rfl, hgap,
      tokensFrom_spell hms]
    rfl
  generalize hrest : Arrow.margin ++ ("return".toList ++ ([' '] ++ spell ms ['\n'])) = rest
  have hindent : ∀ n, tokensFrom (n + 1) true [⟨0, 0⟩] 0 rest
      = (tokensFrom n false [⟨4, 4⟩, ⟨0, 0⟩] 0 ("return".toList ++ ([' '] ++ spell ms ['\n']))).map
        ([.indent] ++ ·) := by
    intro n
    rw [← hrest]
    exact tokensFrom_line (c := 'r') rfl (by decide) (by decide) rfl n 0
  obtain ⟨n, hn⟩ : ∃ n, (spell (headLexemes ws) ('\n' :: rest)).length + 2
      = n + 2 + steps ms + 1 + 1 + 1 + 1 + steps (headLexemes ws) + 1 := by
    have hlength := (spelled_headLexemes hws rest).steps_le
    have hlengthBody := hms.steps_le
    have hlengthRest : rest.length = 4 + ("return".toList.length + (1 + (spell ms ['\n']).length)) := by
      rw [← hrest, List.length_append, List.length_append, List.length_append]
      rfl
    have hreturn : "return".toList.length = 6 := by decide
    rw [List.length_cons] at hlength
    exact ⟨(spell (headLexemes ws) ('\n' :: rest)).length + 2
      - (2 + steps ms + 1 + 1 + 1 + 1 + steps (headLexemes ws) + 1), by omega⟩
  rw [hn, tokensFrom_head hws, hindent, hline]
  rfl

end LetTag.Script
