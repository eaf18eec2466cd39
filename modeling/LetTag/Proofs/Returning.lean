/-
  An expression as a body, and the block that returns it.

  The two bodies hold the same text, which is read once from the start and once behind `{ return `.
  There the reading knows of a brace that stands around the expression, and that is all: it agrees with
  the reading at the start (`agree_returning`), whatever brackets or quotes the expression leaves open.
  Nor does the brace behind the expression change what is marked before it (`Reading.Agree.weaveFrom_append`).
  So the marked block is the block of the marked expression, and both are laid out as the one line that
  returns it.
-/
import LetTag.Proofs.Accord
import LetTag.Proofs.KeptText
import LetTag.Proofs.TopLevel

namespace LetTag.Text

/-! ## Texts with something behind them -/

/-- A run of characters goes no further than a text that starts with another. -/
theorem takeWhile_append_of_head {p : Char → Bool} {t : List Char} (ht : t.head?.any p = false)
    (s : List Char) : (s ++ t).takeWhile p = s.takeWhile p := by
  induction s with
  | nil =>
    cases t with
    | nil => rfl
    | cons c t => exact List.takeWhile_cons_of_neg (Bool.eq_false_iff.mp ht)
  | cons c s ih => rw [List.cons_append, List.takeWhile_cons, List.takeWhile_cons, ih]

/-- What is behind the run keeps that text at its end. -/
theorem dropWhile_append_of_head {p : Char → Bool} {t : List Char} (ht : t.head?.any p = false)
    (s : List Char) : (s ++ t).dropWhile p = s.dropWhile p ++ t := by
  induction s with
  | nil =>
    cases t with
    | nil => rfl
    | cons c t => exact List.dropWhile_cons_of_neg (Bool.eq_false_iff.mp ht)
  | cons c s ih =>
    rw [List.cons_append, List.dropWhile_cons, List.dropWhile_cons, ih]
    split
    · rfl
    · rfl

section

variable {s : List Char} (h : trim s = s) {c : Char}
include h

/-- The first character of a trimmed text is no blank. -/
theorem not_blank_of_head? (hc : s.head? = some c) : isBlank c = false := by
  obtain ⟨-, -, -, -, -, hhead, -⟩ := trim_between s
  rw [h] at hhead
  exact hhead c hc

theorem not_blank_of_getLast? (hc : s.getLast? = some c) : isBlank c = false := by
  obtain ⟨-, -, -, -, -, -, hlast⟩ := trim_between s
  rw [h] at hlast
  exact hlast c hc

end

end LetTag.Text

namespace LetTag.Arrow

open Text Arrow.Reading

/-- A character that takes part in no word, no literal and no assignment. -/
def isInert (c : Char) : Bool :=
  !(isWord c || Quoting.isQuote c || c == '=')

/-- What is put around an expression holds no letters, quotes and equals signs. -/
theorem isInert_class {c : Char} (h : isInert c = true) :
    isWord c = false ∧ Quoting.isQuote c = false ∧ c ≠ '=' := by
  simp only [isInert, Bool.not_eq_true', Bool.or_eq_false_iff, beq_eq_false_iff_ne] at h
  exact ⟨h.1.1, h.1.2, h.2⟩

/-- What comes behind an assignment does not change that it is one. -/
theorem assigns_append (s : List Char) {t : List Char} (ht : '=' ∉ t) :
    assigns (s ++ t) = assigns s := by
  induction s with
  | nil => exact assigns_of_notMem ht
  | cons c s ih =>
    refine assigns_cons_congr c ih ?_
    cases s with
    | nil => exact iff_of_false (fun h => ht (List.mem_of_head? h)) nofun
    | cons d s => exact Iff.rfl

/-- A mask shows no characters that are not in the text, but for blanks. -/
theorem notMem_maskFrom {c : Char} (hc : c ≠ ' ') {s : List Char} (h : c ∉ s) :
    ∀ q : Quoting, c ∉ maskFrom q s := by
  induction s with
  | nil => exact fun _ => List.not_mem_nil
  | cons d s ih =>
    obtain ⟨hd, hs⟩ := List.ne_and_not_mem_of_not_mem_cons h
    intro q hm
    rcases List.mem_cons.mp hm with hm | hm
    · rcases shown_cases q d with hshown | hshown
      · exact hd (hm.trans hshown)
      · exact hc (hm.trans hshown)
    · exact ih hs _ hm

section

variable {f : List Char → List Char} {t : List Char} (ht : ∀ c ∈ t, isInert c = true)
include ht

theorem weaveFrom_inert : ∀ r : Reading, weaveFrom f r t = t := by
  induction t with
  | nil => exact fun _ => rfl
  | cons c t ih =>
    obtain ⟨hc, ht⟩ := List.forall_mem_cons.mp ht
    intro r
    rw [weaveFrom, isFree_of_not_word (isInert_class hc).1, ih ht]
    rfl

/-- **Inert text behind a body** is left alone and changes nothing before it, also for a reading that
    agrees. -/
theorem Reading.Agree.weaveFrom_append (s : List Char) : ∀ {r r' : Reading}, r.Agree r' →
    r.quoting.Valid → weaveFrom f r' (s ++ t) = weaveFrom f r s ++ t := by
  have hhead : t.head?.any isWord = false := by
    cases t with
    | nil => rfl
    | cons c t => exact (isInert_class (ht c List.mem_cons_self)).1
  have hequals : '=' ∉ t := fun hm => (isInert_class (ht _ hm)).2.2 rfl
  induction s with
  | nil => exact fun _ _ => weaveFrom_inert ht _
  | cons c s ih =>
    intro r r' h hr
    have hword : (c :: s ++ t).takeWhile isWord = (c :: s).takeWhile isWord :=
      takeWhile_append_of_head hhead (c :: s)
    have hfree : r'.isFree (c :: s ++ t) = r.isFree (c :: s) := by
      refine h.isFree_eq hr hword fun {q} _ => ?_
      rw [dropWhile_append_of_head hhead, maskFrom_append,
        assigns_append _ (notMem_maskFrom (by decide) hequals _)]
    have hliteral : Quoting.isQuote c = true → literalLength c (s ++ t) = literalLength c s := by
      intro hc
      refine literalLength_append_of_notMem hc s fun hm => ?_
      have hquote := (isInert_class (ht c (List.takeWhile_subset _ hm))).2.1
      rw [hc] at hquote
      cases hquote
    have hrest := ih (h.next hliteral) (hr.next c)
    rw [List.cons_append] at hword hfree ⊢
    rw [weaveFrom, weaveFrom, hword, hfree, hrest, List.append_assoc]
    rfl

end

/-! ## The body of the block -/

/-- Where the reading stands behind `{ return `. -/
def returning : Reading :=
  ⟨some ' ', 0, .outside, ['{'], some 'n'⟩

/-- It is the reading at the start, for all that matters to words. -/
theorem agree_returning : Reading.start.Agree returning where
  joined := rfl
  literal := rfl
  quoting := rfl
  brackets := ⟨['{'], by decide, rfl⟩
  shown := rfl

/-- The block that returns an expression. -/
def returnBody (e : List Char) : List Char :=
  "\x7b return ".toList ++ (e ++ " \x7d".toList)

/-- The closing brace is its last character. -/
theorem returnBody_eq (e : List Char) :
    returnBody e = "\x7b return ".toList ++ (e ++ [' ']) ++ ['\x7d'] := by
  rw [List.append_assoc, List.append_assoc]
  rfl

/-- A block that returns an expression has no blanks at its ends. -/
theorem trim_returnBody (e : List Char) : trim (returnBody e) = returnBody e := by
  rw [returnBody_eq]
  refine trim_behind (fun d hd => ?_) (by decide) []
  cases hd
  decide

/-- The content of the block is the word `return` with the expression. -/
theorem blockContent_returnBody (e : List Char) :
    blockContent (returnBody e) = " return ".toList ++ (e ++ [' ']) := by
  have hclose : trimRight (" return ".toList ++ (e ++ [' ']) ++ ['\x7d'])
      = " return ".toList ++ (e ++ [' ']) ++ ['\x7d'] :=
    trimRight_behind _ (by decide) []
  have hbody : returnBody e = '\x7b' :: (" return ".toList ++ (e ++ [' ']) ++ ['\x7d']) :=
    returnBody_eq e
  rw [hbody, blockContent_eq, hclose]
  exact (if_pos List.getLast?_concat).trans List.dropLast_concat

/-- **The marked block is the block of the marked expression**, unless `return` is a parameter. -/
theorem weave_returnBody {f : List Char → List Char} (hf : f "return".toList = []) (e : List Char) :
    weave f (returnBody e) = returnBody (weave f e) := by
  have hinert : ∀ c ∈ " \x7d".toList, isInert c = true := List.all_eq_true.mp (by decide)
  have hfront : weave f (returnBody e)
      = "\x7b return ".toList ++ weaveFrom f returning (e ++ " \x7d".toList) := by
    -- free or not, nothing is put in front of `return`
    obtain ⟨free, hword⟩ : ∃ free : Bool, weave f (returnBody e) = "\x7b ".toList
        ++ ((if free then f "return".toList else []) ++ ("return ".toList
          ++ weaveFrom f returning (e ++ " \x7d".toList))) := ⟨_, rfl⟩
    rw [hword, hf, ite_self]
    rfl
  rw [hfront, agree_returning.weaveFrom_append hinert e trivial]
  rfl

/-! ## What marking keeps -/

namespace Woven

variable {s t : List Char} (h : Woven s t) {c : Char}
include h

/-- A character of a marked text is a letter, or was there before. -/
theorem mem_cases (hc : c ∈ t) : isWord c = true ∨ c ∈ s := by
  induction h with
  | nil => exact Or.inr hc
  | keep d _ ih =>
    rcases List.mem_cons.mp hc with rfl | hc
    · exact Or.inr List.mem_cons_self
    · exact (ih hc).imp_right (List.mem_cons_of_mem d)
  | @front front d _ _ hfront _ _ ih =>
    rcases List.mem_append.mp hc with hc | hc
    · exact Or.inl (hfront c hc)
    · rcases List.mem_cons.mp hc with rfl | hc
      · exact Or.inr List.mem_cons_self
      · exact (ih hc).imp_right (List.mem_cons_of_mem d)

theorem head?_cases (hc : t.head? = some c) : isWord c = true ∨ s.head? = some c := by
  cases h with
  | nil => exact Or.inr hc
  | keep => exact Or.inr hc
  | @front front d _ _ hfront hd _ =>
    cases front with
    | nil => exact Or.inr hc
    | cons e front =>
      left
      rw [← Option.some.inj hc]
      exact hfront e List.mem_cons_self

theorem getLast?_eq : t.getLast? = s.getLast? := by
  induction h with
  | nil => rfl
  | keep d _ ih => rw [List.getLast?_cons, List.getLast?_cons, ih]
  | front _ _ _ ih => rw [List.getLast?_append, List.getLast?_cons, List.getLast?_cons, ih, Option.some_or]

/-- A trimmed text stays trimmed. -/
theorem trim_eq (hs : trim s = s) : trim t = t := by
  refine trim_of_ends (fun c hc => ?_) fun c hc => not_blank_of_getLast? hs (h.getLast?_eq ▸ hc)
  rcases h.head?_cases hc with hc | hc
  · exact (isWord_class hc).1
  · exact not_blank_of_head? hs hc

end Woven

/-! ## Both layouts -/

section

variable {e : List Char} (htrim : trim e = e) (hne : e ≠ [])
include htrim

/-- An expression becomes the line that returns it. -/
theorem layout_expression (hbrace : e.head? ≠ some '{') (hsemi : e.getLast? ≠ some ';') :
    layout e = margin ++ ("return ".toList ++ e) := by
  have hlast : ∀ c, e.getLast? = some c → (c == ';') = false := by
    intro c hc
    refine beq_false_of_ne ?_
    rintro rfl
    exact hsemi hc
  rw [layout, if_neg hbrace, expressionBody, dropEndWhile_of_last hlast, htrim, List.append_assoc]

include hne

/-- So does the block that returns it. -/
theorem layout_returnBody (hbreak : ∀ c ∈ e, isBreak c = false) :
    layout (returnBody e) = margin ++ ("return ".toList ++ e) := by
  have hplain : ∀ c ∈ " return ".toList ++ (e ++ [' ']), isBreak c = false := by
    have hreturn : " return ".toList.all (!isBreak ·) = true := by decide
    refine List.forall_mem_append.mpr ⟨fun c hc => ?_, List.forall_mem_append.mpr ⟨hbreak, ?_⟩⟩
    · simpa using List.all_eq_true.mp hreturn c hc
    · exact List.forall_mem_singleton.mpr rfl
  have hfeed : '\n' ∉ " return ".toList ++ (e ++ [' ']) := fun hm =>
    absurd (hplain _ hm) (by decide)
  -- the block is one line, which begins and ends with a space
  have hline : (" return ".toList ++ (e ++ [' '])).takeWhile (· ≠ '\n')
      = " return ".toList ++ (e ++ [' ']) :=
    List.takeWhile_eq_self_iff.mpr fun c hc => decide_eq_true fun he => hfeed (he ▸ hc)
  have hreturn : trim ("return ".toList ++ e) = "return ".toList ++ e := by
    refine trim_of_ends (fun c hc => ?_) fun c hc => ?_
    · cases hc
      decide
    · rw [List.getLast?_append_of_ne_nil _ hne] at hc
      exact not_blank_of_getLast? htrim hc
  have hfirst : trim (" return ".toList ++ (e ++ [' '])) = "return ".toList ++ e := by
    refine (trim_space _).trans ?_
    show trim ("return ".toList ++ (e ++ [' '])) = _
    rw [← List.append_assoc]
    exact trim_append hreturn (List.cons_ne_nil _ _) (List.forall_mem_singleton.mpr isBlank_space)
  rw [← hline] at hfirst
  obtain ⟨more, hbody, -, hmore⟩ := blockBody_first (blockContent_returnBody e)
    (by rw [hfirst]; exact List.cons_ne_nil _ _)
    (by rw [hline]; exact fun c hc => hplain c (mem_of_mem_trim hc))
  have hblock : layout (returnBody e) = blockBody (returnBody e) := layout_block _
  rw [hblock, hbody, hfirst, hmore hfeed, List.append_nil]

end

/-- **Both bodies have one layout**, when they are marked. -/
theorem layout_weave_returnBody {f : List Char → List Char}
    (hf : ∀ w, ∀ c ∈ f w, isWord c = true) (hreturn : f "return".toList = []) {e : List Char}
    (htrim : trim e = e) (hne : e ≠ []) (hbreak : ∀ c ∈ e, isBreak c = false)
    (hbrace : e.head? ≠ some '{') (hsemi : e.getLast? ≠ some ';') :
    layout (weave f (returnBody e)) = layout (weave f e) := by
  have hwoven : Woven e (weave f e) := woven_weaveFrom hf e .start
  have hmarked : weave f e ≠ [] := by
    intro hnil
    have hlast := hwoven.getLast?_eq
    rw [hnil] at hlast
    exact hne (List.getLast?_eq_none_iff.mp hlast.symm)
  have hhead : (weave f e).head? ≠ some '{' := by
    intro hc
    rcases hwoven.head?_cases hc with hc | hc
    · exact absurd hc (by decide)
    · exact hbrace hc
  have hplain : ∀ c ∈ weave f e, isBreak c = false := by
    intro c hc
    rcases hwoven.mem_cases hc with hc | hc
    · refine Bool.eq_false_iff.mpr fun h => ?_
      rw [isWord_of_isBlank (Script.isBlank_of_isBreak h)] at hc
      cases hc
    · exact hbreak c hc
  rw [weave_returnBody hreturn, layout_returnBody (hwoven.trim_eq htrim) hmarked hplain,
    layout_expression (hwoven.trim_eq htrim) hhead (hwoven.getLast?_eq ▸ hsemi)]

/-! ## Both definitions -/

/-- A definition: what is between the parentheses, and the body behind the arrow. -/
def definition (inner body : List Char) : List Char :=
  '(' :: (inner ++ (") => ".toList ++ body))

/-- A definition is taken apart into its parameters and its body. -/
theorem split?_definition {inner body : List Char} (hinner : ')' ∉ inner) (htrim : trim body = body)
    (hne : body ≠ []) : split? (trim (definition inner body)) = some (inner, body) := by
  have hwhole : trim (definition inner body) = definition inner body := by
    refine trim_of_ends (fun c hc => ?_) fun c hc => ?_
    · cases hc
      decide
    · rw [definition, ← List.append_assoc, ← List.cons_append,
        List.getLast?_append_of_ne_nil _ hne] at hc
      exact not_blank_of_getLast? htrim hc
  have hspace : ∀ c ∈ [' '], isBlank c = true := List.forall_mem_singleton.mpr isBlank_space
  have hleft : body = trimLeft (' ' :: body) := by
    obtain ⟨c, rest, rfl⟩ := List.exists_cons_of_ne_nil hne
    have hhead := trimLeft_of_head (s := rest) (not_blank_of_head? htrim rfl)
    exact ((trimLeft_append hspace (c :: rest)).trans hhead).symm
  rw [hwhole, split?_iff]
  exact ⟨[' '], ' ' :: body, rfl, hinner, hspace, hleft, hne⟩

/-- What a parameter is, between commas. -/
theorem isParameter_class {p : List Char} (hp : isParameter p = true) :
    ',' ∉ p ∧ trim p = p ∧ p ≠ [] := by
  have hword := isWord_of_parameter hp
  refine ⟨fun hm => absurd (hword _ hm) (by decide), ?_, ?_⟩
  · exact trim_of_ends (fun c hc => (isWord_class (hword c (List.mem_of_head? hc))).1)
      fun c hc => (isWord_class (hword c (List.mem_of_getLast? hc))).1
  · rintro rfl
    exact absurd hp (by decide)

/-- A blank in front of a list makes no difference to its trimmed pieces. -/
theorem map_trim_cut_space (s : List Char) : (cut ',' (' ' :: s)).map trim = (cut ',' s).map trim := by
  rw [cut, if_neg (by decide)]
  cases hpieces : cut ',' s with
  | nil => exact absurd hpieces (cut_ne_nil ',' s)
  | cons piece pieces => exact congrArg (· :: pieces.map trim) (trim_space piece)

/-- Parameters that are written with commas between them are read again. -/
theorem namesOf_join {ps : List (List Char)} (hps : ∀ p ∈ ps, isParameter p = true) :
    namesOf (join [',', ' '] ps) = ps := by
  have hpieces : ps ≠ [] → (cut ',' (join [',', ' '] ps)).map trim = ps := by
    induction ps with
    | nil => exact fun hne => absurd rfl hne
    | cons p ps ih =>
      intro _
      obtain ⟨hp, hrest⟩ := List.forall_mem_cons.mp hps
      obtain ⟨hcomma, htrim, -⟩ := isParameter_class hp
      cases ps with
      | nil => rw [join_singleton, cut_of_notMem hcomma, List.map_singleton, htrim]
      | cons q qs =>
        rw [join_cons_cons]
        show (cut ',' (p ++ ',' :: (' ' :: join [',', ' '] (q :: qs)))).map trim = _
        rw [cut_append hcomma, List.map_cons, map_trim_cut_space, htrim,
          ih hrest (List.cons_ne_nil q qs)]
  by_cases hne : ps = []
  · rw [hne]
    rfl
  · rw [namesOf, hpieces hne]
    exact filter_nonempty fun p hp => (isParameter_class (hps p hp)).2.2

/-- Between the parentheses stands nothing but what the names are made of, commas and blanks. -/
theorem notMem_of_namesOf {inner : List Char} (h : ∀ p ∈ namesOf inner, isParameter p = true) {z : Char}
    (hblank : isBlank z = false) (hword : isWord z = false) (hcomma : z ≠ ',') : z ∉ inner := by
  intro hz
  obtain ⟨piece, hpiece, hmem⟩ := (mem_cut_iff hcomma inner).mpr hz
  have htrim := (mem_trim_iff hblank piece).mpr hmem
  have hname : trim piece ∈ namesOf inner := by
    refine List.mem_filter.mpr ⟨List.mem_map.mpr ⟨piece, hpiece, rfl⟩, ?_⟩
    rw [Bool.not_eq_true', List.isEmpty_eq_false_iff]
    exact List.ne_nil_of_mem htrim
  rw [isWord_of_parameter (h _ hname) z htrim] at hword
  cases hword

/-- **A block that returns an expression is the expression.**  Whatever brackets and quotes the
    expression leaves open or closes too often, and however the parameters are written between the
    parentheses, the definition with the expression as its body and the one with the block stand for the
    same function: the same parameters, body and source.  The expression is trimmed, on one line, begins
    with no brace and ends with no semicolon, and no parameter is named `return`. -/
theorem ofText_returnBody {ps : List (List Char)} (hps : ∀ p ∈ ps, isParameter p = true)
    (hnodup : ps.Nodup) (hreturn : "return".toList ∉ ps) {e : List Char} (htrim : trim e = e)
    (hne : e ≠ []) (hbreak : ∀ c ∈ e, isBreak c = false) (hbrace : e.head? ≠ some '{')
    (hsemi : e.getLast? ≠ some ';') :
    namesOf (join [',', ' '] ps) = ps ∧ ∀ inner, namesOf inner = ps →
      ∃ a, ofText (definition inner e) = .ok a ∧ ofText (definition inner (returnBody e)) = .ok a
        ∧ a.parameters = ps := by
  refine ⟨namesOf_join hps, fun inner hnames => ?_⟩
  have hinner : ')' ∉ inner :=
    notMem_of_namesOf (hnames ▸ hps) (by decide) (by decide) (by decide)
  have hnone : marksFor ps "return".toList = [] :=
    marks_stay (show [] ++ "return".toList ∉ ps from hreturn)
  have hlayout := layout_weave_returnBody (isWord_marksFor ps) hnone htrim hne hbreak hbrace hsemi
  refine ⟨⟨ps, layout (weave (marksFor ps) e), sourceOf ps (layout (weave (marksFor ps) e))⟩,
    ofText_iff.mpr ⟨inner, e, split?_definition hinner htrim hne, hnames.symm, hnodup, hps, ?_, rfl⟩,
    ofText_iff.mpr ⟨inner, returnBody e, split?_definition hinner (trim_returnBody e)
      (List.cons_ne_nil _ _), hnames.symm, hnodup, hps, ?_, rfl⟩, rfl⟩
  · rw [htrim]
  · rw [trim_returnBody, hlayout]

/-- A name of an argument, a bracket that closes nothing and one that stays open, and a literal that is
    not closed. -/
theorem ofText_returnBody_open : ∃ a, ofText "(x) => f(x=x)] + ['x".toList = .ok a
    ∧ ofText "(x) => \x7b return f(x=x)] + ['x \x7d".toList = .ok a
    ∧ a.parameters = [['x']] ∧ a.body = "    return f(x=_p_x)] + ['_p_x".toList := by
  have hbreak : ∀ c ∈ "f(x=x)] + ['x".toList, isBreak c = false :=
    List.forall_mem_iff_getElem.mpr (by decide)
  have hps : ∀ p ∈ [['x']], isParameter p = true := by decide
  obtain ⟨hnames, hsame⟩ := ofText_returnBody hps (by decide) (by decide) (by decide) (by decide) hbreak
    (by decide) (by decide)
  obtain ⟨a, hexpression, hblock, hparameters⟩ := hsame ['x'] hnames
  have ha : ofText "(x) => f(x=x)] + ['x".toList = .ok
      ⟨[['x']], "    return f(x=_p_x)] + ['_p_x".toList,
        sourceOf [['x']] "    return f(x=_p_x)] + ['_p_x".toList⟩ := by
    rfl
  refine ⟨a, hexpression, hblock, hparameters, ?_⟩
  rw [← Except.ok.inj (ha.symm.trans hexpression)]

end LetTag.Arrow
