/-
  Which statements are accepted, said as a grammar.

  A statement is read by a few small readers: behind a keyword, behind blanks, a word.  Each of them
  is an equation between the text and its parts (`behindBlanks?_eq_some_iff` and its kind), and put
  together they say what the three forms look like (`IsSwitch`, `IsDefinition`, `IsTagging`).  The
  forms exclude one another by their first letter, so `Declaration.parse` recognizes exactly them.

  A statement is accepted if it has one of the forms and what it refers to is good: the expression of
  a definition is an arrow that compiles, a record whose fields are read, or a literal, and a tag is
  for an object that is there.  `accepts_iff` compares this with the effect of the statement; every
  other statement leaves the registry alone, and it leaves one diagnostic unless it ends the pass.
  The word behind `debug` only has to end there: what follows it is not looked at.
-/
import LetTag.Proofs.Completion
import Mathlib.Data.List.Basic

namespace LetTag

open Text

namespace Declaration

/-! ## The readers -/

/-- One blank or more. -/
def Spaces (s : List Char) : Prop :=
  s ≠ [] ∧ ∀ c ∈ s, isBlank c = true

/-- One word character or more. -/
def IsName (s : List Char) : Prop :=
  s ≠ [] ∧ ∀ c ∈ s, isWord c = true

theorem Spaces.head {gap : List Char} (h : Spaces gap) (rest : List Char) :
    ∀ c ∈ (gap ++ rest).head?, isWord c = false := by
  cases gap with
  | nil => exact absurd rfl h.1
  | cons b gap =>
    intro c hc
    rw [List.cons_append, List.head?_cons, Option.mem_some_iff] at hc
    exact hc ▸ isWord_of_isBlank (h.2 b List.mem_cons_self)

theorem IsName.head {w : List Char} (h : IsName w) (rest : List Char) :
    ∀ c ∈ (w ++ rest).head?, isBlank c = false := by
  cases w with
  | nil => exact absurd rfl h.1
  | cons b w =>
    intro c hc
    rw [List.cons_append, List.head?_cons, Option.mem_some_iff] at hc
    refine Bool.eq_false_iff.mpr fun hblank => ?_
    have hword := h.2 b List.mem_cons_self
    rw [hc, isWord_of_isBlank hblank] at hword
    cases hword

theorem behindWord?_eq_some_iff {start s rest : List Char} :
    behindWord? start s = some rest ↔ s = start ++ rest := by
  unfold behindWord?
  constructor
  · intro h
    split at h
    · rename_i hstart
      cases h
      exact (List.prefix_iff_eq_append.mp (List.isPrefixOf_iff_prefix.mp hstart)).symm
    · cases h
  · rintro rfl
    rw [if_pos (List.isPrefixOf_iff_prefix.mpr (List.prefix_append start rest)), List.drop_left]

theorem behindAnyCase?_eq_some_iff {start s rest : List Char} :
    behindAnyCase? start s = some rest ↔ ∃ word, word.map Char.toLower = start ∧ s = word ++ rest := by
  unfold behindAnyCase?
  constructor
  · intro h
    split at h
    · rename_i hstart
      cases h
      exact ⟨_, hstart, (List.take_append_drop _ s).symm⟩
    · cases h
  · rintro ⟨word, rfl, rfl⟩
    rw [List.length_map, List.take_left, if_pos rfl, List.drop_left]

/-- The blanks in front of a text, and the rest. -/
theorem trimLeft_eq_iff {s rest : List Char} : trimLeft s = rest ↔
    ∃ blanks, (∀ c ∈ blanks, isBlank c = true) ∧ (∀ c ∈ rest.head?, isBlank c = false)
      ∧ s = blanks ++ rest := by
  constructor
  · rintro rfl
    obtain ⟨front, hs, hfront, hhead⟩ := trimLeft_between s
    exact ⟨front, hfront, hhead, hs⟩
  · rintro ⟨blanks, hblanks, hhead, rfl⟩
    rw [trimLeft_append hblanks]
    cases rest with
    | nil => rfl
    | cons c rest => exact trimLeft_of_head (hhead c rfl)

/-- One blank at least is skipped, and all that follow it. -/
theorem behindBlanks?_eq_some_iff {s rest : List Char} : behindBlanks? s = some rest ↔
    ∃ gap, Spaces gap ∧ (∀ c ∈ rest.head?, isBlank c = false) ∧ s = gap ++ rest := by
  unfold behindBlanks?
  constructor
  · intro h
    split at h
    · rename_i hblank
      obtain ⟨gap, hgap, hhead, hs⟩ := trimLeft_eq_iff.mp (Option.some.inj h)
      refine ⟨gap, ⟨?_, hgap⟩, hhead, hs⟩
      rintro rfl
      -- without blanks in front, the text would start with its rest, which starts with no blank
      rw [hs, List.nil_append] at hblank
      obtain ⟨c, hc, hcblank⟩ := (Option.any_eq_true _ _).mp hblank
      rw [hhead c hc] at hcblank
      cases hcblank
    · cases h
  · rintro ⟨gap, ⟨hne, hgap⟩, hhead, rfl⟩
    have hfirst : (gap ++ rest).head?.any isBlank = true := by
      cases gap with
      | nil => exact absurd rfl hne
      | cons b gap => exact hgap b List.mem_cons_self
    rw [if_pos hfirst, trimLeft_eq_iff.mpr ⟨gap, hgap, hhead, rfl⟩]

theorem word?_eq_some_iff {s w rest : List Char} : word? s = some (w, rest) ↔
    IsName w ∧ (∀ c ∈ rest.head?, isWord c = false) ∧ s = w ++ rest := by
  unfold word?
  constructor
  · intro h
    split at h
    · cases h
    · rename_i hne
      cases h
      have hnot := List.head?_dropWhile_not isWord s
      refine ⟨⟨hne, List.all_eq_true.mp List.all_takeWhile⟩, ?_, List.takeWhile_append_dropWhile.symm⟩
      intro c hc
      rw [Option.mem_def.mp hc] at hnot
      exact hnot
  · rintro ⟨⟨hne, hw⟩, hrest, rfl⟩
    have hstop : rest.takeWhile isWord = [] ∧ rest.dropWhile isWord = rest := by
      cases rest with
      | nil => exact ⟨rfl, rfl⟩
      | cons c rest =>
        have hc : ¬ isWord c = true := Bool.eq_false_iff.mp (hrest c rfl)
        exact ⟨List.takeWhile_cons_of_neg hc, List.dropWhile_cons_of_neg hc⟩
    rw [List.takeWhile_append_of_pos hw, List.dropWhile_append_of_pos hw, hstop.1, hstop.2,
      List.append_nil]
    split
    · contradiction
    · rfl

/-! ## The forms -/

/-- The word that a switch ends with. -/
def switchWord (on : Bool) : List Char :=
  if on then "on".toList else "off".toList

/-- `debug on` or `debug off` in any case, and whatever starts with no word character. -/
def IsSwitch (s : List Char) (on : Bool) : Prop :=
  ∃ word gap state rest, word.map Char.toLower = "debug".toList ∧ Spaces gap
    ∧ state.map Char.toLower = switchWord on ∧ (∀ c ∈ rest.head?, isWord c = false)
    ∧ s = word ++ (gap ++ (state ++ rest))

/-- `let <id> = <expr>`. -/
def IsDefinition (s id expr : List Char) : Prop :=
  ∃ gap blanks rest, Spaces gap ∧ IsName id ∧ (∀ c ∈ blanks, isBlank c = true)
    ∧ trim rest = expr ∧ expr ≠ []
    ∧ s = "let".toList ++ (gap ++ (id ++ (blanks ++ '=' :: rest)))

/-- `tag <id> as <list>`. -/
def IsTagging (s id list : List Char) : Prop :=
  ∃ gap before behind, Spaces gap ∧ IsName id ∧ Spaces before ∧ Spaces behind
    ∧ list ≠ [] ∧ (∀ c ∈ list.head?, isBlank c = false)
    ∧ s = "tag".toList ++ (gap ++ (id ++ (before ++ ("as".toList ++ (behind ++ list)))))

/-- No blank is a capital or small form of the letter that a switch ends with. -/
theorem toLower_of_isBlank {c : Char} (h : isBlank c = true) : c.toLower ≠ 'o' :=
  of_isBlank (p := fun c => c.toLower ≠ 'o') (by decide) h

/-- A text ends where no word character follows. -/
theorem ends_iff (t : List Char) :
    (!t.head?.any isWord) = true ↔ ∀ c ∈ t.head?, isWord c = false := by
  cases t with
  | nil => simp
  | cons c t => simp

/-- The word of a switch is one in any case, with no letter behind it. -/
theorem behindSwitch_iff (on : Bool) (rest : List Char) :
    (behindAnyCase? (switchWord on) rest).any (fun t => !t.head?.any isWord) = true ↔
      ∃ state t, state.map Char.toLower = switchWord on ∧ (∀ c ∈ t.head?, isWord c = false)
        ∧ rest = state ++ t := by
  rw [Option.any_eq_true]
  constructor
  · rintro ⟨t, ht, hends⟩
    obtain ⟨state, hstate, hrest⟩ := behindAnyCase?_eq_some_iff.mp ht
    exact ⟨state, t, hstate, (ends_iff t).mp hends, hrest⟩
  · rintro ⟨state, t, hstate, hends, hrest⟩
    exact ⟨t, behindAnyCase?_eq_some_iff.mpr ⟨state, hstate, hrest⟩, (ends_iff t).mpr hends⟩

/-- A text starts with one of the two words at most: their second letters differ. -/
theorem switchWord_unique {a b : Bool} {state state' t t' : List Char}
    (h : state.map Char.toLower = switchWord a) (h' : state'.map Char.toLower = switchWord b)
    (heq : state ++ t = state' ++ t') : a = b := by
  have hsecond : ∀ (c : Bool) (w u : List Char), w.map Char.toLower = switchWord c →
      ((w ++ u)[1]?).map Char.toLower = some (if c then 'n' else 'f') := by
    intro c w u hw
    have hlt : 1 < w.length := by
      rw [← List.length_map (f := Char.toLower), hw]
      cases c with
      | false => decide
      | true => decide
    rw [List.getElem?_append_left hlt, ← List.getElem?_map, hw]
    cases c with
    | false => rfl
    | true => rfl
  have hboth := (hsecond a state t h).symm.trans (heq ▸ hsecond b state' t' h')
  cases a with
  | false => cases b with
    | false => rfl
    | true => exact absurd hboth (by decide)
  | true => cases b with
    | false => exact absurd hboth (by decide)
    | true => rfl

/-- **When a statement is a switch**, and which way it switches. -/
theorem debugSwitch?_eq_some_iff {s : List Char} {on : Bool} :
    debugSwitch? s = some on ↔ IsSwitch s on := by
  constructor
  · intro h
    unfold debugSwitch? at h
    obtain ⟨rest, hword, h₁⟩ := Option.bind_eq_some_iff.mp h
    obtain ⟨rest', hgap, hread⟩ := Option.bind_eq_some_iff.mp h₁
    obtain ⟨word, hlower, rfl⟩ := behindAnyCase?_eq_some_iff.mp hword
    obtain ⟨gap, hspaces, -, rfl⟩ := behindBlanks?_eq_some_iff.mp hgap
    have hstate : ∃ state t, state.map Char.toLower = switchWord on
        ∧ (∀ c ∈ t.head?, isWord c = false) ∧ rest' = state ++ t := by
      dsimp only at hread
      split at hread
      · rename_i hon
        cases hread
        exact (behindSwitch_iff true rest').mp hon
      · split at hread
        · rename_i hoff
          cases hread
          exact (behindSwitch_iff false rest').mp hoff
        · cases hread
    obtain ⟨state, t, hstate, hends, rfl⟩ := hstate
    exact ⟨word, gap, state, t, hlower, hspaces, hstate, hends, rfl⟩
  · rintro ⟨word, gap, state, t, hlower, hspaces, hstate, hends, rfl⟩
    have hhead : ∀ c ∈ (state ++ t).head?, isBlank c = false := by
      cases state with
      | nil => cases on with
        | false => cases hstate
        | true => cases hstate
      | cons b state =>
        intro c hc
        rw [List.cons_append, List.head?_cons, Option.mem_some_iff] at hc
        refine hc ▸ Bool.eq_false_iff.mpr fun hblank => toLower_of_isBlank hblank ?_
        cases on with
        | false => exact (List.cons.inj hstate).1
        | true => exact (List.cons.inj hstate).1
    have hbehind := (behindSwitch_iff on (state ++ t)).mpr ⟨state, t, hstate, hends, rfl⟩
    unfold debugSwitch?
    rw [behindAnyCase?_eq_some_iff.mpr ⟨word, hlower, rfl⟩]
    simp only [Option.bind_eq_bind, Option.bind_some,
      behindBlanks?_eq_some_iff.mpr ⟨gap, hspaces, hhead, rfl⟩]
    cases on with
    | true => exact if_pos hbehind
    | false =>
      -- the other word, which is tried first, is not there
      have hnot : ¬ (behindAnyCase? (switchWord true) (state ++ t)).any
          (fun t => !t.head?.any isWord) = true := by
        intro hon
        obtain ⟨state', t', hstate', -, heq⟩ := (behindSwitch_iff true _).mp hon
        exact Bool.noConfusion (switchWord_unique hstate hstate' heq)
      exact (if_neg hnot).trans (if_pos hbehind)

/-- **When a statement is a definition**, of which id and with which expression. -/
theorem definition?_eq_some_iff {s id expr : List Char} :
    definition? s = some (id, expr) ↔ IsDefinition s id expr := by
  constructor
  · intro h
    unfold definition? at h
    obtain ⟨rest, hlet, h₁⟩ := Option.bind_eq_some_iff.mp h
    obtain ⟨rest', hgap, h₂⟩ := Option.bind_eq_some_iff.mp h₁
    obtain ⟨⟨w, rest''⟩, hname, hread⟩ := Option.bind_eq_some_iff.mp h₂
    obtain rfl := behindWord?_eq_some_iff.mp hlet
    obtain ⟨gap, hspaces, -, rfl⟩ := behindBlanks?_eq_some_iff.mp hgap
    obtain ⟨hw, -, rfl⟩ := word?_eq_some_iff.mp hname
    dsimp only at hread
    split at hread
    · rename_i tail hequals
      obtain ⟨blanks, hblanks, -, rfl⟩ := trimLeft_eq_iff.mp hequals
      split at hread
      · cases hread
      · rename_i hne
        cases hread
        exact ⟨gap, blanks, tail, hspaces, hw, hblanks, rfl, fun h' => hne (List.isEmpty_iff.mpr h'),
          rfl⟩
    · cases hread
  · rintro ⟨gap, blanks, tail, hspaces, hw, hblanks, rfl, hne, rfl⟩
    have hequals : trimLeft (blanks ++ '=' :: tail) = '=' :: tail :=
      trimLeft_eq_iff.mpr ⟨blanks, hblanks, by simp; decide, rfl⟩
    have hend : ∀ c ∈ (blanks ++ '=' :: tail).head?, isWord c = false := by
      cases blanks with
      | nil => simp; decide
      | cons b blanks => exact Spaces.head ⟨List.cons_ne_nil b blanks, hblanks⟩ _
    unfold definition?
    rw [behindWord?_eq_some_iff.mpr rfl]
    simp only [Option.bind_eq_bind, Option.bind_some,
      behindBlanks?_eq_some_iff.mpr ⟨gap, hspaces, hw.head _, rfl⟩,
      word?_eq_some_iff.mpr ⟨hw, hend, rfl⟩, hequals]
    exact if_neg fun h' => hne (List.isEmpty_iff.mp h')

/-- **When a statement is a tagging**, of which id and with which list. -/
theorem tagging?_eq_some_iff {s id list : List Char} :
    tagging? s = some (id, list) ↔ IsTagging s id list := by
  constructor
  · intro h
    unfold tagging? at h
    obtain ⟨rest₁, htag, h₁⟩ := Option.bind_eq_some_iff.mp h
    obtain ⟨rest₂, hgap, h₂⟩ := Option.bind_eq_some_iff.mp h₁
    obtain ⟨⟨w, rest₃⟩, hname, h₃⟩ := Option.bind_eq_some_iff.mp h₂
    obtain ⟨rest₄, hbefore, h₄⟩ := Option.bind_eq_some_iff.mp h₃
    obtain ⟨rest₅, has, h₅⟩ := Option.bind_eq_some_iff.mp h₄
    obtain ⟨tail, hbehind, hread⟩ := Option.bind_eq_some_iff.mp h₅
    obtain rfl := behindWord?_eq_some_iff.mp htag
    obtain ⟨gap, hspaces, -, rfl⟩ := behindBlanks?_eq_some_iff.mp hgap
    obtain ⟨hw, -, rfl⟩ := word?_eq_some_iff.mp hname
    obtain ⟨before, hb, -, rfl⟩ := behindBlanks?_eq_some_iff.mp hbefore
    obtain rfl := behindWord?_eq_some_iff.mp has
    obtain ⟨behind, hb', hhead, rfl⟩ := behindBlanks?_eq_some_iff.mp hbehind
    split at hread
    · cases hread
    · rename_i hne
      cases hread
      exact ⟨gap, before, behind, hspaces, hw, hb, hb', fun h' => hne (List.isEmpty_iff.mpr h'),
        hhead, rfl⟩
  · rintro ⟨gap, before, behind, hspaces, hw, hb, hb', hne, hhead, rfl⟩
    have has : IsName "as".toList := by
      constructor
      · decide
      · decide
    unfold tagging?
    rw [behindWord?_eq_some_iff.mpr rfl]
    simp only [Option.bind_eq_bind, Option.bind_some,
      behindBlanks?_eq_some_iff.mpr ⟨gap, hspaces, hw.head _, rfl⟩,
      word?_eq_some_iff.mpr ⟨hw, hb.head _, rfl⟩,
      behindBlanks?_eq_some_iff.mpr ⟨before, hb, has.head _, rfl⟩,
      behindWord?_eq_some_iff.mpr rfl, behindBlanks?_eq_some_iff.mpr ⟨behind, hb', hhead, rfl⟩]
    exact if_neg fun h' => hne (List.isEmpty_iff.mp h')

/-! ## The forms are told apart by their first letter -/

theorem IsDefinition.head {s id expr : List Char} (h : IsDefinition s id expr) :
    s.head? = some 'l' := by
  obtain ⟨gap, blanks, rest, -, -, -, -, -, rfl⟩ := h
  rfl

theorem IsTagging.head {s id list : List Char} (h : IsTagging s id list) : s.head? = some 't' := by
  obtain ⟨gap, before, behind, -, -, -, -, -, -, rfl⟩ := h
  rfl

theorem IsSwitch.head {s : List Char} {on : Bool} (h : IsSwitch s on) :
    s.head?.map Char.toLower = some 'd' := by
  obtain ⟨word, gap, state, rest, hword, -, -, -, rfl⟩ := h
  cases word with
  | nil => cases hword
  | cons c word => exact congrArg some (List.cons.inj hword).1

/-- A text that starts with another letter is no switch. -/
theorem debugSwitch?_eq_none {s : List Char} {c : Char} (h : s.head? = some c)
    (hc : c.toLower ≠ 'd') : debugSwitch? s = none := by
  cases hs : debugSwitch? s with
  | none => rfl
  | some on =>
    have hhead := (debugSwitch?_eq_some_iff.mp hs).head
    rw [h] at hhead
    exact absurd (Option.some.inj hhead) hc

theorem parse_of_switch {s : List Char} {on : Bool} (h : IsSwitch s on) : parse s = .debug on := by
  rw [parse, debugSwitch?_eq_some_iff.mpr h]

/-- A definition is read as one, with its id and its expression. -/
theorem parse_of_definition {s id expr : List Char} (h : IsDefinition s id expr) :
    parse s = .define (String.ofList id) expr := by
  have hlet : "let".toList.isPrefixOf s = true := by
    obtain ⟨gap, blanks, rest, -, -, -, -, -, rfl⟩ := h
    exact List.isPrefixOf_iff_prefix.mpr (List.prefix_append _ _)
  rw [parse, debugSwitch?_eq_none h.head (by decide)]
  dsimp only
  rw [if_pos hlet, definition?_eq_some_iff.mpr h]

/-- A statement that defines a name by an expression with a space on each side of the sign. -/
theorem isDefinition_let {id : List Char} (hid : IsName id) {text : List Char}
    (hne : trim text ≠ []) :
    IsDefinition ("let ".toList ++ (id ++ (" = ".toList ++ text))) id (trim text) :=
  have hspace : ∀ c ∈ [' '], isBlank c = true := List.forall_mem_singleton.mpr (by decide)
  ⟨[' '], [' '], ' ' :: text, ⟨List.cons_ne_nil _ _, hspace⟩, hid, hspace, trim_space text, hne,
    by simp⟩

/-- A tagging is read as one, with its id and its tags. -/
theorem parse_of_tagging {s id list : List Char} (h : IsTagging s id list) :
    parse s = .tag (String.ofList id) (tagList list) := by
  have htag : "tag".toList.isPrefixOf s = true := by
    obtain ⟨gap, before, behind, -, -, -, -, -, -, rfl⟩ := h
    exact List.isPrefixOf_iff_prefix.mpr (List.prefix_append _ _)
  have hlet : ¬ "let".toList.isPrefixOf s = true := by
    intro hlet
    obtain ⟨rest, hrest⟩ := List.isPrefixOf_iff_prefix.mp hlet
    have hhead := h.head
    rw [← hrest] at hhead
    exact absurd (Option.some.inj hhead) (by decide)
  rw [parse, debugSwitch?_eq_none h.head (by decide)]
  dsimp only
  rw [if_neg hlet, if_pos htag, tagging?_eq_some_iff.mpr h]

/-- The form of the statements that say something; malformed ones have any. -/
def HasForm (s : List Char) : Declaration → Prop
  | debug on => IsSwitch s on
  | define id expr => ∃ w, id = String.ofList w ∧ IsDefinition s w expr
  | tag id tags => ∃ w list, id = String.ofList w ∧ tags = tagList list ∧ IsTagging s w list
  | malformed _ => True

/-- Whatever a statement is read as, it has that form. -/
theorem hasForm_parse (s : List Char) : HasForm s (parse s) := by
  unfold parse
  cases hs : debugSwitch? s with
  | some on => exact debugSwitch?_eq_some_iff.mp hs
  | none =>
    dsimp only
    split
    · cases hd : definition? s with
      | none => trivial
      | some d => exact ⟨d.1, rfl, definition?_eq_some_iff.mp hd⟩
    · split
      · cases ht : tagging? s with
        | none => trivial
        | some t => exact ⟨t.1, t.2, rfl, rfl, tagging?_eq_some_iff.mp ht⟩
      · trivial

end Declaration

open Declaration

/-! ## What a definition can define -/

/-- `object(<args>)`. -/
def IsRecordCall (expr args : List Char) : Prop :=
  ∃ gap, (∀ c ∈ gap, isBlank c = true) ∧ expr = "object".toList ++ (gap ++ '(' :: (args ++ [')']))

/-- When an expression is the call of a record, and with which arguments. -/
theorem recordArguments?_eq_some_iff {expr args : List Char} :
    recordArguments? expr = some args ↔ IsRecordCall expr args := by
  constructor
  · intro h
    unfold recordArguments? at h
    obtain ⟨rest, hobject, hread⟩ := Option.bind_eq_some_iff.mp h
    obtain rfl := behindWord?_eq_some_iff.mp hobject
    split at hread
    · rename_i tail hopen
      obtain ⟨gap, hgap, -, rfl⟩ := trimLeft_eq_iff.mp hopen
      split at hread
      · rename_i hclose
        cases hread
        exact ⟨gap, hgap, by rw [List.dropLast_append_getLast? ')' hclose]⟩
      · cases hread
    · cases hread
  · rintro ⟨gap, hgap, rfl⟩
    have hopen : trimLeft (gap ++ '(' :: (args ++ [')'])) = '(' :: (args ++ [')']) :=
      trimLeft_eq_iff.mpr ⟨gap, hgap, by simp; decide, rfl⟩
    unfold recordArguments?
    rw [behindWord?_eq_some_iff.mpr rfl]
    simp only [Option.bind_eq_bind, Option.bind_some, hopen]
    rw [if_pos List.getLast?_concat, List.dropLast_concat]

/-- The expressions that a definition accepts: an arrow that compiles, a record whose fields are
    read and whose keys can be names, and the literal of a value. -/
inductive IsDefinable (id : String) (expr : List Char) : Prop where
  | arrow (c : Closure) : occursUnquoted expr "=>".toList = true →
    Closure.compile id expr = .ok c → IsDefinable id expr
  | record (args : List Char) (fields : List (Value × Value)) :
    occursUnquoted expr "=>".toList = false → IsRecordCall expr args →
    readFields args = .ok fields → Value.entriesNameable fields = true → IsDefinable id expr
  | literal (v : Value) : occursUnquoted expr "=>".toList = false →
    (∀ args, ¬ IsRecordCall expr args) → evaluate expr = .ok v → IsDefinable id expr

theorem IsDefinable.exists_define {id : String} {expr : List Char} (h : IsDefinable id expr)
    (settings : Settings) : ∃ e, define settings id expr = .ok e := by
  unfold define
  cases h with
  | arrow c harrow hc =>
    rw [if_pos harrow, hc]
    exact ⟨_, rfl⟩
  | record args fields harrow hcall hfields hnameable =>
    rw [if_neg (Bool.eq_false_iff.mp harrow), recordArguments?_eq_some_iff.mpr hcall]
    dsimp only
    rw [hfields]
    dsimp only [Entity.build]
    rw [if_pos hnameable]
    exact ⟨_, rfl⟩
  | literal v harrow hcall hv =>
    have hnone : recordArguments? expr = none :=
      Option.eq_none_iff_forall_ne_some.mpr fun args h =>
        hcall args (recordArguments?_eq_some_iff.mp h)
    rw [if_neg (Bool.eq_false_iff.mp harrow), hnone]
    dsimp only
    rw [hv]
    exact ⟨_, rfl⟩

/-- Only good expressions define an object. -/
theorem isDefinable_of_define {settings : Settings} {id : String} {expr : List Char} {e : Entity}
    (he : define settings id expr = .ok e) : IsDefinable id expr := by
  unfold define at he
  split at he
  · rename_i harrow
    cases hc : Closure.compile id expr with
    | ok c => exact .arrow c harrow hc
    | error x =>
      rw [hc] at he
      cases he
  · rename_i harrow
    cases hcall : recordArguments? expr with
    | some args =>
      rw [hcall] at he
      dsimp only at he
      cases hfields : readFields args with
      | error x =>
        rw [hfields] at he
        cases he
      | ok fields =>
        rw [hfields] at he
        dsimp only [Entity.build] at he
        cases hnameable : Value.entriesNameable fields with
        | true =>
          exact .record args fields (Bool.eq_false_iff.mpr harrow)
            (recordArguments?_eq_some_iff.mp hcall) hfields hnameable
        | false =>
          rw [hnameable] at he
          cases he
    | none =>
      rw [hcall] at he
      dsimp only at he
      cases hv : evaluate expr with
      | ok v =>
        refine .literal v (Bool.eq_false_iff.mpr harrow) (fun args h => ?_) hv
        rw [recordArguments?_eq_some_iff.mpr h] at hcall
        cases hcall
      | error x =>
        rw [hv] at he
        cases he

/-- **Which expressions define an object**, whatever the settings. -/
theorem isDefinable_iff (settings : Settings) (id : String) (expr : List Char) :
    IsDefinable id expr ↔ ∃ e, define settings id expr = .ok e :=
  ⟨fun h => h.exists_define settings, fun ⟨_, he⟩ => isDefinable_of_define he⟩

/-- A definition leaves no problem and ends no pass exactly if its expression can be defined. -/
theorem definitionEffect_clean_iff (settings : Settings) (id : String) (expr : List Char) :
    (definitionEffect settings id expr).error? = none
        ∧ (definitionEffect settings id expr).problem? = none ↔ IsDefinable id expr := by
  rw [isDefinable_iff settings]
  unfold definitionEffect
  cases define settings id expr with
  | ok e => exact iff_of_true ⟨rfl, rfl⟩ ⟨e, rfl⟩
  | error e =>
    refine iff_of_false (fun h => ?_) nofun
    dsimp only at h
    cases hp : problemOf? id e with
    | some p =>
      rw [hp] at h
      cases h.2
    | none =>
      rw [hp] at h
      cases h.1

/-! ## Accepted statements -/

namespace Registry

/-- The statements that a registry accepts. -/
inductive Accepts (r : Registry) (s : List Char) : Prop where
  | switch (on : Bool) : IsSwitch s on → Accepts r s
  | define (id expr : List Char) : IsDefinition s id expr →
    IsDefinable (String.ofList id) expr → Accepts r s
  | tag (id list : List Char) (e : Entity) : IsTagging s id list →
    Table.get? (String.ofList id) r.objects = some e → Accepts r s

/-- A registry accepts a statement that neither leaves a problem nor ends the pass. -/
theorem accepts_iff (r : Registry) (s : List Char) :
    r.Accepts s ↔ (r.effect s).error? = none ∧ (r.effect s).problem? = none := by
  unfold effect
  constructor
  · intro h
    cases h with
    | switch on h =>
      rw [parse_of_switch h]
      exact ⟨rfl, rfl⟩
    | define id expr h hgood =>
      rw [parse_of_definition h]
      exact (definitionEffect_clean_iff _ _ expr).mpr hgood
    | tag id list e h he =>
      rw [parse_of_tagging h]
      dsimp only [taggingEffect]
      rw [he]
      exact ⟨rfl, rfl⟩
  · rintro ⟨herror, hproblem⟩
    have hform := hasForm_parse s
    cases hs : Declaration.parse s with
    | debug on =>
      rw [hs] at hform
      exact .switch on hform
    | malformed p =>
      rw [hs] at hproblem
      cases hproblem
    | tag id tags =>
      rw [hs] at hform hproblem
      obtain ⟨w, list, rfl, -, hw⟩ := hform
      dsimp only [taggingEffect] at hproblem
      split at hproblem
      · rename_i e he
        exact .tag w list e hw he
      · cases hproblem
    | define id expr =>
      rw [hs] at hform herror hproblem
      obtain ⟨w, rfl, hw⟩ := hform
      exact .define w expr hw ((definitionEffect_clean_iff _ _ expr).mp ⟨herror, hproblem⟩)

/-- A definition is accepted if its expression can be defined. -/
theorem accepts_of_definition {r : Registry} {s id expr : List Char} (h : IsDefinition s id expr) :
    r.Accepts s ↔ IsDefinable (String.ofList id) expr := by
  rw [accepts_iff, effect, parse_of_definition h]
  exact definitionEffect_clean_iff _ _ expr

/-- A statement that is not accepted leaves the registry as it is. -/
theorem follow_of_not_accepts {r : Registry} {s : List Char} (h : ¬ r.Accepts s) :
    r.follow s = r := by
  rw [accepts_iff] at h
  unfold follow
  cases hf : r.effect s with
  | switch on =>
    rw [hf] at h
    exact absurd ⟨rfl, rfl⟩ h
  | put e =>
    rw [hf] at h
    exact absurd ⟨rfl, rfl⟩ h
  | problem p => rfl
  | stop e => rfl

/-- Each of the statements is accepted in the registry that the ones before it made. -/
inductive AcceptsAll : Registry → List (List Char) → Prop where
  | nil (r : Registry) : AcceptsAll r []
  | cons {r : Registry} {s : List Char} {ss : List (List Char)} : r.Accepts s →
    AcceptsAll (r.follow s) ss → AcceptsAll r (s :: ss)

/-- A list of statements is accepted if its first one is, and the others are behind it. -/
theorem acceptsAll_cons_iff {r : Registry} {s : List Char} {ss : List (List Char)} :
    r.AcceptsAll (s :: ss) ↔ r.Accepts s ∧ (r.follow s).AcceptsAll ss := by
  constructor
  · intro h
    cases h with
    | cons hs hss => exact ⟨hs, hss⟩
  · exact fun h => .cons h.1 h.2

/-- A list of statements is accepted exactly if none of them ends the pass or leaves a diagnostic. -/
theorem acceptsAll_iff (ss : List (List Char)) : ∀ r : Registry,
    r.AcceptsAll ss ↔ Pass.stopped? r ss = none ∧ Pass.diagnosed r ss = [] := by
  induction ss with
  | nil => exact fun r => iff_of_true (.nil r) ⟨rfl, rfl⟩
  | cons s ss ih =>
    intro r
    have hproblem : ((r.effect s).problem?.map fun d => Diagnostic.mk d s).toList = []
        ↔ (r.effect s).problem? = none := by
      cases (r.effect s).problem? with
      | none => exact iff_of_true rfl rfl
      | some d => exact iff_of_false (List.cons_ne_nil _ _) (Option.some_ne_none d)
    rw [acceptsAll_cons_iff, ih, accepts_iff, Pass.stopped?, Pass.diagnosed, Option.or_eq_none_iff,
      List.append_eq_nil_iff, hproblem]
    exact and_and_and_comm

/-- A statement that is not accepted and does not end the pass leaves one diagnostic; only some
    definitions end a pass. -/
theorem step_of_not_accepts {p : Pass} {s : List Char} (h : ¬ p.registry.Accepts s) :
    (∃ problem, (p.step s).1.diagnostics = p.diagnostics ++ [⟨problem, s⟩] ∧ (p.step s).2 = none)
      ∨ ∃ id expr e, IsDefinition s id expr ∧ EndsPass expr ∧ (p.step s).2 = some e := by
  rw [accepts_iff] at h
  rw [Pass.step_diagnostics, Pass.step_error]
  cases herror : (p.registry.effect s).error? with
  | none =>
    cases hproblem : (p.registry.effect s).problem? with
    | none => exact absurd ⟨herror, hproblem⟩ h
    | some problem => exact Or.inl ⟨problem, rfl, rfl⟩
  | some e =>
    right
    by_contra hnone
    refine absurd (herror.symm.trans ((error?_effect_eq_none_iff p.registry s).mpr ?_))
      (Option.some_ne_none e)
    intro id expr hs hends
    have hform := hasForm_parse s
    rw [hs] at hform
    obtain ⟨w, -, hw⟩ := hform
    exact hnone ⟨w, expr, e, hw, hends, rfl⟩

/-- A text compiles without diagnostics if all its statements are accepted and none is left open. -/
theorem compile_eq_nil_iff (r : Registry) (code : List Char) (reset : Bool) :
    (r.compile code reset).outcome = .ok [] ↔ (Statements.ofText code).unclosed = none
      ∧ (r.atStart reset).AcceptsAll (Statements.ofText code).all := by
  rw [acceptsAll_iff]
  cases hstop : Pass.stopped? (r.atStart reset) (Statements.ofText code).all with
  | some e => simp [compile_of_stopped hstop]
  | none =>
    rw [(compile_of_complete hstop).1, unclosedDiagnostics, Except.ok.injEq,
      List.append_eq_nil_iff, List.map_eq_nil_iff, Option.toList_eq_nil_iff]
    simp

/-- **Which statements are accepted.**  A statement is carried out without a diagnostic exactly if
    it is a switch, perhaps with something behind its word, a definition whose expression is good, or
    a tagging of an object that is there.  Any other leaves registry and tracing as they are; it leaves
    one diagnostic, unless it is a definition that ends the pass.  So a text compiles without
    diagnostics exactly if it leaves no block open and each of its statements is accepted. -/
theorem accepted_statements (p : Pass) (s : List Char) (r : Registry) (code : List Char)
    (reset : Bool) :
    let q := p.step s
    ((q.2 = none ∧ q.1.diagnostics = p.diagnostics) ↔ p.registry.Accepts s)
      ∧ (¬ p.registry.Accepts s → q.1.registry = p.registry
          ∧ ((∃ problem, q.1.diagnostics = p.diagnostics ++ [⟨problem, s⟩] ∧ q.2 = none)
              ∨ ∃ id expr e, IsDefinition s id expr ∧ EndsPass expr ∧ q.2 = some e))
      ∧ ((r.compile code reset).outcome = .ok [] ↔ (Statements.ofText code).unclosed = none
          ∧ (r.atStart reset).AcceptsAll (Statements.ofText code).all) := by
  intro q
  refine ⟨?_, fun h => ⟨?_, step_of_not_accepts h⟩, compile_eq_nil_iff r code reset⟩
  · rw [accepts_iff, Pass.step_error, Pass.step_diagnostics]
    cases (p.registry.effect s).problem? with
    | none => simp
    | some problem => simp
  · rw [Pass.step_registry, follow_of_not_accepts h]

/-- `debug onwards` is no switch; the text has blanks of several kinds and tags what it defines. -/
theorem accepted_statements_mixed :
    let p : Pass := ⟨empty .default, [], []⟩
    let s := "debug onwards".toList
    let code := "let a = 1; tag\ta as t , u\nDEBUG \t oFF".toList
    ¬ p.registry.Accepts s ∧ (p.step s).1.registry = p.registry
      ∧ (p.step s).1.diagnostics = [⟨.unrecognized, s⟩]
      ∧ ((empty .default).atStart false).AcceptsAll (Statements.ofText code).all := by
  intro p s code
  obtain ⟨haccepts, hother, htext⟩ := accepted_statements p s (empty .default) code false
  have hleft : (p.step s).1.diagnostics = [⟨.unrecognized, s⟩] := by decide
  have hnot : ¬ p.registry.Accepts s := by
    intro h
    rw [(haccepts.mpr h).2] at hleft
    cases hleft
  have hclean : ((empty .default).compile code false).outcome.toOption = some [] := by
    decide +kernel
  cases hc : ((empty .default).compile code false).outcome with
  | error e =>
    rw [hc] at hclean
    cases hclean
  | ok ds =>
    rw [hc] at hclean htext
    obtain rfl := Option.some.inj hclean
    exact ⟨hnot, (hother hnot).1, hleft, (htext.mp rfl).2⟩

/-- `debug on please` switches tracing on without a diagnostic, though the whole of it is no switch,
    no definition and no tagging. -/
theorem accepted_with_words_behind :
    let code := "debug on please".toList
    let c := (empty .default).compile code false
    (Statements.ofText code).all = [code] ∧ c.outcome.toOption = some []
      ∧ (empty .default).settings.traces = false ∧ c.registry.settings.traces = true
      ∧ (¬ ∃ word gap state on, word.map Char.toLower = "debug".toList ∧ Spaces gap
          ∧ state.map Char.toLower = switchWord on ∧ code = word ++ (gap ++ state))
      ∧ (∀ id expr, ¬ IsDefinition code id expr) ∧ ∀ id list, ¬ IsTagging code id list := by
  intro code c
  refine ⟨by decide, by decide, by decide, by decide, ?_,
    fun id expr h => absurd h.head (by decide), fun id list h => absurd h.head (by decide)⟩
  rintro ⟨word, gap, state, on, -, -, hstate, hcode⟩
  -- a switch ends with the last letter of its word
  have hlast : (code.map Char.toLower).getLast? = (switchWord on).getLast? := by
    rw [hcode, List.map_append, List.map_append, hstate, ← List.append_assoc]
    refine List.getLast?_append_of_ne_nil _ ?_
    cases on with
    | false => decide
    | true => decide
  cases on with
  | false => exact absurd hlast (by decide)
  | true => exact absurd hlast (by decide)

end Registry
end LetTag
