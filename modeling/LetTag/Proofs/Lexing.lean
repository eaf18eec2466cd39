/-
  Tokens and what stands behind them.

  A token that is read in front of one text is read in front of every kindred one: a literal because
  its closing quotes are part of it, a word because it goes on for as long as it can, and a sign
  because no sign is affected by a mark or a line feed.  `readToken_spec` puts the kinds together
  and says of which shape the text of a token is.
-/
import LetTag.Mask
import LetTag.Proofs.Numeral
import Mathlib.Data.List.Find

namespace LetTag.Script

open Text

/-! ## Literals -/

section

variable {quotes : List Char} {long : Bool}

/-- A backslash is kept with what stands behind it, and neither of them closes a literal. -/
theorem untilClosed_escape (c : Char) (rest : List Char) :
    untilClosed quotes long ('\\' :: c :: rest)
      = (untilClosed quotes long rest).map fun found => ('\\' :: c :: found.1, found.2) := by
  rw [untilClosed]
  cases untilClosed quotes long rest with
  | none => rfl
  | some found => rfl

/-- Any other character closes the literal, ends it without closing it, or is part of it. -/
theorem untilClosed_plain {c : Char} (hc : c ≠ '\\') (rest : List Char) :
    untilClosed quotes long (c :: rest)
      = if quotes.isPrefixOf (c :: rest) then some ([], (c :: rest).drop quotes.length)
        else if c == '\n' && !long then none
        else (untilClosed quotes long rest).map fun found => (c :: found.1, found.2) := by
  rw [untilClosed]
  · cases untilClosed quotes long rest with
    | none => rfl
    | some found => rfl
  · exact fun _ _ he => absurd he hc

/-- A backslash at the end escapes nothing and closes nothing. -/
theorem untilClosed_backslash {q : Char} (hquotes : quotes.head? = some q) (hq : q ≠ '\\') :
    untilClosed quotes long ['\\'] = none := by
  obtain ⟨more, rfl⟩ := List.head?_eq_some_iff.mp hquotes
  have hprefix : ¬ (q :: more).isPrefixOf ['\\'] = true := by
    intro h
    obtain ⟨behind, hbehind⟩ := List.isPrefixOf_iff_prefix.mp h
    exact hq (List.cons.inj hbehind).1
  rw [untilClosed, if_neg hprefix, if_neg]
  · rfl
  · simp
  · simp

/-- Whether a text starts with the quotes depends on its first characters only. -/
theorem isPrefixOf_append {v : List Char} (h : quotes.length ≤ v.length) (r : List Char) :
    quotes.isPrefixOf (v ++ r) = quotes.isPrefixOf v := by
  rw [Bool.eq_iff_iff, List.isPrefixOf_iff_prefix, List.isPrefixOf_iff_prefix]
  constructor
  · intro hprefix
    exact List.prefix_of_prefix_length_le hprefix (List.prefix_append v r) h
  · intro hprefix
    exact hprefix.trans (List.prefix_append v r)

/-- If no quotes start in front of the content, none do whatever follows behind the closing ones. -/
theorem not_isPrefixOf_content {c : Char} {content after : List Char}
    (h : ¬ quotes.isPrefixOf (c :: (content ++ (quotes ++ after))) = true) (r : List Char) :
    ¬ quotes.isPrefixOf (c :: (content ++ (quotes ++ r))) = true := by
  have hlen : quotes.length ≤ (c :: (content ++ quotes)).length := by
    simp only [List.length_cons, List.length_append]
    omega
  have hthen := isPrefixOf_append hlen after
  have hnow := isPrefixOf_append hlen r
  simp only [List.cons_append, List.append_assoc] at hthen hnow
  rw [hnow, ← hthen]
  exact h

/-- The content of a literal ends at the first closing quotes, whatever follows. -/
theorem untilClosed_spec {q : Char} (hquotes : quotes.head? = some q) (hq : q ≠ '\\')
    (cs : List Char) : ∀ {content after : List Char},
    untilClosed quotes long cs = some (content, after) → cs = content ++ (quotes ++ after)
      ∧ ∀ r', untilClosed quotes long (content ++ (quotes ++ r')) = some (content, r') := by
  obtain ⟨more, rfl⟩ := List.head?_eq_some_iff.mp hquotes
  induction cs using untilClosed.induct (q :: more) long with
  | case1 => exact fun h => nomatch h
  | case2 c rest ih =>
    intro content after h
    -- behind a backslash any character belongs to the content, also a quote
    rw [untilClosed_escape] at h
    obtain ⟨⟨inner, behind⟩, hinner, he⟩ := Option.map_eq_some_iff.mp h
    cases he
    obtain ⟨hrest, hsame⟩ := ih hinner
    refine ⟨by rw [hrest]; rfl, fun r' => ?_⟩
    rw [List.cons_append, List.cons_append, untilClosed_escape, hsame r']
    rfl
  | case3 c rest hne hprefix =>
    intro content after h
    -- the closing quotes
    obtain ⟨behind, hbehind⟩ := List.isPrefixOf_iff_prefix.mp hprefix
    obtain rfl : q = c := by
      cases hbehind
      rfl
    rw [untilClosed_plain hq, if_pos hprefix] at h
    cases h
    refine ⟨?_, fun r' => ?_⟩
    · rw [List.nil_append, ← hbehind, List.drop_left]
    · have hprefix' : (q :: more).isPrefixOf (q :: more ++ r') = true :=
        List.isPrefixOf_iff_prefix.mpr (List.prefix_append _ r')
      rw [List.nil_append, List.cons_append, untilClosed_plain hq, ← List.cons_append,
        if_pos hprefix', List.drop_left]
  | case4 c rest hne hprefix hfeed =>
    intro content after h
    by_cases hc : c = '\\'
    · -- a backslash at the end
      subst hc
      cases rest with
      | nil =>
        rw [untilClosed_backslash rfl hq] at h
        cases h
      | cons d rest => exact (hne d rest rfl rfl).elim
    · rw [untilClosed_plain hc, if_neg hprefix, if_pos hfeed] at h
      cases h
  | case5 c rest hne hprefix hfeed ih =>
    intro content after h
    by_cases hc : c = '\\'
    · subst hc
      cases rest with
      | nil =>
        rw [untilClosed_backslash rfl hq] at h
        cases h
      | cons d rest => exact (hne d rest rfl rfl).elim
    · rw [untilClosed_plain hc, if_neg hprefix, if_neg hfeed] at h
      obtain ⟨⟨inner, behind⟩, hinner, he⟩ := Option.map_eq_some_iff.mp h
      cases he
      -- a plain character, which has no closing quotes in front of the other text either
      obtain ⟨hrest, hsame⟩ := ih hinner
      refine ⟨by rw [hrest]; rfl, fun r' => ?_⟩
      rw [hrest] at hprefix
      rw [List.cons_append, untilClosed_plain hc, if_neg (not_isPrefixOf_content hprefix r'),
        if_neg hfeed, hsame r']
      rfl

end

/-- The quotes at the end of a literal whose first character is `q`. -/
def closingQuotes (q : Char) (long : Bool) : List Char :=
  if long then [q, q, q] else [q]

/-- A literal is read up to its closing quotes, and its content then decides about the token. -/
theorem readLiteral_eq (m : Marking) (q : Char) (rest : List Char) : readLiteral m (q :: rest) =
    let long := [q, q, q].isPrefixOf (q :: rest)
    (untilClosed (closingQuotes q long) long ((q :: rest).drop (closingQuotes q long).length)).bind
      fun found => (literalToken m found.1).map fun t => (t, found.2) := by
  unfold readLiteral closingQuotes
  dsimp only [Option.bind_eq_bind]
  refine congrArg (Option.bind _) (funext fun found => ?_)
  cases literalToken m found.1 with
  | none => rfl
  | some t => rfl

/-- What follows something else than a quote still does, in a kindred text. -/
theorem Kindred.quote_head {stuck : Bool} {r r' : List Char} {q : Char} (h : Kindred stuck r r')
    (hq : Quoting.isQuote q = true) (hr : r.head? ≠ some q) : r'.head? ≠ some q := by
  cases h with
  | ended =>
    intro he
    cases he
    cases hq
  | same _ => exact hr
  | marked _ =>
    intro he
    cases he
    cases hq

/-- The quotes of a literal start with its quote. -/
theorem head?_closingQuotes (q : Char) (long : Bool) : (closingQuotes q long).head? = some q := by
  unfold closingQuotes
  split
  · rfl
  · rfl

/-- Is a text three equal quotes and more? -/
theorem isPrefixOf_quotes (q : Char) (s : List Char) : [q, q, q].isPrefixOf (q :: s) = true ↔
    ∃ rest, s = q :: q :: rest := by
  rw [List.isPrefixOf_iff_prefix]
  constructor
  · rintro ⟨rest, hrest⟩
    exact ⟨rest, (List.cons.inj hrest).2.symm⟩
  · rintro ⟨rest, rfl⟩
    exact ⟨rest, rfl⟩

/-- In single quotes, the content does not start so that the literal would open with three quotes. -/
def NotLong (q : Char) (content : List Char) : Prop :=
  ∀ rest, content ++ [q] ≠ q :: q :: rest

/-- A literal in single quotes does not start like one in three quotes, whatever kindred text follows:
    where it is empty, no third quote comes behind it. -/
theorem isPrefixOf_quotes_kindred {q : Char} {content behind r' : List Char} {stuck : Bool}
    (hq : Quoting.isQuote q = true)
    (h : [q, q, q].isPrefixOf (q :: (content ++ ([q] ++ behind))) = false)
    (hr : Kindred stuck behind r') :
    [q, q, q].isPrefixOf (q :: (content ++ ([q] ++ r'))) = false := by
  have hshort : ∀ more, content ++ ([q] ++ behind) ≠ q :: q :: more := by
    intro more hmore
    exact Bool.eq_false_iff.mp h ((isPrefixOf_quotes q _).mpr ⟨more, hmore⟩)
  refine Bool.eq_false_iff.mpr fun htrue => ?_
  obtain ⟨more, hmore⟩ := (isPrefixOf_quotes q _).mp htrue
  cases content with
  | nil =>
    have hthird : behind.head? ≠ some q := by
      intro he
      obtain ⟨last, rfl⟩ := List.head?_eq_some_iff.mp he
      exact hshort last rfl
    have hhead : r' = q :: more := (List.cons.inj hmore).2
    have hthird' := hr.quote_head hq hthird
    rw [hhead] at hthird'
    exact hthird' rfl
  | cons c content =>
    obtain rfl : c = q := (List.cons.inj hmore).1
    cases content with
    | nil => exact hshort behind rfl
    | cons d content =>
      obtain rfl : d = c := (List.cons.inj (List.cons.inj hmore).2).1
      exact hshort (content ++ ([d] ++ behind)) rfl

/-- A literal is read by its quotes and its content. -/
theorem readLiteral_quotes {m : Marking} {q : Char} {long : Bool} {content r : List Char} {t : Token}
    (hlong : [q, q, q].isPrefixOf (closingQuotes q long ++ (content ++ (closingQuotes q long ++ r)))
      = long)
    (hclosed : untilClosed (closingQuotes q long) long (content ++ (closingQuotes q long ++ r))
      = some (content, r))
    (ht : literalToken m content = some t) :
    readLiteral m (closingQuotes q long ++ (content ++ (closingQuotes q long ++ r)))
      = some (t, r) := by
  have hread : ∀ rest, closingQuotes q long ++ (content ++ (closingQuotes q long ++ r)) = q :: rest →
      readLiteral m (q :: rest) = some (t, r) := by
    intro rest hrest
    rw [hrest] at hlong
    rw [readLiteral_eq, hlong]
    dsimp only
    rw [← hrest, List.drop_left, hclosed, Option.bind_some, ht]
    rfl
  obtain ⟨more, hmore⟩ := List.head?_eq_some_iff.mp (head?_closingQuotes q long)
  have hcons : closingQuotes q long ++ (content ++ (closingQuotes q long ++ r))
      = q :: (more ++ (content ++ (closingQuotes q long ++ r))) := by
    rw [hmore]
    rfl
  rw [hcons]
  exact hread _ hcons

/-- A literal: its quotes and content, and that it is the same in front of a kindred text. -/
theorem readLiteral_spec {m : Marking} {q : Char} {rest after : List Char} {t : Token}
    (hq : Quoting.isQuote q = true) (h : readLiteral m (q :: rest) = some (t, after)) :
    ∃ long content, q :: rest = closingQuotes q long ++ (content ++ (closingQuotes q long ++ after))
      ∧ (long = false → NotLong q content)
      ∧ literalToken m content = some t
      ∧ ∀ stuck r', Kindred stuck after r' →
        readLiteral m (closingQuotes q long ++ (content ++ (closingQuotes q long ++ r')))
          = some (t, r') := by
  have hescape : q ≠ '\\' := by
    rintro rfl
    cases hq
  rw [readLiteral_eq] at h
  dsimp only at h
  obtain ⟨⟨content, behind⟩, hclosed, ht⟩ := Option.bind_eq_some_iff.mp h
  obtain ⟨t, ht', he⟩ := Option.map_eq_some_iff.mp ht
  cases he
  obtain ⟨hbody, hsame⟩ := untilClosed_spec (head?_closingQuotes q _) hescape _ hclosed
  cases hlong : [q, q, q].isPrefixOf (q :: rest) with
  | true =>
    rw [hlong] at hbody hsame
    obtain ⟨more, rfl⟩ := (isPrefixOf_quotes q rest).mp hlong
    have hbody' : more = content ++ ([q, q, q] ++ behind) := hbody
    refine ⟨true, content, ?_, nofun, ht', fun _ r' _ => ?_⟩
    · rw [hbody']
      rfl
    · exact readLiteral_quotes ((isPrefixOf_quotes q _).mpr ⟨_, rfl⟩) (hsame r') ht'
  | false =>
    rw [hlong] at hbody hsame
    have hbody' : rest = content ++ ([q] ++ behind) := hbody
    rw [hbody'] at hlong
    refine ⟨false, content, ?_, fun _ more hmore => ?_, ht', fun stuck r' hr => ?_⟩
    · rw [hbody']
      rfl
    · refine Bool.eq_false_iff.mp hlong ((isPrefixOf_quotes q _).mpr ⟨more ++ behind, ?_⟩)
      rw [← List.append_assoc, hmore]
      rfl
    · exact readLiteral_quotes (isPrefixOf_quotes_kindred hq hlong hr) (hsame r') ht'

/-! ## Signs -/

/-- The signs of one character. -/
def shortSigns : List Char :=
  "()[]\x7b\x7d:,;+-*/|&<>=.%~^@".toList

/-- All signs. -/
def signs : List String :=
  longSigns ++ shortSigns.map fun c => String.ofList [c]

/-- The characters of signs: none of them is marked, starts a mark or ends a line. -/
theorem sign_characters : ∀ x ∈ signs, ∀ c ∈ x.toList,
    isNameStart c = false ∧ c ≠ '_' ∧ c ≠ '\n' := by
  decide

/-- Kindred texts start with the same signs. -/
theorem Kindred.isPrefixOf_eq {x : List Char}
    (hx : ∀ c ∈ x, isNameStart c = false ∧ c ≠ '_' ∧ c ≠ '\n') {stuck : Bool} {r r' : List Char}
    (h : Kindred stuck r r') : x.isPrefixOf r' = x.isPrefixOf r := by
  induction x generalizing stuck r r' with
  | nil => rfl
  | cons d x ih =>
    obtain ⟨hstart, hbar, hfeed⟩ := hx d List.mem_cons_self
    have hrest := fun c hc => hx c (List.mem_cons_of_mem d hc)
    cases h with
    | ended =>
      have hd : (d == '\n') = false := beq_false_of_ne hfeed
      rw [List.isPrefixOf_cons_cons, hd]
      rfl
    | same h =>
      rw [List.isPrefixOf_cons_cons, List.isPrefixOf_cons_cons, ih hrest h]
    | @marked c r r' hc =>
      have hd : (d == '_') = false := beq_false_of_ne hbar
      have hd' : (d == c) = false := by
        refine beq_false_of_ne ?_
        rintro rfl
        rw [hstart] at hc
        cases hc
      rw [List.isPrefixOf_cons_cons, List.isPrefixOf_cons_cons, hd, hd']
      rfl

/-- A sign is read from its characters alone, and from any kindred text behind them. -/
theorem readSign_spec {cs after : List Char} {x : String} (h : readSign cs = some (x, after)) :
    x ∈ signs ∧ cs = x.toList ++ after
      ∧ ∀ r', Kindred (sticksBehind false x.toList) after r' →
        readSign (x.toList ++ r') = some (x, r') := by
  have hfind : ∀ {r r' : List Char} {stuck : Bool}, Kindred stuck r r' →
      longSigns.find? (·.toList.isPrefixOf r') = longSigns.find? (·.toList.isPrefixOf r) := by
    intro r r' stuck hr
    refine List.find?_congr fun y hy => ?_
    exact hr.isPrefixOf_eq (sign_characters y (List.mem_append_left _ hy))
  unfold readSign at h
  cases hlong : longSigns.find? (·.toList.isPrefixOf cs) with
  | some y =>
    rw [hlong] at h
    cases h
    -- a long sign, which the same search finds again
    have hy := List.mem_of_find?_eq_some hlong
    have hprefix := List.find?_some hlong
    obtain ⟨rest, rfl⟩ := List.isPrefixOf_iff_prefix.mp hprefix
    have hdrop : ∀ r : List Char, (x.toList ++ r).drop x.length = r := fun r => by
      rw [← String.length_toList, List.drop_left]
    refine ⟨List.mem_append_left _ hy, by rw [hdrop], fun r' hr => ?_⟩
    rw [hdrop] at hr
    have hsame := hfind (Kindred.append hr)
    unfold readSign
    rw [hsame, hlong]
    dsimp only
    rw [hdrop]
  | none =>
    rw [hlong] at h
    cases cs with
    | nil => cases h
    | cons c rest =>
      dsimp only at h
      split at h
      · rename_i hc
        cases h
        -- a short sign: on neither side what follows makes a long one of it
        have hc' : c ∈ shortSigns := List.contains_iff_mem.mp hc
        have hx : (String.ofList [c]).toList = [c] := String.toList_ofList
        rw [hx]
        refine ⟨List.mem_append_right _ (List.mem_map.mpr ⟨c, hc', rfl⟩), rfl, fun r' hr => ?_⟩
        have hsame := hfind (Kindred.append (v := [c]) hr)
        unfold readSign
        rw [hsame, List.cons_append, List.nil_append, hlong]
        exact if_pos hc
      · cases h

/-! ## Tokens -/

/-- The texts that a token is read off. -/
inductive Shape : Token → List Char → Prop
  | name {w : List Char} : isName w = true → (∀ c ∈ w, isWordTail c = true) →
    Shape (.name (String.ofList w)) w
  | keyword {w : List Char} : keywords.contains (String.ofList w) = true →
    (∀ c ∈ w, isWordTail c = true) → Shape (.keyword (String.ofList w)) w
  | number {s : Scalar} {v : List Char} : numeral false v = some true → Shape (.number s) v
  | literal {t : Token} {m : Marking} {letters content : List Char} {q : Char} {long : Bool} :
    (∀ c ∈ letters, isWordTail c = true) → marking? letters = some m →
    Quoting.isQuote q = true → (long = false → NotLong q content) →
    literalToken m content = some t →
    Shape t (letters ++ (closingQuotes q long ++ (content ++ closingQuotes q long)))
  | sign {x : String} : x ∈ signs → Shape (.sign x) x.toList

/-- Is the token a word? -/
def Token.isWord : Token → Bool
  | .name _ | .keyword _ => true
  | _ => false

/-- What a reader takes for a token: a text of its shape, that ends if it is a word, and gives the
    same token in front of a kindred text. -/
structure Takes (read : List Char → Option (Token × List Char)) (t : Token) (u after : List Char) :
    Prop where
  shape : Shape t u
  nonempty : u ≠ []
  ends : t.isWord = true → after.head?.any isWordTail = false
  same : ∀ r', Kindred (sticksBehind false u) after r' → read (u ++ r') = some (t, r')

/-- The characters of words stick to what follows. -/
theorem sticks_of_isWordTail {c : Char} (h : isWordTail c = true) : sticks c = true := by
  rw [sticks, h, Bool.true_or]

/-- What ends a text decides what sticks to it. -/
theorem sticksBehind_concat (stuck : Bool) (v : List Char) (c : Char) :
    sticksBehind stuck (v ++ [c]) = sticks c := by
  rw [sticksBehind, List.foldl_append]
  rfl

theorem sticksBehind_word {w : List Char} (hne : w ≠ []) (hw : ∀ c ∈ w, isWordTail c = true)
    (stuck : Bool) : sticksBehind stuck w = true := by
  rcases List.eq_nil_or_concat w with hnil | ⟨init, last, hlast⟩
  · exact absurd hnil hne
  · rw [List.concat_eq_append] at hlast
    rw [hlast, sticksBehind_concat]
    refine sticks_of_isWordTail (hw last ?_)
    rw [hlast]
    exact List.mem_append_right _ List.mem_cons_self

/-- A word ends where no more of its characters follow. -/
theorem takeWhile_word {w r : List Char} (hw : ∀ c ∈ w, isWordTail c = true)
    (hr : r.head?.any isWordTail = false) :
    (w ++ r).takeWhile isWordTail = w ∧ (w ++ r).dropWhile isWordTail = r := by
  have hstop : r.takeWhile isWordTail = [] ∧ r.dropWhile isWordTail = r := by
    cases r with
    | nil => exact ⟨rfl, rfl⟩
    | cons c r =>
      have hc : ¬ isWordTail c = true := Bool.eq_false_iff.mp hr
      exact ⟨List.takeWhile_cons_of_neg hc, List.dropWhile_cons_of_neg hc⟩
  rw [List.takeWhile_append_of_pos hw, List.dropWhile_append_of_pos hw, hstop.1, hstop.2,
    List.append_nil]
  exact ⟨rfl, rfl⟩

/-- The quote that comes next, if one does. -/
def quoteNext (r : List Char) : Option Char :=
  r.head?.filter fun c => c == '\'' || c == '"'

/-- What a word is that stands in front of `r`. -/
def wordBefore (w r : List Char) : Option (Token × List Char) :=
  match quoteNext r, marking? w with
  | some _, some m => readLiteral m r
  | _, _ =>
    if keywords.contains (String.ofList w) then some (.keyword (String.ofList w), r)
    else if isName w then some (.name (String.ofList w), r)
    else none

theorem readWord_eq {w r : List Char} (hw : ∀ c ∈ w, isWordTail c = true)
    (hr : r.head?.any isWordTail = false) : readWord (w ++ r) = wordBefore w r := by
  obtain ⟨htake, hdrop⟩ := takeWhile_word hw hr
  unfold readWord
  rw [htake, hdrop]
  rfl

/-- A word that no quote turns into a literal. -/
theorem wordBefore_plain {w r : List Char} (h : quoteNext r = none ∨ marking? w = none) :
    wordBefore w r = if keywords.contains (String.ofList w) then
        some (.keyword (String.ofList w), r)
      else if isName w then some (.name (String.ofList w), r)
      else none := by
  unfold wordBefore
  split
  · rename_i hquote hmark
    rcases h with h | h
    · rw [h] at hquote
      cases hquote
    · rw [h] at hmark
      cases hmark
  · rfl

/-- Kindred texts start with the same quote, or with none. -/
theorem Kindred.quoteNext_eq {r r' : List Char} (h : Kindred true r r') :
    quoteNext r' = quoteNext r := by
  cases h with
  | ended => rfl
  | same _ => rfl

/-- Kindred texts start with the character of a word alike, or alike with none. -/
theorem Kindred.isWordTail_head {r r' : List Char} (h : Kindred true r r') :
    r'.head?.any isWordTail = r.head?.any isWordTail := by
  cases h with
  | ended => rfl
  | same _ => rfl

/-- A literal is a text or bytes. -/
theorem cases_of_literalToken {m : Marking} {content : List Char} {t : Token}
    (h : literalToken m content = some t) :
    (∃ formatted ps, t = .text formatted ps) ∨ ∃ bs, t = .bytes bs := by
  unfold literalToken at h
  dsimp only at h
  split at h
  · split at h
    · cases h
    · split at h
      · cases h
        exact Or.inr ⟨_, rfl⟩
      · obtain ⟨cs, -, he⟩ := Option.bind_eq_some_iff.mp h
        cases he
        exact Or.inr ⟨_, rfl⟩
  · split at h
    · obtain ⟨ps, -, rfl⟩ := Option.map_eq_some_iff.mp h
      exact Or.inl ⟨_, _, rfl⟩
    · split at h
      · cases h
        exact Or.inl ⟨_, _, rfl⟩
      · obtain ⟨cs, -, he⟩ := Option.bind_eq_some_iff.mp h
        cases he
        exact Or.inl ⟨_, _, rfl⟩

theorem isWord_of_literalToken {m : Marking} {content : List Char} {t : Token}
    (h : literalToken m content = some t) : t.isWord = false := by
  rcases cases_of_literalToken h with ⟨_, _, rfl⟩ | ⟨_, rfl⟩
  · rfl
  · rfl

theorem isWordTail_of_isQuote {q : Char} (hq : Quoting.isQuote q = true) : isWordTail q = false := by
  rcases Bool.or_eq_true_iff.mp hq with hq | hq
  · rw [eq_of_beq hq]
    decide
  · rw [eq_of_beq hq]
    decide

theorem getLast?_closingQuotes (q : Char) (long : Bool) :
    (closingQuotes q long).getLast? = some q := by
  unfold closingQuotes
  split
  · rfl
  · rfl

theorem closingQuotes_cons (q : Char) (long : Bool) :
    ∃ more, closingQuotes q long = q :: more :=
  List.head?_eq_some_iff.mp (head?_closingQuotes q long)

/-- A literal with its letters in front. -/
theorem readWord_literal {w rest after : List Char} {q : Char} {m : Marking} {t : Token}
    (hw : ∀ c ∈ w, isWordTail c = true) (hmark : marking? w = some m)
    (hq : Quoting.isQuote q = true) (h : readLiteral m (q :: rest) = some (t, after)) :
    ∃ u, w ++ q :: rest = u ++ after ∧ Takes readWord t u after := by
  obtain ⟨long, content, hrest, hlong, ht, hsame⟩ := readLiteral_spec hq h
  obtain ⟨more, hquotes⟩ := closingQuotes_cons q long
  refine ⟨w ++ (closingQuotes q long ++ (content ++ closingQuotes q long)), ?_, ?_⟩
  · rw [hrest]
    simp only [List.append_assoc]
  · exact {
      shape := .literal hw hmark hq hlong ht
      nonempty := by
        rw [hquotes]
        simp
      ends := fun hword => by
        rw [isWord_of_literalToken ht] at hword
        cases hword
      same := fun r' hr => by
        have hread := hsame _ r' hr
        rw [hquotes] at hread ⊢
        simp only [List.append_assoc, List.cons_append] at hread ⊢
        have hquote : quoteNext (q :: (more ++ (content ++ q :: (more ++ r')))) = some q := by
          unfold quoteNext
          exact if_pos hq
        have hnext : (q :: (more ++ (content ++ q :: (more ++ r')))).head?.any isWordTail = false :=
          isWordTail_of_isQuote hq
        rw [readWord_eq hw hnext, wordBefore, hquote, hmark]
        exact hread }

/-- A word ends where the first character that belongs to no word stands. -/
theorem word_split {cs : List Char} (hcs : cs.head?.any isWordTail = true) :
    ∃ w r, cs = w ++ r ∧ (∀ c ∈ w, isWordTail c = true) ∧ w ≠ []
      ∧ r.head?.any isWordTail = false := by
  obtain ⟨c, hc, hword⟩ := (Option.any_eq_true _ _).mp hcs
  obtain ⟨rest, rfl⟩ := List.head?_eq_some_iff.mp hc
  refine ⟨(c :: rest).takeWhile isWordTail, (c :: rest).dropWhile isWordTail,
    List.takeWhile_append_dropWhile.symm, List.all_eq_true.mp List.all_takeWhile, ?_, ?_⟩
  · rw [List.takeWhile_cons_of_pos hword]
    exact List.cons_ne_nil _ _
  · refine Bool.eq_false_iff.mpr fun htrue => ?_
    obtain ⟨d, hd, hd'⟩ := (Option.any_eq_true _ _).mp htrue
    have hnot := List.head?_dropWhile_not isWordTail (c :: rest)
    rw [hd] at hnot
    rw [hnot] at hd'
    cases hd'

/-- A word that is no prefix of a literal is a keyword or a name. -/
theorem readWord_plain {w r : List Char} (hw : ∀ c ∈ w, isWordTail c = true)
    (hr : r.head?.any isWordTail = false) (hplain : quoteNext r = none ∨ marking? w = none) :
    readWord (w ++ r) =
      if keywords.contains (String.ofList w) then some (.keyword (String.ofList w), r)
      else if isName w then some (.name (String.ofList w), r)
      else none := by
  rw [readWord_eq hw hr, wordBefore_plain hplain]

/-- A word is read from its characters alone, with a literal that it is the prefix of. -/
theorem readWord_spec {cs after : List Char} {t : Token} (h : readWord cs = some (t, after))
    (hcs : cs.head?.any isWordTail = true) : ∃ u, cs = u ++ after ∧ Takes readWord t u after := by
  obtain ⟨w, r, rfl, hw, hne, hr⟩ := word_split hcs
  by_cases hliteral : ∃ q m, quoteNext r = some q ∧ marking? w = some m
  · obtain ⟨q, m, hquote, hmark⟩ := hliteral
    obtain ⟨hhead, hq⟩ := Option.filter_eq_some_iff.mp hquote
    obtain ⟨more, rfl⟩ := List.head?_eq_some_iff.mp hhead
    rw [readWord_eq hw hr, wordBefore, hquote, hmark] at h
    exact readWord_literal hw hmark hq h
  · have hplain : quoteNext r = none ∨ marking? w = none := by
      cases hquote : quoteNext r with
      | none => exact Or.inl rfl
      | some q =>
        cases hmark : marking? w with
        | none => exact Or.inr rfl
        | some m => exact absurd ⟨q, m, hquote, hmark⟩ hliteral
    -- a word in front of a kindred text is the same word
    have hsame (r' : List Char) (hr' : Kindred (sticksBehind false w) r r') :
        r'.head?.any isWordTail = false ∧ (quoteNext r' = none ∨ marking? w = none) := by
      rw [sticksBehind_word hne hw] at hr'
      exact ⟨hr'.isWordTail_head.trans hr, hr'.quoteNext_eq ▸ hplain⟩
    rw [readWord_plain hw hr hplain] at h
    split at h
    · rename_i hkeyword
      cases h
      refine ⟨w, rfl, .keyword hkeyword hw, hne, fun _ => hr, fun r' hr' => ?_⟩
      obtain ⟨hhead, hquote⟩ := hsame r' hr'
      rw [readWord_plain hw hhead hquote, if_pos hkeyword]
    · rename_i hkeyword
      split at h
      · rename_i hname
        cases h
        refine ⟨w, rfl, .name hname hw, hne, fun _ => hr, fun r' hr' => ?_⟩
        obtain ⟨hhead, hquote⟩ := hsame r' hr'
        rw [readWord_plain hw hhead hquote, if_neg hkeyword, if_pos hname]
      · cases h

/-- A digit comes first in both of two kindred texts behind the same piece, or in neither. -/
theorem Kindred.isDigit_append {stuck : Bool} {r r' : List Char} (h : Kindred stuck r r')
    (v : List Char) : (v ++ r').head?.any Char.isDigit = (v ++ r).head?.any Char.isDigit := by
  cases v with
  | nil => exact h.isDigit_head
  | cons c v => rfl

/-- Does a number start with `c`, if `rest` follows? -/
def startsNumber (c : Char) (rest : List Char) : Bool :=
  c.isDigit || (c == '.' && rest.head?.any Char.isDigit)

/-- Whether a number starts can be told from any kindred text. -/
theorem Kindred.startsNumber_append {stuck : Bool} {r r' : List Char} (h : Kindred stuck r r')
    (c : Char) (v : List Char) : startsNumber c (v ++ r') = startsNumber c (v ++ r) := by
  unfold startsNumber
  rw [h.isDigit_append v]

/-- The first character decides which reader gets the text. -/
theorem readToken_cons (c : Char) (rest : List Char) : readToken (c :: rest) =
    if startsNumber c rest then (readNumber (c :: rest)).map fun found => (.number found.1, found.2)
    else if Quoting.isQuote c then readLiteral ⟨false, false, false⟩ (c :: rest)
    else if isWordTail c then readWord (c :: rest)
    else (readSign (c :: rest)).map fun found => (.sign found.1, found.2) :=
  rfl

section

variable {c : Char} {rest after : List Char} {t : Token}

/-- A number as a token. -/
theorem takes_number {s : Scalar} (hstart : startsNumber c rest = true)
    (h : readNumber (c :: rest) = some (s, after)) :
    ∃ u, c :: rest = u ++ after ∧ Takes readToken (.number s) u after := by
  have hcs : (c :: rest).head?.any Char.isDigit = true ∨ (c :: rest).head? = some '.' := by
    rcases Bool.or_eq_true_iff.mp hstart with hc | hc
    · exact Or.inl hc
    · obtain ⟨hc, -⟩ := Bool.and_eq_true_iff.mp hc
      exact Or.inr (congrArg some (eq_of_beq hc))
  obtain ⟨v, hv, hnumeral, hsame⟩ := readNumber_spec hcs h
  cases v with
  | nil => cases hnumeral
  | cons d v =>
    obtain ⟨rfl, hrest⟩ : c = d ∧ rest = v ++ after := List.cons.inj hv
    refine ⟨c :: v, hv, .number hnumeral, List.cons_ne_nil c v, nofun, fun r' hr => ?_⟩
    have hstart' : startsNumber c (v ++ r') = true := by
      rw [hr.startsNumber_append c v, ← hstart, hrest]
    have hstuck : sticksBehind false (c :: v) = true := sticksBehind_of_numeral hnumeral
    rw [hstuck] at hr
    have hread := hsame r' hr
    rw [List.cons_append] at hread ⊢
    rw [readToken_cons, if_pos hstart', hread]
    rfl

theorem startsNumber_of_isQuote (hq : Quoting.isQuote c = true) (rest : List Char) :
    startsNumber c rest = false := by
  have hc : c.isDigit = false ∧ (c == '.') = false := by
    rcases Bool.or_eq_true_iff.mp hq with hq | hq
    · rw [eq_of_beq hq]
      decide
    · rw [eq_of_beq hq]
      decide
  rw [startsNumber, hc.1, hc.2]
  rfl

/-- A literal without letters as a token. -/
theorem takes_literal (hq : Quoting.isQuote c = true)
    (h : readLiteral ⟨false, false, false⟩ (c :: rest) = some (t, after)) :
    ∃ u, c :: rest = u ++ after ∧ Takes readToken t u after := by
  obtain ⟨long, content, hrest, hlong, ht, hsame⟩ := readLiteral_spec hq h
  obtain ⟨more, hquotes⟩ := closingQuotes_cons c long
  refine ⟨[] ++ (closingQuotes c long ++ (content ++ closingQuotes c long)), ?_, ?_⟩
  · rw [hrest]
    simp only [List.nil_append, List.append_assoc]
  · refine ⟨.literal (fun d hd => absurd hd List.not_mem_nil) rfl hq hlong ht, ?_, fun hword => ?_,
      fun r' hr => ?_⟩
    · rw [hquotes]
      exact List.cons_ne_nil _ _
    · rw [isWord_of_literalToken ht] at hword
      cases hword
    · have hread := hsame _ r' hr
      rw [hquotes] at hread ⊢
      simp only [List.nil_append, List.append_assoc, List.cons_append] at hread ⊢
      rw [readToken_cons, startsNumber_of_isQuote hq, if_neg Bool.false_ne_true, if_pos hq]
      exact hread

/-- No number starts in front of a kindred text if none does in front of what is read. -/
theorem not_startsNumber_kindred {u r' : List Char} {stuck : Bool}
    (hstart : ¬ startsNumber c (u ++ after) = true) (hr : Kindred stuck after r') :
    ¬ startsNumber c (u ++ r') = true := by
  rw [hr.startsNumber_append c u]
  exact hstart

/-- A word, or a literal with letters in front, as a token. -/
theorem takes_word (hstart : ¬ startsNumber c rest = true) (hq : ¬ Quoting.isQuote c = true)
    (hword : isWordTail c = true) (h : readWord (c :: rest) = some (t, after)) :
    ∃ u, c :: rest = u ++ after ∧ Takes readToken t u after := by
  obtain ⟨u, hu, htakes⟩ := readWord_spec h hword
  refine ⟨u, hu, htakes.shape, htakes.nonempty, htakes.ends, fun r' hr => ?_⟩
  have hread := htakes.same r' hr
  cases u with
  | nil => exact absurd rfl htakes.nonempty
  | cons d u =>
    obtain ⟨rfl, rfl⟩ : c = d ∧ rest = u ++ after := List.cons.inj hu
    rw [List.cons_append] at hread ⊢
    rw [readToken_cons, if_neg (not_startsNumber_kindred hstart hr), if_neg hq, if_pos hword]
    exact hread

/-- A sign as a token. -/
theorem takes_sign {x : String} (hstart : ¬ startsNumber c rest = true)
    (hq : ¬ Quoting.isQuote c = true) (hword : ¬ isWordTail c = true)
    (h : readSign (c :: rest) = some (x, after)) :
    ∃ u, c :: rest = u ++ after ∧ Takes readToken (.sign x) u after := by
  obtain ⟨hx, hcs, hsame⟩ := readSign_spec h
  have hne : x.toList ≠ [] := by
    revert hx
    exact (by decide : ∀ x ∈ signs, x.toList ≠ []) x
  refine ⟨x.toList, hcs, .sign hx, hne, nofun, fun r' hr => ?_⟩
  have hread := hsame r' hr
  generalize hu : x.toList = u at hcs hne hr hread
  cases u with
  | nil => exact absurd rfl hne
  | cons d u =>
    obtain ⟨rfl, rfl⟩ : c = d ∧ rest = u ++ after := List.cons.inj hcs
    rw [List.cons_append] at hread ⊢
    rw [readToken_cons, if_neg (not_startsNumber_kindred hstart hr), if_neg hq, if_neg hword, hread]
    rfl

end

/-- **One token**: what it takes, which shape that has, and that it is the same in front of every
    kindred text. -/
theorem readToken_spec {cs after : List Char} {t : Token} (h : readToken cs = some (t, after)) :
    ∃ u, cs = u ++ after ∧ Takes readToken t u after := by
  cases cs with
  | nil => cases h
  | cons c rest =>
    rw [readToken_cons] at h
    split at h
    · rename_i hstart
      obtain ⟨⟨s, behind⟩, hnumber, he⟩ := Option.map_eq_some_iff.mp h
      cases he
      exact takes_number hstart hnumber
    · rename_i hstart
      split at h
      · rename_i hq
        exact takes_literal hq h
      · rename_i hq
        split at h
        · rename_i hword
          exact takes_word hstart hq hword h
        · rename_i hword
          obtain ⟨⟨x, behind⟩, hsign, he⟩ := Option.map_eq_some_iff.mp h
          cases he
          exact takes_sign hstart hq hword hsign

end LetTag.Script
