/-
  What is found outside the literals of a text.

  A token is looked for in the mask, which shows blanks for what literals hold.  If it has no quotes
  of its own, the mask shows it where it stands among the plain characters of the text, and else only
  where its first characters are blanks that the mask shows for the content of a literal: behind them it
  is at its end, or the literal is not closed and it goes on in the plain characters behind the line
  (`prefix_blanks_iff`).  So a token that does not begin with a blank is found exactly where it stands
  outside literals, as long as these end with their lines (`occursUnquoted_iff`).
-/
import LetTag.Proofs.Division

namespace LetTag

open Text

/-! ## Where a token can stand -/

/-- The token stands among the plain characters of the text. -/
def OccursOutside (spanning : Bool) (s token : List Char) : Prop :=
  ∃ before behind, Divides spanning (before ++ token.map .plain ++ behind) s

/-- The token begins with blanks, no more than `width` of them, and ends there or goes on with plain
    characters behind a literal that is not closed. -/
def BeginsBlank (width : Nat) (closed : Bool) (behind : List Stretch) (token : List Char) : Prop :=
  ∃ k rest, k < width ∧ token = List.replicate (k + 1) ' ' ++ rest
    ∧ (rest = [] ∨ closed = false ∧ rest.map .plain <+: behind)

/-- One of the literals is as wide as the blanks at the start of the token. -/
def HasBlanks (ps : List Stretch) (token : List Char) : Prop :=
  ∃ before q v closed behind, ps = before ++ .literal q v closed :: behind
    ∧ BeginsBlank v.length closed behind token

/-- The token begins with blanks, and there is a literal with as many characters. -/
def OccursBlank (spanning : Bool) (s token : List Char) : Prop :=
  ∃ ps, Divides spanning ps s ∧ HasBlanks ps token

/-- The literal is the first one or behind it. -/
theorem hasBlanks_cons {p : Stretch} {ps : List Stretch} {token : List Char} :
    HasBlanks (p :: ps) token
      ↔ (∃ q v closed, p = .literal q v closed ∧ BeginsBlank v.length closed ps token)
        ∨ HasBlanks ps token := by
  constructor
  · rintro ⟨before, q, v, closed, behind, heq, h⟩
    cases before with
    | nil =>
      obtain ⟨rfl, rfl⟩ := List.cons.inj heq
      exact Or.inl ⟨q, v, closed, rfl, h⟩
    | cons p' before =>
      obtain ⟨rfl, rfl⟩ := List.cons.inj heq
      exact Or.inr ⟨before, q, v, closed, behind, rfl, h⟩
  · rintro (⟨q, v, closed, rfl, h⟩ | ⟨before, q, v, closed, behind, rfl, h⟩)
    · exact ⟨[], q, v, closed, ps, rfl, h⟩
    · exact ⟨p :: before, q, v, closed, behind, rfl, h⟩

/-- The token is found where it is a part of the text. -/
theorem occursIn_iff {token s : List Char} : occursIn token s = true ↔ token <:+: s := by
  induction s with
  | nil => rw [occursIn, List.isEmpty_iff, List.infix_nil]
  | cons c s ih =>
    rw [occursIn, Bool.or_eq_true, List.isPrefixOf_iff_prefix, ih, List.infix_cons_iff]

/-- What opens a literal is a quote. -/
theorem Divides.isQuote {spanning : Bool} {ps : List Stretch} {s : List Char}
    (h : Divides spanning ps s) {q : Char} {v : List Char} {closed : Bool}
    (hp : .literal q v closed ∈ ps) : Quoting.isQuote q = true := by
  induction h with
  | nil => exact absurd hp List.not_mem_nil
  | plain _ _ ih => exact ih ((List.mem_cons.mp hp).resolve_left nofun)
  | closed hq _ _ ih =>
    rcases List.mem_cons.mp hp with heq | hp
    · cases heq
      exact hq
    · exact ih hp
  | halted hq _ _ _ ih =>
    rcases List.mem_cons.mp hp with heq | hp
    · cases heq
      exact hq
    · exact ih hp

/-! ## The mask of the parts of a text -/

/-- A text without quotes does not start where a quote stands. -/
theorem ne_cons_quote {token : List Char} (hne : token ≠ [])
    (ht : ∀ c ∈ token, Quoting.isQuote c = false) {q : Char} (hq : Quoting.isQuote q = true)
    (s : List Char) : ¬ token <+: q :: s := by
  obtain ⟨c, token, rfl⟩ := List.exists_cons_of_ne_nil hne
  intro h
  exact quote_ne hq (ht c List.mem_cons_self) (List.cons_prefix_cons.mp h).1.symm

/-- The mask starts with the token where plain characters do. -/
theorem prefix_masked_iff {token : List Char} {ps : List Stretch}
    (ht : ∀ c ∈ token, Quoting.isQuote c = false)
    (hps : ∀ q v closed, .literal q v closed ∈ ps → Quoting.isQuote q = true) :
    token <+: ps.flatMap Stretch.masked ↔ token.map .plain <+: ps := by
  induction token generalizing ps with
  | nil => simp
  | cons c token ih =>
    cases ps with
    | nil => simp
    | cons p ps =>
      cases p with
      | plain d =>
        have hrest := ih (fun e he => ht e (List.mem_cons_of_mem c he))
          fun q v closed hp => hps q v closed (List.mem_cons_of_mem _ hp)
        show c :: token <+: d :: ps.flatMap Stretch.masked
          ↔ Stretch.plain c :: _ <+: Stretch.plain d :: ps
        rw [List.cons_prefix_cons, List.cons_prefix_cons, hrest, Stretch.plain.injEq]
      | literal q v closed =>
        have hq := hps q v closed List.mem_cons_self
        refine iff_of_false (ne_cons_quote (List.cons_ne_nil c token) ht hq _) fun h => ?_
        cases (List.cons_prefix_cons.mp h).1

/-- The parts of a text with blanks in front. -/
theorem infix_blanks_iff {token rest : List Char} {n : Nat} :
    token <:+: List.replicate n ' ' ++ rest
      ↔ (∃ k < n, token <+: List.replicate (k + 1) ' ' ++ rest) ∨ token <:+: rest := by
  induction n with
  | zero => simp
  | succ n ih =>
    rw [List.replicate_succ, List.cons_append, List.infix_cons_iff, ih, ← or_assoc]
    refine or_congr_left ?_
    constructor
    · rintro (h | ⟨k, hk, h⟩)
      · exact ⟨n, Nat.lt_succ_self n, h⟩
      · exact ⟨k, Nat.lt_succ_of_lt hk, h⟩
    · rintro ⟨k, hk, h⟩
      rcases Nat.lt_succ_iff_lt_or_eq.mp hk with hk | rfl
      · exact Or.inr ⟨k, hk, h⟩
      · exact Or.inl h

section

variable {token : List Char} (hne : token ≠ []) (ht : ∀ c ∈ token, Quoting.isQuote c = false)
include hne ht

/-- The blanks for the content of a literal, and what the mask shows behind them. -/
theorem prefix_blanks_iff {ps : List Stretch} {q : Char} {n : Nat} {closed : Bool}
    (hq : Quoting.isQuote q = true)
    (hps : ∀ q v closed, .literal q v closed ∈ ps → Quoting.isQuote q = true) :
    (∃ k < n, token <+: List.replicate (k + 1) ' ' ++ (Stretch.closing q closed
        ++ ps.flatMap Stretch.masked)) ↔ BeginsBlank n closed ps token := by
  constructor
  · rintro ⟨k, hk, u, heq⟩
    rcases List.append_eq_append_iff.mp heq with ⟨x, hx, -⟩ | ⟨rest, rfl, hrest⟩
    · -- the token is blank
      obtain ⟨hlength, htoken, -⟩ := List.append_eq_replicate_iff.mp hx.symm
      have hpos : 0 < token.length := List.length_pos_iff.mpr hne
      refine ⟨token.length - 1, [], by omega, ?_, Or.inl rfl⟩
      rw [Nat.sub_add_cancel hpos, List.append_nil]
      exact htoken
    · refine ⟨k, rest, hk, rfl, ?_⟩
      have hplain : ∀ c ∈ rest, Quoting.isQuote c = false :=
        fun c hc => ht c (List.mem_append_right _ hc)
      have hprefix : rest <+: Stretch.closing q closed ++ ps.flatMap Stretch.masked :=
        ⟨u, hrest.symm⟩
      cases closed with
      | true =>
        by_cases hempty : rest = []
        · exact Or.inl hempty
        · exact absurd hprefix (ne_cons_quote hempty hplain hq _)
      | false => exact Or.inr ⟨rfl, (prefix_masked_iff hplain hps).mp hprefix⟩
  · rintro ⟨k, rest, hk, rfl, hrest⟩
    refine ⟨k, hk, (List.prefix_append_right_inj _).mpr ?_⟩
    rcases hrest with rfl | ⟨rfl, hrest⟩
    · exact List.nil_prefix
    · exact (prefix_masked_iff (fun c hc => ht c (List.mem_append_right _ hc)) hps).mpr hrest

/-- **What the mask shows of a token**: plain characters, or blanks for the content of a literal in
    front of them. -/
theorem infix_masked_iff {ps : List Stretch}
    (hps : ∀ q v closed, .literal q v closed ∈ ps → Quoting.isQuote q = true) :
    token <:+: ps.flatMap Stretch.masked ↔ token.map .plain <:+: ps ∨ HasBlanks ps token := by
  induction ps with
  | nil =>
    have hnone : ¬ HasBlanks [] token := by
      rintro ⟨before, q, v, closed, behind, heq, -⟩
      simp at heq
    simp [hnone, hne]
  | cons p ps ih =>
    have hrest := ih fun q v closed hp => hps q v closed (List.mem_cons_of_mem p hp)
    rw [hasBlanks_cons, List.infix_cons_iff, ← prefix_masked_iff ht hps]
    cases p with
    | plain c =>
      show token <:+: c :: ps.flatMap Stretch.masked ↔ _
      rw [List.infix_cons_iff, hrest, or_assoc]
      simp [Stretch.masked]
    | literal q v closed =>
      have hq := hps q v closed List.mem_cons_self
      have htail : token <:+: Stretch.closing q closed ++ ps.flatMap Stretch.masked
          ↔ token <:+: ps.flatMap Stretch.masked := by
        cases closed with
        | true =>
          show token <:+: q :: ps.flatMap Stretch.masked ↔ _
          rw [List.infix_cons_iff, or_iff_right (ne_cons_quote hne ht hq _)]
        | false => exact Iff.rfl
      have hhere : (∃ q' v' closed', Stretch.literal q v closed = .literal q' v' closed'
          ∧ BeginsBlank v'.length closed' ps token) ↔ BeginsBlank v.length closed ps token := by
        constructor
        · rintro ⟨_, _, _, ⟨⟩, h⟩
          exact h
        · exact fun h => ⟨q, v, closed, rfl, h⟩
      have hmask : (Stretch.literal q v closed :: ps).flatMap Stretch.masked
          = q :: (List.replicate v.length ' ' ++ (Stretch.closing q closed
            ++ ps.flatMap Stretch.masked)) := by
        simp [Stretch.masked]
      rw [hmask, List.infix_cons_iff, or_iff_right (ne_cons_quote hne ht hq _), infix_blanks_iff,
        prefix_blanks_iff hne ht hq fun q v closed hp => hps q v closed (List.mem_cons_of_mem _ hp),
        htail, hrest, or_iff_right (ne_cons_quote hne ht hq _), hhere, or_left_comm]

/-! ## Tokens outside literals -/

/-- **What is found outside literals.**  A token without quotes is found exactly if it stands among
    the plain characters of the text, or begins with blanks that the mask shows for the content of a
    literal.  If literals end with their lines and the token begins with no blank, it is found exactly
    if it stands outside literals. -/
theorem occursUnquoted_iff (s : List Char) :
    (occursUnquoted s token = true ↔ OccursOutside true s token ∨ OccursBlank true s token)
    ∧ (¬ SpansLines s → token.head? ≠ some ' ' →
      (occursUnquoted s token = true ↔ OccursOutside false s token)) := by
  have hoccurs : occursUnquoted s token = true
      ↔ OccursOutside true s token ∨ OccursBlank true s token := by
    obtain ⟨ps, hps⟩ := exists_divides true s
    have houtside : OccursOutside true s token ↔ token.map .plain <:+: ps := by
      constructor
      · rintro ⟨before, behind, h⟩
        exact ⟨before, behind, h.unique hps⟩
      · rintro ⟨before, behind, rfl⟩
        exact ⟨before, behind, hps⟩
    have hblank : OccursBlank true s token ↔ HasBlanks ps token := by
      constructor
      · rintro ⟨ps', hps', h⟩
        rwa [← hps'.unique hps]
      · exact fun h => ⟨ps, hps, h⟩
    rw [occursUnquoted, occursIn_iff, houtside, hblank, mask, ← maskBy_true, hps.maskBy_eq]
    exact infix_masked_iff hne ht fun q v closed hp => hps.isQuote hp
  refine ⟨hoccurs, fun hspan hhead => ?_⟩
  have hnone : ¬ OccursBlank true s token := by
    rintro ⟨ps, -, before, q, v, closed, behind, -, k, rest, -, rfl, -⟩
    exact hhead rfl
  rw [hoccurs, or_iff_left hnone]
  exact exists_congr fun before => exists_congr fun behind =>
    divides_iff_of_not_spansLines hspan _

end

/-- An arrow, and one more in a literal. -/
theorem occursUnquoted_iff_of_arrow :
    (occursUnquoted "x => '=>'".toList "=>".toList = true
      ↔ OccursOutside true "x => '=>'".toList "=>".toList
        ∨ OccursBlank true "x => '=>'".toList "=>".toList)
    ∧ OccursOutside false "x => '=>'".toList "=>".toList
    ∧ ¬ OccursOutside false "x + '=>'".toList "=>".toList := by
  have hne : "=>".toList ≠ [] := by decide
  have hquote : ∀ c ∈ "=>".toList, Quoting.isQuote c = false := by decide
  have hhead : "=>".toList.head? ≠ some ' ' := by decide
  have hspans : ¬ SpansLines "x => '=>'".toList := fun h => absurd h.backslash (by decide +kernel)
  have hspans' : ¬ SpansLines "x + '=>'".toList := fun h => absurd h.backslash (by decide +kernel)
  obtain ⟨hoccurs, hplain⟩ := occursUnquoted_iff hne hquote "x => '=>'".toList
  obtain ⟨-, hinside⟩ := occursUnquoted_iff hne hquote "x + '=>'".toList
  refine ⟨hoccurs, (hplain hspans hhead).mp (by decide), fun h => ?_⟩
  exact absurd ((hinside hspans' hhead).mpr h) (by decide)

/-- A blank is found in a literal that holds none, and behind an escaped line end nothing is found. -/
theorem occursUnquoted_not_exact :
    (occursUnquoted "'ab'".toList " ".toList = true ∧ ¬ OccursOutside false "'ab'".toList " ".toList)
    ∧ occursUnquoted "'a\\\nb".toList "b".toList = false
    ∧ OccursOutside false "'a\\\nb".toList "b".toList := by
  refine ⟨⟨by decide, ?_⟩, by decide, ?_⟩
  · rintro ⟨before, behind, h⟩
    have hblank : ' ' ∈ "'ab'".toList := by
      rw [h.text_eq, List.flatMap_append, List.flatMap_append]
      exact List.mem_append_left _ (List.mem_append_right _ List.mem_cons_self)
    exact absurd hblank (by decide)
  · have halts : Halts false ['\\'] ['\n', 'b'] := by
      refine ⟨Or.inr rfl, ?_, nofun⟩
      rintro c ⟨⟩
      rfl
    have hwithin : Within false '\'' ['a'] := .plain (by decide) (by decide) (by decide) .nil
    exact ⟨[.literal '\'' ['a', '\\'] false, .plain '\n'], [],
      .halted (by decide) hwithin halts (.plain (by decide) (.plain (by decide) .nil))⟩

end LetTag
