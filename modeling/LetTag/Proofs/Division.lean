/-
  A text as a row of plain characters and string literals.

  A literal runs from its quote to the next quote of that kind that no backslash escapes, or else to
  the end of its line.  `Divides` says it of a whole text, and there is one way to divide a text
  (`exists_divides`, `Divides.unique`).

  But the mask also takes a line feed for escaped that stands right behind a backslash, and goes on
  with the literal on the next line.  So `Divides` says both: with `spanning` literals, and with those
  that end with their line whatever is before its end.  The mask of a text hides what the former hold,
  the masks of its lines what the latter hold (`Divides.maskBy_eq`), and these are the same exactly
  if no literal goes on over the end of a line (`mask_eq_lines_iff`).
-/
import LetTag.Proofs.Accord

namespace LetTag.Text

/-- The pieces of a text, joined again. -/
theorem join_cut (sep : Char) (s : List Char) : join [sep] (cut sep s) = s := by
  induction s with
  | nil => rfl
  | cons c s ih =>
    obtain ⟨piece, pieces, hcut⟩ := List.exists_cons_of_ne_nil (cut_ne_nil sep s)
    rw [hcut] at ih
    rw [cut, hcut]
    split
    · rename_i hc
      rw [join_cons_cons, ih, hc]
      rfl
    · cases pieces with
      | nil =>
        rw [join_singleton] at ih
        rw [extendFirst, join_singleton, ih]
      | cons next pieces =>
        rw [join_cons_cons] at ih
        rw [extendFirst, join_cons_cons, List.cons_append, ih]

/-- A line is its only one. -/
theorem brokenLines_of_not_break {w : List Char} (hw : ∀ c ∈ w, isBreak c = false) (hne : w ≠ []) :
    brokenLines w = [(w, [])] := by
  obtain ⟨⟨line, ending⟩, hlines, hline⟩ := List.map_eq_singleton_iff.mp (lines_of_not_break hw hne)
  obtain rfl : line = w := hline
  have htext : line ++ ending = line := by
    have hflat := flatten_brokenLines line
    rwa [hlines, List.flatMap_singleton] at hflat
  rw [hlines, List.append_right_eq_self.mp htext]

end LetTag.Text

namespace LetTag

open Text Arrow

/-! ## Plain characters and literals -/

/-- A character outside literals, or a literal, which may lack its closing quote. -/
inductive Stretch where
  | plain (c : Char)
  | literal (quote : Char) (content : List Char) (closed : Bool)
  deriving DecidableEq, Repr

namespace Stretch

/-- The closing quote of a literal, if there is one. -/
def closing (quote : Char) (closed : Bool) : List Char :=
  if closed then [quote] else []

/-- The characters that it consists of. -/
def text : Stretch → List Char
  | plain c => [c]
  | literal q v closed => q :: (v ++ closing q closed)

/-- What is left of it with the content blanked out. -/
def masked : Stretch → List Char
  | plain c => [c]
  | literal q v closed => q :: (List.replicate v.length ' ' ++ closing q closed)

/-- What a literal holds. -/
def content : Stretch → List Char
  | plain _ => []
  | literal _ v _ => v

end Stretch

/-- The inside of a literal: every quote of its kind is escaped, and a line feed is there only if it
    is escaped, too, and literals are `spanning` lines. -/
inductive Within (spanning : Bool) (q : Char) : List Char → Prop
  | nil : Within spanning q []
  | plain {c : Char} {v : List Char} : c ≠ '\\' → c ≠ '\n' → c ≠ q → Within spanning q v →
    Within spanning q (c :: v)
  | escaped {c : Char} {v : List Char} : (c = '\n' → spanning = true) → Within spanning q v →
    Within spanning q ('\\' :: c :: v)

/-- A literal without closing quote ends before `s`, and `w` is the last of it: nothing, or a backslash
    that has nothing to escape. -/
structure Halts (spanning : Bool) (w s : List Char) : Prop where
  last : w = [] ∨ w = ['\\']
  ending : ∀ c ∈ s.head?, c = '\n'
  unescaped : spanning = true → w = [] ∨ s = []

/-- The characters and literals of a text, in order. -/
inductive Divides (spanning : Bool) : List Stretch → List Char → Prop
  | nil : Divides spanning [] []
  | plain {c : Char} {ps : List Stretch} {s : List Char} : Quoting.isQuote c = false →
    Divides spanning ps s → Divides spanning (.plain c :: ps) (c :: s)
  | closed {q : Char} {v : List Char} {ps : List Stretch} {s : List Char} :
    Quoting.isQuote q = true → Within spanning q v → Divides spanning ps s →
    Divides spanning (.literal q v true :: ps) (q :: (v ++ q :: s))
  | halted {q : Char} {v w : List Char} {ps : List Stretch} {s : List Char} :
    Quoting.isQuote q = true → Within spanning q v → Halts spanning w s → Divides spanning ps s →
    Divides spanning (.literal q (v ++ w) false :: ps) (q :: (v ++ (w ++ s)))

section

variable {spanning : Bool} {q : Char} {ps : List Stretch} {s : List Char}

/-- The text consists of them. -/
theorem Divides.text_eq (h : Divides spanning ps s) : s = ps.flatMap Stretch.text := by
  induction h with
  | nil => rfl
  | plain _ _ ih => exact congrArg (_ :: ·) ih
  | @closed q v ps s _ _ _ ih =>
    rw [List.flatMap_cons, ← ih]
    simp [Stretch.text, Stretch.closing]
  | @halted q v w ps s _ _ _ _ ih =>
    rw [List.flatMap_cons, ← ih]
    simp [Stretch.text, Stretch.closing]

/-- A character that is no quote is not the quote of a literal. -/
theorem quote_ne {c : Char} (hq : Quoting.isQuote q = true) (hc : Quoting.isQuote c = false) :
    q ≠ c := by
  rintro rfl
  rw [hq] at hc
  cases hc

/-! ## Every text is divided in one way -/

/-- What can stand behind the inside of a literal: its closing quote, or its end without one. -/
def Stops (spanning : Bool) (q : Char) (x : List Char) : Prop :=
  (∃ s, x = q :: s) ∨ ∃ w s, x = w ++ s ∧ Halts spanning w s

/-- A literal goes on until it stops. -/
theorem exists_within (spanning : Bool) (q : Char) (s : List Char) :
    ∃ v x, s = v ++ x ∧ Within spanning q v ∧ Stops spanning q x := by
  induction hn : s.length using Nat.strong_induction_on generalizing s with
  | _ n ih =>
    subst hn
    have hhere : ∀ {s : List Char}, Stops spanning q s →
        ∃ v x, s = v ++ x ∧ Within spanning q v ∧ Stops spanning q x :=
      fun {s} h => ⟨[], s, rfl, .nil, h⟩
    have hhalts : ∀ {w s : List Char}, Halts spanning w s → Stops spanning q (w ++ s) :=
      fun {w s} h => Or.inr ⟨w, s, rfl, h⟩
    cases s with
    | nil => exact hhere (hhalts (w := []) (s := []) ⟨Or.inl rfl, nofun, fun _ => Or.inl rfl⟩)
    | cons c s =>
      by_cases hquote : c = q
      · exact hhere (Or.inl ⟨s, by rw [hquote]⟩)
      by_cases hfeed : c = '\n'
      · refine hhere (hhalts (w := []) (s := c :: s) ⟨Or.inl rfl, ?_, fun _ => Or.inl rfl⟩)
        rintro d ⟨⟩
        exact hfeed
      by_cases hslash : c = '\\'
      · subst hslash
        cases s with
        | nil => exact hhere (hhalts (w := ['\\']) (s := []) ⟨Or.inr rfl, nofun, fun _ => Or.inr rfl⟩)
        | cons d s =>
          by_cases hd : d = '\n' → spanning = true
          · have hlt : s.length < ('\\' :: d :: s).length := by
              rw [List.length_cons, List.length_cons]
              omega
            obtain ⟨v, x, rfl, hv, hx⟩ := ih s.length hlt s rfl
            exact ⟨'\\' :: d :: v, x, rfl, .escaped hd hv, hx⟩
          · obtain ⟨rfl, hspan⟩ := Classical.not_imp.mp hd
            refine hhere (hhalts (w := ['\\']) (s := '\n' :: s) ⟨Or.inr rfl, ?_, fun h => absurd h hspan⟩)
            rintro c ⟨⟩
            rfl
      · obtain ⟨v, x, rfl, hv, hx⟩ := ih s.length (Nat.lt_succ_self _) s rfl
        exact ⟨c :: v, x, rfl, .plain hslash hfeed hquote hv, hx⟩

theorem exists_divides (spanning : Bool) (s : List Char) : ∃ ps, Divides spanning ps s := by
  induction hn : s.length using Nat.strong_induction_on generalizing s with
  | _ n ih =>
    subst hn
    cases s with
    | nil => exact ⟨[], .nil⟩
    | cons c s =>
      cases hc : Quoting.isQuote c with
      | false =>
        obtain ⟨ps, hps⟩ := ih s.length (Nat.lt_succ_self _) s rfl
        exact ⟨_, .plain hc hps⟩
      | true =>
        obtain ⟨v, x, rfl, hv, ⟨s, rfl⟩ | ⟨w, s, rfl, hw⟩⟩ := exists_within spanning c s
        · have hlt : s.length < (c :: (v ++ c :: s)).length := by
            simp only [List.length_cons, List.length_append]
            omega
          obtain ⟨ps, hps⟩ := ih s.length hlt s rfl
          exact ⟨_, .closed hc hv hps⟩
        · have hlt : s.length < (c :: (v ++ (w ++ s))).length := by
            simp only [List.length_cons, List.length_append]
            omega
          obtain ⟨ps, hps⟩ := ih s.length hlt s rfl
          exact ⟨_, .halted hc hv hw hps⟩

section

variable (hq : Quoting.isQuote q = true)
include hq

/-- Where a literal stops it does not go on. -/
theorem Stops.eq_nil {v x : List Char} (h : Stops spanning q (v ++ x)) (hv : Within spanning q v) :
    v = [] := by
  have hslash : q ≠ '\\' := quote_ne hq (by decide)
  cases hv with
  | nil => rfl
  | @plain c v hc hfeed hquote hv =>
    rcases h with ⟨s, hs⟩ | ⟨w, s, hs, hw⟩
    · exact absurd (List.cons.inj hs).1 hquote
    · rcases hw.last with rfl | rfl
      · exact absurd (hw.ending c (by rw [← List.nil_append s, ← hs]; rfl)) hfeed
      · exact absurd (List.cons.inj hs).1 hc
  | @escaped c v hfeed hv =>
    rcases h with ⟨s, hs⟩ | ⟨w, s, hs, hw⟩
    · exact absurd (List.cons.inj hs).1.symm hslash
    · rcases hw.last with rfl | rfl
      · exact absurd (hw.ending '\\' (by rw [← List.nil_append s, ← hs]; rfl)) (by decide)
      · -- the line feed behind the backslash is escaped, so the backslash is not the last of it
        obtain ⟨-, rfl⟩ := List.cons.inj hs
        rcases hw.unescaped (hfeed (hw.ending c rfl)) with h | h
        · cases h
        · cases h

/-- The content of a literal and what stops it can be told from the text. -/
theorem Within.unique {v v' x x' : List Char} (hv : Within spanning q v) (hv' : Within spanning q v')
    (hx : Stops spanning q x) (hx' : Stops spanning q x') (h : v ++ x = v' ++ x') :
    v = v' ∧ x = x' := by
  induction hv generalizing v' with
  | nil =>
    rw [List.nil_append] at h
    rw [h] at hx
    obtain rfl := hx.eq_nil hq hv'
    exact ⟨rfl, h⟩
  | @plain c v hc hfeed hquote hv ih =>
    cases hv' with
    | nil =>
      rw [List.nil_append] at h
      rw [← h] at hx'
      cases hx'.eq_nil hq (.plain hc hfeed hquote hv)
    | plain _ _ _ hv' =>
      obtain ⟨rfl, hrest⟩ := List.cons.inj h
      obtain ⟨rfl, hx⟩ := ih hv' hrest
      exact ⟨rfl, hx⟩
    | escaped _ _ => exact absurd (List.cons.inj h).1 hc
  | @escaped c v hfeed hv ih =>
    cases hv' with
    | nil =>
      rw [List.nil_append] at h
      rw [← h] at hx'
      cases hx'.eq_nil hq (.escaped hfeed hv)
    | plain hc _ _ _ => exact absurd (List.cons.inj h).1.symm hc
    | escaped _ hv' =>
      obtain ⟨rfl, hrest⟩ := List.cons.inj (List.cons.inj h).2
      obtain ⟨rfl, hx⟩ := ih hv' hrest
      exact ⟨rfl, hx⟩

/-- A literal has its closing quote or ends without it, and its last backslash is seen from what is
    behind. -/
theorem Halts.ne_quote {w s s' : List Char} (h : Halts spanning w s) : w ++ s ≠ q :: s' := by
  intro heq
  rcases h.last with rfl | rfl
  · exact quote_ne hq (by decide) (h.ending q (by rw [← List.nil_append s, heq]; rfl))
  · exact quote_ne hq (by decide) (List.cons.inj heq).1.symm

end

theorem Halts.unique {w w' s s' : List Char} (h : Halts spanning w s) (h' : Halts spanning w' s')
    (heq : w ++ s = w' ++ s') : w = w' ∧ s = s' := by
  have hne : ∀ {s s' : List Char}, (∀ c ∈ s.head?, c = '\n') → s ≠ ['\\'] ++ s' := by
    rintro s s' hs rfl
    exact absurd (hs '\\' rfl) (by decide)
  rcases h.last with rfl | rfl
  · rcases h'.last with rfl | rfl
    · exact ⟨rfl, heq⟩
    · exact absurd heq (hne h.ending)
  · rcases h'.last with rfl | rfl
    · exact absurd heq.symm (hne h'.ending)
    · exact ⟨rfl, (List.cons.inj heq).2⟩

/-- **There is one way to divide a text.** -/
theorem Divides.unique (h : Divides spanning ps s) : ∀ {ps' : List Stretch},
    Divides spanning ps' s → ps = ps' := by
  have hplain : ∀ {c : Char}, Quoting.isQuote c = false → Quoting.isQuote c = true → False :=
    fun hc hc' => quote_ne hc' hc rfl
  induction h with
  | nil =>
    rintro _ ⟨⟩
    rfl
  | @plain c ps s hc _ ih =>
    intro ps' h'
    cases h' with
    | plain _ h' => rw [ih h']
    | closed hq _ _ => exact (hplain hc hq).elim
    | halted hq _ _ _ => exact (hplain hc hq).elim
  | @closed q v ps s hq hv _ ih =>
    intro ps' h'
    -- the other division starts a literal with the same quote, and it ends at the same place
    generalize hx : q :: (v ++ q :: s) = x at h'
    cases h' with
    | nil => cases hx
    | plain hc _ =>
      cases hx
      exact (hplain hc hq).elim
    | closed _ hv' h' =>
      obtain ⟨rfl, hrest⟩ := List.cons.inj hx
      obtain ⟨rfl, hend⟩ := hv.unique hq hv' (Or.inl ⟨_, rfl⟩) (Or.inl ⟨_, rfl⟩) hrest
      obtain ⟨-, rfl⟩ := List.cons.inj hend
      rw [ih h']
    | halted _ hv' hw h' =>
      obtain ⟨rfl, hrest⟩ := List.cons.inj hx
      obtain ⟨-, hend⟩ := hv.unique hq hv' (Or.inl ⟨_, rfl⟩) (Or.inr ⟨_, _, rfl, hw⟩) hrest
      exact absurd hend.symm (hw.ne_quote hq)
  | @halted q v w ps s hq hv hw _ ih =>
    intro ps' h'
    -- the same for a literal that is halted
    generalize hx : q :: (v ++ (w ++ s)) = x at h'
    cases h' with
    | nil => cases hx
    | plain hc _ =>
      cases hx
      exact (hplain hc hq).elim
    | closed _ hv' _ =>
      obtain ⟨rfl, hrest⟩ := List.cons.inj hx
      obtain ⟨-, hend⟩ := hv.unique hq hv' (Or.inr ⟨_, _, rfl, hw⟩) (Or.inl ⟨_, rfl⟩) hrest
      exact absurd hend (hw.ne_quote hq)
    | halted _ hv' hw' h' =>
      obtain ⟨rfl, hrest⟩ := List.cons.inj hx
      obtain ⟨rfl, hend⟩ := hv.unique hq hv' (Or.inr ⟨_, _, rfl, hw⟩) (Or.inr ⟨_, _, rfl, hw'⟩) hrest
      obtain ⟨rfl, rfl⟩ := hw.unique hw' hend
      rw [ih h']

end

/-! ## What the mask hides -/

/-- The mask of a text whose scan starts at `q`, with literals that are `spanning` lines or not. -/
def maskBy (spanning : Bool) : Quoting → List Char → List Char
  | _, [] => []
  | q, c :: s =>
    if c = '\n' ∧ spanning = false then c :: maskBy spanning .outside s
    else q.shown c :: maskBy spanning (q.next c) s

section

variable {spanning : Bool} {q : Char}

/-- The mask shows one character and goes on in the quoting that this one leaves. -/
theorem maskBy_cons {c : Char} (hc : c = '\n' → spanning = true) (q : Quoting) (s : List Char) :
    maskBy spanning q (c :: s) = q.shown c :: maskBy spanning (q.next c) s := by
  refine if_neg ?_
  rintro ⟨hfeed, hspan⟩
  rw [hc hfeed] at hspan
  cases hspan

/-- The inside of a literal is blanked out. -/
theorem maskBy_within {v : List Char} (h : Within spanning q v) (x : List Char) :
    maskBy spanning (.inside q false) (v ++ x)
      = List.replicate v.length ' ' ++ maskBy spanning (.inside q false) x := by
  induction h with
  | nil => rfl
  | @plain c v hc hfeed hquote _ ih =>
    rw [List.cons_append, maskBy_cons (fun h => absurd h hfeed)]
    simp only [Quoting.shown, Quoting.next, hc, hfeed, hquote, or_self, and_false, if_false]
    rw [ih]
    rfl
  | @escaped c v hfeed _ ih =>
    rw [List.cons_append, List.cons_append, maskBy_cons (fun h => absurd h (by decide)), maskBy_cons hfeed]
    simp only [Quoting.shown, Quoting.next, ne_eq, not_true_eq_false, false_and, if_false, if_true]
    rw [ih]
    rfl

/-- A literal that ends with its line leaves the scan outside. -/
theorem maskBy_feed {s : List Char} (h : ∀ c ∈ s.head?, c = '\n') :
    maskBy spanning (.inside q false) s = maskBy spanning .outside s := by
  cases s with
  | nil => rfl
  | cons c s =>
    obtain rfl := h c rfl
    cases spanning with
    | false => rfl
    | true => simp [maskBy, Quoting.shown, Quoting.next, Quoting.isQuote]

/-- The content of a literal that is not closed is shown as blanks, and what is behind it as plain. -/
theorem Halts.maskBy_eq {w s : List Char} (h : Halts spanning w s) :
    maskBy spanning (.inside q false) (w ++ s)
      = List.replicate w.length ' ' ++ maskBy spanning .outside s := by
  rcases h.last with rfl | rfl
  · exact maskBy_feed h.ending
  · have hbackslash : maskBy spanning (.inside q false) ('\\' :: s)
        = ' ' :: maskBy spanning (.inside q true) s := by
      rw [maskBy_cons fun h => absurd h (by decide)]
      simp [Quoting.shown, Quoting.next]
    rw [List.singleton_append, hbackslash]
    refine congrArg (' ' :: ·) ?_
    cases s with
    | nil => rfl
    | cons c s =>
      obtain rfl := h.ending c rfl
      cases spanning with
      | false => rfl
      | true => exact absurd (h.unescaped rfl) (by simp)

/-- **The mask shows a text with the contents of its literals blanked out.** -/
theorem Divides.maskBy_eq {ps : List Stretch} {s : List Char} (h : Divides spanning ps s) :
    maskBy spanning .outside s = ps.flatMap Stretch.masked := by
  have hopen : ∀ {q : Char} (s : List Char), Quoting.isQuote q = true →
      maskBy spanning .outside (q :: s) = q :: maskBy spanning (.inside q false) s := by
    intro q s hq
    rw [maskBy_cons fun h => absurd h (quote_ne hq (by decide))]
    simp [Quoting.shown, Quoting.next, hq]
  induction h with
  | nil => rfl
  | @plain c ps s hc _ ih =>
    rw [List.flatMap_cons, ← ih]
    by_cases hcut : c = '\n' ∧ spanning = false
    · exact if_pos hcut
    · rw [maskBy, if_neg hcut]
      simp [Quoting.shown, Quoting.next, hc, Stretch.masked]
  | @closed q v ps s hq hv _ ih =>
    have hfeed : q ≠ '\n' := quote_ne hq (by decide)
    have hslash : q ≠ '\\' := quote_ne hq (by decide)
    rw [hopen _ hq, maskBy_within hv, maskBy_cons fun h => absurd h hfeed, List.flatMap_cons, ← ih]
    simp [Quoting.shown, Quoting.next, hslash, Stretch.masked, Stretch.closing]
  | @halted q v w ps s hq hv hw _ ih =>
    have hmasked : Stretch.masked (.literal q (v ++ w) false)
        = q :: (List.replicate v.length ' ' ++ List.replicate w.length ' ') := by
      rw [List.replicate_append_replicate, ← List.length_append]
      exact congrArg (q :: ·) (List.append_nil _)
    rw [hopen _ hq, maskBy_within hv, hw.maskBy_eq, List.flatMap_cons, ← ih, hmasked, List.cons_append,
      List.append_assoc]

end

/-- The mask of the library lets literals go on over escaped line ends. -/
theorem maskBy_true (s : List Char) : ∀ q : Quoting, maskBy true q s = maskFrom q s := by
  induction s with
  | nil => exact fun _ => rfl
  | cons c s ih =>
    intro q
    rw [maskBy_cons fun _ => rfl, maskFrom, ih]

/-- The masks of the lines of a text. -/
theorem maskBy_false (s : List Char) :
    maskBy false .outside s = join ['\n'] ((cut '\n' s).map mask) := by
  have hline : ∀ (l t : List Char) (q : Quoting), '\n' ∉ l →
      maskBy false q (l ++ t) = maskFrom q l ++ maskBy false (l.foldl Quoting.next q) t := by
    intro l t
    induction l with
    | nil => exact fun _ _ => rfl
    | cons c l ih =>
      intro q hl
      obtain ⟨hc, hl⟩ := List.ne_and_not_mem_of_not_mem_cons hl
      rw [List.cons_append, maskBy_cons fun h => absurd h.symm hc, ih _ hl]
      rfl
  have hjoined : ∀ ls : List (List Char), ls ≠ [] → (∀ l ∈ ls, '\n' ∉ l) →
      maskBy false .outside (join ['\n'] ls) = join ['\n'] (ls.map mask) := by
    intro ls
    induction ls with
    | nil => exact fun hne _ => absurd rfl hne
    | cons l ls ih =>
      intro _ hls
      obtain ⟨hl, hls⟩ := List.forall_mem_cons.mp hls
      cases ls with
      | nil =>
        rw [join_singleton, List.map_singleton, join_singleton]
        have hend := hline l [] .outside hl
        rwa [List.append_nil, maskBy, List.append_nil] at hend
      | cons k ls =>
        rw [join_cons_cons, hline l _ _ hl, List.map_cons, List.map_cons, join_cons_cons,
          ← List.map_cons, ← ih (List.cons_ne_nil k ls) hls]
        rfl
  have hcut := hjoined (cut '\n' s) (cut_ne_nil '\n' s) (notMem_cut s)
  rwa [join_cut] at hcut

/-! ## Literals over several lines -/

/-- A literal of the text goes on over the end of a line. -/
def SpansLines (s : List Char) : Prop :=
  ∃ ps, Divides true ps s ∧ ∃ p ∈ ps, '\n' ∈ p.content

/-- Literals that hold no line feed end with their line. -/
theorem Within.of_notMem {q : Char} {v : List Char} (h : Within true q v) (hfeed : '\n' ∉ v) :
    Within false q v := by
  induction h with
  | nil => exact .nil
  | plain hc hne hquote _ ih =>
    exact .plain hc hne hquote (ih fun hm => hfeed (List.mem_cons_of_mem _ hm))
  | @escaped c v _ _ ih =>
    refine .escaped (fun hc => ?_) (ih fun hm => ?_)
    · rw [hc] at hfeed
      simp at hfeed
    · exact hfeed (List.mem_cons_of_mem _ (List.mem_cons_of_mem _ hm))

/-- If no literal goes on over a line end, it makes no difference whether one could. -/
theorem Divides.of_notMem {ps : List Stretch} {s : List Char} (h : Divides true ps s)
    (hfeed : ∀ p ∈ ps, '\n' ∉ p.content) : Divides false ps s := by
  induction h with
  | nil => exact .nil
  | plain hc _ ih => exact .plain hc (ih (List.forall_mem_cons.mp hfeed).2)
  | closed hq hv _ ih =>
    obtain ⟨hv', hps⟩ := List.forall_mem_cons.mp hfeed
    exact .closed hq (hv.of_notMem hv') (ih hps)
  | halted hq hv hw _ ih =>
    obtain ⟨hv', hps⟩ := List.forall_mem_cons.mp hfeed
    refine .halted hq (hv.of_notMem fun hm => hv' (List.mem_append_left _ hm)) ?_ (ih hps)
    exact ⟨hw.last, hw.ending, nofun⟩

/-- Else both ways of dividing the text are one. -/
theorem divides_iff_of_not_spansLines {s : List Char} (h : ¬ SpansLines s) (ps : List Stretch) :
    Divides true ps s ↔ Divides false ps s := by
  have hends : ∀ {ps : List Stretch}, Divides true ps s → Divides false ps s := by
    intro ps hps
    exact hps.of_notMem fun p hp hfeed => h ⟨ps, hps, p, hp, hfeed⟩
  refine ⟨hends, fun hps => ?_⟩
  obtain ⟨ps', hps'⟩ := exists_divides true s
  rw [hps.unique (hends hps')]
  exact hps'

/-- Only a backslash takes a literal over the end of a line. -/
theorem Within.backslash_of_mem {q : Char} {v : List Char} (h : Within true q v) (hfeed : '\n' ∈ v) :
    ['\\', '\n'] <:+: v := by
  induction h with
  | nil => exact absurd hfeed List.not_mem_nil
  | plain _ hne _ _ ih =>
    exact List.infix_cons (ih ((List.mem_cons.mp hfeed).resolve_left hne.symm))
  | @escaped c v _ _ ih =>
    by_cases hc : c = '\n'
    · rw [hc]
      exact ⟨[], v, rfl⟩
    · have hrest : '\n' ∈ v := by simpa [Ne.symm hc] using hfeed
      exact List.infix_cons (List.infix_cons (ih hrest))

/-- Where a literal goes on over a line end, a backslash stands in front of it. -/
theorem SpansLines.backslash {s : List Char} (h : SpansLines s) : ['\\', '\n'] <:+: s := by
  obtain ⟨ps, hps, p, hp, hfeed⟩ := h
  induction hps with
  | nil => exact absurd hp List.not_mem_nil
  | plain _ _ ih =>
    rcases List.mem_cons.mp hp with rfl | hp
    · exact absurd hfeed List.not_mem_nil
    · exact List.infix_cons (ih hp)
  | @closed q v ps s _ hv _ ih =>
    rcases List.mem_cons.mp hp with rfl | hp
    · exact List.infix_cons ((hv.backslash_of_mem hfeed).trans (List.prefix_append v _).isInfix)
    · exact (ih hp).trans ⟨q :: (v ++ [q]), [], by simp⟩
  | @halted q v w ps s _ hv hw _ ih =>
    rcases List.mem_cons.mp hp with rfl | hp
    · have hmem : '\n' ∈ v := by
        rcases List.mem_append.mp hfeed with hv | hlast
        · exact hv
        · rcases hw.last with rfl | rfl
          · exact absurd hlast List.not_mem_nil
          · exact absurd hlast (by decide)
      exact List.infix_cons ((hv.backslash_of_mem hmem).trans (List.prefix_append v _).isInfix)
    · exact (ih hp).trans ⟨q :: (v ++ w), [], by simp⟩

/-- Blanking out hides the line feeds in literals, and no others. -/
theorem count_masked (ps : List Stretch) : (ps.flatMap Stretch.text).count '\n'
    = (ps.flatMap Stretch.masked).count '\n' + (ps.flatMap Stretch.content).count '\n' := by
  induction ps with
  | nil => rfl
  | cons p ps ih =>
    have hpart : p.text.count '\n' = p.masked.count '\n' + p.content.count '\n' := by
      cases p with
      | plain c => rfl
      | literal q v closed =>
        have hblank : (List.replicate v.length ' ').count '\n' = 0 := by
          rw [List.count_replicate]
          rfl
        simp only [Stretch.text, Stretch.masked, Stretch.content, List.count_cons, List.count_append,
          hblank]
        omega
    simp only [List.flatMap_cons, List.count_append, ih, hpart]
    omega

/-- The masks of the lines show all line feeds. -/
theorem count_maskBy_false (s : List Char) : ∀ q : Quoting,
    (maskBy false q s).count '\n' = s.count '\n' := by
  induction s with
  | nil => exact fun _ => rfl
  | cons c s ih =>
    intro q
    by_cases hc : c = '\n'
    · rw [maskBy, if_pos ⟨hc, rfl⟩, List.count_cons, List.count_cons, ih]
    · have hshown : q.shown c ≠ '\n' := by
        rcases shown_cases q c with h | h
        · rwa [h]
        · rw [h]
          decide
      rw [maskBy_cons (fun h => absurd h hc), List.count_cons_of_ne hshown, List.count_cons_of_ne hc, ih]

/-- The masks of the lines of a text with their ends, if only line feeds end lines in it. -/
theorem flatMap_mask_lines {s : List Char} (h : ∀ c ∈ s, isBreak c = true → c = '\n') :
    (brokenLines s).flatMap (fun l => mask l.1 ++ l.2) = join ['\n'] ((cut '\n' s).map mask) := by
  have hjoined : ∀ ls : List (List Char), ls ≠ [] → (∀ l ∈ ls, ∀ c ∈ l, isBreak c = false) →
      (brokenLines (join ['\n'] ls)).flatMap (fun l => mask l.1 ++ l.2)
        = join ['\n'] (ls.map mask) := by
    intro ls
    induction ls with
    | nil => exact fun hne _ => absurd rfl hne
    | cons l ls ih =>
      intro _ hls
      obtain ⟨hl, hls⟩ := List.forall_mem_cons.mp hls
      cases ls with
      | nil =>
        rw [join_singleton, List.map_singleton, join_singleton]
        by_cases hne : l = []
        · rw [hne]
          rfl
        · rw [brokenLines_of_not_break hl hne]
          simp
      | cons k ls =>
        have hrest := ih (List.cons_ne_nil k ls) hls
        have hmasks : join ['\n'] ((l :: k :: ls).map mask)
            = mask l ++ (['\n'] ++ join ['\n'] ((k :: ls).map mask)) := join_cons_cons _ _ _ _
        rw [join_cons_cons, List.singleton_append, brokenLines_append hl (brokenLines_feed _),
          List.flatMap_cons, hrest, hmasks, List.append_nil, List.append_assoc]
  have hplain : ∀ l ∈ cut '\n' s, ∀ c ∈ l, isBreak c = false := by
    intro l hl c hc
    refine Bool.eq_false_iff.mpr fun hbreak => notMem_cut s l hl ?_
    rw [← h c (mem_of_mem_cut s l hl c hc) hbreak]
    exact hc
  have hcut := hjoined (cut '\n' s) (cut_ne_nil '\n' s) hplain
  rwa [join_cut] at hcut

/-- **The mask of a text is made of the masks of its lines** exactly if no literal goes on over the end
    of a line, which takes a backslash there, and that is when both see the same literals.  Where line
    feeds are the only line ends, these are the lines that the statements are read from. -/
theorem mask_eq_lines_iff (s : List Char) :
    (mask s = join ['\n'] ((cut '\n' s).map mask) ↔ ¬ SpansLines s)
    ∧ (SpansLines s → ['\\', '\n'] <:+: s)
    ∧ (mask s = join ['\n'] ((cut '\n' s).map mask)
      ↔ ∀ ps, Divides true ps s ↔ Divides false ps s)
    ∧ ((∀ c ∈ s, isBreak c = true → c = '\n') →
      (brokenLines s).flatMap (fun l => mask l.1 ++ l.2) = join ['\n'] ((cut '\n' s).map mask)) := by
  have hmask : ∀ {ps : List Stretch}, Divides true ps s → mask s = ps.flatMap Stretch.masked :=
    fun h => (maskBy_true s .outside).symm.trans h.maskBy_eq
  have hlines : ∀ {ps : List Stretch}, Divides false ps s →
      join ['\n'] ((cut '\n' s).map mask) = ps.flatMap Stretch.masked :=
    fun h => (maskBy_false s).symm.trans h.maskBy_eq
  -- equal masks show the same line feeds, so no literal hides one
  have hspans : mask s = join ['\n'] ((cut '\n' s).map mask) → ¬ SpansLines s := by
    rintro heq ⟨ps, hps, p, hp, hfeed⟩
    have hcount := count_masked ps
    rw [← hps.text_eq, ← hmask hps, heq, ← maskBy_false, count_maskBy_false] at hcount
    have hnone : '\n' ∉ ps.flatMap Stretch.content := List.count_eq_zero.mp (by omega)
    exact hnone (List.mem_flatMap.mpr ⟨p, hp, hfeed⟩)
  have hequal : (∀ ps, Divides true ps s ↔ Divides false ps s) →
      mask s = join ['\n'] ((cut '\n' s).map mask) := by
    intro h
    obtain ⟨ps, hps⟩ := exists_divides true s
    rw [hmask hps, hlines ((h ps).mp hps)]
  exact ⟨⟨hspans, fun h => hequal (divides_iff_of_not_spansLines h)⟩, SpansLines.backslash,
    ⟨fun h => divides_iff_of_not_spansLines (hspans h), hequal⟩, flatMap_mask_lines⟩

/-- An apostrophe, an escaped quote and a literal that is not closed, on three lines. -/
theorem mask_eq_lines_of_open : ¬ SpansLines "it's;\n'a\\';' + \"b;\n;".toList
    ∧ (∀ ps, Divides true ps "it's;\n'a\\';' + \"b;\n;".toList
      ↔ Divides false ps "it's;\n'a\\';' + \"b;\n;".toList)
    ∧ (brokenLines "it's;\n'a\\';' + \"b;\n;".toList).flatMap (fun l => mask l.1 ++ l.2)
      = "it'  \n'    ' + \"  \n;".toList := by
  have hmask : mask "it's;\n'a\\';' + \"b;\n;".toList = "it'  \n'    ' + \"  \n;".toList := by
    decide
  have hlines : join ['\n'] ((cut '\n' "it's;\n'a\\';' + \"b;\n;".toList).map mask)
      = "it'  \n'    ' + \"  \n;".toList := by
    decide
  obtain ⟨hspans, -, hsame, hbroken⟩ := mask_eq_lines_iff "it's;\n'a\\';' + \"b;\n;".toList
  have heq := hmask.trans hlines.symm
  exact ⟨hspans.mp heq, hsame.mp heq, (hbroken (by decide)).trans hlines⟩

/-- A backslash before the end of a line takes the literal over it, but not in the masks of the lines. -/
theorem mask_escaped_feed : mask "\"a\\\nb".toList = "\"    ".toList
    ∧ join ['\n'] ((cut '\n' "\"a\\\nb".toList).map mask) = "\"  \nb".toList := by
  decide

end LetTag
