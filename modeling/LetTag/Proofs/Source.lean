/-
  Which characters of an arrow definition come back in its source.

  Marking only puts something in, and the layout of a body takes away braces, semicolons, blanks and
  margins.  So a character that is none of these stands in the source exactly if it stands in the
  definition (`Arrow.mem_source_iff`); each step has its own lemma of that form.  The one step that
  cuts by width and not by character is the margin: `commonMargin_prefix` says that every line which
  is cut begins with what is cut off.
-/
import LetTag.Arrow
import LetTag.Proofs.Text

namespace LetTag.Text

/-! ## Texts without their ends -/

/-- Trimming takes blanks away, and nothing else. -/
theorem mem_trim_iff {z : Char} (hz : isBlank z = false) (s : List Char) : z ∈ trim s ↔ z ∈ s := by
  obtain ⟨front, back, hs, hfront, hback, -⟩ := trim_between s
  have hfront' : z ∉ front := fun h => by
    rw [hfront z h] at hz
    cases hz
  have hback' : z ∉ back := fun h => by
    rw [hback z h] at hz
    cases hz
  conv => rhs; rw [hs]
  simp [hfront', hback']

theorem mem_of_mem_trim {s : List Char} {c : Char} (h : c ∈ trim s) : c ∈ s := by
  obtain ⟨front, back, hs, -⟩ := trim_between s
  rw [hs]
  exact List.mem_append_right _ (List.mem_append_left _ h)

theorem mem_trimLeft_iff {z : Char} (hz : isBlank z = false) (s : List Char) :
    z ∈ trimLeft s ↔ z ∈ s := by
  obtain ⟨front, hs, hfront, -⟩ := trimLeft_between s
  have hfront' : z ∉ front := fun h => by
    rw [hfront z h] at hz
    cases hz
  conv => rhs; rw [hs]
  simp [hfront']

/-- What is taken away at the end has the property asked for. -/
theorem mem_dropEndWhile_iff {p : Char → Bool} {z : Char} (hz : p z = false) (s : List Char) :
    z ∈ dropEndWhile p s ↔ z ∈ s := by
  induction s with
  | nil => rfl
  | cons c s ih =>
    show z ∈ (if (dropEndWhile p s).isEmpty && p c then [] else c :: dropEndWhile p s) ↔ _
    split
    · rename_i h
      rw [Bool.and_eq_true, List.isEmpty_iff] at h
      rw [h.1] at ih
      have hne : z ≠ c := by
        rintro rfl
        rw [hz] at h
        cases h.2
      simp [hne, ← ih]
    · rw [List.mem_cons, List.mem_cons, ih]

theorem mem_dropWhile_iff {p : Char → Bool} {z : Char} (hz : p z = false) (s : List Char) :
    z ∈ s.dropWhile p ↔ z ∈ s := by
  induction s with
  | nil => rfl
  | cons c s ih =>
    rw [List.dropWhile_cons]
    split
    · rename_i hc
      have hne : z ≠ c := by
        rintro rfl
        rw [hz] at hc
        cases hc
      rw [ih, List.mem_cons, or_iff_right hne]
    · rfl

/-! ## Pieces and lines -/

/-- Cutting takes nothing away but the separators. -/
theorem mem_cut_iff {sep z : Char} (hz : z ≠ sep) (s : List Char) :
    (∃ piece ∈ cut sep s, z ∈ piece) ↔ z ∈ s := by
  induction s with
  | nil => simp [cut]
  | cons c s ih =>
    rw [cut]
    split
    · rename_i hc
      subst hc
      simp [ih, hz]
    · cases hcut : cut sep s with
      | nil =>
        rw [hcut] at ih
        simp [extendFirst, ← ih]
      | cons piece pieces =>
        rw [hcut] at ih
        rw [List.mem_cons, ← ih]
        simp [extendFirst, or_assoc]

theorem notMem_cut {sep : Char} (s : List Char) : ∀ piece ∈ cut sep s, sep ∉ piece := by
  induction s with
  | nil =>
    intro piece hpiece
    rw [List.mem_singleton.mp hpiece]
    exact List.not_mem_nil
  | cons c s ih =>
    rw [cut]
    split
    · exact List.forall_mem_cons.mpr ⟨List.not_mem_nil, ih⟩
    · rename_i hc
      cases hcut : cut sep s with
      | nil =>
        intro piece hpiece
        rw [List.mem_singleton.mp hpiece, List.mem_singleton]
        exact fun he => hc he.symm
      | cons first rest =>
        rw [hcut] at ih
        obtain ⟨hfirst, hrest⟩ := List.forall_mem_cons.mp ih
        refine List.forall_mem_cons.mpr ⟨?_, hrest⟩
        rw [List.mem_cons, not_or]
        exact ⟨fun he => hc he.symm, hfirst⟩

theorem mem_of_mem_cut {sep : Char} (s : List Char) :
    ∀ piece ∈ cut sep s, ∀ c ∈ piece, c ∈ s := by
  intro piece hpiece c hc
  have hne : c ≠ sep := by
    rintro rfl
    exact notMem_cut s piece hpiece hc
  exact (mem_cut_iff hne s).mp ⟨piece, hpiece, hc⟩

theorem mem_join_iff {sep : List Char} {z : Char} (hz : z ∉ sep) (pieces : List (List Char)) :
    z ∈ join sep pieces ↔ ∃ piece ∈ pieces, z ∈ piece := by
  unfold join
  induction pieces with
  | nil => simp
  | cons piece pieces ih =>
    cases pieces with
    | nil => simp
    | cons next pieces =>
      rw [List.intercalate_cons_cons, List.mem_append, List.mem_append, ih]
      simp [hz]

/-- The lines of a text with their ends are the text. -/
theorem flatten_brokenLines (s : List Char) :
    (brokenLines s).flatMap (fun l => l.1 ++ l.2) = s := by
  induction s using brokenLines.induct with
  | case1 => rfl
  | case2 rest ih =>
    rw [brokenLines, List.flatMap_cons, ih]
    rfl
  | case3 c rest hcr hbreak ih =>
    rw [brokenLines, if_pos hbreak, List.flatMap_cons, ih]
    · rfl
    · exact hcr
  | case4 c rest hcr hbreak hrest ih =>
    rw [hrest] at ih
    rw [brokenLines, if_neg hbreak, hrest]
    · rw [← ih]
      rfl
    · exact hcr
  | case5 c rest hcr hbreak line ending more hrest ih =>
    rw [hrest] at ih
    rw [brokenLines, if_neg hbreak, hrest]
    · conv => rhs; rw [← ih]
      rfl
    · exact hcr

theorem eq_nil_of_lines {s : List Char} (h : lines s = []) : s = [] := by
  have hnone := List.map_eq_nil_iff.mp h
  rw [← flatten_brokenLines s, hnone]
  rfl

/-- A character that breaks no line belongs to the first. -/
theorem lines_cons {c : Char} (hc : isBreak c = false) (s : List Char) :
    lines (c :: s) = extendFirst c (lines s) := by
  have hcr : c ≠ '\r' := by
    rintro rfl
    cases hc
  unfold lines
  rw [brokenLines, if_neg (by rw [hc]; exact Bool.false_ne_true)]
  · cases brokenLines s with
    | nil => rfl
    | cons l ls => rfl
  · exact fun _ he => absurd he hcr

/-- A break ends a line, and a carriage return does so together with the line feed behind it. -/
theorem lines_break {c : Char} (hc : isBreak c = true) {s : List Char}
    (hcr : c = '\r' → s.head? ≠ some '\n') : lines (c :: s) = [] :: lines s := by
  unfold lines
  rw [brokenLines, if_pos hc]
  · rfl
  · rintro rest rfl rfl
    exact hcr rfl rfl

theorem lines_feed (s : List Char) : lines ('\n' :: s) = [] :: lines s :=
  lines_break (by decide) fun h => absurd h (by decide)

/-- A carriage return with a line feed behind it ends one line. -/
theorem lines_return_feed (s : List Char) : lines ('\r' :: '\n' :: s) = [] :: lines s := by
  unfold lines
  rw [brokenLines]
  rfl

theorem mem_indent_iff {margin : List Char} {z : Char} (hz : z ∉ margin) (s : List Char) :
    z ∈ indent margin s ↔ z ∈ s := by
  conv => rhs; rw [← flatten_brokenLines s]
  unfold indent
  rw [List.mem_flatMap, List.mem_flatMap]
  refine exists_congr fun l => and_congr_right fun _ => ?_
  dsimp only
  split
  · rw [List.nil_append]
  · rw [List.append_assoc, List.mem_append, or_iff_right hz]

/-! ## Margins -/

theorem commonStart_prefix_left (a b : List Char) : commonStart a b <+: a := by
  induction a generalizing b with
  | nil => exact List.nil_prefix
  | cons c a ih =>
    cases b with
    | nil => exact List.nil_prefix
    | cons d b =>
      rw [commonStart]
      split
      · rename_i h
        exact (List.prefix_cons_inj c).mpr (ih b)
      · exact List.nil_prefix

theorem commonStart_prefix_right (a b : List Char) : commonStart a b <+: b := by
  induction a generalizing b with
  | nil => exact List.nil_prefix
  | cons c a ih =>
    cases b with
    | nil => exact List.nil_prefix
    | cons d b =>
      rw [commonStart]
      split
      · rename_i h
        subst h
        exact (List.prefix_cons_inj c).mpr (ih b)
      · exact List.nil_prefix

/-- What many texts start with alike is the start of each. -/
theorem foldl_commonStart_prefix (ms : List (List Char)) : ∀ m : List Char,
    ms.foldl commonStart m <+: m ∧ ∀ n ∈ ms, ms.foldl commonStart m <+: n := by
  induction ms with
  | nil => exact fun m => ⟨List.prefix_refl m, fun n hn => absurd hn List.not_mem_nil⟩
  | cons n ms ih =>
    intro m
    obtain ⟨hfirst, hrest⟩ := ih (commonStart m n)
    refine ⟨hfirst.trans (commonStart_prefix_left m n), fun k hk => ?_⟩
    rcases List.mem_cons.mp hk with rfl | hk
    · exact hfirst.trans (commonStart_prefix_right m k)
    · exact hrest k hk

/-- Every line that is not margin only begins with the common margin. -/
theorem commonMargin_prefix {ls : List (List Char)} {l : List Char} (hl : l ∈ ls)
    (hm : l.all isMargin = false) : commonMargin ls <+: l.takeWhile isMargin := by
  have hmem : l.takeWhile isMargin
      ∈ (ls.filter fun l => !l.all isMargin).map (·.takeWhile isMargin) :=
    List.mem_map.mpr ⟨l, List.mem_filter.mpr ⟨hl, by rw [hm]; rfl⟩, rfl⟩
  unfold commonMargin
  split
  · rename_i h
    rw [h] at hmem
    exact absurd hmem List.not_mem_nil
  · rename_i m ms h
    rw [h] at hmem
    obtain ⟨hfirst, hrest⟩ := foldl_commonStart_prefix ms m
    rcases List.mem_cons.mp hmem with heq | hmem
    · rw [heq]
      exact hfirst
    · exact hrest _ hmem

/-- Taking a margin away leaves everything but margins and line feeds. -/
theorem mem_dedent_iff {z : Char} (hz : isMargin z = false) (hfeed : z ≠ '\n') (s : List Char) :
    z ∈ dedent s ↔ z ∈ s := by
  unfold dedent
  rw [mem_join_iff (by simpa using hfeed), ← mem_cut_iff hfeed s]
  have hline : ∀ l ∈ cut '\n' s,
      (z ∈ (if l.all isMargin then [] else l.drop (commonMargin (cut '\n' s)).length) ↔ z ∈ l) := by
    intro l hl
    cases hm : l.all isMargin with
    | true =>
      have hnot : z ∉ l := fun h => by
        rw [List.all_eq_true.mp hm z h] at hz
        cases hz
      simp [hnot]
    | false =>
      -- what is cut off is made of margin characters
      obtain ⟨t, ht⟩ := commonMargin_prefix hl hm
      have htake : l.take (commonMargin (cut '\n' s)).length <+: l.takeWhile isMargin := by
        have hlen : (commonMargin (cut '\n' s)).length ≤ (l.takeWhile isMargin).length := by
          rw [← ht, List.length_append]
          omega
        exact List.prefix_of_prefix_length_le (List.take_prefix _ l) (List.takeWhile_prefix _)
          (Nat.le_trans (List.length_take_le _ _) hlen)
      have hnot : z ∉ l.take (commonMargin (cut '\n' s)).length := fun h => by
        have hall := List.all_eq_true.mp List.all_takeWhile z (htake.subset h)
        rw [hz] at hall
        cases hall
      rw [if_neg Bool.false_ne_true]
      conv => rhs; rw [← List.take_append_drop (commonMargin (cut '\n' s)).length l]
      rw [List.mem_append, or_iff_right hnot]
  constructor
  · rintro ⟨piece, hpiece, hmem⟩
    obtain ⟨l, hl, rfl⟩ := List.mem_map.mp hpiece
    exact ⟨l, hl, (hline l hl).mp hmem⟩
  · rintro ⟨l, hl, hmem⟩
    exact ⟨_, List.mem_map.mpr ⟨l, hl, rfl⟩, (hline l hl).mpr hmem⟩

end LetTag.Text

namespace LetTag.Arrow

open Text

/-- The characters that marks and layout put in or take away: blanks, name characters and signs. -/
def isFrame (c : Char) : Bool :=
  isBlank c || c.isAlphanum || "_()=>,;:".toList.contains c || c == '{' || c == '}'

namespace Foreign

variable {z : Char} (h : isFrame z = false)

include h

theorem notMem {s : List Char} (hs : s.all isFrame = true) : z ∉ s := by
  intro hz
  rw [List.all_eq_true.mp hs z hz] at h
  cases h

theorem ne {c : Char} (hc : isFrame c = true) : z ≠ c := by
  rintro rfl
  rw [hc] at h
  cases h

theorem notBlank : isBlank z = false := by
  simp only [isFrame, Bool.or_eq_false_iff] at h
  exact h.1.1.1.1

theorem mem_markFrom_iff (p s : List Char) : ∀ r : Reading, z ∈ markFrom p r s ↔ z ∈ s := by
  induction s with
  | nil => exact fun r => Iff.rfl
  | cons c s ih =>
    intro r
    have hmark : z ∉ (if r.occurs p (c :: s) then parameterMark else []) := by
      split
      · exact notMem h (by decide)
      · exact List.not_mem_nil
    rw [markFrom, List.mem_append, or_iff_right hmark, List.mem_cons, List.mem_cons, ih]

theorem mem_marked_iff (ps : List (List Char)) (s : List Char) :
    z ∈ ps.foldl (fun b p => mark p b) s ↔ z ∈ s := by
  induction ps generalizing s with
  | nil => rfl
  | cons p ps ih =>
    rw [List.foldl_cons, ih]
    exact mem_markFrom_iff h p s .start

theorem mem_expressionBody_iff (s : List Char) : z ∈ expressionBody s ↔ z ∈ s := by
  have hfront : z ∉ margin ++ "return ".toList := notMem h (by decide)
  have hsemi : (z == ';') = false := beq_false_of_ne (ne h (by decide))
  unfold expressionBody
  rw [List.mem_append, or_iff_right hfront, mem_trim_iff (notBlank h),
    mem_dropEndWhile_iff (p := (· == ';')) hsemi]

theorem mem_blockContent_iff (inner : List Char) : z ∈ blockContent ('{' :: inner) ↔ z ∈ inner := by
  have hclose : z ≠ '}' := ne h (by decide)
  unfold blockContent
  dsimp only [List.drop_one, List.tail_cons]
  split
  · rename_i hlast
    rw [← mem_dropEndWhile_iff (notBlank h) inner]
    show z ∈ (trimRight inner).dropLast ↔ z ∈ trimRight inner
    have hlast' : (trimRight inner).getLast? = some '}' := hlast
    rcases List.eq_nil_or_concat (trimRight inner) with hnil | ⟨init, last, hinit⟩
    · rw [hnil]
      rfl
    · rw [List.concat_eq_append] at hinit
      rw [hinit, List.getLast?_concat] at hlast'
      rw [hinit, List.dropLast_concat, Option.some.inj hlast']
      simp [hclose]
  · rfl

/-- A line with something that is no blank is not blank. -/
theorem allBlank_of_mem {s : List Char} (hz : z ∈ s) : allBlank s = false := by
  refine Bool.eq_false_iff.mpr fun hall => ?_
  have hblank := List.all_eq_true.mp hall z hz
  rw [notBlank h] at hblank
  cases hblank

/-- Of the two parts of a block, the first line and the rest, only one that is blank is left out. -/
theorem mem_join_parts_iff (hfeeds : z ∉ ['\n']) (first rest : List Char) :
    z ∈ join ['\n'] ([first, rest].filter (!allBlank ·)) ↔ z ∈ first ∨ z ∈ rest := by
  rw [mem_join_iff hfeeds]
  constructor
  · rintro ⟨part, hpart, hz⟩
    rcases List.mem_cons.mp (List.mem_filter.mp hpart).1 with rfl | hpart
    · exact Or.inl hz
    · rw [List.mem_singleton.mp hpart] at hz
      exact Or.inr hz
  · rintro (hz | hz)
    · exact ⟨_, List.mem_filter.mpr ⟨List.mem_cons_self, by rw [allBlank_of_mem h hz]; rfl⟩, hz⟩
    · exact ⟨_, List.mem_filter.mpr ⟨List.mem_cons_of_mem _ List.mem_cons_self,
        by rw [allBlank_of_mem h hz]; rfl⟩, hz⟩

theorem mem_blockBody_iff (inner : List Char) : z ∈ blockBody ('{' :: inner) ↔ z ∈ inner := by
  have hfeed : z ≠ '\n' := ne h (by decide)
  have hfeedb : (z == '\n') = false := beq_false_of_ne hfeed
  have hfeeds : z ∉ ['\n'] := by simpa using hfeed
  have hwhite : isMargin z = false := by
    have hspace : (z == ' ') = false := beq_false_of_ne (ne h (by decide))
    have htab : (z == '\t') = false := beq_false_of_ne (ne h (by decide))
    rw [isMargin, hspace, htab]
    rfl
  have hmargin : z ∉ margin := notMem h (by decide)
  have hpass : z ∉ "pass".toList := notMem h (by decide)
  rw [← mem_blockContent_iff h inner, ← mem_cut_iff hfeed (blockContent ('{' :: inner))]
  unfold blockBody
  dsimp only
  rw [mem_indent_iff hmargin]
  generalize cut '\n' (blockContent ('{' :: inner)) = ls
  have htext : z ∈ join ['\n'] ([trim (ls.headD []), trimFeeds (dedent (join ['\n'] ls.tail))].filter
      (!allBlank ·)) ↔ ∃ l ∈ ls, z ∈ l := by
    rw [mem_join_parts_iff h hfeeds, mem_trim_iff (notBlank h), trimFeeds,
      mem_dropEndWhile_iff (p := (· == '\n')) hfeedb, mem_dropWhile_iff (p := (· == '\n')) hfeedb,
      mem_dedent_iff hwhite hfeed, mem_join_iff hfeeds]
    cases ls with
    | nil => simp
    | cons l ls => simp
  rw [← htext]
  split
  · -- nothing but blanks is left of the block
    rename_i hall
    constructor
    · exact fun hz => absurd hz hpass
    · intro hz
      rw [allBlank_of_mem h hz] at hall
      cases hall
  · rfl

/-- The layout of a body neither adds such a character nor takes it away. -/
theorem mem_layout_iff (s : List Char) : z ∈ layout s ↔ z ∈ s := by
  unfold layout
  split
  · rename_i hs
    cases s with
    | nil => cases hs
    | cons c inner =>
      obtain rfl : c = '{' := Option.some.inj hs
      rw [mem_blockBody_iff h, List.mem_cons, or_iff_right (ne h (by decide))]
  · exact mem_expressionBody_iff h s

/-- No parameter holds a foreign character. -/
theorem notMem_parameter {p : List Char} (hp : isParameter p = true) : z ∉ p := by
  refine notMem h (List.all_eq_true.mpr fun c hc => ?_)
  have hword : (c.isAlphanum || c == '_') = true := by
    cases p with
    | nil => cases hp
    | cons d rest =>
      obtain ⟨hd, hrest⟩ := Bool.and_eq_true_iff.mp hp
      rcases List.mem_cons.mp hc with rfl | hc
      · rcases Bool.or_eq_true_iff.mp hd with hd | hd
        · simp [Char.isAlphanum, hd]
        · rw [hd, Bool.or_true]
      · exact List.all_eq_true.mp hrest c hc
  rcases Bool.or_eq_true_iff.mp hword with hc | hc
  · simp [isFrame, hc]
  · obtain rfl := eq_of_beq hc
    decide

theorem notMem_inner {inner : List Char}
    (hps : (((cut ',' inner).map trim).filter (!·.isEmpty)).find? (!isParameter ·) = none) :
    z ∉ inner := by
  intro hz
  have hcomma : z ≠ ',' := ne h (by decide)
  obtain ⟨piece, hpiece, hmem⟩ := (mem_cut_iff hcomma inner).mpr hz
  have htrim := (mem_trim_iff (notBlank h) piece).mpr hmem
  have hne : (!(trim piece).isEmpty) = true := by
    cases ht : trim piece with
    | nil =>
      rw [ht] at htrim
      cases htrim
    | cons c s => rfl
  have hin : trim piece ∈ ((cut ',' inner).map trim).filter (!·.isEmpty) :=
    List.mem_filter.mpr ⟨List.mem_map.mpr ⟨piece, hpiece, rfl⟩, hne⟩
  have hparam := List.find?_eq_none.mp hps (trim piece) hin
  exact notMem_parameter h (by simpa using hparam) htrim

/-- The source holds it exactly if the body does. -/
theorem mem_sourceOf_iff {ps : List (List Char)} (hps : ∀ p ∈ ps, isParameter p = true)
    (body : List Char) : z ∈ sourceOf ps body ↔ z ∈ body := by
  have hlist : z ∉ join [',', ' '] (ps.map (parameterMark ++ ·)) := by
    rw [mem_join_iff (notMem h (by decide))]
    rintro ⟨_, hpiece, hz⟩
    obtain ⟨p, hp, rfl⟩ := List.mem_map.mp hpiece
    rcases List.mem_append.mp hz with hz | hz
    · exact notMem h (by decide) hz
    · exact notMem_parameter h (hps p hp) hz
  have hfront : z ∉ "def ".toList ++ functionName ++
      '(' :: join [',', ' '] (ps.map (parameterMark ++ ·)) ++ ")".toList ++ ":\n".toList := by
    simp only [List.mem_append, List.mem_cons, not_or]
    exact ⟨⟨⟨⟨notMem h (by decide), notMem h (by decide)⟩, ne h (by decide), hlist⟩,
      notMem h (by decide)⟩, notMem h (by decide)⟩
  have hfeed : z ∉ ['\n'] := notMem h (by decide)
  unfold sourceOf
  rw [List.mem_append, or_iff_left hfeed, List.mem_append, or_iff_right hfront]

end Foreign

/-- The parts of a definition that has the form of one. -/
theorem split?_some {expr inner body : List Char} (h : split? expr = some (inner, body)) :
    ∃ blanks rest, expr = '(' :: (inner ++ ')' :: (blanks ++ '=' :: '>' :: rest))
      ∧ (∀ c ∈ blanks, isBlank c = true) ∧ body = trimLeft rest := by
  unfold split? at h
  split at h
  · rename_i rest
    dsimp only at h
    split at h
    · rename_i behind hclose
      split at h
      · rename_i tail harrow
        split at h
        · cases h
        · cases h
          obtain ⟨blanks, hbehind, hblanks, -⟩ := trimLeft_between behind
          refine ⟨blanks, tail, ?_, hblanks, rfl⟩
          rw [← harrow, ← hbehind, ← hclose, List.takeWhile_append_dropWhile]
      · cases h
    · cases h
  · cases h

/-- Names that pass the check for distinct names come once each. -/
theorem nodup_of_distinct : ∀ {names : List (List Char)}, distinct names = true → names.Nodup
  | [], _ => List.nodup_nil
  | n :: names, h => by
    rw [distinct, Bool.and_eq_true, Bool.not_eq_true', ← Bool.not_eq_true,
      List.contains_iff_mem] at h
    exact List.nodup_cons.mpr ⟨h.1, nodup_of_distinct h.2⟩

/-- What a definition is made of. -/
theorem parts_of_ofText {expr : List Char} {a : Arrow} (h : ofText expr = .ok a) :
    ∃ inner body, split? (trim expr) = some (inner, body)
      ∧ a.parameters = ((cut ',' inner).map trim).filter (!·.isEmpty)
      ∧ a.parameters.Nodup ∧ (∀ p ∈ a.parameters, isParameter p = true)
      ∧ a.body = layout (a.parameters.foldl (fun b p => mark p b) (trim body))
      ∧ a.source = sourceOf a.parameters a.body := by
  unfold ofText at h
  dsimp only at h
  split at h
  · cases h
  · rename_i inner body hsplit
    split at h
    · cases h
    · rename_i hfind
      split at h
      · rename_i hdistinct
        cases h
        refine ⟨inner, body, hsplit, rfl, nodup_of_distinct hdistinct, ?_, rfl, rfl⟩
        intro p hp
        simpa using List.find?_eq_none.mp hfind p hp
      · cases h

/-- The source of an arrow holds a foreign character if the definition does. -/
theorem mem_source_iff {z : Char} (h : isFrame z = false) {expr : List Char} {a : Arrow}
    (ha : ofText expr = .ok a) : z ∈ a.source ↔ z ∈ expr := by
  unfold ofText at ha
  dsimp only at ha
  cases hsplit : split? (trim expr) with
  | none =>
    rw [hsplit] at ha
    cases ha
  | some parts =>
    obtain ⟨inner, body⟩ := parts
    obtain ⟨blanks, rest, hexpr, hblanks, hbody⟩ := split?_some hsplit
    rw [hsplit] at ha
    dsimp only at ha
    cases hfind : (((cut ',' inner).map trim).filter (!·.isEmpty)).find? (!isParameter ·) with
    | some p =>
      rw [hfind] at ha
      cases ha
    | none =>
      rw [hfind] at ha
      dsimp only at ha
      split at ha
      · cases ha
        have hps : ∀ p ∈ ((cut ',' inner).map trim).filter (!·.isEmpty), isParameter p = true := by
          simpa using List.find?_eq_none.mp hfind
        have hinner := Foreign.notMem_inner h hfind
        have hblank : z ∉ blanks := fun hz => by
          have hb := hblanks z hz
          rw [Foreign.notBlank h] at hb
          cases hb
        dsimp only
        rw [Foreign.mem_sourceOf_iff h hps, Foreign.mem_layout_iff h, Foreign.mem_marked_iff h,
          mem_trim_iff (Foreign.notBlank h), hbody, mem_trimLeft_iff (Foreign.notBlank h),
          ← mem_trim_iff (Foreign.notBlank h) expr, hexpr]
        have hopen : z ≠ '(' := Foreign.ne h (by decide)
        have hclose : z ≠ ')' := Foreign.ne h (by decide)
        have hequals : z ≠ '=' := Foreign.ne h (by decide)
        have hgreater : z ≠ '>' := Foreign.ne h (by decide)
        simp [hinner, hblank, hopen, hclose, hequals, hgreater]
      · cases ha

end LetTag.Arrow
