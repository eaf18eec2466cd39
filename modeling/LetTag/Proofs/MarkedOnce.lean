/-
  Marking all parameters in one pass.

  The body of an arrow definition is marked for one parameter after the other, and each pass reads
  what the passes before it wrote.  All together are one pass over the body (`foldl_mark`), which
  puts the mark in front of each free word that is a parameter.  But a marked word that is itself a
  parameter, and declared later, is marked again.  Without such words the passes mark each parameter
  once and their order does not matter; with one of them they do not, and it does
  (`ofText_marks_at_once`).
-/
import LetTag.Proofs.Source
import LetTag.Proofs.Weaving

namespace LetTag.Arrow

open Text Arrow.Reading

/-! ## All passes -/

/-- What the passes for the parameters put in front of a word: each marks it once more if it is their
    parameter together with the marks so far. -/
def marksFor (ps : List (List Char)) (w : List Char) : List Char :=
  ps.foldl (fun front p => if front ++ w = p then parameterMark ++ front else front) []

/-- The mark in front of a parameter, and nothing in front of any other word. -/
def markOnce (ps : List (List Char)) (w : List Char) : List Char :=
  if w ∈ ps then parameterMark else []

/-- The word is a parameter, and with the mark it is one that is declared later. -/
def Clashes (ps : List (List Char)) (w : List Char) : Prop :=
  ∃ before after, ps = before ++ w :: after ∧ parameterMark ++ w ∈ after

/-- Where nothing is put in, the text stays as it is. -/
theorem weaveFrom_nothing (s : List Char) : ∀ r : Reading, weaveFrom (fun _ => []) r s = s := by
  induction s with
  | nil => exact fun _ => rfl
  | cons c s ih =>
    intro r
    rw [weaveFrom, ite_self, ih]
    rfl

/-- **The passes for all parameters are one pass.** -/
theorem foldl_mark {ps : List (List Char)} (hps : ∀ p ∈ ps, isParameter p = true)
    (body : List Char) : ps.foldl (fun b p => mark p b) body = weave (marksFor ps) body := by
  have hfold : ∀ (front : List Char → List Char), (∀ w, ∀ c ∈ front w, isWord c = true) →
      ps.foldl (fun b p => mark p b) (weave front body)
        = weave (fun w => ps.foldl (fun front p => if front ++ w = p then parameterMark ++ front
          else front) (front w)) body := by
    induction ps with
    | nil => exact fun _ _ => rfl
    | cons p ps ih =>
      intro front hfront
      have hp := hps p List.mem_cons_self
      have hmark : mark p (weave front body) = weave (marking p front) body :=
        markFrom_weaveFrom hp hfront body (r := .start) trivial
      rw [List.foldl_cons, hmark,
        ih (fun q hq => hps q (List.mem_cons_of_mem p hq)) _ (isWord_marking hfront p)]
      rfl
  have hstart := hfold (fun _ => []) (fun _ => by simp)
  rw [show weave (fun _ => []) body = body from weaveFrom_nothing body .start] at hstart
  exact hstart

/-! ## What is put in front of a word -/

section

variable {w : List Char} {ps : List (List Char)}

/-- A word that is no parameter with what stands in front of it gets no more marks. -/
theorem marks_stay : ∀ {front : List Char}, front ++ w ∉ ps →
    ps.foldl (fun front p => if front ++ w = p then parameterMark ++ front else front) front
      = front := by
  induction ps with
  | nil => exact fun _ => rfl
  | cons p ps ih =>
    intro front h
    rw [List.mem_cons, not_or] at h
    rw [List.foldl_cons, if_neg h.1]
    exact ih h.2

theorem length_le_marks (ps : List (List Char)) : ∀ front : List Char, front.length
    ≤ (ps.foldl (fun front p => if front ++ w = p then parameterMark ++ front else front)
      front).length := by
  induction ps with
  | nil => exact fun _ => Nat.le_refl _
  | cons p ps ih =>
    intro front
    rw [List.foldl_cons]
    split
    · have hle := ih (parameterMark ++ front)
      rw [List.length_append] at hle
      omega
    · exact ih front

theorem length_lt_marks : ∀ {front : List Char}, front ++ w ∈ ps → front.length
    < (ps.foldl (fun front p => if front ++ w = p then parameterMark ++ front else front)
      front).length := by
  induction ps with
  | nil => exact fun h => absurd h List.not_mem_nil
  | cons p ps ih =>
    intro front h
    rw [List.foldl_cons]
    split
    · have hle := length_le_marks (w := w) ps (parameterMark ++ front)
      have hmark : parameterMark.length = 3 := rfl
      rw [List.length_append] at hle
      omega
    · rename_i hne
      rcases List.mem_cons.mp h with heq | hmem
      · exact absurd heq hne
      · exact ih hmem

/-- The first occurrence decides whether a word clashes. -/
theorem clashes_iff {before after : List (List Char)} (hbefore : w ∉ before) :
    Clashes (before ++ w :: after) w ↔ parameterMark ++ w ∈ after := by
  constructor
  · rintro ⟨before', after', heq, hmem⟩
    rcases List.append_eq_append_iff.mp heq with ⟨x, -, hx⟩ | ⟨x, hx, hx'⟩
    · cases x with
      | nil =>
        rw [(List.cons.inj hx).2]
        exact hmem
      | cons d x =>
        rw [(List.cons.inj hx).2]
        exact List.mem_append_right x (List.mem_cons_of_mem w hmem)
    · cases x with
      | nil =>
        rw [← (List.cons.inj hx').2]
        exact hmem
      | cons d x =>
        obtain ⟨rfl, -⟩ := List.cons.inj hx'
        refine absurd ?_ hbefore
        rw [hx]
        exact List.mem_append_right before' List.mem_cons_self
  · intro h
    exact ⟨before, after, rfl, h⟩

/-- A word that clashes is a parameter, and so is its mark. -/
theorem Clashes.mem (h : Clashes ps w) : w ∈ ps ∧ parameterMark ++ w ∈ ps := by
  obtain ⟨before, after, rfl, hmem⟩ := h
  exact ⟨List.mem_append_right before List.mem_cons_self,
    List.mem_append_right before (List.mem_cons_of_mem w hmem)⟩

/-- A word gets the mark if it is a parameter, and more than that if it clashes. -/
theorem marksFor_cases (ps : List (List Char)) (w : List Char) :
    (¬ Clashes ps w ∧ marksFor ps w = markOnce ps w)
      ∨ (Clashes ps w ∧ (markOnce ps w).length < (marksFor ps w).length) := by
  by_cases hw : w ∈ ps
  · have honce : markOnce ps w = parameterMark := if_pos hw
    obtain ⟨before, after, rfl, hbefore⟩ := List.eq_append_cons_of_mem hw
    have hmarks : marksFor (before ++ w :: after) w = after.foldl (fun front p =>
        if front ++ w = p then parameterMark ++ front else front) parameterMark := by
      unfold marksFor
      rw [List.foldl_append, marks_stay (show [] ++ w ∉ before from hbefore), List.foldl_cons,
        if_pos (List.nil_append w), List.append_nil]
    rw [clashes_iff hbefore, honce, hmarks]
    by_cases hmem : parameterMark ++ w ∈ after
    · exact Or.inr ⟨hmem, length_lt_marks hmem⟩
    · exact Or.inl ⟨hmem, marks_stay hmem⟩
  · left
    constructor
    · intro h
      exact hw h.mem.1
    · rw [markOnce, if_neg hw]
      exact marks_stay (show [] ++ w ∉ ps from hw)

theorem mark_append_ne (w : List Char) : parameterMark ++ w ≠ w := by
  intro heq
  have hlength := congrArg List.length heq
  rw [List.length_append] at hlength
  exact absurd hlength (by simp [parameterMark])

/-- A parameter in front of its marked form clashes with it, and behind it does not: it gets more in
    the one order than in the other. -/
theorem length_marksFor_swap (h : parameterMark ++ w ∉ ps) :
    (marksFor ((parameterMark ++ w) :: w :: ps) w).length
      < (marksFor (w :: (parameterMark ++ w) :: ps) w).length := by
  have hfirst : Clashes (w :: (parameterMark ++ w) :: ps) w := ⟨[], _, rfl, List.mem_cons_self⟩
  have hlast : ¬ Clashes ((parameterMark ++ w) :: w :: ps) w := by
    have hiff : Clashes ([parameterMark ++ w] ++ w :: ps) w ↔ parameterMark ++ w ∈ ps :=
      clashes_iff (by simpa using (mark_append_ne w).symm)
    exact mt hiff.mp h
  rcases marksFor_cases (w :: (parameterMark ++ w) :: ps) w with ⟨hno, -⟩ | ⟨-, hlt⟩
  · exact absurd hfirst hno
  · rcases marksFor_cases ((parameterMark ++ w) :: w :: ps) w with ⟨-, heq⟩ | ⟨hyes, -⟩
    · rw [heq]
      simpa [markOnce] using hlt
    · exact absurd hyes hlast

/-- Other words do not see the two change places. -/
theorem marksFor_swap {v : List Char} (hv : v ≠ w) :
    marksFor (w :: (parameterMark ++ w) :: ps) v = marksFor ((parameterMark ++ w) :: w :: ps) v := by
  unfold marksFor
  rw [List.foldl_cons, List.foldl_cons, List.foldl_cons, List.foldl_cons, List.nil_append,
    if_neg hv, List.nil_append]
  by_cases hmark : v = parameterMark ++ w
  · have hne : parameterMark ++ [] ++ v ≠ w := by
      rw [hmark]
      intro heq
      have hlength := congrArg List.length heq
      simp only [parameterMark, List.length_append, List.length_cons, List.length_nil] at hlength
      omega
    rw [if_pos hmark, if_neg hne]
  · rw [if_neg hmark, List.nil_append, if_neg hv]

end

/-! ## Two passes with different marks -/

section

variable {f g : List Char → List Char}

/-- What is put in depends on what is put in front of the free words of the text. -/
theorem weaveFrom_congr (s : List Char) : ∀ {r : Reading}, (∀ w ∈ freeWordsFrom r s, f w = g w) →
    weaveFrom f r s = weaveFrom g r s := by
  induction s with
  | nil => exact fun _ => rfl
  | cons c s ih =>
    intro r h
    rw [freeWordsFrom] at h
    have hrest := ih (r := r.next c s) fun w hw => h w (List.mem_append_right _ hw)
    rw [weaveFrom, weaveFrom, hrest]
    split
    · rename_i hfree
      rw [if_pos hfree] at h
      rw [h _ (List.mem_append_left _ List.mem_cons_self)]
    · rfl

variable (hfg : ∀ w, f w = g w ∨ (g w).length < (f w).length)
include hfg

/-- Putting in longer fronts makes a text no shorter. -/
theorem length_weaveFrom_le (s : List Char) : ∀ r : Reading,
    (weaveFrom g r s).length ≤ (weaveFrom f r s).length := by
  induction s with
  | nil => exact fun _ => Nat.le_refl _
  | cons c s ih =>
    intro r
    have hrest := ih (r.next c s)
    rw [weaveFrom, weaveFrom, List.length_append, List.length_append, List.length_cons,
      List.length_cons]
    split
    · rcases hfg ((c :: s).takeWhile isWord) with heq | hlt
      · rw [heq]
        omega
      · omega
    · omega

/-- Two passes of which one puts more in front of words give one text only if they put the same in
    front of the free ones. -/
theorem weaveFrom_eq_iff (s : List Char) : ∀ {r : Reading},
    weaveFrom f r s = weaveFrom g r s ↔ ∀ w ∈ freeWordsFrom r s, f w = g w := by
  intro r
  refine ⟨?_, weaveFrom_congr s⟩
  induction s generalizing r with
  | nil => exact fun _ w hw => absurd hw List.not_mem_nil
  | cons c s ih =>
    intro h w hw
    have hle := length_weaveFrom_le hfg s (r.next c s)
    rw [weaveFrom, weaveFrom] at h
    rw [freeWordsFrom] at hw
    cases hfree : r.isFree (c :: s) with
    | false =>
      rw [hfree] at h hw
      exact ih (List.cons.inj h).2 w hw
    | true =>
      rw [hfree, if_pos rfl, if_pos rfl] at h
      rw [hfree, if_pos rfl] at hw
      have hhead : f ((c :: s).takeWhile isWord) = g ((c :: s).takeWhile isWord) := by
        rcases hfg ((c :: s).takeWhile isWord) with heq | hlt
        · exact heq
        · have hlength := congrArg List.length h
          rw [List.length_append, List.length_append, List.length_cons, List.length_cons] at hlength
          omega
      rcases List.mem_append.mp hw with hw | hw
      · rw [List.mem_singleton.mp hw]
        exact hhead
      · rw [hhead] at h
        exact ih (List.cons.inj (List.append_cancel_left h)).2 w hw

end

/-- **The passes mark each parameter once** exactly if no free word of the body clashes. -/
theorem weave_marksFor_iff (ps : List (List Char)) (body : List Char) :
    weave (marksFor ps) body = weave (markOnce ps) body
      ↔ ∀ w ∈ freeWords body, ¬ Clashes ps w := by
  have hmarks : ∀ w, marksFor ps w = markOnce ps w ↔ ¬ Clashes ps w := by
    intro w
    rcases marksFor_cases ps w with ⟨hnot, heq⟩ | ⟨hclash, hlt⟩
    · exact iff_of_true heq hnot
    · refine iff_of_false (fun heq => ?_) (not_not_intro hclash)
      rw [heq] at hlt
      omega
  have hfg : ∀ w, marksFor ps w = markOnce ps w
      ∨ (markOnce ps w).length < (marksFor ps w).length := by
    intro w
    rcases marksFor_cases ps w with ⟨-, heq⟩ | ⟨-, hlt⟩
    · exact Or.inl heq
    · exact Or.inr hlt
  refine (weaveFrom_eq_iff hfg body).trans ?_
  exact forall₂_congr fun w _ => hmarks w

/-- **The order of the parameters does not matter** exactly if no free word of the body is a parameter
    whose marked form is one, too. -/
theorem weave_perm_iff {ps : List (List Char)} (hps : ps.Nodup) (body : List Char) :
    (∀ qs, qs.Perm ps → weave (marksFor qs) body = weave (marksFor ps) body)
      ↔ ∀ w ∈ freeWords body, w ∈ ps → parameterMark ++ w ∉ ps := by
  constructor
  · intro hsame w hw hmem hmark
    obtain ⟨rest, hrest⟩ : ∃ rest, (w :: (parameterMark ++ w) :: rest).Perm ps := by
      have hmark' : parameterMark ++ w ∈ ps.erase w :=
        (List.mem_erase_of_ne (mark_append_ne w)).mpr hmark
      exact ⟨_, ((List.perm_cons_erase hmark').symm.cons w).trans (List.perm_cons_erase hmem).symm⟩
    have hswap : ((parameterMark ++ w) :: w :: rest).Perm ps := (List.Perm.swap _ _ rest).trans hrest
    have hnodup := hrest.nodup_iff.mpr hps
    rw [List.nodup_cons, List.nodup_cons] at hnodup
    obtain ⟨-, hnot, -⟩ := hnodup
    have hlt := length_marksFor_swap hnot
    have hfg : ∀ v, marksFor (w :: (parameterMark ++ w) :: rest) v
          = marksFor ((parameterMark ++ w) :: w :: rest) v
        ∨ (marksFor ((parameterMark ++ w) :: w :: rest) v).length
          < (marksFor (w :: (parameterMark ++ w) :: rest) v).length := by
      intro v
      by_cases hv : v = w
      · rw [hv]
        exact Or.inr hlt
      · exact Or.inl (marksFor_swap hv)
    have heq := (weaveFrom_eq_iff hfg body).mp ((hsame _ hrest).trans (hsame _ hswap).symm) w hw
    rw [heq] at hlt
    exact absurd hlt (Nat.lt_irrefl _)
  · intro hnone qs hperm
    have honce : ∀ w, markOnce qs w = markOnce ps w := by
      intro w
      unfold markOnce
      exact if_congr hperm.mem_iff rfl rfl
    have hqs : weave (marksFor qs) body = weave (markOnce qs) body := by
      refine (weave_marksFor_iff qs body).mpr fun w hw hclash => ?_
      obtain ⟨hmem, hmark⟩ := hclash.mem
      exact hnone w hw (hperm.mem_iff.mp hmem) (hperm.mem_iff.mp hmark)
    have hps' : weave (marksFor ps) body = weave (markOnce ps) body := by
      refine (weave_marksFor_iff ps body).mpr fun w hw hclash => ?_
      obtain ⟨hmem, hmark⟩ := hclash.mem
      exact hnone w hw hmem hmark
    rw [hqs, hps']
    exact weaveFrom_congr body fun w _ => honce w

/-- **The body of a definition is marked in one pass.**  It marks each free word that is a parameter
    once, and no other one, exactly if no free word is a parameter whose marked form is declared
    later; and the order of the parameters is seen in the body only if there is a free word with both
    forms declared. -/
theorem ofText_marks_at_once {expr : List Char} {a : Arrow} (h : ofText expr = .ok a) :
    ∃ inner body, split? (trim expr) = some (inner, body)
      ∧ a.body = layout (weave (marksFor a.parameters) (trim body))
      ∧ a.source = sourceOf a.parameters a.body
      ∧ (weave (marksFor a.parameters) (trim body) = weave (markOnce a.parameters) (trim body)
        ↔ ∀ w ∈ freeWords (trim body), ¬ Clashes a.parameters w)
      ∧ ((∀ ps, ps.Perm a.parameters →
          weave (marksFor ps) (trim body) = weave (marksFor a.parameters) (trim body))
        ↔ ∀ w ∈ freeWords (trim body), w ∈ a.parameters → parameterMark ++ w ∉ a.parameters)
      ∧ ∀ expr' a' inner', ofText expr' = .ok a' → split? (trim expr') = some (inner', body) →
        a'.parameters.Perm a.parameters →
        (∀ w ∈ freeWords (trim body), w ∈ a.parameters → parameterMark ++ w ∉ a.parameters) →
        a'.body = a.body := by
  obtain ⟨inner, body, hsplit, -, hnodup, hnames, hbody, hsource⟩ := parts_of_ofText h
  rw [foldl_mark hnames] at hbody
  have horder := weave_perm_iff hnodup (trim body)
  refine ⟨inner, body, hsplit, hbody, hsource, weave_marksFor_iff _ _, horder, ?_⟩
  intro expr' a' inner' h' hsplit' hperm hnone
  obtain ⟨_, body', hparts, -, -, hnames', hbody', -⟩ := parts_of_ofText h'
  obtain ⟨-, rfl⟩ := Prod.mk.inj (Option.some.inj (hsplit'.symm.trans hparts))
  rw [hbody', foldl_mark hnames', horder.mpr hnone _ hperm, hbody]

/-- Two parameters, of which one is also the name of a keyword argument, an attribute and a word in a
    literal. -/
theorem ofText_marks_at_once_call : ∃ a, ofText "(x, y) => f(x=y, z.x) + 'x' + x".toList = .ok a
    ∧ a.body = layout (weave (markOnce a.parameters) "f(x=y, z.x) + 'x' + x".toList)
    ∧ a.body = "    return f(x=_p_y, z.x) + 'x' + _p_x".toList
    ∧ ∀ ps, ps.Perm a.parameters → weave (marksFor ps) "f(x=y, z.x) + 'x' + x".toList
      = weave (marksFor a.parameters) "f(x=y, z.x) + 'x' + x".toList := by
  have ha : ofText "(x, y) => f(x=y, z.x) + 'x' + x".toList = .ok
      ⟨[['x'], ['y']], "    return f(x=_p_y, z.x) + 'x' + _p_x".toList,
        sourceOf [['x'], ['y']] "    return f(x=_p_y, z.x) + 'x' + _p_x".toList⟩ := by
    rfl
  obtain ⟨inner, body, hsplit, hbody, -, honce, horder, -⟩ := ofText_marks_at_once ha
  have hparts : split? (trim "(x, y) => f(x=y, z.x) + 'x' + x".toList)
      = some ("x, y".toList, "f(x=y, z.x) + 'x' + x".toList) := by
    decide
  obtain ⟨-, rfl⟩ := Prod.mk.inj (Option.some.inj (hsplit.symm.trans hparts))
  have htrim : trim "f(x=y, z.x) + 'x' + x".toList = "f(x=y, z.x) + 'x' + x".toList := by
    decide
  have hnone : ∀ w ∈ [['x'], ['y']], parameterMark ++ w ∉ [['x'], ['y']] := by decide
  rw [htrim] at hbody honce horder
  refine ⟨_, ha, ?_, rfl, ?_⟩
  · rw [hbody, honce.mpr fun w _ hclash => hnone w hclash.mem.1 hclash.mem.2]
  · exact horder.mpr fun w _ hw => hnone w hw

/-- A parameter and its marked form: in one of the two orders the parameter is marked twice. -/
theorem ofText_marks_twice : ∃ a b, ofText "(x, _p_x) => x".toList = .ok a
    ∧ ofText "(_p_x, x) => x".toList = .ok b ∧ a.parameters.Perm b.parameters
    ∧ a.body ≠ layout (weave (markOnce a.parameters) ['x']) ∧ a.body ≠ b.body := by
  refine ⟨_, _, rfl, rfl, ?_, ?_, ?_⟩
  · exact List.Perm.swap _ _ _
  · decide
  · decide

end LetTag.Arrow
