/-
  Strings, words and numbers of JSON that are written are read back.

  Everything here is said of a text with another one behind it, because that is how the reader meets
  it.  A string ends by itself, at its closing quote.  A word or a number does not: what stands
  behind it must be nothing that it could go on with, and that is so inside a value and at the end of
  the text (`Stops`).  It is enough then to read the word or the number alone (`readWord_append`).
-/
import LetTag.Json.Reader
import LetTag.Json.Writer

namespace LetTag

namespace Text

/-! ## Digits -/

/-- The digit of a number stands for that number. -/
theorem digitOf_digitChar {d : Nat} (h : d < 16) : digitOf d.digitChar = d := by
  have hall : ∀ d < 16, digitOf d.digitChar = d := by decide
  exact hall d h

/-- The digit of a number is one in every base that the number is less than. -/
theorem isDigitIn_digitChar {base d : Nat} (hd : d < base) (hbase : base ≤ 16) :
    isDigitIn base d.digitChar = true := by
  have hall : ∀ d < 16, (d.digitChar.isDigit
      || ('a' ≤ d.digitChar.toLower && d.digitChar.toLower ≤ 'f')) = true := by
    decide
  rw [isDigitIn, hall d (by omega), digitOf_digitChar (by omega), Bool.true_and]
  exact decide_eq_true hd

theorem ofDigits_append (base : Nat) (ds : List Char) (d : Char) :
    ofDigits base (ds ++ [d]) = base * ofDigits base ds + digitOf d := by
  rw [ofDigits, List.foldl_append]
  rfl

/-- Digits write the number that they are the digits of. -/
theorem ofDigits_toDigits {base : Nat} (hone : 1 < base) (hbase : base ≤ 16) (n : Nat) :
    ofDigits base (Nat.toDigits base n) = n := by
  induction n using Nat.strongRecOn with
  | ind n ih =>
    by_cases hn : n < base
    · rw [Nat.toDigits_of_lt_base hn]
      show base * 0 + digitOf n.digitChar = n
      rw [digitOf_digitChar (by omega), Nat.mul_zero, Nat.zero_add]
    · have hmod := Nat.mod_lt n (show 0 < base by omega)
      have hdiv : n / base < n := Nat.div_lt_self (by omega) hone
      rw [Nat.toDigits_of_base_le hone (by omega), ofDigits_append, ih _ hdiv,
        digitOf_digitChar (by omega)]
      exact Nat.div_add_mod n base

theorem isDigitIn_toDigits {base : Nat} (hone : 1 < base) (hbase : base ≤ 16) (n : Nat) :
    ∀ c ∈ Nat.toDigits base n, isDigitIn base c = true := by
  induction n using Nat.strongRecOn with
  | ind n ih =>
    intro c hc
    by_cases hn : n < base
    · rw [Nat.toDigits_of_lt_base hn] at hc
      rw [List.mem_singleton.mp hc]
      exact isDigitIn_digitChar hn hbase
    · rw [Nat.toDigits_of_base_le hone (by omega)] at hc
      rcases List.mem_append.mp hc with hc | hc
      · exact ih _ (Nat.div_lt_self (by omega) hone) c hc
      · rw [List.mem_singleton.mp hc]
        exact isDigitIn_digitChar (Nat.mod_lt n (by omega)) hbase

/-- Zeros in front change nothing. -/
theorem ofDigits_zeros (base width : Nat) (ds : List Char) :
    ofDigits base (List.replicate width '0' ++ ds) = ofDigits base ds := by
  induction width with
  | zero => rfl
  | succ width ih =>
    rw [← ih, List.replicate_succ, List.cons_append]
    show List.foldl _ (base * 0 + digitOf '0') _ = List.foldl _ 0 _
    rw [Nat.mul_zero, Nat.zero_add]
    rfl

end Text

namespace Json

open Number Text

/-- Four digits write a unit. -/
theorem unit?_hexDigits {n : Nat} (h : n < 0x10000) : ∃ a b c d,
    hexDigits 4 n = [a, b, c, d] ∧ unit? a b c d = some n := by
  have hlength : (hexDigits 4 n).length = 4 := by
    have hle := (Nat.length_toDigits_le_iff (b := 16) (n := n) (k := 4) (by omega) (by omega)).mpr h
    rw [hexDigits, List.length_append, List.length_replicate]
    omega
  have hdigits : ∀ c ∈ hexDigits 4 n, isDigitIn 16 c = true := by
    intro c hc
    rcases List.mem_append.mp hc with hc | hc
    · rw [List.eq_of_mem_replicate hc]
      decide
    · exact isDigitIn_toDigits (by omega) (by omega) n c hc
  have hvalue : ofDigits 16 (hexDigits 4 n) = n := by
    rw [hexDigits, ofDigits_zeros, ofDigits_toDigits (by omega) (by omega)]
  generalize hexDigits 4 n = ds at hlength hdigits hvalue
  rcases ds with _ | ⟨a, _ | ⟨b, _ | ⟨c, _ | ⟨d, _ | ⟨e, ds⟩⟩⟩⟩⟩
  case cons.cons.cons.cons.nil =>
    refine ⟨a, b, c, d, rfl, ?_⟩
    rw [unit?, if_pos (List.all_eq_true.mpr hdigits), hvalue]
  all_goals simp at hlength

/-! ## Strings -/

/-- A character is put in front of the string that follows. -/
theorem keep_eq {n : Nat} {rest s after : List Char} (h : stringFrom n rest = some (s, after))
    (c : Char) :
    (stringFrom n rest).bind (fun r => some (c :: r.1, r.2)) = some (c :: s, after) := by
  rw [h]
  rfl

/-- A unit that is no half of a pair is read as its character. -/
theorem stringFrom_unit {n u : Nat} {rest s after : List Char}
    (h : stringFrom n rest = some (s, after)) {c : Char} (hc : c.toNat = u) (hu : u < 0x10000) :
    stringFrom (n + 1) ('\\' :: 'u' :: (hexDigits 4 u ++ rest)) = some (c :: s, after) := by
  obtain ⟨x₁, x₂, x₃, x₄, hdigits, hunit⟩ := unit?_hexDigits hu
  have hvalid : c.toNat.isValidChar := c.valid
  -- a character is no half of a pair
  have hnot : (0xD800 ≤ u && u < 0xDC00) = false := by
    simp only [Bool.and_eq_false_iff, decide_eq_false_iff_not]
    unfold Nat.isValidChar at hvalid
    omega
  have hchar : charOf? u = some c := by
    rw [← hc, charOf?, if_pos hvalid, Char.ofNat_toNat]
  rw [hdigits]
  unfold stringFrom
  show (unit? x₁ x₂ x₃ x₄).bind _ = _
  rw [hunit]
  show (if (0xD800 ≤ u && u < 0xDC00) = true then _ else _) = _
  rw [hnot, if_neg Bool.false_ne_true]
  show (charOf? u).bind _ = _
  rw [hchar]
  exact keep_eq h c

/-- The units of a character beyond the first plane. -/
theorem units_of_large {c : Char} (hc : 0x10000 ≤ c.toNat) : ∃ high low, units c = [high, low]
    ∧ (0xD800 ≤ high ∧ high < 0xDC00) ∧ (0xDC00 ≤ low ∧ low < 0xE000)
    ∧ 0x10000 + (high - 0xD800) * 0x400 + (low - 0xDC00) = c.toNat := by
  have hvalid : c.toNat < 0xD800 ∨ 0xDFFF < c.toNat ∧ c.toNat < 0x110000 := c.valid
  exact ⟨_, _, if_neg (by omega), by omega, by omega, by omega⟩

/-- A pair of units is read as the character that it stands for. -/
theorem stringFrom_pair {n high low : Nat} {rest s after : List Char}
    (h : stringFrom n rest = some (s, after)) {c : Char} (hhigh : 0xD800 ≤ high ∧ high < 0xDC00)
    (hlow : 0xDC00 ≤ low ∧ low < 0xE000)
    (hsum : 0x10000 + (high - 0xD800) * 0x400 + (low - 0xDC00) = c.toNat) :
    stringFrom (n + 1) ('\\' :: 'u' :: (hexDigits 4 high
      ++ '\\' :: 'u' :: (hexDigits 4 low ++ rest))) = some (c :: s, after) := by
  obtain ⟨x₁, x₂, x₃, x₄, hdigits, hunit⟩ := unit?_hexDigits (n := high) (by omega)
  obtain ⟨y₁, y₂, y₃, y₄, hdigits', hunit'⟩ := unit?_hexDigits (n := low) (by omega)
  have hfirst : (0xD800 ≤ high && high < 0xDC00) = true := by
    simpa only [Bool.and_eq_true, decide_eq_true_eq] using hhigh
  have hsecond : (0xDC00 ≤ low && low < 0xE000) = true := by
    simpa only [Bool.and_eq_true, decide_eq_true_eq] using hlow
  rw [hdigits, hdigits']
  unfold stringFrom
  show (unit? x₁ x₂ x₃ x₄).bind _ = _
  rw [hunit]
  show (if (0xD800 ≤ high && high < 0xDC00) = true then _ else _) = _
  rw [hfirst, if_pos rfl]
  show (unit? y₁ y₂ y₃ y₄).bind _ = _
  rw [hunit']
  show (if (0xDC00 ≤ low && low < 0xE000) = true then _ else _) = _
  rw [hsecond, if_pos rfl, hsum, Char.ofNat_toNat]
  exact keep_eq h c

/-- A printable character is read as it stands. -/
theorem stringFrom_plain {n : Nat} {rest s after : List Char}
    (h : stringFrom n rest = some (s, after)) {c : Char} (hquote : c ≠ '"') (hslash : c ≠ '\\')
    (hc : 32 ≤ c.toNat) : stringFrom (n + 1) (c :: rest) = some (c :: s, after) := by
  rw [stringFrom.eq_def]
  dsimp only
  split
  · rename_i heq
    exact absurd (List.cons.inj heq).1 hquote
  · rename_i heq
    exact absurd (List.cons.inj heq).1 hslash
  · rename_i heq
    exact absurd (List.cons.inj heq).1 hslash
  · rename_i heq
    obtain ⟨rfl, rfl⟩ := List.cons.inj heq
    rw [if_neg (by omega)]
    exact keep_eq h c
  · rename_i heq
    cases heq

/-- An escaped character is read as itself. -/
theorem stringFrom_escape {n : Nat} {rest s after : List Char}
    (h : stringFrom n rest = some (s, after)) (c : Char) :
    stringFrom (n + 1) (escape c ++ rest) = some (c :: s, after) := by
  unfold escape
  split
  · exact keep_eq h '"'
  · exact keep_eq h '\\'
  · exact keep_eq h '\n'
  · exact keep_eq h '\r'
  · exact keep_eq h '\t'
  · exact keep_eq h '\x08'
  · exact keep_eq h '\x0c'
  · rename_i hquote hslash _ _ _ _ _
    split
    · rename_i hplain
      rw [Bool.and_eq_true, decide_eq_true_eq] at hplain
      exact stringFrom_plain h hquote hslash hplain.1
    · -- what is not printable is written by its units, of which there are one or two
      by_cases hsmall : c.toNat < 0x10000
      · have hunits : units c = [c.toNat] := if_pos hsmall
        rw [hunits, List.flatMap_cons, List.flatMap_nil, List.append_nil]
        exact stringFrom_unit h rfl hsmall
      · obtain ⟨high, low, hunits, hhigh, hlow, hsum⟩ := units_of_large (Nat.le_of_not_lt hsmall)
        rw [hunits]
        simp only [List.flatMap_cons, List.flatMap_nil, List.append_nil, List.cons_append,
          List.append_assoc]
        exact stringFrom_pair h hhigh hlow hsum

/-- What stands between the quotes of a string is read as the text. -/
theorem stringFrom_string (s rest : List Char) : ∀ {n : Nat}, s.length < n →
    stringFrom n (s.flatMap escape ++ '"' :: rest) = some (s, rest) := by
  -- each character takes one step, however many characters it is written by
  induction s with
  | nil =>
    intro n hn
    obtain ⟨n, rfl⟩ : ∃ m, n = m + 1 := ⟨n - 1, by rw [List.length_nil] at hn; omega⟩
    rfl
  | cons c s ih =>
    intro n hn
    rw [List.length_cons] at hn
    obtain ⟨n, rfl⟩ : ∃ m, n = m + 1 := ⟨n - 1, by omega⟩
    rw [List.flatMap_cons, List.append_assoc]
    exact stringFrom_escape (ih (by omega)) c

theorem escape_ne_nil (c : Char) : escape c ≠ [] := by
  unfold escape
  split
  case h_8 =>
    split
    · exact List.cons_ne_nil _ _
    · have hunits : units c ≠ [] := by
        unfold units
        dsimp only
        split
        · exact List.cons_ne_nil _ _
        · exact List.cons_ne_nil _ _
      obtain ⟨u, us, hus⟩ := List.exists_cons_of_ne_nil hunits
      rw [hus, List.flatMap_cons]
      exact List.cons_ne_nil _ _
  all_goals exact List.cons_ne_nil _ _

theorem length_le_flatMap_escape (s : List Char) : s.length ≤ (s.flatMap escape).length := by
  induction s with
  | nil => exact Nat.zero_le _
  | cons c s ih =>
    have hc := List.length_pos_iff.mpr (escape_ne_nil c)
    rw [List.flatMap_cons, List.length_append, List.length_cons]
    omega

/-- A string is read behind its opening quote. -/
theorem readString_string (s rest : List Char) :
    readString (s.flatMap escape ++ '"' :: rest) = .ok (s, rest) := by
  have hlength := length_le_flatMap_escape s
  rw [readString, stringFrom_string s rest (by rw [List.length_append]; omega)]

/-! ## Words and numbers -/

section

variable {cs : List Char}

/-- Without a minus sign in front there is no sign. -/
theorem sign_of_ne (h : ∀ tail, cs ≠ '-' :: tail) : sign cs = (false, cs) := by
  unfold sign
  split
  · exact absurd rfl (h _)
  · rfl

/-- The whole part of a number that starts with no zero is all digits in front. -/
theorem whole_of_ne (h : ∀ tail, cs ≠ '0' :: tail) : whole cs = digits cs := by
  unfold whole
  split
  · exact absurd rfl (h _)
  · rfl

theorem fraction_of_ne (h : ∀ tail, cs ≠ '.' :: tail) : fraction cs = (none, cs) := by
  unfold fraction
  split
  · exact absurd rfl (h _)
  · rfl

/-- Without a sign in front the exponent is positive. -/
theorem exponentSign_of_ne (hminus : ∀ tail, cs ≠ '-' :: tail) (hplus : ∀ tail, cs ≠ '+' :: tail) :
    exponentSign cs = (1, cs) := by
  unfold exponentSign
  split
  · exact absurd rfl (hminus _)
  · exact absurd rfl (hplus _)
  · rfl

end

/-- Nothing that could belong to a word or a number stands in front. -/
def Stops (rest : List Char) : Prop :=
  ∀ c, rest.head? = some c → c ∈ [',', ']', '\x7d']

section

variable {rest : List Char} (hrest : Stops rest)
include hrest

theorem Stops.head_ne {c : Char} {tail : List Char} (hc : c ∉ [',', ']', '\x7d']) :
    rest ≠ c :: tail := by
  rintro rfl
  exact hc (hrest c rfl)

theorem Stops.digits_eq : digits rest = ([], rest) := by
  have hmarks : ∀ c ∈ [',', ']', '\x7d'], ¬ c.isDigit = true := by decide
  unfold digits
  cases rest with
  | nil => rfl
  | cons c rest =>
    have hc := hmarks c (hrest c rfl)
    rw [List.takeWhile_cons_of_neg hc, List.dropWhile_cons_of_neg hc]

/-- Digits end where they did with such a text behind them. -/
theorem digits_append (cs : List Char) :
    digits (cs ++ rest) = ((digits cs).1, (digits cs).2 ++ rest) := by
  induction cs with
  | nil => exact hrest.digits_eq
  | cons c cs ih =>
    by_cases hc : c.isDigit = true
    · unfold digits at ih ⊢
      rw [List.cons_append, List.takeWhile_cons_of_pos hc, List.dropWhile_cons_of_pos hc,
        List.takeWhile_cons_of_pos hc, List.dropWhile_cons_of_pos hc, (Prod.mk.inj ih).1,
        (Prod.mk.inj ih).2]
    · unfold digits
      rw [List.cons_append, List.takeWhile_cons_of_neg hc, List.dropWhile_cons_of_neg hc,
        List.takeWhile_cons_of_neg hc, List.dropWhile_cons_of_neg hc]
      rfl

/-- A character that could go on stands in front only if it did before. -/
theorem Stops.append_ne {c : Char} (hc : c ∉ [',', ']', '\x7d']) {cs : List Char}
    (h : ∀ tail, cs ≠ c :: tail) (tail : List Char) : cs ++ rest ≠ c :: tail := by
  cases cs with
  | nil => exact hrest.head_ne hc
  | cons d cs =>
    intro heq
    obtain ⟨rfl, -⟩ := List.cons.inj heq
    exact h cs rfl

/-- So does a sign. -/
theorem sign_append (cs : List Char) :
    sign (cs ++ rest) = ((sign cs).1, (sign cs).2 ++ rest) := by
  by_cases h : ∃ tail, cs = '-' :: tail
  · obtain ⟨tail, rfl⟩ := h
    rfl
  · have hne : ∀ tail, cs ≠ '-' :: tail := fun tail heq => h ⟨tail, heq⟩
    rw [sign_of_ne hne, sign_of_ne (hrest.append_ne (by decide) hne)]

/-- So does the part before the point. -/
theorem whole_append (cs : List Char) :
    whole (cs ++ rest) = ((whole cs).1, (whole cs).2 ++ rest) := by
  by_cases h : ∃ tail, cs = '0' :: tail
  · obtain ⟨tail, rfl⟩ := h
    rfl
  · have hne : ∀ tail, cs ≠ '0' :: tail := fun tail heq => h ⟨tail, heq⟩
    rw [whole_of_ne hne, whole_of_ne (hrest.append_ne (by decide) hne)]
    exact digits_append hrest cs

/-- So does the part behind the point. -/
theorem fraction_append (cs : List Char) :
    fraction (cs ++ rest) = ((fraction cs).1, (fraction cs).2 ++ rest) := by
  by_cases h : ∃ tail, cs = '.' :: tail
  · obtain ⟨tail, rfl⟩ := h
    rw [List.cons_append, fraction, fraction, digits_append hrest tail]
    dsimp only
    -- a point without digits stays in front
    split
    · rfl
    · rfl
  · have hne : ∀ tail, cs ≠ '.' :: tail := fun tail heq => h ⟨tail, heq⟩
    rw [fraction_of_ne hne, fraction_of_ne (hrest.append_ne (by decide) hne)]

/-- So does the sign of an exponent. -/
theorem exponentSign_append (cs : List Char) :
    exponentSign (cs ++ rest) = ((exponentSign cs).1, (exponentSign cs).2 ++ rest) := by
  by_cases h : ∃ c tail, cs = c :: tail ∧ (c = '-' ∨ c = '+')
  · obtain ⟨c, tail, rfl, rfl | rfl⟩ := h
    · rfl
    · rfl
  · have hminus : ∀ tail, cs ≠ '-' :: tail := fun tail heq => h ⟨_, tail, heq, .inl rfl⟩
    have hplus : ∀ tail, cs ≠ '+' :: tail := fun tail heq => h ⟨_, tail, heq, .inr rfl⟩
    rw [exponentSign_of_ne hminus hplus, exponentSign_of_ne (hrest.append_ne (by decide) hminus)
      (hrest.append_ne (by decide) hplus)]

/-- So does an exponent. -/
theorem exponent_append (cs : List Char) :
    exponent (cs ++ rest) = ((exponent cs).1, (exponent cs).2 ++ rest) := by
  have hmarks : ∀ c ∈ [',', ']', '\x7d'], (c == 'e' || c == 'E') = false := by decide
  cases cs with
  | nil =>
    show exponent rest = (none, rest)
    cases rest with
    | nil => rfl
    | cons c rest =>
      rw [exponent]
      dsimp only
      rw [hmarks c (hrest c rfl), Bool.false_and, if_neg Bool.false_ne_true]
  | cons c cs =>
    rw [List.cons_append, exponent, exponent, exponentSign_append hrest cs]
    dsimp only
    rw [digits_append hrest]
    dsimp only
    split
    · rfl
    · rfl

/-- A number that is read is read alike with such a text behind it. -/
theorem readNumber_append {cs after : List Char} {v : Value} (h : readNumber cs = .ok (v, after)) :
    readNumber (cs ++ rest) = .ok (v, after ++ rest) := by
  unfold readNumber at h ⊢
  rw [sign_append hrest]
  dsimp only at h ⊢
  rw [whole_append hrest]
  dsimp only
  rw [fraction_append hrest]
  dsimp only
  rw [exponent_append hrest]
  dsimp only
  split at h
  · cases h
  · rename_i hds
    rw [if_neg hds]
    cases hnumber : numberOf (sign cs).1 (whole (sign cs).2).1 (fraction (whole (sign cs).2).2).1
      (exponent (fraction (whole (sign cs).2).2).2).1 with
    | error e =>
      rw [hnumber] at h
      cases h
    | ok w =>
      rw [hnumber] at h
      obtain ⟨rfl, rfl⟩ := Prod.mk.inj (Except.ok.inj h)
      rfl

/-- Such a text belongs to no word. -/
theorem isPrefixOf_append {w cs : List Char} {s : Scalar} (hw : (w, s) ∈ words) :
    w.isPrefixOf (cs ++ rest) = w.isPrefixOf cs := by
  have hmarks : ∀ c ∈ w, c ∉ [',', ']', '\x7d'] := by
    unfold words at hw
    simp only [List.mem_cons, List.not_mem_nil, or_false] at hw
    rcases hw with h | h | h | h | h | h
    all_goals
      rw [(Prod.mk.inj h).1]
      decide
  rw [Bool.eq_iff_iff, List.isPrefixOf_iff_prefix, List.isPrefixOf_iff_prefix]
  constructor
  · intro h
    rcases Nat.lt_or_ge cs.length w.length with hlt | hle
    · -- the word would go on with the first character behind the text
      obtain ⟨tail, rfl⟩ := List.prefix_of_prefix_length_le (List.prefix_append cs rest) h
        (Nat.le_of_lt hlt)
      obtain ⟨more, hmore⟩ := (List.prefix_append_right_inj cs).mp h
      cases tail with
      | nil =>
        rw [List.append_nil] at hlt
        exact absurd hlt (Nat.lt_irrefl _)
      | cons c tail =>
        have hc : c ∈ [',', ']', '\x7d'] := hrest c (by rw [← hmore]; rfl)
        exact absurd hc (hmarks c (List.mem_append_right cs List.mem_cons_self))
    · exact List.prefix_of_prefix_length_le h (List.prefix_append cs rest) hle
  · exact fun h => h.trans (List.prefix_append cs rest)

/-- A word or a number that is all of a text is read with such a text behind it. -/
theorem readWord_append {cs : List Char} {v : Value} (h : readWord cs = .ok (v, [])) :
    readWord (cs ++ rest) = .ok (v, rest) := by
  have hsame : words.find? (·.1.isPrefixOf (cs ++ rest)) = words.find? (·.1.isPrefixOf cs) := by
    rw [← List.head?_filter, ← List.head?_filter]
    exact congrArg _ (List.filter_congr fun w hw => isPrefixOf_append hrest hw)
  unfold readWord at h ⊢
  rw [hsame]
  cases hfind : words.find? (·.1.isPrefixOf cs) with
  | none =>
    rw [hfind] at h
    exact readNumber_append hrest h
  | some word =>
    rw [hfind] at h
    obtain ⟨hv, hdrop⟩ := Prod.mk.inj (Except.ok.inj h)
    have hfound : word.1.isPrefixOf cs = true := by
      rw [List.find?_eq_some_iff_append] at hfind
      exact hfind.1
    have hprefix : word.1 <+: cs := List.isPrefixOf_iff_prefix.mp hfound
    have hword : word.1 = cs :=
      hprefix.eq_of_length_le (List.drop_eq_nil_iff.mp hdrop)
    dsimp only
    rw [hword, List.drop_left, hv]

end

/-- The digits of a number that is not zero begin with no zero. -/
theorem head?_toDigits {k : Nat} (hk : 0 < k) : (Nat.toDigits 10 k).head? ≠ some '0' := by
  have hdigit : ∀ d < 10, 0 < d → d.digitChar ≠ '0' := by decide
  induction k using Nat.strongRecOn with
  | ind k ih =>
    by_cases hsmall : k < 10
    · rw [Nat.toDigits_of_lt_base hsmall]
      exact fun h => hdigit k hsmall hk (Option.some.inj h)
    · have hdiv : k / 10 < k := Nat.div_lt_self hk (by omega)
      have hhead := ih (k / 10) hdiv (by omega)
      have hne : Nat.toDigits 10 (k / 10) ≠ [] := Nat.toDigits_ne_nil
      obtain ⟨c, ds, hds⟩ := List.exists_cons_of_ne_nil hne
      rw [hds] at hhead
      rw [Nat.toDigits_of_base_le (by omega) (by omega), hds]
      exact hhead

/-- The digits of a number are the part before the point. -/
theorem whole_toDigits (k : Nat) : whole (Nat.toDigits 10 k) = (Nat.toDigits 10 k, []) := by
  rcases Nat.eq_zero_or_pos k with rfl | hk
  · rfl
  · have hhead : ∀ tail, Nat.toDigits 10 k ≠ '0' :: tail :=
      fun tail heq => head?_toDigits hk (congrArg List.head? heq)
    have hdigits : ∀ c ∈ Nat.toDigits 10 k, c.isDigit = true :=
      fun c hc => Nat.isDigit_of_mem_toDigits (by omega) (by omega) hc
    have htake : (Nat.toDigits 10 k ++ []).takeWhile Char.isDigit = Nat.toDigits 10 k ++ [] :=
      List.takeWhile_append_of_pos hdigits
    have hdrop : (Nat.toDigits 10 k ++ []).dropWhile Char.isDigit = [] :=
      List.dropWhile_append_of_pos hdigits
    rw [List.append_nil] at htake hdrop
    rw [whole_of_ne hhead, digits, htake, hdrop]

/-- A number below a power of ten has no more digits than its exponent. -/
theorem length_toDigits_le {k limit : Nat} (hlimit : 0 < limit) (h : k < tenTo limit) :
    (Nat.toDigits 10 k).length ≤ limit :=
  (Nat.length_toDigits_le_iff (by decide) hlimit).mpr h

/-- No word begins as a number does. -/
theorem find?_words_eq_none {cs tail : List Char} {negative : Bool} {c : Char}
    (hsign : sign cs = (negative, c :: tail)) (hc : c.isDigit = true) :
    words.find? (·.1.isPrefixOf cs) = none := by
  have hletters : ∀ x ∈ ['n', 't', 'f', 'N', 'I', '-'], (x == c) = false := by
    have hnot : ∀ x ∈ ['n', 't', 'f', 'N', 'I', '-'], x.isDigit = false := by decide
    intro x hx
    refine beq_false_of_ne ?_
    rintro rfl
    rw [hnot x hx] at hc
    cases hc
  have hcs : cs = c :: tail ∨ cs = '-' :: c :: tail := by
    unfold sign at hsign
    split at hsign
    · exact .inr (congrArg ('-' :: ·) (Prod.mk.inj hsign).2)
    · exact .inl (Prod.mk.inj hsign).2
  rcases hcs with rfl | rfl
  · simp [words, List.isPrefixOf, hletters]
  · simp [words, List.isPrefixOf, hletters]

/-- An integer is read, if it may be written. -/
theorem readWord_int {n : Int} (h : withinDigitLimit n = true) :
    readWord (intText n) = .ok (.int n, []) := by
  have hlimit : n.natAbs < tenTo digitLimit := of_decide_eq_true h
  have hlength : ¬ (Nat.toDigits 10 n.natAbs).length > digitLimit :=
    Nat.not_lt.mpr (length_toDigits_le (by decide) hlimit)
  have hne : Nat.toDigits 10 n.natAbs ≠ [] := Nat.toDigits_ne_nil
  obtain ⟨c, ds, hds⟩ := List.exists_cons_of_ne_nil hne
  have hc : c.isDigit = true :=
    Nat.isDigit_of_mem_toDigits (b := 10) (n := n.natAbs) (by omega) (by omega)
      (hds ▸ List.mem_cons_self)
  obtain ⟨negative, hsign, hvalue⟩ : ∃ negative,
      sign (intText n) = (negative, Nat.toDigits 10 n.natAbs) ∧ signed negative n.natAbs = n := by
    by_cases hn : n < 0
    · refine ⟨true, ?_, ?_⟩
      · rw [intText, if_pos hn]
        rfl
      · show -(n.natAbs : Int) = n
        omega
    · refine ⟨false, ?_, ?_⟩
      · rw [intText, if_neg hn, digitsOf, List.nil_append, hds]
        refine sign_of_ne fun tail heq => ?_
        rw [(List.cons.inj heq).1] at hc
        cases hc
      · show (n.natAbs : Int) = n
        omega
  rw [readWord, find?_words_eq_none (hds ▸ hsign) hc]
  dsimp only
  rw [readNumber, hsign]
  dsimp only
  rw [whole_toDigits]
  show (if (Nat.toDigits 10 n.natAbs).isEmpty = true then _
    else (numberOf negative (Nat.toDigits 10 n.natAbs) none none).map _) = _
  have hnot : (Nat.toDigits 10 n.natAbs).isEmpty = false := by
    rw [hds]
    rfl
  rw [hnot, if_neg Bool.false_ne_true, numberOf, if_neg hlength,
    ofDigits_toDigits (by omega) (by omega), hvalue]
  rfl

end Json
end LetTag
