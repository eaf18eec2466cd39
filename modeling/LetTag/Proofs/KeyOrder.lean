/-
  When the keys of a dictionary can be sorted.

  JSON wants its keys sorted before they are written as texts.  Keys that can be written are texts,
  numbers or null, and two of them compare only if both are texts or both are numbers.  However the
  order is found, each key but the first is compared with one before it: so sorting succeeds exactly
  if there are less than two keys or all are of one kind (`exists_sortByKey_iff`).  Then it gives the
  same entries in another order.
-/
import LetTag.Proofs.JsonText

namespace LetTag.Json

open Number

/-! ## Keys that compare -/

/-- Can the two keys be compared? -/
def Comparable (a b : Value) : Prop :=
  ∃ less, isLess a b = .ok less

/-- The kinds of keys that compare with their like. -/
inductive KeyKind where
  | text
  | number
  deriving DecidableEq

/-- The kind of a key, if it compares with anything. -/
def keyKind? : Value → Option KeyKind
  | .scalar (.text _) => some .text
  | .scalar (.bool _) | .scalar (.int _) | .scalar (.float _) => some .number
  | _ => none

/-- Can the scalar be written? -/
def scalarCarried : Scalar → Bool
  | .null | .bool _ | .float _ | .text _ => true
  | .int n => withinDigitLimit n
  | _ => false

/-- Can the key be written? -/
def keyCarried : Value → Bool
  | .scalar s => scalarCarried s
  | _ => false

theorem not_exists_ok {ε α : Type} {e : ε} : ¬ ∃ a, (.error e : Except ε α) = .ok a := by
  rintro ⟨a, ha⟩
  cases ha

/-- A key has a text exactly if it can be carried. -/
theorem exists_keyText_iff (k : Value) : (∃ t, keyText k = .ok t) ↔ keyCarried k = true := by
  cases k with
  | scalar s =>
    cases s with
    | null => exact iff_of_true ⟨_, rfl⟩ rfl
    | bool b => exact iff_of_true ⟨_, rfl⟩ rfl
    | float x => exact iff_of_true ⟨_, rfl⟩ rfl
    | text s => exact iff_of_true ⟨_, rfl⟩ rfl
    | int n =>
      have hkey : keyText (.scalar (.int n)) = scalar ⟨false, false, false⟩ (.int n) := rfl
      have hcarried : keyCarried (.scalar (.int n)) = withinDigitLimit n := rfl
      rw [hkey, hcarried, scalar]
      by_cases hn : withinDigitLimit n = true
      · rw [if_pos hn]
        exact iff_of_true ⟨_, rfl⟩ hn
      · rw [if_neg hn]
        exact iff_of_false not_exists_ok hn
    | complex re im => exact iff_of_false not_exists_ok Bool.false_ne_true
    | bytes bs => exact iff_of_false not_exists_ok Bool.false_ne_true
    | ellipsis => exact iff_of_false not_exists_ok Bool.false_ne_true
    | builtin b => exact iff_of_false not_exists_ok Bool.false_ne_true
  | _ => exact iff_of_false not_exists_ok Bool.false_ne_true

/-- Keys that can be written compare if they are of one kind. -/
theorem comparable_iff {a b : Value} (ha : keyCarried a = true) (hb : keyCarried b = true) :
    Comparable a b ↔ ∃ kind, keyKind? a = some kind ∧ keyKind? b = some kind := by
  have hnone : ∀ {k l : Option KeyKind}, k = none ∨ l = none ∨ k ≠ l →
      ¬ ∃ kind, k = some kind ∧ l = some kind := by
    rintro k l h ⟨kind, rfl, rfl⟩
    rcases h with h | h | h
    · cases h
    · cases h
    · exact h rfl
  cases a with
  | scalar s =>
    cases b with
    | scalar t =>
      cases s with
      | null =>
        cases t with
        | null | bool _ | int _ | float _ | text _ =>
          exact iff_of_false not_exists_ok (hnone (Or.inl rfl))
        | complex _ _ | bytes _ | ellipsis | builtin _ => exact absurd hb Bool.false_ne_true
      | text _ =>
        cases t with
        | text _ => exact iff_of_true ⟨_, rfl⟩ ⟨.text, rfl, rfl⟩
        | null => exact iff_of_false not_exists_ok (hnone (Or.inr (Or.inl rfl)))
        | bool _ | int _ | float _ =>
          exact iff_of_false not_exists_ok (hnone (Or.inr (Or.inr nofun)))
        | complex _ _ | bytes _ | ellipsis | builtin _ => exact absurd hb Bool.false_ne_true
      | bool _ | int _ | float _ =>
        cases t with
        | bool _ | int _ | float _ => exact iff_of_true ⟨_, rfl⟩ ⟨.number, rfl, rfl⟩
        | null => exact iff_of_false not_exists_ok (hnone (Or.inr (Or.inl rfl)))
        | text _ => exact iff_of_false not_exists_ok (hnone (Or.inr (Or.inr nofun)))
        | complex _ _ | bytes _ | ellipsis | builtin _ => exact absurd hb Bool.false_ne_true
      | complex _ _ | bytes _ | ellipsis | builtin _ => exact absurd ha Bool.false_ne_true
    | _ => exact absurd hb Bool.false_ne_true
  | _ => exact absurd ha Bool.false_ne_true

/-! ## What sorting compares -/

section

variable {α : Type}

/-- An entry put into its place. -/
def insertEntry (acc : Array (Value × α)) (e : Value × α) :
    Except WriteError (Array (Value × α)) := do
  let place ← placeOf e.1 acc (acc.size + 1) 0 acc.size
  .ok ((acc.take place).push e ++ acc.drop place)

/-- Sorting finds the first run of entries in order, and inserts the others. -/
theorem sortByKey_eq (es : List (Value × α)) : sortByKey es = (do
    let (run, rest) ← firstRun es
    let sorted ← rest.foldlM insertEntry run.toArray
    .ok sorted.toList) := rfl

/-- A run goes on while the keys go on in its direction. -/
theorem runFrom_cons (down : Bool) (last k : Value) (x : α) (es : List (Value × α)) :
    runFrom down last ((k, x) :: es) = isLess k last >>= fun less =>
      if less == down then (runFrom down k es).map fun p => ((k, x) :: p.1, p.2)
      else .ok ([], (k, x) :: es) := by
  rw [runFrom]
  cases isLess k last with
  | error e => rfl
  | ok less =>
    show (if less == down then _ else _) = if less == down then _ else _
    cases runFrom down k es with
    | error e => rfl
    | ok p => rfl

theorem firstRun_cons (k l : Value) (x y : α) (es : List (Value × α)) :
    firstRun ((k, x) :: (l, y) :: es) = isLess l k >>= fun down =>
      (runFrom down l es).map fun p => (if down then ((k, x) :: (l, y) :: p.1).reverse
        else (k, x) :: (l, y) :: p.1, p.2) := by
  rw [firstRun]
  cases isLess l k with
  | error e => rfl
  | ok down =>
    show (runFrom down l es >>= _) = (runFrom down l es).map _
    cases runFrom down l es with
    | error e => rfl
    | ok p => rfl

/-- Each key of a run compares with the one before it. -/
theorem runFrom_spec {P : Value → Prop} {down : Bool} {es : List (Value × α)} :
    ∀ {last : Value} {run rest : List (Value × α)},
    (∀ e ∈ es, ∀ v, P v → Comparable e.1 v → P e.1) → P last →
    runFrom down last es = .ok (run, rest) → es = run ++ rest ∧ ∀ e ∈ run, P e.1 := by
  induction es with
  | nil =>
    intro last run rest _ _ h
    cases h
    exact ⟨rfl, by simp⟩
  | cons e es ih =>
    intro last run rest hP hlast h
    obtain ⟨k, x⟩ := e
    rw [runFrom_cons] at h
    obtain ⟨less, hless, h⟩ := exists_of_bind h
    -- `k` is compared with the key before it, and so is each further one
    have hk : P k := hP (k, x) List.mem_cons_self last hlast ⟨less, hless⟩
    split at h
    · obtain ⟨⟨run', rest'⟩, hrun, hpair⟩ := exists_of_map h
      obtain ⟨rfl, hrest⟩ := ih (fun e he => hP e (List.mem_cons_of_mem _ he)) hk hrun
      cases hpair
      refine ⟨rfl, ?_⟩
      rw [List.forall_mem_cons]
      exact ⟨hk, hrest⟩
    · cases h
      exact ⟨rfl, by simp⟩

/-- The first run has all entries with it; if there are two of them, the first two compare, and what
    carries over in comparisons from the first one holds of the run. -/
theorem firstRun_spec {k l : Value} {x y : α} {es run rest : List (Value × α)}
    (h : firstRun ((k, x) :: (l, y) :: es) = .ok (run, rest)) :
    Comparable l k ∧ (run ++ rest).Perm ((k, x) :: (l, y) :: es) ∧ run ≠ []
      ∧ ∀ P : Value → Prop, (∀ e ∈ (l, y) :: es, ∀ v, P v → Comparable e.1 v → P e.1) → P k →
        ∀ e ∈ run, P e.1 := by
  rw [firstRun_cons] at h
  obtain ⟨down, hdown, h⟩ := exists_of_bind h
  obtain ⟨⟨run', rest'⟩, hrun, hpair⟩ := exists_of_map h
  -- said of every `P` at once, as it also gives the parts of `es` for the one that always holds
  have hall : ∀ P : Value → Prop, (∀ e ∈ (l, y) :: es, ∀ v, P v → Comparable e.1 v → P e.1) → P k →
      es = run' ++ rest' ∧ ∀ e ∈ (k, x) :: (l, y) :: run', P e.1 := by
    intro P hP hk
    have hl : P l := hP (l, y) List.mem_cons_self k hk ⟨down, hdown⟩
    obtain ⟨hes, hrun'⟩ := runFrom_spec (fun e he => hP e (List.mem_cons_of_mem _ he)) hl hrun
    refine ⟨hes, ?_⟩
    rw [List.forall_mem_cons, List.forall_mem_cons]
    exact ⟨hk, hl, hrun'⟩
  obtain ⟨rfl, -⟩ := hall (fun _ => True) (fun _ _ _ _ _ => trivial) trivial
  cases hpair
  have hmem : ∀ e, e ∈ (if down = true then ((k, x) :: (l, y) :: run').reverse
      else (k, x) :: (l, y) :: run') ↔ e ∈ (k, x) :: (l, y) :: run' := by
    intro e
    split
    · exact List.mem_reverse
    · exact Iff.rfl
  refine ⟨⟨down, hdown⟩, ?_, ?_, ?_⟩
  · split
    · exact (List.reverse_perm _).append_right _
    · exact .refl _
  · intro hnil
    have hk := (hmem (k, x)).mpr List.mem_cons_self
    rw [hnil] at hk
    exact absurd hk List.not_mem_nil
  · intro P hP hk e he
    exact (hall P hP hk).2 e ((hmem e).mp he)

/-- The search for a place compares with some entry, unless there is none. -/
theorem placeOf_spec {key : Value} {acc : Array (Value × α)} {fuel low high place : Nat}
    (hlow : low < high) (hhigh : high ≤ acc.size)
    (h : placeOf key acc (fuel + 1) low high = .ok place) : ∃ e ∈ acc, Comparable key e.1 := by
  rw [placeOf] at h
  -- the entry in the middle is looked at first
  have hmiddle : (low + high) / 2 < acc.size := by omega
  rw [if_pos hlow, Array.getElem?_eq_getElem hmiddle] at h
  obtain ⟨less, hless, -⟩ := exists_of_bind h
  exact ⟨acc[(low + high) / 2], Array.getElem_mem hmiddle, less, hless⟩

/-- Inserting an entry keeps the others, and has compared it with one of them. -/
theorem insertEntry_spec {acc acc' : Array (Value × α)} {e : Value × α}
    (h : insertEntry acc e = .ok acc') : acc'.toList.Perm (e :: acc.toList)
      ∧ (0 < acc.size → ∃ f ∈ acc, Comparable e.1 f.1) := by
  obtain ⟨place, hplace, h⟩ := exists_of_bind h
  cases h
  constructor
  · have hlist : ((acc.take place).push e ++ acc.drop place).toList
        = acc.toList.take place ++ e :: acc.toList.drop place := by
      have hdrop : (acc.toList.drop place).length = acc.size - place := by
        rw [List.length_drop, Array.length_toList]
      simp [List.take_of_length_le (Nat.le_of_eq hdrop)]
    rw [hlist]
    have hperm : (acc.toList.take place ++ e :: acc.toList.drop place).Perm
        (e :: (acc.toList.take place ++ acc.toList.drop place)) := List.perm_middle
    rw [List.take_append_drop] at hperm
    exact hperm
  · intro hsize
    exact placeOf_spec hsize (Nat.le_refl _) hplace

/-- Entries that are put among others one by one, each compared with one that is there. -/
theorem foldlM_insertEntry_spec {rest : List (Value × α)} : ∀ {acc sorted : Array (Value × α)},
    rest.foldlM insertEntry acc = .ok sorted → sorted.toList.Perm (acc.toList ++ rest)
      ∧ ∀ P : Value → Prop, (∀ e ∈ rest, ∀ v, P v → Comparable e.1 v → P e.1) → 0 < acc.size →
        (∀ e ∈ acc, P e.1) → ∀ e ∈ rest, P e.1 := by
  induction rest with
  | nil =>
    intro acc sorted h
    cases h
    rw [List.append_nil]
    exact ⟨.refl _, fun _ _ _ _ => by simp⟩
  | cons e rest ih =>
    intro acc sorted h
    rw [List.foldlM_cons] at h
    obtain ⟨acc', hacc', h⟩ := exists_of_bind h
    obtain ⟨hperm', hcompared⟩ := insertEntry_spec hacc'
    obtain ⟨hperm, hrest⟩ := ih h
    constructor
    · refine hperm.trans ((hperm'.append_right rest).trans ?_)
      exact List.perm_middle.symm
    · intro P hP hsize hacc
      obtain ⟨f, hf, hcomparable⟩ := hcompared hsize
      have he : P e.1 := hP e List.mem_cons_self f.1 (hacc f hf) hcomparable
      have hsize' : 0 < acc'.size := by
        have hlength := hperm'.length_eq
        rw [List.length_cons, Array.length_toList, Array.length_toList] at hlength
        omega
      have hall : ∀ g ∈ acc', P g.1 := by
        intro g hg
        rcases List.mem_cons.mp (hperm'.mem_iff.mp (Array.mem_toList_iff.mpr hg)) with rfl | hg
        · exact he
        · exact hacc g (Array.mem_toList_iff.mp hg)
      rw [List.forall_mem_cons]
      exact ⟨he, hrest P (fun g hg => hP g (List.mem_cons_of_mem e hg)) hsize' hall⟩

/-! ## Sorting that succeeds -/

/-- A run is found among keys that can be compared. -/
theorem exists_runFrom {down : Bool} {es : List (Value × α)} : ∀ {last : Value},
    (∀ e ∈ es, Comparable e.1 last) → (∀ e ∈ es, ∀ f ∈ es, Comparable e.1 f.1) →
    ∃ p, runFrom down last es = .ok p := by
  induction es with
  | nil => exact fun _ _ => ⟨_, rfl⟩
  | cons e es ih =>
    intro last hlast hall
    obtain ⟨k, x⟩ := e
    obtain ⟨less, hless⟩ := hlast (k, x) List.mem_cons_self
    obtain ⟨p, hp⟩ : ∃ p, runFrom down k es = .ok p := ih
      (fun e he => hall e (List.mem_cons_of_mem _ he) (k, x) List.mem_cons_self)
      (fun e he f hf => hall e (List.mem_cons_of_mem _ he) f (List.mem_cons_of_mem _ hf))
    rw [runFrom_cons, hless, hp]
    show ∃ q, (if less == down then _ else _) = Except.ok q
    split
    · exact ⟨_, rfl⟩
    · exact ⟨_, rfl⟩

theorem exists_placeOf {key : Value} {acc : Array (Value × α)}
    (h : ∀ e ∈ acc, Comparable key e.1) (fuel : Nat) : ∀ low high : Nat,
    ∃ place, placeOf key acc fuel low high = .ok place := by
  induction fuel with
  | zero => exact fun low _ => ⟨low, rfl⟩
  | succ fuel ih =>
    intro low high
    rw [placeOf]
    split
    · exact ⟨low, rfl⟩
    · rename_i k x hget
      have hmem : (k, x) ∈ acc := by
        split at hget
        · exact Array.mem_of_getElem? hget
        · cases hget
      obtain ⟨less, hless⟩ := h (k, x) hmem
      rw [hless]
      cases less with
      | true => exact ih low _
      | false => exact ih _ high

/-- Entries whose keys can be compared with one another are all inserted. -/
theorem exists_foldlM_insertEntry {rest : List (Value × α)} : ∀ {acc : Array (Value × α)},
    (∀ e ∈ rest, ∀ f, f ∈ acc ∨ f ∈ rest → Comparable e.1 f.1) →
    ∃ sorted, rest.foldlM insertEntry acc = .ok sorted := by
  induction rest with
  | nil => exact fun _ => ⟨_, rfl⟩
  | cons e rest ih =>
    intro acc h
    obtain ⟨place, hplace⟩ := exists_placeOf
      (fun f hf => h e List.mem_cons_self f (Or.inl hf)) (acc.size + 1) 0 acc.size
    have hinsert : insertEntry acc e = .ok ((acc.take place).push e ++ acc.drop place) := by
      rw [insertEntry, hplace]
      rfl
    rw [List.foldlM_cons, hinsert]
    refine ih fun g hg f hf => h g (List.mem_cons_of_mem e hg) f ?_
    rcases hf with hf | hf
    · rcases List.mem_cons.mp ((insertEntry_spec hinsert).1.mem_iff.mp (Array.mem_toList_iff.mpr hf))
        with rfl | hf
      · exact Or.inr List.mem_cons_self
      · exact Or.inl (Array.mem_toList_iff.mp hf)
    · exact Or.inr (List.mem_cons_of_mem e hf)

/-- Keys of which any two compare can be sorted. -/
theorem exists_sortByKey {es : List (Value × α)} (h : ∀ e ∈ es, ∀ f ∈ es, Comparable e.1 f.1) :
    ∃ sorted, sortByKey es = .ok sorted := by
  obtain ⟨⟨run, rest⟩, hrun, hperm⟩ : ∃ p, firstRun es = .ok p ∧ (p.1 ++ p.2).Perm es := by
    match es with
    | [] => exact ⟨_, rfl, .refl _⟩
    | [e] => exact ⟨_, rfl, .refl _⟩
    | (k, x) :: (l, y) :: es =>
      obtain ⟨down, hdown⟩ := h (l, y) (by simp) (k, x) List.mem_cons_self
      obtain ⟨p, hp⟩ : ∃ p, runFrom down l es = .ok p := exists_runFrom
        (fun e he => h e (by simp [he]) (l, y) (by simp))
        (fun e he f hf => h e (by simp [he]) f (by simp [hf]))
      have hfirst : ∃ q, firstRun ((k, x) :: (l, y) :: es) = .ok q := by
        rw [firstRun_cons, hdown]
        show ∃ q, (runFrom down l es).map _ = .ok q
        rw [hp]
        exact ⟨_, rfl⟩
      obtain ⟨q, hq⟩ := hfirst
      exact ⟨q, hq, (firstRun_spec hq).2.1⟩
  have hmem : ∀ e, e ∈ run ++ rest → e ∈ es := fun e he => hperm.mem_iff.mp he
  obtain ⟨sorted, hsorted⟩ : ∃ sorted, rest.foldlM insertEntry run.toArray = .ok sorted := by
    refine exists_foldlM_insertEntry fun e he f hf => ?_
    refine h e (hmem e (List.mem_append_right _ he)) f (hmem f ?_)
    rcases hf with hf | hf
    · exact List.mem_append_left _ (by simpa using hf)
    · exact List.mem_append_right _ hf
  refine ⟨sorted.toList, ?_⟩
  rw [sortByKey_eq, hrun]
  show (rest.foldlM insertEntry run.toArray >>= _) = _
  rw [hsorted]
  rfl

/-- What sorting has compared, and that it loses nothing. -/
theorem sortByKey_spec {es sorted : List (Value × α)} (h : sortByKey es = .ok sorted) :
    sorted.Perm es ∧ (2 ≤ es.length → ∃ e ∈ es, ∃ f ∈ es, Comparable e.1 f.1
      ∧ ∀ P : Value → Prop, (∀ e ∈ es, ∀ v, P v → Comparable e.1 v → P e.1) → P f.1 →
        ∀ e ∈ es, P e.1) := by
  rw [sortByKey_eq] at h
  obtain ⟨⟨run, rest⟩, hrun, h⟩ := exists_of_bind h
  obtain ⟨sorted', hsorted', h⟩ := exists_of_bind h
  cases h
  obtain ⟨hperm, hrest⟩ := foldlM_insertEntry_spec hsorted'
  rw [List.toList_toArray] at hperm
  match es with
  | [] =>
    cases hrun
    exact ⟨hperm, by simp⟩
  | [e] =>
    cases hrun
    exact ⟨hperm, by simp⟩
  | (k, x) :: (l, y) :: es =>
    obtain ⟨hcomparable, hperm', hne, hall⟩ := firstRun_spec hrun
    refine ⟨hperm.trans hperm', fun _ => ⟨(l, y), by simp, (k, x), by simp, hcomparable, ?_⟩⟩
    intro P hP hk
    have hrunP := hall P (fun e he => hP e (List.mem_cons_of_mem _ he)) hk
    have hrestP := hrest P (fun e he => hP e (hperm'.mem_iff.mp (List.mem_append_right _ he)))
      (by
        rw [List.size_toArray]
        exact List.length_pos_iff.mpr hne)
      (fun e he => hrunP e (by simpa using he))
    intro e he
    rcases List.mem_append.mp (hperm'.mem_iff.mpr he) with he | he
    · exact hrunP e he
    · exact hrestP e he

/-- **Keys that can be written can be sorted** exactly if there are less than two, or all are texts, or
    all are numbers. -/
theorem exists_sortByKey_iff {es : List (Value × α)} (h : ∀ e ∈ es, keyCarried e.1 = true) :
    (∃ sorted, sortByKey es = .ok sorted)
      ↔ es.length < 2 ∨ ∃ kind, ∀ e ∈ es, keyKind? e.1 = some kind := by
  constructor
  · rintro ⟨sorted, hsorted⟩
    by_cases hlength : es.length < 2
    · exact Or.inl hlength
    · right
      obtain ⟨-, hcompared⟩ := sortByKey_spec hsorted
      obtain ⟨e, he, f, hf, hcomparable, hall⟩ := hcompared (by omega)
      obtain ⟨kind, -, hkind⟩ := (comparable_iff (h e he) (h f hf)).mp hcomparable
      -- being written and of this kind carries over from one key to another that it compares with
      refine ⟨kind, fun g hg => (hall (fun v => keyCarried v = true ∧ keyKind? v = some kind) ?_
        ⟨h f hf, hkind⟩ g hg).2⟩
      rintro g hg v ⟨hv, hvkind⟩ hgv
      obtain ⟨kind', hgkind, hvkind'⟩ := (comparable_iff (h g hg) hv).mp hgv
      rw [hvkind] at hvkind'
      cases hvkind'
      exact ⟨h g hg, hgkind⟩
  · rintro (hlength | ⟨kind, hkind⟩)
    · match es with
      | [] => exact ⟨_, rfl⟩
      | [e] => exact ⟨_, rfl⟩
      | _ :: _ :: _ =>
        simp only [List.length_cons] at hlength
        omega
    · exact exists_sortByKey fun e he f hf =>
        (comparable_iff (h e he) (h f hf)).mpr ⟨kind, hkind e he, hkind f hf⟩

end

end LetTag.Json
