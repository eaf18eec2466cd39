/-
  References between objects, and the search for parameters along them.

  An operation can stand for the `execute` operation of another object, that one for the `execute`
  operation of a third, and so on.  `Store.Path` follows such references and does not ask where it has
  been before.  Where it leads is determined, so of three things one holds: the following reaches a
  closure, it gets stuck where there is no operation, or it never ends.

  The search for the parameters of an operation has to end in any case.  It notes the places that it
  visits and goes to none of them again (`Search`).  Nothing is lost by that: a path with an end visits
  no place twice (`Path.nodup`), so whoever comes to a place again is on a path that has none.  The number
  of places bounds the search, which is why a bound on its turns can stand in the definition.
-/
import LetTag.Entity
import Mathlib.Data.List.Perm.Subperm

namespace LetTag.Store

variable {s : Store} {m m' last : Option Method} {places others : List Nat} {c : Closure} {a : Nat}

/-! ## Following references -/

/-- References that are followed from an operation, through the objects in these places, lead to an
    operation or to none. -/
inductive Path (s : Store) : Option Method → List Nat → Option Method → Prop
  | here (m : Option Method) : Path s m [] m
  | follow {a : Nat} {places : List Nat} {m : Option Method} : Path s (s.execute? a) places m →
    Path s (some (.reference a)) (a :: places) m

/-- Is there nothing to follow? -/
def IsEnd (m : Option Method) : Prop :=
  ∀ a, m ≠ some (.reference a)

/-- Following references comes to a closure. -/
def Reaches (s : Store) (m : Option Method) (c : Closure) : Prop :=
  ∃ places, s.Path m places (some (.closure c))

/-- Following references comes to where there is no operation. -/
def GetsStuck (s : Store) (m : Option Method) : Prop :=
  ∃ places, s.Path m places none

/-- Following references never ends: behind any number of them there is another one. -/
def NeverEnds (s : Store) (m : Option Method) : Prop :=
  ∀ n, ∃ places a, places.length = n ∧ s.Path m places (some (.reference a))

theorem isEnd_closure (c : Closure) : IsEnd (some (.closure c)) := by
  intro a h
  cases h

theorem isEnd_none : IsEnd none := by
  intro a h
  cases h

/-- An object that has the operation is in the store. -/
theorem lt_of_execute? (h : s.execute? a ≠ none) : a < s.cells.size := by
  by_contra hle
  refine h ?_
  have hcontent : s.content (.ref a) = .null := by
    rw [content, Array.getD_eq_getD_getElem?, Array.getElem?_eq_none (Nat.le_of_not_lt hle)]
    rfl
  rw [execute?, entity?, hcontent]
  rfl

namespace Path

theorem append (h : s.Path m places m') (h' : s.Path m' others last) :
    s.Path m (places ++ others) last := by
  induction h with
  | here => exact h'
  | follow _ ih => exact .follow (ih h')

/-- A chain of two parts has a place between them. -/
theorem split (h : s.Path m (places ++ others) last) :
    ∃ m', s.Path m places m' ∧ s.Path m' others last := by
  induction places generalizing m with
  | nil => exact ⟨m, .here m, h⟩
  | cons a places ih =>
    cases h with
    | follow h =>
      obtain ⟨m', hplaces, hothers⟩ := ih h
      exact ⟨m', .follow hplaces, hothers⟩

/-- Any path is the beginning of the one that comes to an end. -/
theorem rest (h : s.Path m others m') (hend : s.Path m places last) (hlast : IsEnd last) :
    ∃ behind, places = others ++ behind ∧ s.Path m' behind last := by
  induction h generalizing places with
  | here => exact ⟨places, rfl, hend⟩
  | follow _ ih =>
    cases hend with
    | here => exact absurd rfl (hlast _)
    | follow hend =>
      obtain ⟨behind, rfl, hbehind⟩ := ih hend
      exact ⟨behind, rfl, hbehind⟩

/-- **A path with an end visits no place twice.**  Behind the second visit it would go on as behind
    the first, and yet be shorter. -/
theorem nodup (h : s.Path m places last) (hlast : IsEnd last) : places.Nodup := by
  induction h with
  | here => exact List.nodup_nil
  | @follow a places last h ih =>
    refine List.nodup_cons.mpr ⟨fun hagain => ?_, ih hlast⟩
    obtain ⟨before, after, rfl⟩ := List.append_of_mem hagain
    obtain ⟨_, -, hsecond⟩ := h.split
    cases hsecond with
    | follow hsecond =>
      obtain ⟨behind, hlonger, -⟩ := h.rest hsecond hlast
      have hlength := congrArg List.length hlonger
      simp only [List.length_append, List.length_cons] at hlength
      omega

theorem eq_none (h : s.Path none places last) : last = none := by
  cases h
  rfl

/-- The objects through which a path leads to an operation are in the store. -/
theorem lt (h : s.Path m places last) (hlast : last ≠ none) : ∀ a ∈ places, a < s.cells.size := by
  induction h with
  | here => exact fun a ha => absurd ha List.not_mem_nil
  | @follow a places last h ih =>
    refine List.forall_mem_cons.mpr ⟨lt_of_execute? fun hnone => ?_, ih hlast⟩
    rw [hnone] at h
    exact hlast h.eq_none

/-- A chain without repeated places is no longer than the store. -/
theorem length_le (h : s.Path m places last) (hnodup : places.Nodup) (hlast : last ≠ none) :
    places.length ≤ s.cells.size := by
  have hsub : places ⊆ List.range s.cells.size := fun a ha => List.mem_range.mpr (h.lt hlast a ha)
  have hlength := (List.subperm_of_subset hnodup hsub).length_le
  rwa [List.length_range] at hlength

/-- A path with an end has no more places than the store and one beyond it. -/
theorem length_le_of_isEnd (h : s.Path m places last) (hlast : IsEnd last) :
    places.length ≤ s.cells.size + 1 := by
  have hnodup := h.nodup hlast
  rcases places.eq_nil_or_concat' with rfl | ⟨others, a, rfl⟩
  · exact Nat.zero_le _
  · obtain ⟨m', hothers, ha⟩ := h.split
    have hm' : m' ≠ none := by
      rintro rfl
      cases ha
    have hle := hothers.length_le (List.nodup_append.mp hnodup).1 hm'
    rw [List.length_append, List.length_singleton]
    omega

end Path

/-- Following that comes to no end never ends. -/
theorem neverEnds_of_not (hclosure : ∀ c, ¬ s.Reaches m c) (hnone : ¬ s.GetsStuck m) :
    s.NeverEnds m := by
  have hgoes : ∀ {places m'}, s.Path m places m' → ∃ a, m' = some (.reference a) := by
    intro places m' h
    match m', h with
    | none, h => exact absurd ⟨places, h⟩ hnone
    | some (.closure c), h => exact absurd ⟨places, h⟩ (hclosure c)
    | some (.reference a), _ => exact ⟨a, rfl⟩
  intro n
  induction n with
  | zero =>
    obtain ⟨a, ha⟩ := hgoes (.here m)
    exact ⟨[], a, rfl, ha ▸ .here m⟩
  | succ n ih =>
    obtain ⟨places, a, hlength, h⟩ := ih
    have hnext := h.append (.follow (.here (s.execute? a)))
    obtain ⟨b, hb⟩ := hgoes hnext
    exact ⟨places ++ [a], b, by rw [List.length_append, hlength]; rfl, hb ▸ hnext⟩

/-- Following that comes to an end does not go on for ever. -/
theorem not_neverEnds (h : s.Path m places last) (hlast : IsEnd last) : ¬ s.NeverEnds m := by
  intro hnever
  obtain ⟨others, a, hlength, hothers⟩ := hnever (places.length + 1)
  obtain ⟨behind, rfl, -⟩ := hothers.rest h hlast
  rw [List.length_append] at hlength
  omega

/-! ## The search -/

/-- The state of the search: the places visited so far, the last one first, and the operation that is
    looked at. -/
structure Search where
  visited : List Nat
  method : Option Method

namespace Search

/-- One turn of the search: a reference is followed to a place that was not visited before. -/
def next? (s : Store) : Search → Option Search
  | ⟨visited, some (.reference a)⟩ =>
    if visited.contains a then none else some ⟨a :: visited, s.execute? a⟩
  | _ => none

/-- Turn by turn, the search comes to a state in which it ends. -/
inductive EndsAt (s : Store) : Search → Search → Prop
  | stop {x : Search} : x.next? s = none → EndsAt s x x
  | turn {x y z : Search} : x.next? s = some y → EndsAt s y z → EndsAt s x z

variable {x y z : Search}

/-- The search follows a reference, unless it was there before. -/
theorem next?_reference (visited : List Nat) (a : Nat) : next? s ⟨visited, some (.reference a)⟩
    = if visited.contains a then none else some ⟨a :: visited, s.execute? a⟩ := rfl

theorem next?_isEnd (visited : List Nat) (h : IsEnd m) : next? s ⟨visited, m⟩ = none := by
  match m, h with
  | none, _ | some (.closure c), _ => rfl
  | some (.reference a), h => exact absurd rfl (h a)

/-- Each step of it follows a reference to a place that it was not at. -/
theorem next?_eq_some (h : x.next? s = some y) : ∃ a, x.method = some (.reference a)
    ∧ a ∉ x.visited ∧ y = ⟨a :: x.visited, s.execute? a⟩ := by
  unfold next? at h
  split at h
  · rename_i visited a
    split at h
    · cases h
    · rename_i hnew
      refine ⟨a, rfl, fun hmem => hnew (List.contains_iff_mem.mpr hmem), ?_⟩
      exact (Option.some.inj h).symm
  · cases h

/-- The visited places are those of the path that the search has followed, each of them once. -/
theorem EndsAt.path (h : EndsAt s x z) : z.next? s = none
    ∧ (∃ places, z.visited = places.reverse ++ x.visited ∧ s.Path x.method places z.method)
    ∧ (x.visited.Nodup → z.visited.Nodup) := by
  induction h with
  | stop hstop => exact ⟨hstop, ⟨[], rfl, .here _⟩, id⟩
  | @turn x y z hturn _ ih =>
    obtain ⟨a, hmethod, hnew, rfl⟩ := next?_eq_some hturn
    obtain ⟨hstop, ⟨places, hvisited, hpath⟩, hnodup⟩ := ih
    refine ⟨hstop, ⟨a :: places, ?_, ?_⟩, fun hx => hnodup (List.nodup_cons.mpr ⟨hnew, hx⟩)⟩
    · rw [hvisited, List.reverse_cons, List.append_assoc]
      rfl
    · rw [hmethod]
      exact .follow hpath

/-! ## The search ends -/

/-- How many places of the store the search can still go to. -/
def unvisited (s : Store) (visited : List Nat) : Nat :=
  ((List.range s.cells.size).filter fun a => !visited.contains a).length

theorem unvisited_nil (s : Store) : unvisited s [] = s.cells.size := by
  simp [unvisited]

/-- A visit leaves fewer places. -/
theorem unvisited_lt {visited : List Nat} (hlt : a < s.cells.size) (hnew : a ∉ visited) :
    unvisited s (a :: visited) < unvisited s visited := by
  have hfilter : (List.range s.cells.size).filter (fun b => !(a :: visited).contains b)
      = ((List.range s.cells.size).filter fun b => !visited.contains b).filter (· ≠ a) := by
    rw [List.filter_filter]
    refine List.filter_congr fun b _ => ?_
    by_cases hb : b = a
    · simp [hb]
    · simp [hb]
  have hmem : a ∈ (List.range s.cells.size).filter fun b => !visited.contains b := by
    simp [hlt, hnew]
  rw [unvisited, hfilter]
  exact List.length_filter_lt_length_iff_exists.mpr ⟨a, hmem, by simp⟩

/-- **The search ends**, and the parameters are those of the closure at which it ends.  The number of
    turns that is allowed is never used up: each visit leaves one place fewer, and from a place outside
    the store nothing leads on. -/
theorem exists_endsAt (n : Nat) : ∀ (visited : List Nat) (m : Option Method),
    unvisited s visited < n → ∃ z, EndsAt s ⟨visited, m⟩ z
      ∧ (∀ c, z.method = some (.closure c) → s.parametersFrom n visited m = c.parameters)
      ∧ ((∀ c, z.method ≠ some (.closure c)) → s.parametersFrom n visited m = []) := by
  induction n with
  | zero => exact fun visited m hn => absurd hn (Nat.not_lt_zero _)
  | succ n ih =>
    intro visited m hn
    match m with
    | none =>
      refine ⟨⟨visited, none⟩, .stop (next?_isEnd visited isEnd_none), ?_, fun _ => rfl⟩
      exact fun c hc => nomatch hc
    | some (.closure c) =>
      refine ⟨⟨visited, some (.closure c)⟩, .stop (next?_isEnd visited (isEnd_closure c)), ?_, ?_⟩
      · rintro _ ⟨⟩
        rfl
      · exact fun h => absurd rfl (h c)
    | some (.reference a) =>
      have hfrom : s.parametersFrom (n + 1) visited (some (.reference a)) = if visited.contains a
          then [] else s.parametersFrom n (a :: visited) (s.execute? a) := rfl
      by_cases hseen : visited.contains a = true
      · -- the search has come round
        rw [hfrom, if_pos hseen]
        refine ⟨⟨visited, some (.reference a)⟩, .stop ?_, ?_, fun _ => rfl⟩
        · rw [next?_reference, if_pos hseen]
        · exact fun c hc => nomatch hc
      · rw [hfrom, if_neg hseen]
        have hturn : next? s ⟨visited, some (.reference a)⟩ = some ⟨a :: visited, s.execute? a⟩ := by
          rw [next?_reference, if_neg hseen]
        by_cases hlt : a < s.cells.size
        · have hfewer := unvisited_lt hlt fun hmem => hseen (List.contains_iff_mem.mpr hmem)
          obtain ⟨z, hz, hfound⟩ := ih (a :: visited) (s.execute? a) (by omega)
          exact ⟨z, .turn hturn hz, hfound⟩
        · -- nothing is there, whatever is left of the allowed turns
          have hnone : s.execute? a = none := by
            by_contra hsome
            exact hlt (lt_of_execute? hsome)
          rw [hnone] at hturn ⊢
          refine ⟨⟨a :: visited, none⟩, .turn hturn (.stop (next?_isEnd _ isEnd_none)), ?_, ?_⟩
          · exact fun c hc => nomatch hc
          · intro _
            cases n <;> rfl

end Search

/-- The search comes to a closure exactly if following references does. -/
theorem Search.EndsAt.closure_iff {z : Search} (h : Search.EndsAt s ⟨[], m⟩ z) (c : Closure) :
    z.method = some (.closure c) ↔ s.Reaches m c := by
  obtain ⟨hstop, ⟨places, hvisited, hpath⟩, -⟩ := h.path
  rw [List.append_nil] at hvisited
  constructor
  · intro hc
    exact ⟨places, hc ▸ hpath⟩
  · rintro ⟨all, hall⟩
    obtain ⟨behind, rfl, hbehind⟩ := hpath.rest hall (isEnd_closure c)
    match z, hstop, hvisited, hbehind with
    | ⟨visited, none⟩, _, _, hbehind => exact hbehind.eq_none.symm
    | ⟨visited, some (.closure d)⟩, _, _, hbehind =>
      cases hbehind
      rfl
    | ⟨visited, some (.reference a)⟩, hstop, hvisited, hbehind =>
      -- the reference would lead back, but a path with an end never does
      exfalso
      rw [Search.next?_reference] at hstop
      split at hstop
      · rename_i hseen
        have hnodup := hall.nodup (isEnd_closure c)
        cases hbehind with
        | follow =>
          have hmem : a ∈ places := by
            rw [← List.mem_reverse, ← show visited = places.reverse from hvisited]
            exact List.contains_iff_mem.mp hseen
          exact (List.nodup_append.mp hnodup).2.2 a hmem a List.mem_cons_self rfl
      · cases hstop

/-! ## Parameters of an operation -/

section

variable {e : Entity} {operation : String}

/-- The search for the parameters of an operation. -/
theorem exists_search (s : Store) (e : Entity) (operation : String) :
    ∃ z, Search.EndsAt s ⟨[], Table.get? operation e.methods⟩ z
      ∧ (∀ c, z.method = some (.closure c) → s.parametersOf e operation = c.parameters)
      ∧ ((∀ c, z.method ≠ some (.closure c)) → s.parametersOf e operation = []) := by
  have hunvisited := Search.unvisited_nil s
  exact Search.exists_endsAt (s.cells.size + 1) [] (Table.get? operation e.methods) (by omega)

/-- If a chain reaches a closure, the parameters are those of the closure. -/
theorem parametersOf_of_reaches (h : s.Reaches (Table.get? operation e.methods) c) :
    s.parametersOf e operation = c.parameters := by
  obtain ⟨z, hz, hfound, -⟩ := exists_search s e operation
  exact hfound c ((hz.closure_iff c).mpr h)

theorem parametersOf_of_not_reaches (h : ∀ c, ¬ s.Reaches (Table.get? operation e.methods) c) :
    s.parametersOf e operation = [] := by
  obtain ⟨z, hz, -, hnone⟩ := exists_search s e operation
  exact hnone fun c hc => h c ((hz.closure_iff c).mp hc)

end

/-- **The search for parameters** ends for every store, every object and every operation, visits no
    place twice, and visits the places of one path.  It comes to a closure exactly if references that
    are followed without any bound lead to it, and then the parameters are those of the closure; it
    comes to none exactly if the following gets stuck or never ends, and then there are none. -/
theorem parametersOf_search (s : Store) (e : Entity) (operation : String) :
    let m := Table.get? operation e.methods
    ∃ z, Search.EndsAt s ⟨[], m⟩ z ∧ z.visited.Nodup ∧ s.Path m z.visited.reverse z.method
      ∧ (∀ c, (z.method = some (.closure c) ↔ s.Reaches m c)
        ∧ (s.Reaches m c → s.parametersOf e operation = c.parameters))
      ∧ ((∀ c, z.method ≠ some (.closure c)) ↔ s.GetsStuck m ∨ s.NeverEnds m)
      ∧ (s.GetsStuck m ∨ s.NeverEnds m → s.parametersOf e operation = []) := by
  intro m
  obtain ⟨z, hz, -, hnone⟩ := exists_search s e operation
  obtain ⟨-, ⟨places, hvisited, hpath⟩, hnodup⟩ := hz.path
  rw [List.append_nil] at hvisited
  have hlost : (∀ c, z.method ≠ some (.closure c)) ↔ s.GetsStuck m ∨ s.NeverEnds m := by
    constructor
    · intro hno
      by_cases hstuck : s.GetsStuck m
      · exact Or.inl hstuck
      · exact Or.inr (neverEnds_of_not (fun c hc => hno c ((hz.closure_iff c).mpr hc)) hstuck)
    · intro h c hc
      obtain ⟨all, hall⟩ := (hz.closure_iff c).mp hc
      rcases h with ⟨others, hothers⟩ | hnever
      · obtain ⟨behind, -, hbehind⟩ := hothers.rest hall (isEnd_closure c)
        cases hbehind.eq_none
      · exact not_neverEnds hall (isEnd_closure c) hnever
  refine ⟨z, hz, hnodup List.nodup_nil, ?_, fun c => ⟨hz.closure_iff c, parametersOf_of_reaches⟩, hlost,
    fun h => hnone (hlost.mpr h)⟩
  rw [hvisited, List.reverse_reverse]
  exact hpath

end LetTag.Store
