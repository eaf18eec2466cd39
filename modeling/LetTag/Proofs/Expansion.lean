/-
  What an expansion depends on.

  The expansion of a value follows its pointers, and those of what they point to.  It shows nothing of
  the store but the places that the value leads to (`Store.Leads`): two stores that hold the same there
  expand the value alike (`Store.expand_congr`).  The two may differ in size, and so in the depth to which
  they follow pointers; but once no pointer is left, following them further changes nothing
  (`Store.expandTo_of_le`).
-/
import LetTag.Store

namespace LetTag

namespace Value

/-! ## Pointers in a value -/

mutual

/-- The places that the value points to. -/
def refs : Value → List Nat
  | ref a => [a]
  | list items => listRefs items
  | tuple items => listRefs items
  | dict entries => entriesRefs entries
  | var _ v _ => v.refs
  | object _ _ v _ rs gs => v.refs ++ (relationsRefs rs ++ gs.refs)
  | record _ fs => entriesRefs fs
  | scalar _ => []

/-- The places that the items point to. -/
def listRefs : List Value → List Nat
  | [] => []
  | x :: xs => x.refs ++ listRefs xs

/-- The places that the values of the entries point to. -/
def entriesRefs : List (Value × Value) → List Nat
  | [] => []
  | (_, v) :: es => v.refs ++ entriesRefs es

/-- The places that the related entities point to. -/
def relationsRefs : List (String × List Value) → List Nat
  | [] => []
  | (_, xs) :: rs => listRefs xs ++ relationsRefs rs

end

section

variable {f g : Nat → Value}

mutual

/-- Only the places that the value points to are asked for. -/
theorem resolve_congr : ∀ v : Value, (∀ a ∈ v.refs, f a = g a) → v.resolve f = v.resolve g
  | ref a, h => h a List.mem_cons_self
  | list items, h => congrArg list (resolveList_congr items h)
  | tuple items, h => congrArg tuple (resolveList_congr items h)
  | dict entries, h => congrArg dict (resolveEntries_congr entries h)
  | var n v t, h => congrArg (var n · t) (resolve_congr v h)
  | object i t v ms rs gs, h => by
    obtain ⟨hv, h⟩ := List.forall_mem_append.mp h
    obtain ⟨hrs, hgs⟩ := List.forall_mem_append.mp h
    rw [resolve, resolve, resolve_congr v hv, resolveRelations_congr rs hrs, resolve_congr gs hgs]
  | record i fs, h => congrArg (record i) (resolveEntries_congr fs h)
  | scalar s, _ => rfl

theorem resolveList_congr : ∀ xs : List Value, (∀ a ∈ listRefs xs, f a = g a) →
    resolveList f xs = resolveList g xs
  | [], _ => rfl
  | x :: xs, h => by
    obtain ⟨hx, hxs⟩ := List.forall_mem_append.mp h
    rw [resolveList, resolveList, resolve_congr x hx, resolveList_congr xs hxs]

theorem resolveEntries_congr : ∀ es : List (Value × Value), (∀ a ∈ entriesRefs es, f a = g a) →
    resolveEntries f es = resolveEntries g es
  | [], _ => rfl
  | (_, v) :: es, h => by
    obtain ⟨hv, hes⟩ := List.forall_mem_append.mp h
    rw [resolveEntries, resolveEntries, resolve_congr v hv, resolveEntries_congr es hes]

theorem resolveRelations_congr : ∀ rs : List (String × List Value),
    (∀ a ∈ relationsRefs rs, f a = g a) → resolveRelations f rs = resolveRelations g rs
  | [], _ => rfl
  | (_, xs) :: rs, h => by
    obtain ⟨hxs, hrs⟩ := List.forall_mem_append.mp h
    rw [resolveRelations, resolveRelations, resolveList_congr xs hxs, resolveRelations_congr rs hrs]

end

mutual

/-- No pointer is left if none is in what the pointers are replaced by. -/
theorem isWhole_resolve : ∀ v : Value,
    (v.resolve f).isWhole = true ↔ ∀ a ∈ v.refs, (f a).isWhole = true
  | ref a => by rw [resolve, refs, List.forall_mem_singleton]
  | list items => listWhole_resolve items
  | tuple items => listWhole_resolve items
  | dict entries => entriesWhole_resolve entries
  | var _ v _ => isWhole_resolve v
  | object _ _ v _ rs gs => by
    rw [resolve, isWhole, refs, Bool.and_eq_true, Bool.and_eq_true, isWhole_resolve v,
      relationsWhole_resolve rs, isWhole_resolve gs, List.forall_mem_append, List.forall_mem_append,
      and_assoc]
  | record _ fs => entriesWhole_resolve fs
  | scalar _ => ⟨fun _ _ ha => absurd ha List.not_mem_nil, fun _ => rfl⟩

/-- Resolved items have no pointers left if what stands for the pointers has none. -/
theorem listWhole_resolve : ∀ xs : List Value,
    listWhole (resolveList f xs) = true ↔ ∀ a ∈ listRefs xs, (f a).isWhole = true
  | [] => ⟨fun _ _ ha => absurd ha List.not_mem_nil, fun _ => rfl⟩
  | x :: xs => by
    rw [resolveList, listWhole, listRefs, Bool.and_eq_true, isWhole_resolve x, listWhole_resolve xs,
      List.forall_mem_append]

theorem entriesWhole_resolve : ∀ es : List (Value × Value),
    entriesWhole (resolveEntries f es) = true ↔ ∀ a ∈ entriesRefs es, (f a).isWhole = true
  | [] => ⟨fun _ _ ha => absurd ha List.not_mem_nil, fun _ => rfl⟩
  | (_, v) :: es => by
    rw [resolveEntries, entriesWhole, entriesRefs, Bool.and_eq_true, isWhole_resolve v,
      entriesWhole_resolve es, List.forall_mem_append]

theorem relationsWhole_resolve (rs : List (String × List Value)) :
    relationsWhole (resolveRelations f rs) = true ↔ ∀ a ∈ relationsRefs rs, (f a).isWhole = true := by
  cases rs with
  | nil => exact ⟨fun _ _ ha => absurd ha List.not_mem_nil, fun _ => rfl⟩
  | cons r rs =>
    obtain ⟨kind, xs⟩ := r
    rw [resolveRelations, relationsWhole, relationsRefs, Bool.and_eq_true, listWhole_resolve xs,
      relationsWhole_resolve rs, List.forall_mem_append]

end

end

mutual

/-- Where every pointer stands for itself, a value is resolved to itself. -/
theorem resolve_ref : ∀ v : Value, v.resolve ref = v
  | ref _ => rfl
  | list items => congrArg list (resolveList_ref items)
  | tuple items => congrArg tuple (resolveList_ref items)
  | dict entries => congrArg dict (resolveEntries_ref entries)
  | var n v t => congrArg (var n · t) (resolve_ref v)
  | object i t v ms rs gs => by
    rw [resolve, resolve_ref v, resolveRelations_ref rs, resolve_ref gs]
  | record i fs => congrArg (record i) (resolveEntries_ref fs)
  | scalar _ => rfl

theorem resolveList_ref : ∀ xs : List Value, resolveList ref xs = xs
  | [] => rfl
  | x :: xs => by rw [resolveList, resolve_ref x, resolveList_ref xs]

theorem resolveEntries_ref : ∀ es : List (Value × Value), resolveEntries ref es = es
  | [] => rfl
  | (_, v) :: es => by rw [resolveEntries, resolve_ref v, resolveEntries_ref es]

theorem resolveRelations_ref (rs : List (String × List Value)) : resolveRelations ref rs = rs := by
  cases rs with
  | nil => rfl
  | cons r rs =>
    obtain ⟨kind, xs⟩ := r
    rw [resolveRelations, resolveList_ref xs, resolveRelations_ref rs]

end

/-- Where no pointer is left there is none to replace. -/
theorem resolve_of_isWhole {v : Value} (h : v.isWhole = true) (f : Nat → Value) : v.resolve f = v := by
  rw [← resolve_ref v, isWhole_resolve] at h
  have hsame : ∀ a ∈ v.refs, f a = ref a := fun a ha => absurd (h a ha) (by simp [isWhole])
  rw [resolve_congr v hsame, resolve_ref]

end Value

namespace Store

variable {s s' : Store}

/-! ## Depth -/

/-- Following pointers further than to where none is left changes nothing. -/
theorem expandTo_succ_of_isWhole : ∀ {n : Nat} {v : Value}, (s.expandTo n v).isWhole = true →
    s.expandTo (n + 1) v = s.expandTo n v
  | 0, _, h => Value.resolve_of_isWhole h _
  | n + 1, v, h => by
    have hrefs := (Value.isWhole_resolve v).mp h
    exact Value.resolve_congr v fun a ha => expandTo_succ_of_isWhole (hrefs a ha)

/-- Once all pointers are followed, more depth makes no difference. -/
theorem expandTo_of_le {n m : Nat} (hle : n ≤ m) {v : Value} (h : (s.expandTo n v).isWhole = true) :
    s.expandTo m v = s.expandTo n v := by
  induction hle with
  | refl => rfl
  | step _ ih => rw [expandTo_succ_of_isWhole (ih ▸ h), ih]

theorem content_alloc (s : Store) (c : Value) :
    (Store.alloc c s).2.content (.ref s.cells.size) = c := by
  show (s.cells.push c).getD s.cells.size .null = c
  rw [Array.getD_eq_getD_getElem?, Array.getElem?_push_size, Option.getD_some]

/-! ## Places that a value leads to -/

/-- Pointers lead from the value to the place. -/
inductive Leads (s : Store) (v : Value) : Nat → Prop
  | here {a : Nat} : a ∈ v.refs → Leads s v a
  | on {a b : Nat} : Leads s v a → b ∈ (s.content (.ref a)).refs → Leads s v b

/-- A value leads wherever leads what it points to. -/
theorem Leads.through {v : Value} {a b : Nat} (ha : a ∈ v.refs) (h : s.Leads (s.content (.ref a)) b) :
    s.Leads v b := by
  induction h with
  | here hb => exact .on (.here ha) hb
  | on _ hb ih => exact .on ih hb

/-- Stores that hold the same wherever a value leads to expand it alike, at every depth. -/
theorem expandTo_congr : ∀ (n : Nat) {v : Value},
    (∀ a, s.Leads v a → s'.content (.ref a) = s.content (.ref a)) → s'.expandTo n v = s.expandTo n v
  | 0, _, _ => rfl
  | n + 1, v, h => by
    refine Value.resolve_congr v fun a ha => ?_
    rw [h a (.here ha)]
    exact expandTo_congr n fun b hb => h b (hb.through ha)

/-- **The expansion of a value is that of the places that it leads to.** -/
theorem expand_congr {v : Value} (h : ∀ a, s.Leads v a → s'.content (.ref a) = s.content (.ref a))
    (hwhole : (s.expand v).isWhole = true) (hwhole' : (s'.expand v).isWhole = true) :
    s'.expand v = s.expand v := by
  unfold expand at hwhole hwhole' ⊢
  -- in the larger store pointers are followed further, and there are none left to follow
  rcases Nat.le_total (s.cells.size + 1) (s'.cells.size + 1) with hle | hle
  · rw [expandTo_congr _ h, expandTo_of_le hle hwhole]
  · rw [← expandTo_of_le hle hwhole', expandTo_congr _ h]

end Store

/-! ## Stores that extend others -/

/-- Every place of the first store is in the second, with the same content. -/
def Store.Extends (s s' : Store) : Prop :=
  ∀ (a : Nat) (c : Value), s.cells[a]? = some c → s'.cells[a]? = some c

namespace Store.Extends

variable {s s' s'' : Store}

theorem refl (s : Store) : s.Extends s :=
  fun _ _ h => h

theorem trans (h : s.Extends s') (h' : s'.Extends s'') : s.Extends s'' :=
  fun a c hc => h' a c (h a c hc)

/-- A new place stands behind all others. -/
theorem alloc (s : Store) (content : Value) : s.Extends (Store.alloc content s).2 := by
  intro a c hc
  show (s.cells.push content)[a]? = some c
  have hlt : a < s.cells.size := (Array.getElem?_eq_some_iff.mp hc).1
  rw [Array.getElem?_push, if_neg (Nat.ne_of_lt hlt)]
  exact hc

/-- What stands in a place stays there. -/
theorem content_of_lt (h : s.Extends s') {a : Nat} (ha : a < s.cells.size) :
    s'.content (.ref a) = s.content (.ref a) := by
  have hc : s.cells[a]? = some s.cells[a] := Array.getElem?_eq_getElem ha
  show s'.cells.getD a .null = s.cells.getD a .null
  rw [Array.getD_eq_getD_getElem?, Array.getD_eq_getD_getElem?, hc, h a _ hc]

/-- What a value points to, if it is not null, stays. -/
theorem content_eq (h : s.Extends s') {v : Value} (hv : s.content v ≠ .null) :
    s'.content v = s.content v := by
  cases v with
  | ref a =>
    refine h.content_of_lt (Nat.lt_of_not_le fun ha => hv ?_)
    show s.cells.getD a .null = .null
    rw [Array.getD_eq_getD_getElem?, Array.getElem?_eq_none ha]
    rfl
  | _ => rfl

/-- A store that was added to has as many places at least. -/
theorem size_le (h : s.Extends s') : s.cells.size ≤ s'.cells.size := by
  refine Nat.le_of_not_lt fun hlt => ?_
  have hc := h s'.cells.size _ (Array.getElem?_eq_getElem hlt)
  rw [Array.getElem?_eq_none (Nat.le_refl _)] at hc
  cases hc

end Store.Extends

end LetTag
