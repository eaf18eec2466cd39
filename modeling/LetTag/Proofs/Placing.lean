/-
  Values that are taken apart into a store.

  `place` moves every list and object of a value to a place of its own, behind those of its parts.  So
  every place points to places before it only (`Store.Descends`), and what it is expanded to does not
  change while others come behind it (`Store.Descends.follow_eq`).  By induction on the value, whatever
  `place` leaves leads to nothing outside the store and expands to the value again (`Value.place_spec`).
-/
import LetTag.Proofs.Expansion

namespace LetTag

namespace Store

variable {s s' s'' : Store} {a : Nat} {v : Value}

/-! ## Values that are taken apart -/

/-- What a pointer to a place is expanded to. -/
def follow (s : Store) (depth a : Nat) : Value :=
  s.expandTo depth (s.content (.ref a))

/-- Every place points to places before it only. -/
def Descends (s : Store) : Prop :=
  ∀ a, a < s.cells.size → ∀ b ∈ (s.content (.ref a)).refs, b < a

namespace Descends

/-- There is nothing in an empty store that could point. -/
theorem empty : Store.empty.Descends :=
  fun _ h => absurd h (Nat.not_lt_zero _)

theorem alloc (h : s.Descends) {c : Value} (hc : ∀ a ∈ c.refs, a < s.cells.size) :
    (Store.alloc c s).2.Descends := by
  intro a ha b hb
  have hsize : (Store.alloc c s).2.cells.size = s.cells.size + 1 := Array.size_push _
  rcases Nat.lt_or_eq_of_le (Nat.le_of_lt_succ (hsize ▸ ha)) with hlt | rfl
  · rw [(Extends.alloc s c).content_of_lt hlt] at hb
    exact h a hlt b hb
  · -- the new place itself
    rw [content_alloc] at hb
    exact hc b hb

/-- What points into the store leads to nothing outside of it. -/
theorem lt_of_leads (h : s.Descends) (hv : ∀ a ∈ v.refs, a < s.cells.size) (hleads : s.Leads v a) :
    a < s.cells.size := by
  induction hleads with
  | here ha => exact hv _ ha
  | on _ hb ih => exact Nat.lt_trans (h _ ih _ hb) ih

/-- More places make no difference to what is there. -/
theorem follow_eq (h : s.Descends) (hs : s.Extends s') (ha : a < s.cells.size) (depth : Nat) :
    s'.follow depth a = s.follow depth a := by
  unfold follow
  rw [hs.content_of_lt ha]
  refine expandTo_congr depth fun b hb => hs.content_of_lt (h.lt_of_leads ?_ hb)
  exact fun c hc => Nat.lt_trans (h a ha c hc) ha

end Descends

/-- The second store has the places of the first, and perhaps others that point to places before them;
    and these pointers lead into it. -/
structure Settles (s s' : Store) (refs : List Nat) : Prop where
  extended : s.Extends s'
  descends : s'.Descends
  inside : ∀ a ∈ refs, a < s'.cells.size

namespace Settles

variable {rs rs' : List Nat}

theorem nil (h : s.Descends) : Settles s s [] where
  extended := .refl s
  descends := h
  inside _ ha := absurd ha List.not_mem_nil

theorem append (h : Settles s s' rs) (h' : Settles s' s'' rs') : Settles s s'' (rs ++ rs') where
  extended := h.extended.trans h'.extended
  descends := h'.descends
  inside := List.forall_mem_append.mpr
    ⟨fun a ha => Nat.lt_of_lt_of_le (h.inside a ha) h'.extended.size_le, h'.inside⟩

theorem alloc {c : Value} (h : Settles s s' c.refs) :
    Settles s (Store.alloc c s').2 (Store.alloc c s').1.refs where
  extended := h.extended.trans (.alloc s' c)
  descends := h.descends.alloc h.inside
  inside a ha := by
    rw [List.mem_singleton.mp ha]
    show s'.cells.size < (s'.cells.push c).size
    rw [Array.size_push]
    exact Nat.lt_succ_self _

end Settles

/-- A new place is expanded to what it holds, expanded. -/
theorem resolve_alloc {c w : Value} (h : Settles s s' c.refs)
    (hc : ∀ depth, s'.cells.size ≤ depth → c.resolve (s'.follow depth) = w) (depth : Nat)
    (hdepth : (Store.alloc c s').2.cells.size ≤ depth) :
    (Store.alloc c s').1.resolve ((Store.alloc c s').2.follow depth) = w := by
  have hsize : (Store.alloc c s').2.cells.size = s'.cells.size + 1 := Array.size_push _
  rw [hsize] at hdepth
  obtain ⟨k, rfl⟩ : ∃ k, depth = k + 1 := ⟨depth - 1, by omega⟩
  rw [← hc k (by omega)]
  show (Store.alloc c s').2.expandTo (k + 1) ((Store.alloc c s').2.content (.ref s'.cells.size)) = _
  rw [content_alloc]
  exact Value.resolve_congr c fun a ha => h.descends.follow_eq (.alloc s' c) (h.inside a ha) k

end Store

/-! ## Taking apart and putting together -/

/-- What comes of taking `x` apart: something whose pointers lead into the store behind it, and which is
    `x` again when they are followed. -/
structure PlacedAs {α : Type} (refs : α → List Nat) (resolve : (Nat → Value) → α → α) (s : Store)
    (placed : α × Store) (x : α) : Prop where
  settles : s.Settles placed.2 (refs placed.1)
  restored : ∀ depth, placed.2.cells.size ≤ depth → resolve (placed.2.follow depth) placed.1 = x

/-- It stays that while other places come. -/
theorem PlacedAs.later {α : Type} {refs : α → List Nat} {resolve : (Nat → Value) → α → α}
    {s s' : Store} {placed : α × Store} {x : α} (h : PlacedAs refs resolve s placed x)
    (hcongr : ∀ {f g}, (∀ a ∈ refs placed.1, f a = g a) → resolve f placed.1 = resolve g placed.1)
    (hs : placed.2.Extends s') (depth : Nat) (hdepth : s'.cells.size ≤ depth) :
    resolve (s'.follow depth) placed.1 = x := by
  rw [← h.restored depth (Nat.le_trans hs.size_le hdepth)]
  exact hcongr fun a ha => h.settles.descends.follow_eq hs (h.settles.inside a ha) depth

namespace Value

theorem mem_listRefs {x : Value} {xs : List Value} {a : Nat} (hx : x ∈ xs) (ha : a ∈ x.refs) :
    a ∈ listRefs xs := by
  induction xs with
  | nil => exact absurd hx List.not_mem_nil
  | cons y ys ih =>
    rcases List.mem_cons.mp hx with rfl | hx
    · exact List.mem_append_left _ ha
    · exact List.mem_append_right _ (ih hx)

mutual

/-- **What was taken apart can be put together**, by induction on the value: its parts are placed before
    it, and they stay. -/
theorem place_spec : ∀ (v : Value) {s : Store}, v.isWhole = true → s.Descends →
    PlacedAs refs resolve s (v.place s) v
  | ref _, _, hv, _ => by cases hv
  | scalar c, _, _, hs => ⟨.nil hs, fun _ _ => rfl⟩
  | list items, s, hv, hs => by
    have hitems := placeList_spec items hv hs
    exact ⟨hitems.settles.alloc, Store.resolve_alloc hitems.settles fun depth hdepth =>
      congrArg list (hitems.restored depth hdepth)⟩
  | tuple items, s, hv, hs => by
    have hitems := placeList_spec items hv hs
    exact ⟨hitems.settles, fun depth hdepth => congrArg tuple (hitems.restored depth hdepth)⟩
  | dict entries, s, hv, hs => by
    have hentries := placeEntries_spec entries hv hs
    exact ⟨hentries.settles, fun depth hdepth => congrArg dict (hentries.restored depth hdepth)⟩
  | var n v t, s, hv, hs => by
    have hvalue := place_spec v hv hs
    exact ⟨hvalue.settles, fun depth hdepth => congrArg (var n · t) (hvalue.restored depth hdepth)⟩
  | object i t v ms rs gs, s, hwhole, hs => by
    obtain ⟨hwhole, hgs⟩ := Bool.and_eq_true_iff.mp hwhole
    obtain ⟨hv, hrs⟩ := Bool.and_eq_true_iff.mp hwhole
    -- the three parts are placed one behind the other, and then the object behind them
    have hvalue := place_spec v hv hs
    have hrelations := placeRelations_spec rs hrs hvalue.settles.descends
    have htags := place_spec gs hgs hrelations.settles.descends
    have hrest := hrelations.settles.append htags.settles
    have hall := hvalue.settles.append hrest
    refine ⟨hall.alloc, Store.resolve_alloc hall fun depth hdepth => ?_⟩
    rw [resolve, hvalue.later (resolve_congr _) hrest.extended depth hdepth,
      hrelations.later (resolveRelations_congr _) htags.settles.extended depth hdepth,
      htags.restored depth hdepth]
  | record i fs, s, hv, hs => by
    have hfields := placeEntries_spec fs hv hs
    exact ⟨hfields.settles, fun depth hdepth => congrArg (record i) (hfields.restored depth hdepth)⟩

theorem placeList_spec : ∀ (xs : List Value) {s : Store}, listWhole xs = true → s.Descends →
    PlacedAs listRefs resolveList s (placeList xs s) xs
  | [], _, _, hs => ⟨.nil hs, fun _ _ => rfl⟩
  | x :: xs, s, h, hs => by
    obtain ⟨hx, hxs⟩ := Bool.and_eq_true_iff.mp h
    have hfirst := place_spec x hx hs
    have hrest := placeList_spec xs hxs hfirst.settles.descends
    refine ⟨hfirst.settles.append hrest.settles, fun depth hdepth => ?_⟩
    have hx' := hfirst.later (resolve_congr _) hrest.settles.extended depth hdepth
    exact List.cons_eq_cons.mpr ⟨hx', hrest.restored depth hdepth⟩

theorem placeEntries_spec : ∀ (es : List (Value × Value)) {s : Store}, entriesWhole es = true →
    s.Descends → PlacedAs entriesRefs resolveEntries s (placeEntries es s) es
  | [], _, _, hs => ⟨.nil hs, fun _ _ => rfl⟩
  | (k, v) :: es, s, h, hs => by
    obtain ⟨hv, hes⟩ := Bool.and_eq_true_iff.mp h
    have hfirst := place_spec v hv hs
    have hrest := placeEntries_spec es hes hfirst.settles.descends
    refine ⟨hfirst.settles.append hrest.settles, fun depth hdepth => ?_⟩
    have hv' := hfirst.later (resolve_congr _) hrest.settles.extended depth hdepth
    exact List.cons_eq_cons.mpr ⟨congrArg (k, ·) hv', hrest.restored depth hdepth⟩

theorem placeRelations_spec : ∀ (rs : List (String × List Value)) {s : Store},
    relationsWhole rs = true → s.Descends →
    PlacedAs relationsRefs resolveRelations s (placeRelations rs s) rs
  | [], _, _, hs => ⟨.nil hs, fun _ _ => rfl⟩
  | (kind, xs) :: rs, s, h, hs => by
    obtain ⟨hxs, hrs⟩ := Bool.and_eq_true_iff.mp h
    have hfirst := placeList_spec xs hxs hs
    have hrest := placeRelations_spec rs hrs hfirst.settles.descends
    refine ⟨hfirst.settles.append hrest.settles, fun depth hdepth => ?_⟩
    have hxs' := hfirst.later (resolveList_congr _) hrest.settles.extended depth hdepth
    exact List.cons_eq_cons.mpr ⟨congrArg (kind, ·) hxs', hrest.restored depth hdepth⟩

end

theorem resolveList_eq_map (f : Nat → Value) (xs : List Value) :
    resolveList f xs = xs.map (resolve f) := by
  induction xs with
  | nil => rfl
  | cons x xs ih => rw [resolveList, ih, List.map_cons]

/-- **Values are put together as they were.**  Those without pointers that are taken apart into an empty
    store lead to nothing outside of it, and expand to what they were. -/
theorem expand_placeList {xs : List Value} (h : listWhole xs = true) :
    (placeList xs .empty).1.map (placeList xs .empty).2.expand = xs
      ∧ ∀ y ∈ (placeList xs .empty).1, ∀ p, (placeList xs .empty).2.Leads y p →
        p < (placeList xs .empty).2.cells.size := by
  obtain ⟨hsettles, hrestored⟩ := placeList_spec xs h .empty
  refine ⟨?_, fun y hy p hp => hsettles.descends.lt_of_leads (fun a ha => hsettles.inside a ?_) hp⟩
  · exact (resolveList_eq_map _ _).symm.trans (hrestored _ (Nat.le_refl _))
  · exact mem_listRefs hy ha

end Value
end LetTag
