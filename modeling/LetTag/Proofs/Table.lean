/-
  What tables and tags keep: how `put` and `addTags` show through `get?`, `names` and `eraseDups`.

  A table is only ever changed by `put`, so two facts carry every statement about one: a lookup sees
  the last value put under its name, and the names stand in the order in which they first came.
  Tags are the same for lists without values: adding some is putting them behind and dropping every
  repetition.
-/
import LetTag.Table

namespace LetTag

/-- A new name behind others makes no repetition. -/
theorem nodup_snoc {names : List String} {name : String} (h : names.Nodup) (hnew : name ∉ names) :
    (names ++ [name]).Nodup := by
  refine List.nodup_append.mpr ⟨h, List.nodup_cons.mpr ⟨List.not_mem_nil, List.nodup_nil⟩, ?_⟩
  rintro n hn m hm rfl
  exact hnew (List.mem_singleton.mp hm ▸ hn)

namespace Table

variable {α : Type}

theorem get?_cons (name n : String) (v : α) (rest : Table α) :
    get? name ((n, v) :: rest) = if name = n then some v else get? name rest := by
  by_cases h : name = n
  · simp [get?, h]
  · have hb : (name == n) = false := beq_false_of_ne h
    simp [get?, List.lookup_cons, h, hb]

/-- A lookup sees what was put last under its name. -/
theorem get?_put (name other : String) (value : α) (t : Table α) :
    get? other (put name value t) = if other = name then some value else get? other t := by
  induction t with
  | nil => exact get?_cons other name value []
  | cons entry rest ih =>
    obtain ⟨n, v⟩ := entry
    by_cases hn : n = name
    · subst hn
      rw [put, if_pos rfl, get?_cons, get?_cons]
      split
      · rfl
      · rfl
    · rw [put, if_neg hn, get?_cons, get?_cons, ih]
      by_cases h : other = n
      · rw [if_pos h, if_pos h, if_neg (h ▸ hn)]
      · rw [if_neg h, if_neg h]

/-- A name that is there keeps its place, and a new one comes last. -/
theorem names_put (name : String) (value : α) (t : Table α) :
    names (put name value t) = if name ∈ names t then names t else names t ++ [name] := by
  induction t with
  | nil => rfl
  | cons entry rest ih =>
    obtain ⟨n, v⟩ := entry
    by_cases hn : n = name
    · simp [put, names, hn]
    · have hne : ¬ name = n := fun h => hn h.symm
      have hcons : names ((n, v) :: rest) = n :: names rest := rfl
      have hput : names (put name value ((n, v) :: rest)) = n :: names (put name value rest) := by
        rw [put, if_neg hn]
        rfl
      rw [hput, hcons, ih]
      by_cases hm : name ∈ names rest
      · rw [if_pos hm, if_pos (List.mem_cons_of_mem n hm)]
      · have hm' : name ∉ n :: names rest := by simp [hne, hm]
        rw [if_neg hm, if_neg hm', List.cons_append]

/-- There is a value under a name exactly if the name is among the names. -/
theorem get?_eq_none_iff (name : String) (t : Table α) : get? name t = none ↔ name ∉ names t := by
  simp only [get?, names, List.lookup_eq_none_iff, List.mem_map]
  constructor
  · rintro h ⟨p, hp, rfl⟩
    simpa using h p hp
  · intro h p hp
    have hne : name ≠ p.1 := fun he => h ⟨p, hp, he.symm⟩
    simpa using hne

theorem mem_of_get? {name : String} {value : α} : ∀ {t : Table α}, get? name t = some value →
    (name, value) ∈ t := by
  intro t
  induction t with
  | nil => exact fun h => nomatch h
  | cons entry rest ih =>
    intro h
    obtain ⟨n, v⟩ := entry
    rw [get?_cons] at h
    split at h
    · rename_i hn
      rw [hn, Option.some.inj h]
      exact List.mem_cons_self
    · exact List.mem_cons_of_mem _ (ih h)

/-- A value under a new name comes last. -/
theorem put_of_new {name : String} (value : α) : ∀ {t : Table α}, name ∉ names t →
    put name value t = t ++ [(name, value)] := by
  intro t
  induction t with
  | nil => exact fun _ => rfl
  | cons entry rest ih =>
    intro h
    obtain ⟨n, v⟩ := entry
    have hne : ¬ n = name := fun he => h (he ▸ List.mem_cons_self)
    rw [put, if_neg hne, ih fun hm => h (List.mem_cons_of_mem n hm), List.cons_append]

/-- Where no name comes twice, each entry is found under its name. -/
theorem get?_of_mem {name : String} {value : α} : ∀ {t : Table α}, (names t).Nodup →
    (name, value) ∈ t → get? name t = some value := by
  intro t
  induction t with
  | nil => exact fun _ h => absurd h List.not_mem_nil
  | cons entry rest ih =>
    intro hnodup hmem
    obtain ⟨n, v⟩ := entry
    obtain ⟨hn, hrest⟩ := List.nodup_cons.mp hnodup
    rw [get?_cons]
    rcases List.mem_cons.mp hmem with heq | hmem
    · obtain ⟨rfl, rfl⟩ := Prod.mk.inj heq
      exact if_pos rfl
    · have hname : name ∈ names rest := List.mem_map.mpr ⟨(name, value), hmem, rfl⟩
      have hne : ¬ name = n := fun he => hn (he ▸ hname)
      rw [if_neg hne, ih hrest hmem]

/-- An entry of a table with a value put in is that value, or was there. -/
theorem mem_put {name n : String} {value v : α} : ∀ {t : Table α}, (n, v) ∈ put name value t →
    n = name ∧ v = value ∨ (n, v) ∈ t := by
  intro t
  induction t with
  | nil =>
    intro h
    obtain ⟨rfl, rfl⟩ := Prod.mk.inj (List.mem_singleton.mp h)
    exact Or.inl ⟨rfl, rfl⟩
  | cons entry rest ih =>
    intro h
    obtain ⟨m, w⟩ := entry
    rw [put] at h
    split at h
    · rename_i hm
      rcases List.mem_cons.mp h with heq | h
      · obtain ⟨rfl, rfl⟩ := Prod.mk.inj heq
        exact Or.inl ⟨hm, rfl⟩
      · exact Or.inr (List.mem_cons_of_mem _ h)
    · rcases List.mem_cons.mp h with heq | h
      · rw [heq]
        exact Or.inr List.mem_cons_self
      · exact (ih h).imp id (List.mem_cons_of_mem _)

/-- Putting a value keeps names from coming twice. -/
theorem nodup_names_put (name : String) (value : α) {t : Table α} (h : (names t).Nodup) :
    (names (put name value t)).Nodup := by
  rw [names_put]
  split
  · exact h
  · rename_i hnew
    exact nodup_snoc h hnew

end Table

/-! ## Tags -/

/-- Added tags stand behind those that are there, no tag comes twice, and no others come in. -/
theorem addTags_spec (new : List String) : ∀ tags : List String, tags <+: addTags tags new
    ∧ (tags.Nodup → (addTags tags new).Nodup)
    ∧ ∀ t ∈ addTags tags new, t ∈ tags ∨ t ∈ new := by
  induction new with
  | nil => exact fun tags => ⟨List.prefix_refl tags, id, fun t ht => Or.inl ht⟩
  | cons t new ih =>
    intro tags
    show tags <+: addTags (if tags.contains t then tags else tags ++ [t]) new ∧ _
    by_cases ht : t ∈ tags
    · have hc : tags.contains t = true := by simpa using ht
      rw [if_pos hc]
      obtain ⟨hbegins, hnodup, hmem⟩ := ih tags
      have hadd : addTags tags (t :: new) = addTags tags new := by
        show addTags (if tags.contains t then tags else tags ++ [t]) new = _
        rw [if_pos hc]
      rw [hadd]
      exact ⟨hbegins, hnodup, fun u hu => (hmem u hu).imp id (List.mem_cons_of_mem t)⟩
    · have hc : ¬ tags.contains t = true := by simpa using ht
      rw [if_neg hc]
      obtain ⟨hbegins, hnodup, hmem⟩ := ih (tags ++ [t])
      have hadd : addTags tags (t :: new) = addTags (tags ++ [t]) new := by
        show addTags (if tags.contains t then tags else tags ++ [t]) new = _
        rw [if_neg hc]
      rw [hadd]
      refine ⟨(List.prefix_append tags [t]).trans hbegins, fun h => hnodup (nodup_snoc h ht), ?_⟩
      intro u hu
      rcases hmem u hu with hu | hu
      · rcases List.mem_append.mp hu with hu | hu
        · exact Or.inl hu
        · rw [List.mem_singleton.mp hu]
          exact Or.inr List.mem_cons_self
      · exact Or.inr (List.mem_cons_of_mem t hu)

/-- Without its repetitions a list holds nothing twice. -/
theorem nodup_eraseDups : ∀ names : List String, names.eraseDups.Nodup
  | [] => List.nodup_nil
  | n :: names => by
    rw [List.eraseDups_cons]
    refine List.nodup_cons.mpr ⟨fun hm => ?_, nodup_eraseDups _⟩
    have hn := (List.mem_filter.mp (List.mem_eraseDups.mp hm)).2
    rw [beq_self_eq_true] at hn
    cases hn
termination_by names => names.length
decreasing_by exact Nat.lt_succ_of_le (List.length_filter_le _ _)

/-- Adding tags in two steps is adding all of them. -/
theorem addTags_addTags (tags new more : List String) :
    addTags (addTags tags new) more = addTags tags (new ++ more) := by
  simp [addTags, List.foldl_append]

/-- Tags are put behind those that are there, and only the first of equal ones is kept. -/
theorem addTags_eq_eraseDups (new : List String) : ∀ {tags : List String},
    tags.eraseDups = tags → addTags tags new = (tags ++ new).eraseDups := by
  induction new with
  | nil =>
    intro tags h
    rw [List.append_nil, h]
    rfl
  | cons t new ih =>
    intro tags h
    show addTags (if tags.contains t then tags else tags ++ [t]) new = _
    by_cases ht : t ∈ tags
    · have hc : tags.contains t = true := by simpa using ht
      rw [if_pos hc, ih h, List.eraseDups_append, List.eraseDups_append]
      have hdrop : (t :: new).removeAll tags = new.removeAll tags := by
        simp [List.removeAll, ht]
      rw [hdrop]
    · have hc : ¬ tags.contains t = true := by simpa using ht
      have hnew : (tags ++ [t]).eraseDups = tags ++ [t] := by
        rw [List.eraseDups_append, h]
        simp [List.removeAll, ht, List.eraseDups_cons]
      rw [if_neg hc, ih hnew, List.append_assoc]
      rfl

/-- What is there behind added tags was there or is among them. -/
theorem mem_addTags {t : String} (tags new : List String) :
    t ∈ addTags tags new ↔ t ∈ tags ∨ t ∈ new := by
  constructor
  · exact (addTags_spec new tags).2.2 t
  · rintro (ht | ht)
    · exact (addTags_spec new tags).1.subset ht
    · obtain ⟨before, after, rfl⟩ := List.append_of_mem ht
      rw [← addTags_addTags]
      refine (addTags_spec after _).1.subset ?_
      show t ∈ if (addTags tags before).contains t then _ else _
      split
      · rename_i h
        exact List.contains_iff_mem.mp h
      · exact List.mem_append_right _ List.mem_cons_self

/-- Tags that are there already change nothing. -/
theorem addTags_of_subset {tags new : List String} (h : ∀ t ∈ new, t ∈ tags) :
    addTags tags new = tags := by
  induction new with
  | nil => rfl
  | cons t new ih =>
    obtain ⟨ht, hnew⟩ := List.forall_mem_cons.mp h
    show addTags (if tags.contains t then tags else tags ++ [t]) new = tags
    rw [if_pos (List.contains_iff_mem.mpr ht), ih hnew]

/-- Whether repetitions are dropped before tags are added or while they are does not matter. -/
theorem addTags_of_added (tags new more : List String) :
    addTags tags (addTags new more) = addTags tags (new ++ more) := by
  induction more generalizing new with
  | nil => rw [List.append_nil]; rfl
  | cons t more ih =>
    show addTags tags (addTags (if new.contains t then new else new ++ [t]) more) = _
    split
    · rename_i ht
      have hthere : ∀ u ∈ [t], u ∈ addTags tags new := by
        intro u hu
        rw [List.mem_singleton.mp hu, mem_addTags]
        exact Or.inr (List.contains_iff_mem.mp ht)
      rw [ih, ← List.singleton_append, ← addTags_addTags, ← addTags_addTags, ← addTags_addTags,
        addTags_of_subset hthere]
    · rw [ih, List.append_assoc]
      rfl

/-! ## Entries put one after the other -/

namespace Table

variable {α : Type}

/-- The names are those that were there, and then the new ones in the order in which they come. -/
theorem names_foldl_put (entries : Table α) : ∀ t : Table α,
    names (entries.foldl (fun t e => put e.1 e.2 t) t) = addTags (names t) (names entries) := by
  induction entries with
  | nil => exact fun t => rfl
  | cons e entries ih =>
    intro t
    rw [List.foldl_cons, ih, names_put]
    show _ = addTags (if (names t).contains e.1 then names t else names t ++ [e.1]) (names entries)
    by_cases h : e.1 ∈ names t
    · rw [if_pos h, if_pos (List.contains_iff_mem.mpr h)]
    · rw [if_neg h, if_neg fun hc => h (List.contains_iff_mem.mp hc)]

/-- A lookup sees the last entry under its name, and what was there if there is none. -/
theorem get?_foldl_put (name : String) (entries : Table α) : ∀ t : Table α,
    get? name (entries.foldl (fun t e => put e.1 e.2 t) t)
      = (get? name entries.reverse).or (get? name t) := by
  induction entries with
  | nil => exact fun t => rfl
  | cons e entries ih =>
    intro t
    have hlast : get? name (entries.reverse ++ [e])
        = (get? name entries.reverse).or (get? name [e]) := List.lookup_append
    rw [List.foldl_cons, ih, List.reverse_cons, hlast, Option.or_assoc, get?_put]
    obtain ⟨n, v⟩ := e
    rw [get?_cons]
    split
    · rfl
    · rfl

/-- Where no name comes twice, it does not matter from which end a table is searched. -/
theorem get?_reverse {t : Table α} (h : (names t).Nodup) (name : String) :
    get? name t.reverse = get? name t := by
  have hrev : (names t.reverse).Nodup := by
    rw [names, List.map_reverse]
    exact List.pairwise_reverse.mpr (h.imp fun hne => hne.symm)
  cases hget : get? name t with
  | some v => exact get?_of_mem hrev (List.mem_reverse.mpr (mem_of_get? hget))
  | none =>
    rw [get?_eq_none_iff] at hget ⊢
    rwa [names, List.map_reverse, List.mem_reverse]

theorem nodup_names_foldl_put (entries : Table α) {t : Table α} (h : (names t).Nodup) :
    (names (entries.foldl (fun t e => put e.1 e.2 t) t)).Nodup := by
  rw [names_foldl_put]
  exact (addTags_spec _ _).2.1 h

/-- A table where no name comes twice is what lookups under its names give. -/
theorem eq_map_get? {t : Table α} (h : (names t).Nodup) (default : α) :
    t = (names t).map fun n => (n, (get? n t).getD default) := by
  have hentry : ∀ e ∈ t, (e.1, (get? e.1 t).getD default) = e := by
    intro e he
    rw [get?_of_mem h he]
    rfl
  rw [names, List.map_map]
  exact (List.map_id t).symm.trans (List.map_congr_left fun e he => (hentry e he).symm)

/-- Tables with the same names in the same order are equal if lookups in them are. -/
theorem eq_of_get? {t u : Table α} (h : (names t).Nodup) (hnames : names t = names u)
    (hget : ∀ name, get? name t = get? name u) : t = u := by
  have hu : (names u).Nodup := hnames ▸ h
  cases t with
  | nil => exact (List.map_eq_nil_iff.mp hnames.symm).symm
  | cons entry rest =>
    rw [eq_map_get? h entry.2, eq_map_get? hu entry.2, hnames]
    exact List.map_congr_left fun name _ => by rw [hget]

/-- Entries put into the empty table: the names where they first come, each with the value that
    comes last. -/
theorem foldl_put_nil (entries : Table α) (default : α) :
    entries.foldl (fun t e => put e.1 e.2 t) []
      = (names entries).eraseDups.map fun n => (n, (get? n entries.reverse).getD default) := by
  have hnames : names (entries.foldl (fun t e => put e.1 e.2 t) []) = (names entries).eraseDups :=
    (names_foldl_put entries []).trans (addTags_eq_eraseDups (names entries) rfl)
  have hget : ∀ n, get? n (entries.foldl (fun t e => put e.1 e.2 t) []) = get? n entries.reverse :=
    fun n => (get?_foldl_put n entries []).trans Option.or_none
  have hnodup : (names (entries.foldl (fun t e => put e.1 e.2 t) [])).Nodup :=
    hnames ▸ nodup_eraseDups _
  refine (eq_map_get? hnodup default).trans ?_
  rw [hnames]
  exact List.map_congr_left fun n _ => by rw [hget]

end Table

end LetTag
