/-
  What a caller gets to know of the arguments.

  The result of `execute` comes with descriptions of the arguments, so that the caller can reconstruct
  what was passed.  They are made behind the run of the body, though, of the arguments as the body leaves
  them.  Whatever the body has changed in a place that an argument leads to, say by appending to a list,
  shows in the descriptions, and what was passed is lost.  They are those of what was passed if the run
  leaves all these places alone (`Store.described_congr`), as every run of a still closure does
  (`Closure.invoked_extends`).
-/
import LetTag.Proofs.Placing
import LetTag.Proofs.Stillness

namespace LetTag

/-- A run that replies with a result has described the arguments as it has left them. -/
theorem Ran.of_reply {ran : Ran} {id : String} {r : Value} (h : ran.reply id executeName = .ok r) :
    ∃ v, ran.outcome = .ok v ∧ ran.Described ∧ r = ran.result v := by
  unfold reply at h
  cases hv : ran.outcome with
  | ok v =>
    rw [hv] at h
    dsimp only at h
    rw [if_pos rfl] at h
    obtain ⟨hdescribed, hendless⟩ := ran.callResult_eq v
    by_cases hran : ran.Described
    · rw [hdescribed hran] at h
      exact ⟨v, rfl, hran, (Except.ok.inj h).symm⟩
    · rw [hendless hran] at h
      cases h
  | error stop =>
    rw [hv] at h
    cases stop with
    | fault f => cases h
    | endless => cases h

namespace Store

variable {s : Store} {e : Entity} {args : List Value} {r : Value}

/-! ## Calls that give a result -/

/-- A call of `execute` that gives a result has run a closure to which references lead. -/
theorem callFrom_ok (n : Nat) {e : Entity} (h : (callFrom n e executeName args s).1 = .ok r) :
    ∃ c places id, s.Path (Table.get? executeName e.methods) places (some (.closure c))
      ∧ callFrom n e executeName args s
        = ((c.invoked args s).reply id executeName, (c.invoked args s).store) := by
  cases hm : Table.get? executeName e.methods with
  | none =>
    rw [callFrom_missing n args hm] at h
    cases h
  | some m =>
    cases m with
    | closure c => exact ⟨c, [], e.id, .here _, callFrom_runs n args hm⟩
    | reference a =>
      cases n with
      | zero =>
        rw [callFrom, callWith_reference hm] at h
        split at h
        · cases h
        · cases h
      | succ n =>
        cases hexecute : s.execute? a with
        | none =>
          rw [callFrom_dangling n args hm hexecute] at h
          cases h
        | some next =>
          -- the call of the target gives the same result, and has run a closure
          obtain ⟨target, htarget, hnext⟩ := exists_target hexecute
          rw [callFrom_passes n args hm htarget hexecute] at h ⊢
          obtain ⟨c, places, id, hpath, hcall⟩ := callFrom_ok n h
          rw [hnext, ← hexecute] at hpath
          exact ⟨c, a :: places, id, .follow hpath, hcall⟩

/-- An operation that is a closure leads to no other. -/
theorem Path.eq_of_closure {m : Option Method} {places : List Nat} {c c' : Closure}
    (h : s.Path m places (some (.closure c'))) (hm : m = some (.closure c)) : c' = c := by
  subst hm
  cases h
  rfl

/-! ## The arguments -/

/-- The descriptions of values in the store. -/
def described (s : Store) (vs : List Value) : List Value :=
  vs.map fun v => (s.expand v).describe

/-- Stores that hold the same in all places that the values lead to describe them alike. -/
theorem described_congr {s' : Store}
    (h : ∀ a ∈ args, ∀ p, s.Leads a p → s'.content (.ref p) = s.content (.ref p))
    (hwhole : ∀ a ∈ args, (s.expand a).isWhole = true)
    (hwhole' : ∀ a ∈ args, (s'.expand a).isWhole = true) : s'.described args = s.described args := by
  refine List.map_congr_left fun a ha => congrArg Value.describe ?_
  exact expand_congr (h a ha) (hwhole a ha) (hwhole' a ha)

/-- A call of `execute` that gives a result is one run of a closure, with the arguments described behind
    it. -/
theorem call_ok (h : (call e executeName args s).1 = .ok r) :
    let s' := (call e executeName args s).2
    ∃ c places v, s.Path (Table.get? executeName e.methods) places (some (.closure c))
      ∧ (c.invoked args s).outcome = .ok v ∧ (c.invoked args s).store = s'
      ∧ r = .dict [(.text "result", s'.expand v), (.text "vars", .list (s'.described args))]
      ∧ ∀ a ∈ args, (s'.expand a).isWhole = true := by
  intro s'
  obtain ⟨c, places, id, hpath, hcall⟩ := callFrom_ok (s.cells.size + 1) h
  have hstore : (c.invoked args s).store = s' := (congrArg Prod.snd hcall).symm
  have hreply : (c.invoked args s).reply id executeName = .ok r := by
    rw [← h]
    exact (congrArg Prod.fst hcall).symm
  obtain ⟨v, hv, hdescribed, hr⟩ := Ran.of_reply hreply
  exact ⟨c, places, v, hpath, hv, hstore, hr.trans (hstore ▸ rfl), hstore ▸ hdescribed⟩

/-- **What `vars` describes.**  A call of `execute` that gives a result has made one run of a closure, and
    `vars` are the descriptions of the arguments as they are behind the run.  These are the descriptions
    of what was passed, provided that it had any, if the run has left all places alone that the arguments
    lead to; and it has if the closure is still and no pointer leads out of the store. -/
theorem vars_of_call (h : (call e executeName args s).1 = .ok r) :
    let s' := (call e executeName args s).2
    ∃ c places v, s.Path (Table.get? executeName e.methods) places (some (.closure c))
      ∧ (c.invoked args s).outcome = .ok v ∧ (c.invoked args s).store = s'
      ∧ r = .dict [(.text "result", s'.expand v), (.text "vars", .list (s'.described args))]
      ∧ ((∀ a ∈ args, (s.expand a).isWhole = true) →
        ((∀ a ∈ args, ∀ p, s.Leads a p → s'.content (.ref p) = s.content (.ref p)) →
          s'.described args = s.described args)
        ∧ (c.program.isStill = true → (∀ a ∈ args, ∀ p, s.Leads a p → p < s.cells.size) →
          s'.described args = s.described args)) := by
  intro s'
  obtain ⟨c, places, v, hpath, hv, hstore, hr, hwhole'⟩ := call_ok h
  refine ⟨c, places, v, hpath, hv, hstore, hr, fun hwhole => ⟨?_, ?_⟩⟩
  · exact fun hkept => described_congr hkept hwhole hwhole'
  · -- a place that was there before is one that the run has left alone
    intro hstill hinside
    have hextends : s.Extends s' := by
      rw [show s' = (c.invoked args s).store from hstore.symm]
      exact c.invoked_extends hstill args s
    exact described_congr (fun a ha p hp => hextends.content_of_lt (hinside a ha p hp)) hwhole hwhole'

/-- A body that returns its argument in another list: the argument is described as it was passed. -/
theorem vars_of_call_nested :
    let placed := Value.placeList [.list [.int 1, .list [.int 2]], .int 3] .empty
    ∃ c r result, Closure.compile "f" "(xs, n) => [xs, xs[0] + n]".toList = .ok c
      ∧ c.program.isStill = true
      ∧ (call (running "f" c) executeName placed.1 placed.2).1 = .ok r
      ∧ r = .dict [(.text "result", result),
        (.text "vars", .list [.list [.int 1, .list [.int 2]], .int 3])] := by
  intro placed
  have hrun : (Closure.compile "f" "(xs, n) => [xs, xs[0] + n]".toList).toOption.any (fun c =>
      c.program.isStill
        && (call (running "f" c) executeName placed.1 placed.2).1.toOption.isSome) = true := by
    decide +kernel
  obtain ⟨c, hc, hrun⟩ := (Option.any_eq_true _ _).mp hrun
  obtain ⟨hstill, hrun⟩ := Bool.and_eq_true_iff.mp hrun
  obtain ⟨r, hr⟩ := Option.isSome_iff_exists.mp hrun
  have hcall := ok_of_toOption hr
  have hgiven : Value.listWhole [.list [.int 1, .list [.int 2]], .int 3] = true := rfl
  obtain ⟨hexpand, hinside⟩ := Value.expand_placeList hgiven
  have hwhole : ∀ a ∈ placed.1, (placed.2.expand a).isWhole = true := by
    decide
  obtain ⟨c', places, v, hpath, -, -, hresult, hargs⟩ := vars_of_call hcall
  obtain rfl : c' = c := hpath.eq_of_closure rfl
  rw [(hargs hwhole).2 hstill hinside] at hresult
  -- what was passed is what the places expand to
  have hpassed : placed.2.described placed.1 = [.list [.int 1, .list [.int 2]], .int 3] := by
    show placed.1.map (Value.describe ∘ placed.2.expand) = _
    rw [← List.map_map, hexpand]
    rfl
  rw [hpassed] at hresult
  exact ⟨c', r, _, ok_of_toOption hc, hstill, hcall, hresult⟩

/-- An empty list. -/
def oneList : Store :=
  ⟨#[.list []]⟩

/-- A body that appends to its argument: what is described has an item that was not passed. -/
theorem vars_not_as_passed : ∃ c, Closure.compile "f" "(xs) => xs.append(1)".toList = .ok c
    ∧ (call (running "f" c) executeName [.ref 0] oneList).1
      = .ok (.dict [(.text "result", .null), (.text "vars", .list [.list [.int 1]])])
    ∧ oneList.described [.ref 0] = [.list []] := by
  have hrun : (Closure.compile "f" "(xs) => xs.append(1)".toList).toOption.any (fun c =>
      (call (running "f" c) executeName [.ref 0] oneList).1.toOption.any
        (·.same (.dict [(.text "result", .null), (.text "vars", .list [.list [.int 1]])]))) = true := by
    decide +kernel
  obtain ⟨c, hc, hrun⟩ := (Option.any_eq_true _ _).mp hrun
  obtain ⟨r, hr, hsame⟩ := (Option.any_eq_true _ _).mp hrun
  obtain rfl := Value.eq_of_same hsame
  exact ⟨c, ok_of_toOption hc, ok_of_toOption hr, rfl⟩

end Store

end LetTag
