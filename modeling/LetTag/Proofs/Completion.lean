/-
  When a compilation comes to its end.

  A bad statement should leave a diagnostic and no more.  Only the errors of the arrow reader and of
  the value reader are turned into diagnostics, though, and some definitions raise others: a literal
  with a number too large for a complex one, a record with a key that is too long to be a name, and
  an arrow whose source is compiled or started with an error of another kind.  `EndsPass` says which;
  nothing else ends a pass (`ends_define_iff`), whatever the registry (`stopped?_eq_none_iff`), so a
  text can be told to compile by its statements alone.

  Which errors the source of an arrow meets is a matter of what runs it.  One kind is plain: a body
  that spills over its function is run while it is defined, and what it raises ends the pass
  (`arrowEnds_of_fault`).  A body that stays inside runs nothing (`spills_of_arrowEnds`).
-/
import LetTag.Proofs.Confinement
import LetTag.Proofs.Pass

namespace LetTag

open Text

/-- Is the outcome of a definition an error that is no problem of its statement? -/
def Ends {α : Type} (id : String) (outcome : Except Error α) : Prop :=
  ∃ e, outcome = .error e ∧ problemOf? id e = none

/-- An arrow that ends a pass: compiling it fails, and not with an error of the arrow reader. -/
def ArrowEnds (expr : List Char) : Prop :=
  Ends Closure.anonymous (Closure.compile Closure.anonymous expr)

/-- A record that ends a pass: a field is the sum of a number that is no double and an imaginary
    one, or a number in its name or in one of its keys has too many digits. -/
def RecordEnds (args : List Char) : Prop :=
  readFields args = .error .outOfRange ∨ readFields args = .error .unwritableName
    ∨ ∃ fields, readFields args = .ok fields ∧ Value.entriesNameable fields = false

/-- An expression whose definition ends a pass. -/
def EndsPass (expr : List Char) : Prop :=
  if occursUnquoted expr "=>".toList then ArrowEnds expr
  else match recordArguments? expr with
    | some args => RecordEnds args
    | none => evaluate expr = .error .outOfRange

/-! ## Definitions that end a pass -/

section

variable {α : Type} {id : String}

theorem not_ends_ok (v : α) : ¬ Ends id (.ok v) := by
  rintro ⟨e, h, -⟩
  cases h

/-- An error ends a pass if it is no problem of its statement. -/
theorem ends_error (e : Error) : Ends id (.error e : Except Error α) ↔ problemOf? id e = none := by
  constructor
  · rintro ⟨e', h, hp⟩
    cases h
    exact hp
  · exact fun hp => ⟨e, rfl, hp⟩

/-- A step that cannot fail ends nothing: it is up to the step before it. -/
theorem ends_bind_ok {β : Type} (x : Except Error α) (f : α → β) :
    Ends id (x >>= fun v => .ok (f v)) ↔ Ends id x := by
  cases x with
  | ok v => exact iff_of_false (not_ends_ok _) (not_ends_ok _)
  | error e => exact (ends_error e).trans (ends_error e).symm

/-- Two of the errors of the value reader are no problems of a statement. -/
theorem ends_evaluation (e : EvaluationError) :
    Ends id (.error (.evaluation e) : Except Error α) ↔ e = .outOfRange ∨ e = .unwritableName := by
  rw [ends_error]
  cases e with
  | outOfRange => exact iff_of_true rfl (Or.inl rfl)
  | unwritableName => exact iff_of_true rfl (Or.inr rfl)
  | invalidExpression _ => simp [problemOf?]
  | setLiteral _ => simp [problemOf?]
  | invalidField _ => simp [problemOf?]

end

/-- Whether an arrow ends a pass does not depend on what messages call it. -/
theorem ends_compile_iff (id : String) (expr : List Char) :
    Ends id (Closure.compile id expr) ↔ ArrowEnds expr := by
  unfold ArrowEnds Closure.compile
  cases Arrow.ofText expr with
  | error e => simp [ends_error, problemOf?]
  | ok a =>
    dsimp only
    split
    · simp [ends_error, problemOf?]
    · cases Script.Program.parse? a.source with
      | none => simp [ends_error, problemOf?]
      | some p =>
        dsimp only
        split
        · simp [ends_error, problemOf?]
        · simp [ends_error, problemOf?]
        · exact iff_of_false (not_ends_ok _) (not_ends_ok _)

/-- A body that spills over its function and fails there ends a pass. -/
theorem arrowEnds_of_fault {expr : List Char} {a : Arrow} {p : Script.Program} {f : Script.Fault}
    (ha : Arrow.ofText expr = .ok a) (hp : Script.Program.parse? a.source = some p)
    (hfault : (p.start.run Store.empty).1 = .error (.fault f)) : ArrowEnds expr := by
  unfold ArrowEnds Closure.compile
  rw [ha]
  dsimp only
  split
  · exact (ends_error _).mpr rfl
  · rw [hp]
    dsimp only
    rw [hfault]
    exact (ends_error _).mpr rfl

/-- An arrow that ends a pass spills over its function, if it is without the character zero. -/
theorem spills_of_arrowEnds {expr : List Char} (h : ArrowEnds expr) (hzero : '\x00' ∉ expr) :
    ∃ a, Arrow.ofText expr = .ok a ∧ Script.staysInside a.source = false := by
  unfold ArrowEnds Closure.compile at h
  cases ha : Arrow.ofText expr with
  | error e =>
    rw [ha, ends_error] at h
    cases h
  | ok a =>
    refine ⟨a, rfl, Bool.eq_false_iff.mpr fun hinside => ?_⟩
    have hsource : ¬ a.source.contains '\x00' = true := fun hin =>
      hzero ((Arrow.mem_source_iff (by decide) ha).mp (List.contains_iff_mem.mp hin))
    rw [ha] at h
    dsimp only at h
    rw [if_neg hsource] at h
    cases hp : Script.Program.parse? a.source with
    | none =>
      rw [hp, ends_error] at h
      cases h
    | some p =>
      -- nothing stands behind the function, so starting the program runs nothing
      obtain ⟨_, _, -, -, -, hnames, -, hsourceOf⟩ := Arrow.parts_of_ofText ha
      have htrailing := Script.trailing_of_staysInside hnames (hsourceOf ▸ hp) (hsourceOf ▸ hinside)
      rw [hp] at h
      dsimp only at h
      rw [p.start_of_trailing htrailing] at h
      exact not_ends_ok _ h

/-- Fields build a record unless a name or a key among them has too many digits. -/
theorem ends_build_iff (id : String) (fields : List (Value × Value)) (type : Value) :
    Ends id (Entity.build id fields type) ↔ Value.entriesNameable fields = false := by
  unfold Entity.build
  cases hn : Value.entriesNameable fields with
  | true => exact iff_of_false (not_ends_ok _) Bool.noConfusion
  | false => exact iff_of_true ((ends_error _).mpr rfl) rfl

/-- Only a record has names. -/
theorem evaluate_ne_unwritableName (expr : List Char) :
    evaluate expr ≠ .error .unwritableName := by
  intro h
  unfold evaluate at h
  dsimp only at h
  split at h
  · cases h
  · cases h
  · split at h
    · cases h
    · cases h

/-- The definitions that end a pass. -/
theorem ends_define_iff (settings : Settings) (id : String) (expr : List Char) :
    Ends id (define settings id expr) ↔ EndsPass expr := by
  unfold define EndsPass
  split
  · rw [ends_bind_ok, ends_compile_iff]
  · cases recordArguments? expr with
    | some args =>
      dsimp only
      unfold RecordEnds
      cases readFields args with
      | ok fields =>
        dsimp only
        rw [ends_bind_ok, ends_build_iff]
        simp
      | error e =>
        dsimp only
        rw [ends_evaluation]
        simp
    | none =>
      dsimp only
      cases he : evaluate expr with
      | ok v => exact iff_of_false (not_ends_ok _) (fun h => by cases h)
      | error e =>
        have hname : e ≠ .unwritableName := fun heq => evaluate_ne_unwritableName expr (heq ▸ he)
        dsimp only
        rw [ends_evaluation, or_iff_left hname]
        simp

/-! ## Statements that end a pass -/

/-- A statement that ends a pass is a definition. -/
theorem error?_effect_eq_none_iff (r : Registry) (s : List Char) : (r.effect s).error? = none ↔
    ∀ id expr, Declaration.parse s = .define id expr → ¬ EndsPass expr := by
  unfold Registry.effect
  cases hp : Declaration.parse s with
  | debug on => simp [Effect.error?]
  | malformed problem => simp [Effect.error?]
  | tag id tags =>
    show (taggingEffect r.objects id tags).error? = none ↔ _
    unfold taggingEffect
    cases Table.get? id r.objects with
    | some e => simp [Effect.error?]
    | none => simp [Effect.error?]
  | define id expr =>
    have hends := ends_define_iff r.settings id expr
    simp only [Declaration.define.injEq]
    unfold definitionEffect
    constructor
    · rintro h _ _ ⟨rfl, rfl⟩ hbad
      obtain ⟨e, he, hnone⟩ := hends.mpr hbad
      simp [he, hnone, Effect.error?] at h
    · intro h
      have hgood := h id expr ⟨rfl, rfl⟩
      cases hd : define r.settings id expr with
      | ok e => rfl
      | error e =>
        dsimp only
        cases hproblem : problemOf? id e with
        | some p => rfl
        | none => exact absurd (hends.mp ⟨e, hd, hproblem⟩) hgood

end LetTag
