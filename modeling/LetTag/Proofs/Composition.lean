/-
  Two passes one after the other, and one pass over both texts.

  A text in which no block is left open can be cut off at its end: the reader stands there as it
  stood at the start, but for the statements that it has (`Statements.ofText_append`).  It does not
  matter how the last line of the text ends, for the line feed between the texts ends that line, or
  completes its break, or ends a line of its own in which there is nothing (`Text.lines_append`).

  What a pass hands on is its registry, and a statement reads no diagnostics in it.  So the passes
  follow the same statements from the same registries (`Registry.compile_behind`), and only the
  report of a block left open, which a pass makes before its first statement, changes its place.
-/
import LetTag.Proofs.Completion

namespace LetTag

/-! ## Lines of two texts -/

namespace Text

/-- Extending the first of some pieces extends the first of them and of others behind them. -/
theorem extendFirst_append (c : Char) {ls : List (List Char)} (h : ls ≠ [])
    (ms : List (List Char)) : extendFirst c (ls ++ ms) = extendFirst c ls ++ ms := by
  cases ls with
  | nil => exact absurd rfl h
  | cons l ls => rfl

/-- A line feed between two texts keeps their lines, and may make one that is empty. -/
theorem lines_append (a b : List Char) : ∃ gap, (gap = [] ∨ gap = [[]])
    ∧ lines (a ++ '\n' :: b) = lines a ++ (gap ++ lines b) := by
  induction a using brokenLines.induct with
  | case1 => exact ⟨[[]], Or.inr rfl, lines_feed b⟩
  | case2 rest ih =>
    obtain ⟨gap, hgap, hlines⟩ := ih
    refine ⟨gap, hgap, ?_⟩
    show lines ('\r' :: '\n' :: (rest ++ '\n' :: b)) = _
    rw [lines_return_feed, hlines, lines_return_feed]
    rfl
  | case3 c rest hcr hbreak ih =>
    have hhead : c = '\r' → rest.head? ≠ some '\n' := by
      rintro rfl h
      obtain ⟨tail, rfl⟩ := List.head?_eq_some_iff.mp h
      exact hcr tail rfl rfl
    by_cases hlast : c = '\r' ∧ rest = []
    · -- the line feed completes the break
      obtain ⟨rfl, rfl⟩ := hlast
      exact ⟨[], Or.inl rfl, lines_return_feed b⟩
    · obtain ⟨gap, hgap, hlines⟩ := ih
      refine ⟨gap, hgap, ?_⟩
      have hhead' : c = '\r' → (rest ++ '\n' :: b).head? ≠ some '\n' := by
        intro hc
        cases rest with
        | nil => exact absurd ⟨hc, rfl⟩ hlast
        | cons d rest => exact hhead hc
      rw [List.cons_append, lines_break hbreak hhead', hlines, lines_break hbreak hhead]
      rfl
  | case4 c rest hcr hbreak hrest ih =>
    -- the line feed ends the last line
    have hbreak : isBreak c = false := by simpa using hbreak
    have hnil : rest = [] := by
      rw [← flatten_brokenLines rest, hrest]
      rfl
    subst hnil
    refine ⟨[], Or.inl rfl, ?_⟩
    rw [List.cons_append, List.nil_append, lines_cons hbreak, lines_feed, lines_cons hbreak]
    rfl
  | case5 c rest hcr hbreak line ending more hrest ih =>
    have hbreak : isBreak c = false := by simpa using hbreak
    obtain ⟨gap, hgap, hlines⟩ := ih
    refine ⟨gap, hgap, ?_⟩
    have hne : lines rest ≠ [] := by
      unfold lines
      rw [hrest]
      exact List.cons_ne_nil _ _
    rw [List.cons_append, lines_cons hbreak, hlines, extendFirst_append c hne, lines_cons hbreak]

end Text

open Text

/-! ## Statements of two texts -/

namespace Statements

/-- The progress with finished statements before its own. -/
def Progress.since (before : List (List Char)) (p : Progress) : Progress :=
  { p with finished := p.finished ++ before }

namespace Progress

/-- Ending a statement does the same whatever statements came before. -/
theorem flush_since (before : List (List Char)) (p : Progress) :
    (p.since before).flush = p.flush.since before := by
  have hreading : (p.since before).reading = p.reading := rfl
  unfold flush
  rw [hreading]
  cases trim p.reading.reverse with
  | nil => rfl
  | cons c s => rfl

theorem read_since (before : List (List Char)) (p : Progress) (c m : Char) :
    (p.since before).read c m = (p.read c m).since before := by
  have hdepth : (p.since before).depth = p.depth := rfl
  unfold read
  rw [hdepth]
  split
  · rfl
  · split
    · exact flush_since before p
    · rfl

theorem foldl_read_since (before : List (List Char)) (cs : List (Char × Char)) : ∀ p : Progress,
    cs.foldl (fun p (c, m) => p.read c m) (p.since before)
      = (cs.foldl (fun p (c, m) => p.read c m) p).since before := by
  induction cs with
  | nil => exact fun p => rfl
  | cons x cs ih =>
    intro p
    obtain ⟨c, m⟩ := x
    rw [List.foldl_cons, List.foldl_cons]
    dsimp only
    rw [read_since, ih]

/-- A line is read alike whatever statements came before. -/
theorem readLine_since (before : List (List Char)) (p : Progress) (line : List Char) :
    (p.since before).readLine line = (p.readLine line).since before := by
  unfold readLine
  rw [foldl_read_since]
  dsimp only
  generalize (line.zip (mask line)).foldl (fun p (c, m) => p.read c m) p = q
  have hdepth : (q.since before).depth = q.depth := rfl
  rw [hdepth]
  split
  · rfl
  · exact flush_since before q

theorem foldl_readLine_since (before : List (List Char)) (ls : List (List Char)) :
    ∀ p : Progress, ls.foldl readLine (p.since before) = (ls.foldl readLine p).since before := by
  induction ls with
  | nil => exact fun p => rfl
  | cons line ls ih =>
    intro p
    rw [List.foldl_cons, List.foldl_cons, readLine_since, ih]

/-- At the end of a line the buffer is empty, unless a block is open. -/
def Rests (p : Progress) : Prop :=
  p.depth = 0 → p.reading = []

/-- Nothing is being read when a statement has ended. -/
theorem rests_flush (p : Progress) : p.flush.reading = [] := by
  unfold flush
  split
  · rfl
  · rfl

/-- Behind a line there is something under way only within a block. -/
theorem rests_readLine (p : Progress) (line : List Char) : (p.readLine line).Rests := by
  unfold readLine
  dsimp only
  split
  · rename_i hpos
    intro hzero
    exact absurd hzero (Nat.ne_of_gt hpos)
  · exact fun _ => rests_flush _

theorem rests_foldl_readLine (ls : List (List Char)) : ∀ {p : Progress}, p.Rests →
    (ls.foldl readLine p).Rests := by
  induction ls with
  | nil => exact fun h => h
  | cons line ls ih => exact fun _ => ih (rests_readLine _ line)

/-- An empty line outside blocks changes nothing. -/
theorem readLine_nil {p : Progress} (hdepth : p.depth = 0) (hreading : p.reading = []) :
    p.readLine [] = p := by
  obtain ⟨finished, reading, depth⟩ := p
  obtain rfl : reading = [] := hreading
  obtain rfl : depth = 0 := hdepth
  rfl

end Progress

/-- Behind a text without a block left open the reader has its statements, and nothing else. -/
theorem foldl_readLine_closed {a : List Char} (h : (ofText a).unclosed = none) :
    (lines a).foldl Progress.readLine ⟨[], [], 0⟩
      = Progress.since (ofText a).all.reverse ⟨[], [], 0⟩ := by
  have hrests : ((lines a).foldl Progress.readLine ⟨[], [], 0⟩).Rests :=
    Progress.rests_foldl_readLine (lines a) fun _ => rfl
  unfold ofText at h ⊢
  generalize (lines a).foldl Progress.readLine ⟨[], [], 0⟩ = p at h hrests ⊢
  have hdepth : p.depth = 0 := by
    refine Decidable.byContradiction fun hne => ?_
    dsimp only at h
    rw [if_pos (Nat.pos_of_ne_zero hne)] at h
    cases h
  obtain ⟨finished, reading, depth⟩ := p
  obtain rfl : depth = 0 := hdepth
  obtain rfl : reading = [] := hrests rfl
  show _ = Progress.mk ([] ++ finished.reverse.reverse) [] 0
  rw [List.reverse_reverse, List.nil_append]

/-- **Statements do not go past the end of a text** that leaves no block open. -/
theorem ofText_append {a : List Char} (h : (ofText a).unclosed = none) (b : List Char) :
    (ofText (a ++ '\n' :: b)).all = (ofText a).all ++ (ofText b).all
      ∧ (ofText (a ++ '\n' :: b)).unclosed = (ofText b).unclosed := by
  obtain ⟨gap, hgap, hlines⟩ := lines_append a b
  have hread : (lines (a ++ '\n' :: b)).foldl Progress.readLine ⟨[], [], 0⟩
      = ((lines b).foldl Progress.readLine ⟨[], [], 0⟩).since (ofText a).all.reverse := by
    rw [hlines, List.foldl_append, foldl_readLine_closed h, List.foldl_append]
    rcases hgap with rfl | rfl
    · exact Progress.foldl_readLine_since _ (lines b) _
    · rw [List.foldl_cons, Progress.readLine_nil rfl rfl]
      exact Progress.foldl_readLine_since _ (lines b) _
  unfold ofText at hread ⊢
  rw [hread]
  generalize (lines b).foldl Progress.readLine ⟨[], [], 0⟩ = q
  constructor
  · dsimp only
    rw [Progress.flush_since]
    show (q.flush.finished ++ _).reverse = _
    rw [List.reverse_append, List.reverse_reverse]
  · rfl

end Statements

/-! ## Passes over two texts -/

namespace Pass

/-- A pass over two lists of statements stops in the first, or else in the second as the first leaves
    it. -/
theorem stopped?_append (ss ts : List (List Char)) : ∀ r : Registry,
    stopped? r (ss ++ ts) = (stopped? r ss).or (stopped? (ss.foldl Registry.follow r) ts) := by
  induction ss with
  | nil => exact fun r => rfl
  | cons s ss ih =>
    intro r
    rw [List.cons_append, stopped?, stopped?, ih, Option.or_assoc]
    rfl

/-- A pass over two lists of statements leaves the diagnostics of the first in front of those of the
    second. -/
theorem diagnosed_append (ss ts : List (List Char)) : ∀ r : Registry,
    diagnosed r (ss ++ ts) = diagnosed r ss ++ diagnosed (ss.foldl Registry.follow r) ts := by
  induction ss with
  | nil => exact fun r => rfl
  | cons s ss ih =>
    intro r
    rw [List.cons_append, diagnosed, diagnosed, ih, List.append_assoc]
    rfl

end Pass

namespace Registry

/-- The registry with other diagnostics. -/
def noting (r : Registry) (ds : List Diagnostic) : Registry :=
  { r with diagnostics := ds }

/-- No statement reads the diagnostics. -/
theorem follow_noting (r : Registry) (ds : List Diagnostic) (s : List Char) :
    (r.noting ds).follow s = (r.follow s).noting ds := by
  show (r.effect s).apply (r.noting ds) = ((r.effect s).apply r).noting ds
  cases r.effect s with
  | switch on => rfl
  | put e => rfl
  | problem p => rfl
  | stop e => rfl

/-- Diagnostics of earlier passes do not change what statements do. -/
theorem foldl_follow_noting (ds : List Diagnostic) (ss : List (List Char)) : ∀ r : Registry,
    ss.foldl follow (r.noting ds) = (ss.foldl follow r).noting ds := by
  induction ss with
  | nil => exact fun r => rfl
  | cons s ss ih =>
    intro r
    rw [List.foldl_cons, List.foldl_cons, follow_noting, ih]

theorem stopped?_noting (ds : List Diagnostic) (ss : List (List Char)) : ∀ r : Registry,
    Pass.stopped? (r.noting ds) ss = Pass.stopped? r ss := by
  induction ss with
  | nil => exact fun r => rfl
  | cons s ss ih =>
    intro r
    rw [Pass.stopped?, Pass.stopped?, follow_noting, ih]
    rfl

theorem diagnosed_noting (ds : List Diagnostic) (ss : List (List Char)) : ∀ r : Registry,
    Pass.diagnosed (r.noting ds) ss = Pass.diagnosed r ss := by
  induction ss with
  | nil => exact fun r => rfl
  | cons s ss ih =>
    intro r
    rw [Pass.diagnosed, Pass.diagnosed, follow_noting, ih]
    rfl

/-- No statement says whether passes start from an empty registry. -/
theorem foldl_follow_resetOnCompile (ss : List (List Char)) (r : Registry) :
    (ss.foldl follow r).settings.resetOnCompile = r.settings.resetOnCompile := by
  induction ss generalizing r with
  | nil => rfl
  | cons s ss ih =>
    rw [List.foldl_cons, ih]
    show ((r.effect s).apply r).settings.resetOnCompile = _
    cases r.effect s with
    | switch on => rfl
    | put e => rfl
    | problem p => rfl
    | stop e => rfl

variable {r : Registry}

/-- A pass that does not empty the registry starts with what is there. -/
theorem atStart_of_kept (h : r.settings.resetOnCompile.truthy = false) : r.atStart false = r := by
  simp [atStart, h]

/-- A pass returns diagnostics exactly if no statement ends it. -/
theorem completes_iff (h : r.settings.resetOnCompile.truthy = false) (code : List Char) :
    (∃ ds, (r.compile code false).outcome = .ok ds)
      ↔ Pass.stopped? r (Statements.ofText code).all = none := by
  cases hstop : Pass.stopped? r (Statements.ofText code).all with
  | none =>
    rw [← atStart_of_kept h] at hstop
    exact iff_of_true ⟨_, (compile_of_complete hstop).1⟩ rfl
  | some e =>
    rw [← atStart_of_kept h] at hstop
    refine iff_of_false ?_ (Option.some_ne_none e)
    rintro ⟨ds, hds⟩
    rw [compile_of_stopped hstop] at hds
    cases hds

/-- What a pass that completes returns and leaves. -/
theorem compile_kept (h : r.settings.resetOnCompile.truthy = false) {code : List Char}
    {ds : List Diagnostic} (hok : (r.compile code false).outcome = .ok ds) :
    ds = unclosedDiagnostics code ++ Pass.diagnosed r (Statements.ofText code).all
      ∧ (r.compile code false).registry
        = ((Statements.ofText code).all.foldl follow r).noting (r.diagnostics ++ ds) := by
  have hstop := (completes_iff h code).mp ⟨ds, hok⟩
  rw [← atStart_of_kept h] at hstop
  obtain ⟨hds, hreg⟩ := compile_of_complete hstop
  rw [atStart_of_kept h] at hds hreg
  obtain rfl := Except.ok.inj (hok.symm.trans hds)
  refine ⟨rfl, ?_⟩
  rw [hreg, (foldl_follow_keeps _ r).2]
  rfl

section

variable (h : r.settings.resetOnCompile.truthy = false) {a b : List Char} {ds es : List Diagnostic}
  (ha : (r.compile a false).outcome = .ok ds)
include h ha

theorem kept_behind : (r.compile a false).registry.settings.resetOnCompile.truthy = false := by
  rw [(compile_kept h ha).2]
  show ((Statements.ofText a).all.foldl follow r).settings.resetOnCompile.truthy = false
  rw [foldl_follow_resetOnCompile, h]

/-- A pass behind another one comes to its end if its statements do behind those of the first. -/
theorem completes_behind_iff : (∃ es, ((r.compile a false).registry.compile b false).outcome = .ok es)
    ↔ Pass.stopped? ((Statements.ofText a).all.foldl follow r) (Statements.ofText b).all = none := by
  rw [completes_iff (kept_behind h ha), (compile_kept h ha).2, stopped?_noting]

/-- It follows its statements from the registry that those of the first one made. -/
theorem compile_behind (hb : ((r.compile a false).registry.compile b false).outcome = .ok es) :
    es = unclosedDiagnostics b ++ Pass.diagnosed ((Statements.ofText a).all.foldl follow r)
        (Statements.ofText b).all
      ∧ ((r.compile a false).registry.compile b false).registry
        = (((Statements.ofText a).all ++ (Statements.ofText b).all).foldl follow r).noting
          (r.diagnostics ++ (ds ++ es)) := by
  obtain ⟨hes, hreg⟩ := compile_kept (kept_behind h ha) hb
  rw [(compile_kept h ha).2, diagnosed_noting] at hes
  refine ⟨hes, ?_⟩
  rw [hreg, (compile_kept h ha).2, foldl_follow_noting, List.foldl_append, ← List.append_assoc]
  rfl

end

/-- **Two passes are one.**  If the first text leaves no block open, two passes over two texts both
    come to their end exactly if one pass over the texts with a line feed between them does.  Both
    leave the same objects and the same settings, and the same diagnostics up to the place of the
    report of a block left open in the second text. -/
theorem compile_of_joined (r : Registry) (a b : List Char)
    (hkeep : r.settings.resetOnCompile.truthy = false) (hclosed : unclosedDiagnostics a = []) :
    let first := r.compile a false
    let second := first.registry.compile b false
    let joined := r.compile (a ++ '\n' :: b) false
    ((∃ ds es, first.outcome = .ok ds ∧ second.outcome = .ok es) ↔ ∃ ds, joined.outcome = .ok ds)
      ∧ ∀ ds es fs, first.outcome = .ok ds → second.outcome = .ok es → joined.outcome = .ok fs →
        joined.registry.objects = second.registry.objects
          ∧ joined.registry.settings = second.registry.settings
          ∧ fs.Perm (ds ++ es)
          ∧ joined.registry.diagnostics.Perm second.registry.diagnostics
          ∧ (unclosedDiagnostics b = [] → fs = ds ++ es
            ∧ joined.registry.diagnostics = second.registry.diagnostics) := by
  intro first second joined
  have hunclosed : (Statements.ofText a).unclosed = none := by
    have hmap := List.map_eq_nil_iff.mp hclosed
    exact Option.toList_eq_nil_iff.mp hmap
  obtain ⟨hall, hopen⟩ := Statements.ofText_append hunclosed b
  have hreport : unclosedDiagnostics (a ++ '\n' :: b) = unclosedDiagnostics b := by
    unfold unclosedDiagnostics
    rw [hopen]
  constructor
  · rw [completes_iff hkeep, hall, Pass.stopped?_append, Option.or_eq_none_iff]
    constructor
    · rintro ⟨ds, es, hds, hes⟩
      exact ⟨(completes_iff hkeep a).mp ⟨ds, hds⟩, (completes_behind_iff hkeep hds).mp ⟨es, hes⟩⟩
    · rintro ⟨hfirst, hsecond⟩
      obtain ⟨ds, hds⟩ := (completes_iff hkeep a).mpr hfirst
      obtain ⟨es, hes⟩ := (completes_behind_iff hkeep hds).mpr hsecond
      exact ⟨ds, es, hds, hes⟩
  · intro ds es fs hds hes hfs
    obtain ⟨hds', -⟩ := compile_kept hkeep hds
    obtain ⟨hes', hreg⟩ := compile_behind hkeep hds hes
    obtain ⟨hfs', hreg'⟩ := compile_kept hkeep hfs
    rw [hclosed, List.nil_append] at hds'
    rw [hreport, hall, Pass.diagnosed_append, ← hds'] at hfs'
    rw [hall] at hreg'
    -- the report of a block left open comes first in one pass, and between the others in two
    have hperm : fs.Perm (ds ++ es) := by
      rw [hfs', hes', ← List.append_assoc, ← List.append_assoc]
      exact List.perm_append_comm.append_right _
    refine ⟨by rw [hreg, hreg']; rfl, by rw [hreg, hreg']; rfl, hperm, ?_, fun hnone => ?_⟩
    · rw [hreg, hreg']
      exact hperm.append_left r.diagnostics
    · have heq : fs = ds ++ es := by
        rw [hfs', hes', hnone, List.nil_append, List.nil_append]
      refine ⟨heq, ?_⟩
      rw [hreg, hreg', heq]

/-- Two texts of which the first ends within a break and a literal, and the second leaves a block
    open behind a statement with a problem: the reports change places. -/
theorem compile_of_joined_reports : ∃ r a b first second joined,
    r = Registry.empty .default ∧ a = "let v = 1; let w = 'x\r".toList
      ∧ b = "tag u as api; tag v as api\nlet f = \x7b".toList
      ∧ r.compile a false = first ∧ first.registry.compile b false = second
      ∧ r.compile (a ++ '\n' :: b) false = joined
      ∧ r.settings.resetOnCompile.truthy = false ∧ unclosedDiagnostics a = []
      ∧ second.registry.diagnostics.map Diagnostic.kind
        = ["evaluation-failed", "unclosed-block", "missing-object", "evaluation-failed"]
      ∧ joined.registry.diagnostics.map Diagnostic.kind
        = ["unclosed-block", "evaluation-failed", "missing-object", "evaluation-failed"]
      ∧ joined.registry.objects = second.registry.objects
      ∧ joined.registry.diagnostics.Perm second.registry.diagnostics := by
  obtain ⟨r, hr⟩ : ∃ r, r = Registry.empty .default := ⟨_, rfl⟩
  obtain ⟨a, ha⟩ : ∃ a, a = "let v = 1; let w = 'x\r".toList := ⟨_, rfl⟩
  obtain ⟨b, hb⟩ : ∃ b, b = "tag u as api; tag v as api\nlet f = \x7b".toList := ⟨_, rfl⟩
  have hkeep : r.settings.resetOnCompile.truthy = false := by
    rw [hr]
    rfl
  have hclosed : unclosedDiagnostics a = [] := by
    rw [ha]
    decide
  have hfirst : (r.compile a false).outcome.toOption.isSome = true := by
    rw [hr, ha]
    decide +kernel
  have hsecond : ((r.compile a false).registry.compile b false).outcome.toOption.isSome = true := by
    rw [hr, ha, hb]
    decide +kernel
  have hkinds : ((r.compile a false).registry.compile b false).registry.diagnostics.map
      Diagnostic.kind
        = ["evaluation-failed", "unclosed-block", "missing-object", "evaluation-failed"] := by
    rw [hr, ha, hb]
    decide +kernel
  have hkinds' : (r.compile (a ++ '\n' :: b) false).registry.diagnostics.map Diagnostic.kind
      = ["unclosed-block", "evaluation-failed", "missing-object", "evaluation-failed"] := by
    rw [hr, ha, hb]
    decide +kernel
  obtain ⟨hiff, hsame⟩ := compile_of_joined r a b hkeep hclosed
  obtain ⟨ds, hds⟩ := exists_of_toOption hfirst
  obtain ⟨es, hes⟩ := exists_of_toOption hsecond
  obtain ⟨fs, hfs⟩ := hiff.mp ⟨ds, es, hds, hes⟩
  obtain ⟨hobjects, -, -, hperm, -⟩ := hsame ds es fs hds hes hfs
  exact ⟨r, a, b, _, _, _, hr, ha, hb, rfl, rfl, rfl, hkeep, hclosed, hkinds, hkinds', hobjects,
    hperm⟩

end Registry
end LetTag
