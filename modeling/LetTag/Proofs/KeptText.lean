/-
  Which texts a program keeps in its literals.

  A text without quotes and backslashes is written between quotes, in the definition of a value or in
  the block of a function.  If it has no line break of any kind, the definition is the one statement of
  the program and gives the text back (`Registry.kept_texts`).  If it has one, the reader of statements
  cuts the literal there, although a literal ends at a line feed only for everything that reads it
  later: the first statement leaves the literal open, and so do the line that a value is read from and
  the program that a block becomes (`blockBody_of_leavesOpen`).
-/
import LetTag.Proofs.Accord
import LetTag.Proofs.Framing
import LetTag.Proofs.Printing
import LetTag.Proofs.Recognition
import LetTag.Proofs.Requests

namespace LetTag

open Text

/-! ## Blocks -/

namespace Text

/-- The first piece of a text goes up to the separator. -/
theorem headD_cut (sep : Char) (s : List Char) : (cut sep s).headD [] = s.takeWhile (· ≠ sep) := by
  induction s with
  | nil => rfl
  | cons c s ih =>
    by_cases hc : c = sep
    · rw [List.takeWhile_cons_of_neg (by simpa using hc), cut, if_pos hc]
      rfl
    · rw [List.takeWhile_cons_of_pos (by simpa using hc), ← ih, cut, if_neg hc]
      cases cut sep s with
      | nil => rfl
      | cons piece pieces => rfl

theorem cut_of_notMem {sep : Char} {s : List Char} (h : sep ∉ s) : cut sep s = [s] := by
  induction s with
  | nil => rfl
  | cons c s ih =>
    have hc : c ≠ sep := fun hc => h (hc ▸ List.mem_cons_self)
    rw [cut, if_neg hc, ih fun hm => h (List.mem_cons_of_mem c hm)]
    rfl

/-- What is left of a text without its blank ends is not blank. -/
theorem allBlank_eq_false_of_trim {s : List Char} (h : trim s ≠ []) : allBlank (trim s) = false := by
  refine Bool.eq_false_iff.mpr fun hblank => ?_
  obtain ⟨-, -, -, -, -, hhead, -⟩ := trim_between s
  obtain ⟨c, rest, hs⟩ := List.exists_cons_of_ne_nil h
  rw [hs] at hhead hblank
  have hc := List.all_eq_true.mp hblank c List.mem_cons_self
  rw [hhead c rfl] at hc
  cases hc

/-- A first line that is not blank is indented, and the lines behind it are lines of their own. -/
theorem indent_first {line : List Char} (hblank : allBlank line = false)
    (hbreak : ∀ c ∈ line, isBreak c = false) (margin rest : List Char) :
    indent margin (line ++ '\n' :: rest) = margin ++ (line ++ '\n' :: indent margin rest) := by
  unfold indent
  rw [brokenLines_append hbreak (brokenLines_feed rest), List.flatMap_cons]
  simp [hblank]

/-- One line that is not blank is indented by the margin. -/
theorem indent_line {line : List Char} (hblank : allBlank line = false)
    (hbreak : ∀ c ∈ line, isBreak c = false) (margin : List Char) :
    indent margin line = margin ++ line := by
  have hne : line ≠ [] := by
    rintro rfl
    cases hblank
  obtain ⟨⟨first, ending⟩, hbroken, hfirst⟩ :=
    List.map_eq_singleton_iff.mp (lines_of_not_break hbreak hne)
  -- the one line is all of the text, so nothing ends it
  have hflat := flatten_brokenLines line
  rw [hbroken] at hflat
  obtain rfl : ending = [] := by
    rw [show first = line from hfirst] at hflat
    simpa using hflat
  unfold indent
  rw [hbroken, show first = line from hfirst]
  simp [hblank]

end Text

namespace Arrow

/-- The body of a block starts with its first line, if that is not blank, and ends with it if there
    is no other. -/
theorem blockBody_first {body content : List Char} (hcontent : blockContent body = content)
    (hne : trim (content.takeWhile (· ≠ '\n')) ≠ [])
    (hbreak : ∀ c ∈ trim (content.takeWhile (· ≠ '\n')), isBreak c = false) :
    ∃ more, blockBody body = margin ++ (trim (content.takeWhile (· ≠ '\n')) ++ more)
      ∧ (more = [] ∨ ∃ rest, more = '\n' :: rest) ∧ ('\n' ∉ content → more = []) := by
  have hblank := allBlank_eq_false_of_trim hne
  unfold blockBody
  dsimp only
  rw [hcontent, headD_cut]
  generalize trim (content.takeWhile (· ≠ '\n')) = first at hblank hbreak
  have hrest : '\n' ∉ content → trimFeeds (dedent (join ['\n'] (cut '\n' content).tail)) = [] := by
    intro hfeed
    rw [cut_of_notMem hfeed]
    rfl
  generalize trimFeeds (dedent (join ['\n'] (cut '\n' content).tail)) = rest at hrest
  cases hblankRest : allBlank rest with
  | true =>
    have htext : join ['\n'] ([first, rest].filter (!allBlank ·)) = first := by
      simp [hblank, hblankRest, join]
    rw [htext, hblank, if_neg Bool.false_ne_true, indent_line hblank hbreak]
    exact ⟨[], by rw [List.append_nil], Or.inl rfl, fun _ => rfl⟩
  | false =>
    have htext : join ['\n'] ([first, rest].filter (!allBlank ·)) = first ++ '\n' :: rest := by
      simp [hblank, hblankRest, join]
    have hblankText : allBlank (first ++ '\n' :: rest) = false := by
      rw [allBlank, List.all_append, ← allBlank, hblank, Bool.false_and]
    rw [htext, hblankText, if_neg Bool.false_ne_true, indent_first hblank hbreak]
    refine ⟨_, rfl, Or.inr ⟨_, rfl⟩, fun hfeed => ?_⟩
    rw [hrest hfeed] at hblankRest
    cases hblankRest

/-- The content of a block goes up to its brace, if there is one. -/
theorem blockContent_eq (inner : List Char) : blockContent ('\x7b' :: inner)
    = if (trimRight inner).getLast? = some '\x7d' then (trimRight inner).dropLast else inner := rfl

/-- A block whose first line returns what a quote opens: its body does so too. -/
theorem blockBody_returning {inner v : List Char}
    (hcontent : blockContent ('\x7b' :: inner) = " return ".toList ++ '"' :: v)
    (hv : ∀ c ∈ v.takeWhile (· ≠ '\n'), isBreak c = false) :
    ∃ more, blockBody ('\x7b' :: inner)
        = Script.returning ('"' :: (trimRight (v.takeWhile (· ≠ '\n')) ++ more))
      ∧ (more = [] ∨ ∃ rest, more = '\n' :: rest) ∧ ('\n' ∉ v → more = []) := by
  have hfront : ∀ c ∈ " return ".toList, isBreak c = false := fun c hc => by
    simpa using List.all_eq_true.mp (show " return ".toList.all (!isBreak ·) = true by decide) c hc
  have hfeeds : ∀ c ∈ " return ".toList, c ≠ '\n' := fun c hc he => by
    rw [he] at hc
    exact absurd (hfront _ hc) (by decide)
  have hline : (" return ".toList ++ '"' :: v).takeWhile (· ≠ '\n')
      = " return ".toList ++ '"' :: v.takeWhile (· ≠ '\n') := by
    rw [List.takeWhile_append_of_pos fun c hc => decide_eq_true (hfeeds c hc),
      List.takeWhile_cons_of_pos (by decide)]
  have htrim : trim (" return ".toList ++ '"' :: v.takeWhile (· ≠ '\n'))
      = "return ".toList ++ '"' :: trimRight (v.takeWhile (· ≠ '\n')) := by
    refine (trim_space _).trans (trim_behind (fun d hd => ?_) isBlank_quote _)
    cases hd
    decide
  have hne : trim ((" return ".toList ++ '"' :: v).takeWhile (· ≠ '\n')) ≠ [] := by
    rw [hline, htrim]
    exact List.append_ne_nil_of_right_ne_nil _ (List.cons_ne_nil _ _)
  have hbreak : ∀ c ∈ trim ((" return ".toList ++ '"' :: v).takeWhile (· ≠ '\n')),
      isBreak c = false := by
    have hfirst : ∀ c ∈ trimRight (v.takeWhile (· ≠ '\n')), isBreak c = false :=
      fun c hc => hv c ((trimRight_initial _).subset hc)
    rw [hline, htrim]
    exact List.forall_mem_append.mpr ⟨fun c hc => hfront c (List.mem_cons_of_mem ' ' hc),
      List.forall_mem_cons.mpr ⟨rfl, hfirst⟩⟩
  obtain ⟨more, hbody, hmore, hsingle⟩ := blockBody_first hcontent hne hbreak
  refine ⟨more, ?_, hmore, fun hfeed => hsingle fun hm => ?_⟩
  · rw [hbody, hline, htrim, Script.returning]
    simp only [List.append_assoc, List.cons_append]
  · rcases List.mem_append.mp hm with hm | hm
    · exact hfeeds _ hm rfl
    · exact hfeed ((List.mem_cons.mp hm).resolve_left (by decide))

/-- The lines of a block that returns a literal which is not closed. -/
theorem blockBody_of_leavesOpen {t : List Char} (h : LeavesOpen t) : ∃ u, LeavesOpen u
    ∧ blockBody ('\x7b' :: (" return ".toList ++ '"' :: t)) = Script.returning ('"' :: u) := by
  obtain ⟨v, hv, hcontent⟩ : ∃ v, LeavesOpen v
      ∧ blockContent ('\x7b' :: (" return ".toList ++ '"' :: t)) = " return ".toList ++ '"' :: v := by
    rw [blockContent_eq, trimRight_behind _ isBlank_quote]
    split
    · rename_i hlast
      have hne : trimRight t ≠ [] := by
        intro hnil
        rw [hnil] at hlast
        exact absurd hlast (by decide)
      have hinit := List.dropLast_prefix (trimRight t)
      refine ⟨(trimRight t).dropLast, h.of_initial (hinit.trans (trimRight_initial t)), ?_⟩
      rw [List.dropLast_append_of_ne_nil (List.cons_ne_nil _ _), List.dropLast_cons_of_ne_nil hne]
    · exact ⟨t, h, rfl⟩
  have hraw := hv.firstLine
  obtain ⟨more, hbody, hmore, -⟩ := blockBody_returning hcontent fun c hc => (hraw c hc).2.2
  have hopen : LeavesOpen more := by
    rcases hmore with rfl | ⟨rest, rfl⟩
    · exact .ended
    · exact .feed
  have hfirst : LeavesOpen (trimRight (v.takeWhile (· ≠ '\n'))) :=
    (LeavesOpen.of_raw hraw).of_initial (trimRight_initial _)
  exact ⟨_, hfirst.append hopen, hbody⟩

/-- The brace that closes the block is the last character. -/
theorem block_eq (s : List Char) : " return ".toList ++ '"' :: (s ++ '"' :: " \x7d".toList)
    = " return ".toList ++ '"' :: (s ++ ['"', ' ']) ++ ['\x7d'] := by
  simp

/-- A block that returns a literal has no blanks behind its brace. -/
theorem trimRight_block (s : List Char) :
    trimRight (" return ".toList ++ '"' :: (s ++ '"' :: " \x7d".toList))
      = " return ".toList ++ '"' :: (s ++ '"' :: " \x7d".toList) := by
  rw [block_eq]
  exact trimRight_behind _ (by decide) []

/-- The one line of a block that returns the literal of a raw text. -/
theorem blockBody_raw {s : List Char} (hs : ∀ c ∈ s, IsRaw c) :
    blockBody ('\x7b' :: (" return ".toList ++ '"' :: (s ++ '"' :: " \x7d".toList)))
      = Script.returning ('"' :: (s ++ ['"'])) := by
  have hcontent : blockContent ('\x7b' :: (" return ".toList ++ '"' :: (s ++ '"' :: " \x7d".toList)))
      = " return ".toList ++ '"' :: (s ++ ['"', ' ']) := by
    rw [blockContent_eq, trimRight_block, block_eq]
    exact (if_pos List.getLast?_concat).trans List.dropLast_concat
  have hplain : ∀ c ∈ s ++ ['"', ' '], isBreak c = false :=
    List.forall_mem_append.mpr ⟨fun c hc => (hs c hc).2.2, by simp; decide⟩
  have hfeed : '\n' ∉ s ++ ['"', ' '] := fun hm => Bool.noConfusion (hplain _ hm)
  have hline : (s ++ ['"', ' ']).takeWhile (· ≠ '\n') = s ++ ['"', ' '] :=
    List.takeWhile_eq_self_iff.mpr fun c hc => decide_eq_true fun hfeed' => hfeed (hfeed' ▸ hc)
  obtain ⟨more, hbody, -, hsingle⟩ := blockBody_returning hcontent (by rwa [hline])
  have htrim : trimRight (s ++ ['"', ' ']) = s ++ ['"'] := trimRight_behind s isBlank_quote [' ']
  rw [hbody, hline, htrim, hsingle hfeed, List.append_nil]

/-! ## Definitions of functions without parameters -/

/-- Once the blanks at the end are gone, there are no more. -/
theorem trimRight_trimRight (s : List Char) : trimRight (trimRight s) = trimRight s := by
  obtain ⟨-, -, -, hlast⟩ := trimRight_between s
  exact trimRight_of_last hlast

/-- Such a definition is the function with the body of its block. -/
theorem ofText_block (inner : List Char) : ofText ("() => \x7b".toList ++ inner)
    = .ok ⟨[], blockBody ('\x7b' :: trimRight inner),
        sourceOf [] (blockBody ('\x7b' :: trimRight inner))⟩ := by
  have hbrace : isBlank '\x7b' = false := by decide
  have htrim : trim ("() => \x7b".toList ++ inner) = "() => ".toList ++ '\x7b' :: trimRight inner := by
    refine trim_behind (w := "() => ".toList) (fun d hd => ?_) hbrace inner
    cases hd
    decide
  have hspace : ∀ c ∈ [' '], isBlank c = true := List.forall_mem_singleton.mpr isBlank_space
  have hbody : '\x7b' :: trimRight inner = trimLeft (' ' :: '\x7b' :: trimRight inner) :=
    ((trimLeft_append hspace _).trans (trimLeft_of_head hbrace)).symm
  have hsplit : split? ("() => ".toList ++ '\x7b' :: trimRight inner)
      = some ([], '\x7b' :: trimRight inner) :=
    split?_iff.mpr ⟨[' '], _, rfl, List.not_mem_nil, hspace, hbody, List.cons_ne_nil _ _⟩
  have hagain : trim ('\x7b' :: trimRight inner) = '\x7b' :: trimRight inner := by
    have hdone := trim_behind (w := []) nofun hbrace (trimRight inner)
    rwa [trimRight_trimRight] at hdone
  unfold ofText
  dsimp only
  rw [htrim, hsplit]
  dsimp only
  rw [hagain]
  rfl

end Arrow

/-! ## What the two definitions define -/

/-- The block of a function that returns a literal. -/
def returnBlock (rest : List Char) : List Char :=
  "() => \x7b".toList ++ (" return ".toList ++ '"' :: rest)

/-- The arrow of a definition stands in front of everything in quotes. -/
theorem occursUnquoted_returnBlock (rest : List Char) :
    occursUnquoted (returnBlock rest) "=>".toList = true := rfl

/-- The function without parameters that returns a text. -/
def Closure.returningText (s : List Char) (source : Option String) : Closure :=
  ⟨[], ⟨.returning [] (.constant (.text (String.ofList s))), []⟩, source⟩

/-- A block that returns a raw text in quotes compiles to the closure that returns the text. -/
theorem Closure.compile_raw {s : List Char} (hs : ∀ c ∈ s, IsRaw c) (hzero : '\x00' ∉ s)
    (name : String) : ∃ source,
      Closure.compile name (returnBlock (s ++ '"' :: " \x7d".toList)) = .ok (returningText s source) := by
  have hsource := Script.notMem_source (z := '\x00') (by decide) hzero
  have hcontains := Bool.eq_false_iff.mpr fun h => hsource (List.contains_iff_mem.mp h)
  unfold Closure.compile returnBlock
  rw [Arrow.ofText_block, Arrow.trimRight_block, Arrow.blockBody_raw hs]
  dsimp only
  rw [hcontains, Script.program_of_raw hs hzero]
  exact ⟨_, rfl⟩

/-- A block that leaves its literal open is not compiled. -/
theorem Closure.compile_of_leavesOpen {t : List Char} (h : LeavesOpen t) (name : String) (c : Closure) :
    Closure.compile name (returnBlock t) ≠ .ok c := by
  obtain ⟨u, hu, hbody⟩ := Arrow.blockBody_of_leavesOpen (h.of_initial (trimRight_initial t))
  unfold Closure.compile returnBlock
  rw [Arrow.ofText_block, trimRight_behind _ isBlank_quote, hbody]
  dsimp only
  split
  · exact nofun
  · rw [Script.program_of_leavesOpen hu]
    exact nofun

/-- A call of a closure that returns a text. -/
theorem Closure.run_returningText (s : List Char) (source : Option String) (store : Store) :
    let c := returningText s source
    c.run (c.globals store).1 [] store = (.ok (.text (String.ofList s)), store) :=
  Script.Program.run_returning rfl store

/-- The literal of a raw text defines the text. -/
theorem define_raw {s : List Char} (hs : ∀ c ∈ s, IsRaw c) (hzero : '\x00' ∉ s) (settings : Settings)
    (id : String) : define settings id ('"' :: (s ++ ['"']))
      = .ok ⟨id, "value", .text (String.ofList s), [], [], ["value"]⟩ := by
  have hnested : Nested [] ('"' :: (s ++ ['"'])) :=
    .literal (by decide) (enclosed_of_raw hs) (fun c hc => (hs c hc).2.2) .nil
  unfold define
  rw [hnested.no_arrow, if_neg Bool.false_ne_true, recordArguments?_eq_none (by simp)]
  dsimp only
  rw [evaluate_raw hs hzero]

/-- The function that returns it defines a closure. -/
theorem define_block_raw {s : List Char} (hs : ∀ c ∈ s, IsRaw c) (hzero : '\x00' ∉ s)
    (settings : Settings) (id : String) :
    ∃ source, define settings id (returnBlock (s ++ '"' :: " \x7d".toList))
      = .ok ⟨id, "function", .null, [(executeName, .closure (.returningText s source))], [],
        ["callable"]⟩ := by
  obtain ⟨source, hcompile⟩ := Closure.compile_raw hs hzero id
  refine ⟨source, ?_⟩
  unfold define
  rw [occursUnquoted_returnBlock, if_pos rfl, hcompile]
  rfl

/-- A literal that is left open defines nothing. -/
theorem not_isDefinable_open {t : List Char} (h : LeavesOpen t) (id : String) :
    ¬ IsDefinable id ('"' :: t) := by
  intro hgood
  cases hgood with
  | arrow c _ hc =>
    -- no parenthesis is in front, so it is no arrow definition
    unfold Closure.compile Arrow.ofText at hc
    dsimp only at hc
    rw [trim_quote] at hc
    cases hc
  | record args fields _ hcall =>
    obtain ⟨gap, -, hcall⟩ := hcall
    cases hcall
  | literal v _ _ hv => exact evaluate_of_leavesOpen h v hv

/-- A block with such a literal defines nothing. -/
theorem not_isDefinable_block {t : List Char} (h : LeavesOpen t) (id : String) :
    ¬ IsDefinable id (returnBlock t) := by
  have harrow := occursUnquoted_returnBlock t
  intro hgood
  cases hgood with
  | arrow c _ hc => exact Closure.compile_of_leavesOpen h id c hc
  | record args fields hnone =>
    rw [harrow] at hnone
    cases hnone
  | literal v hnone =>
    rw [harrow] at hnone
    cases hnone

/-- A call of an object that has it. -/
theorem Entity.call_returningText {e : Entity} {s : List Char} {source : Option String}
    (h : Table.get? executeName e.methods = some (.closure (.returningText s source))) :
    e.call executeName []
      = .ok (.dict [(.text "result", .text (String.ofList s)), (.text "vars", .list [])]) := by
  have hran : (Closure.returningText s source).runOn []
      = ⟨.ok (.text (String.ofList s)), [], Store.empty⟩ :=
    congrArg (fun ran => Ran.mk ran.1 [] ran.2) (Closure.run_returningText s source Store.empty)
  rw [Entity.call_closure h, hran]
  rfl

namespace Statements

/-- The definition of a value. -/
def valueFrame : Frame where
  before := "let v = ".toList
  behind := []
  depth := 0
  unquoted := List.forall_mem_iff_getElem.mpr (by decide)
  unbroken := List.forall_mem_iff_getElem.mpr (by decide)
  starts := by decide
  ends := nofun
  opens := rfl
  closes := fun _ => rfl

/-- The definition of a function that returns a value. -/
def functionFrame : Frame where
  before := "let f = () => \x7b return ".toList
  behind := " \x7d".toList
  depth := 1
  unquoted := List.forall_mem_iff_getElem.mpr (by decide)
  unbroken := List.forall_mem_iff_getElem.mpr (by decide)
  starts := by decide
  ends := fun c hc => by
    cases hc
    decide
  opens := rfl
  closes := fun _ => rfl

end Statements

open Statements

/-- The first program is the definition of a value. -/
theorem isDefinition_value (t : List Char) : Declaration.IsDefinition
    (valueFrame.before ++ '"' :: t) ['v'] ('"' :: trimRight t) := by
  have hname : Declaration.IsName ['v'] :=
    ⟨List.cons_ne_nil _ _, List.forall_mem_singleton.mpr (by decide)⟩
  have htext : valueFrame.before ++ '"' :: t
      = "let ".toList ++ (['v'] ++ (" = ".toList ++ '"' :: t)) := rfl
  rw [htext, ← trim_quote]
  exact Declaration.isDefinition_let hname (by rw [trim_quote]; exact List.cons_ne_nil _ _)

theorem isDefinition_function (t : List Char) : Declaration.IsDefinition
    (functionFrame.before ++ '"' :: t) ['f'] (returnBlock (trimRight t)) := by
  have htrim : trim (returnBlock t) = returnBlock (trimRight t) := by
    refine trim_behind (w := "() => \x7b return ".toList) (fun d hd => ?_) isBlank_quote t
    cases hd
    decide
  have hname : Declaration.IsName ['f'] :=
    ⟨List.cons_ne_nil _ _, List.forall_mem_singleton.mpr (by decide)⟩
  have htext : functionFrame.before ++ '"' :: t
      = "let ".toList ++ (['f'] ++ (" = ".toList ++ returnBlock t)) := rfl
  rw [htext, ← htrim]
  exact Declaration.isDefinition_let hname (by rw [htrim]; exact List.cons_ne_nil _ _)

namespace Registry

/-- A program of one definition puts what it defines into the registry. -/
theorem compile_of_define {r : Registry} {code id expr : List Char} {e : Entity} {reset : Bool}
    (hcode : Statements.ofText code = ⟨[code], none⟩) (hdef : Declaration.IsDefinition code id expr)
    (he : define (r.atStart reset).settings (String.ofList id) expr = .ok e) :
    (r.compile code reset).outcome = .ok []
      ∧ (r.compile code reset).registry.objects = Table.put e.id e (r.atStart reset).objects := by
  have heffect : (r.atStart reset).effect code = .put e := by
    rw [effect, Declaration.parse_of_definition hdef]
    dsimp only [definitionEffect]
    rw [he]
  have hstop : Pass.stopped? (r.atStart reset) (Statements.ofText code).all = none := by
    rw [hcode, Pass.stopped?, heffect]
    rfl
  obtain ⟨hout, hreg⟩ := compile_of_complete hstop
  rw [hout, hreg, unclosedDiagnostics, hcode]
  dsimp only [Pass.diagnosed, List.foldl_cons, List.foldl_nil]
  rw [follow, heffect]
  exact ⟨rfl, rfl⟩

/-- A program whose first statement is not accepted has a diagnostic, or ends early. -/
theorem compile_ne_of_first {r : Registry} {code s : List Char} {rest : List (List Char)} {reset : Bool}
    (hcode : (Statements.ofText code).all = s :: rest) (hs : ¬ (r.atStart reset).Accepts s) :
    (r.compile code reset).outcome ≠ .ok [] := by
  rw [ne_eq, compile_eq_nil_iff, hcode, acceptsAll_cons_iff]
  exact fun h => hs h.2.1

section

variable (r : Registry) (reset : Bool) {s : List Char}

/-- The first program compiles without a diagnostic and defines the text, if this is raw. -/
theorem compile_value_raw (hs : ∀ c ∈ s, IsRaw c) (hzero : '\x00' ∉ s) :
    (r.compile (valueFrame.text s) reset).outcome = .ok []
      ∧ (r.compile (valueFrame.text s) reset).registry.objects
        = Table.put "v" ⟨"v", "value", .text (String.ofList s), [], [], ["value"]⟩
          (r.atStart reset).objects := by
  have hdef := isDefinition_value (s ++ ['"'])
  rw [show trimRight (s ++ ['"']) = s ++ ['"'] from trimRight_behind s isBlank_quote []] at hdef
  exact compile_of_define (valueFrame.ofText_raw hs) hdef (define_raw hs hzero _ "v")

/-- The second one does too, and defines a function that returns the text. -/
theorem compile_function_raw (hs : ∀ c ∈ s, IsRaw c) (hzero : '\x00' ∉ s) : ∃ source,
    (r.compile (functionFrame.text s) reset).outcome = .ok []
      ∧ (r.compile (functionFrame.text s) reset).registry.objects
        = Table.put "f" ⟨"f", "function", .null, [(executeName, .closure (.returningText s source))], [],
          ["callable"]⟩ (r.atStart reset).objects := by
  obtain ⟨source, he⟩ := define_block_raw hs hzero (r.atStart reset).settings "f"
  have hdef := isDefinition_function (s ++ '"' :: " \x7d".toList)
  have hends : trimRight (s ++ '"' :: " \x7d".toList) = s ++ '"' :: " \x7d".toList := by
    have hsplit : s ++ '"' :: " \x7d".toList = s ++ ['"', ' '] ++ ['\x7d'] := by simp
    rw [hsplit]
    exact trimRight_behind _ (by decide) []
  rw [hends] at hdef
  exact ⟨source, compile_of_define (functionFrame.ofText_raw hs) hdef he⟩

variable (hs : ∀ c ∈ s, c ≠ '"' ∧ c ≠ '\\') (hbreak : ∃ c ∈ s, isBreak c = true)
include hs hbreak

/-- A line break within the text leaves a diagnostic of the first program. -/
theorem compile_value_broken : (r.compile (valueFrame.text s) reset).outcome ≠ .ok [] := by
  obtain ⟨t, rest, ht, hall⟩ := valueFrame.ofText_broken hs hbreak
  refine compile_ne_of_first hall ?_
  rw [accepts_of_definition (isDefinition_value t)]
  exact not_isDefinable_open (ht.of_initial (trimRight_initial t)) _

theorem compile_function_broken : (r.compile (functionFrame.text s) reset).outcome ≠ .ok [] := by
  obtain ⟨t, rest, ht, hall⟩ := functionFrame.ofText_broken hs hbreak
  refine compile_ne_of_first hall ?_
  rw [accepts_of_definition (isDefinition_function t)]
  exact not_isDefinable_block (ht.of_initial (trimRight_initial t)) _

end

/-- **Which texts a program keeps.**  A text without line feeds, carriage returns, zero characters,
    backslashes and double quotes is written between quotes, as a value and in the block of a
    function.  The program compiles without diagnostics exactly if no character of the text is a line
    break of any other kind; then the value is the text, and so is what the function returns. -/
theorem kept_texts (settings : Settings) (reset : Bool) (s : List Char)
    (hs : ∀ c ∈ s, c ∉ ['\n', '\r', '\x00', '\\', '"']) :
    let unbroken := ∀ c ∈ s, isBreak c = false
    let value := (empty settings).compile ("let v = \"".toList ++ (s ++ "\"".toList)) reset
    let function := (empty settings).compile
      ("let f = () => \x7b return \"".toList ++ (s ++ "\" \x7d".toList)) reset
    (value.outcome = .ok [] ↔ unbroken) ∧ (function.outcome = .ok [] ↔ unbroken)
      ∧ (unbroken → value.registry.objects
            = [("v", ⟨"v", "value", .text (String.ofList s), [], [], ["value"]⟩)]
          ∧ ∃ e c, function.registry.objects = [("f", e)] ∧ e.type = "function"
            ∧ e.methods = [(executeName, .closure c)] ∧ c.parameters = []
            ∧ (∀ store, (c.run (c.globals store).1 [] store).1 = .ok (.text (String.ofList s)))
            ∧ e.call executeName []
              = .ok (.dict [(.text "result", .text (String.ofList s)), (.text "vars", .list [])])) := by
  intro unbroken value function
  have hraw : unbroken → ∀ c ∈ s, IsRaw c := fun h c hc =>
    ⟨fun he => hs c hc (by simp [he]), fun he => hs c hc (by simp [he]), h c hc⟩
  have hzero : '\x00' ∉ s := fun hm => hs _ hm (by simp)
  have hquotes : ∀ c ∈ s, c ≠ '"' ∧ c ≠ '\\' := fun c hc =>
    ⟨fun he => hs c hc (by simp [he]), fun he => hs c hc (by simp [he])⟩
  have hbroken : ¬ unbroken → ∃ c ∈ s, isBreak c = true := fun h => by
    simpa [unbroken] using h
  have hstart : ((empty settings).atStart reset).objects = [] := by
    unfold atStart
    split
    · rfl
    · rfl
  have hvalue : value = (empty settings).compile (valueFrame.text s) reset := rfl
  have hfunction : function = (empty settings).compile (functionFrame.text s) reset := rfl
  rw [hvalue, hfunction]
  refine ⟨⟨fun hok => ?_, fun h => (compile_value_raw _ reset (hraw h) hzero).1⟩,
    ⟨fun hok => ?_, fun h => ?_⟩, fun h => ⟨?_, ?_⟩⟩
  · by_contra hnot
    exact compile_value_broken _ reset hquotes (hbroken hnot) hok
  · by_contra hnot
    exact compile_function_broken _ reset hquotes (hbroken hnot) hok
  · obtain ⟨source, hok, -⟩ := compile_function_raw (empty settings) reset (hraw h) hzero
    exact hok
  · rw [(compile_value_raw (empty settings) reset (hraw h) hzero).2, hstart]
    rfl
  · obtain ⟨source, -, hobjects⟩ := compile_function_raw (empty settings) reset (hraw h) hzero
    rw [hstart] at hobjects
    refine ⟨_, _, hobjects, rfl, rfl, rfl, fun store => ?_, ?_⟩
    · rw [Closure.run_returningText]
    · exact Entity.call_returningText rfl

/-- A text with a tab, a quote of the other kind, a semicolon, a brace and an arrow. -/
theorem kept_texts_marks :
    let s := "a\t'; \x7d=>".toList
    (∀ c ∈ s, c ∉ ['\n', '\r', '\x00', '\\', '"'])
      ∧ ((empty .default).compile ("let v = \"".toList ++ (s ++ "\"".toList)) false).registry.objects
        = [("v", ⟨"v", "value", .text (String.ofList s), [], [], ["value"]⟩)]
      ∧ ((empty .default).compile
          ("let f = () => \x7b return \"".toList ++ (s ++ "\" \x7d".toList)) false).outcome = .ok [] := by
  intro s
  have hs : ∀ c ∈ s, c ∉ ['\n', '\r', '\x00', '\\', '"'] :=
    List.forall_mem_iff_getElem.mpr (by decide)
  have hbreak : ∀ c ∈ s, isBreak c = false := List.forall_mem_iff_getElem.mpr (by decide)
  obtain ⟨-, hfunction, hkept⟩ := kept_texts .default false s hs
  exact ⟨hs, (hkept hbreak).1, hfunction.mpr hbreak⟩

/-- A form feed in the text: the value is cut there, and the rest is no statement. -/
theorem form_feed_cuts_text :
    let s := "a\x0cb".toList
    let c := (empty .default).compile ("let v = \"".toList ++ (s ++ "\"".toList)) false
    (∀ c ∈ s, c ∉ ['\n', '\r', '\x00', '\\', '"'])
      ∧ (c.outcome.toOption.map fun ds => ds.map fun d => (d.problem, d.statement))
        = some [(.evaluation "v" (.invalidExpression "\"a"), "let v = \"a".toList),
          (.unrecognized, "b\"".toList)]
      ∧ c.registry.objects.names = [] := by
  intro s c
  refine ⟨List.forall_mem_iff_getElem.mpr (by decide), by decide, by decide⟩

end Registry
end LetTag
