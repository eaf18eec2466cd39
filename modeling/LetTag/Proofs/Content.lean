/-
  What a pass reads of a file.

  A file holds bytes.  They are decoded, carriage returns are read as line feeds, and the text that
  comes of it is compiled.  The text may differ from the one that was written, but not in its lines
  (`Text.lines_unifyNewlines`), and a pass reads nothing of a text but its lines
  (`Registry.compile_of_lines`): masks, blocks and the statements of a block are made of lines, with
  line feeds put between them, whatever stood there.
-/
import LetTag.Pass
import LetTag.Proofs.Indentation

namespace LetTag

open Text

/-- The bytes of a text write that text. -/
theorem fromUTF8?_toUTF8 (t : String) : String.fromUTF8? t.toUTF8 = some t :=
  dif_pos t.isValidUTF8

/-- Texts with the same lines have the same statements. -/
theorem Statements.ofText_of_lines {a b : List Char} (h : lines a = lines b) :
    ofText a = ofText b := by
  unfold ofText
  rw [h]

namespace Registry

/-- A pass reads the lines of a text, and nothing of how they are ended. -/
theorem compile_of_lines (r : Registry) {a b : List Char} (h : lines a = lines b) (reset : Bool) :
    r.compile a reset = r.compile b reset := by
  unfold compile
  rw [Statements.ofText_of_lines h]

/-- **A file compiles like its text.**  The bytes of a text can be read, and compiling what is read
    does what compiling the text does: to the objects, the settings and the kept diagnostics, in the
    log, and in the diagnostics or the error that come back. -/
theorem compileContent_of_bytes (r : Registry) (t : String) (reset : Bool) :
    (String.fromUTF8? t.toUTF8).map (fun content => r.compileContent content.toList reset)
      = some (r.compile t.toList reset) := by
  have hlines : lines (unifyNewlines t.toList) = lines t.toList := lines_unifyNewlines t.toList
  rw [fromUTF8?_toUTF8, Option.map_some]
  exact congrArg some (r.compile_of_lines hlines reset)

end Registry
end LetTag
