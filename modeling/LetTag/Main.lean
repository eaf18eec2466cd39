/-
  The command line: prints the tour of the demonstration service.
-/
import LetTag.Demo

/-- Prints the tour. -/
def main : IO Unit :=
  IO.print LetTag.Demo.report
