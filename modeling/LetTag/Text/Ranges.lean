/-
  Character classes given by tables: a class is a list of closed ranges of code points.
-/

namespace LetTag.Text

/-- Does the code point of `c` lie in one of the ranges? -/
def inRanges (table : List (Nat × Nat)) (c : Char) : Bool :=
  table.any fun r => r.1 ≤ c.toNat && c.toNat ≤ r.2

end LetTag.Text
