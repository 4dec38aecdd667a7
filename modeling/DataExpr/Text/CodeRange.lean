/-!
# Ranges of code points

A character class is a table of ranges of code points, both ends included.
-/

namespace DataExpr.Text

/-- Whether a character lies in one of the ranges of a table. -/
def inRanges (table : List (Nat × Nat)) (c : Char) : Bool :=
  table.any fun (first, last) => decide (first ≤ c.toNat) && decide (c.toNat ≤ last)

end DataExpr.Text
