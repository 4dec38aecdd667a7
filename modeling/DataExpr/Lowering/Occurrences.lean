import DataExpr.Lowering.Context
import Std.Data.TreeMap

/-!
# Occurrences of subexpressions

How often each subexpression occurs in each input context.  Sites are kept in a tree
by their stamps, so that a site is compared only with the sites of its own stamp.
-/

namespace DataExpr

/-- The sites of each stamp with their numbers of occurrences. -/
abbrev Occurrences := Std.TreeMap UInt64 (List (Site × Nat))

namespace Occurrences

/-- The number of occurrences of a site in a list. -/
def countIn (site : Site) (entries : List (Site × Nat)) : Nat :=
  match entries.find? fun entry => entry.1.same site with
  | some (_, n) => n
  | none => 0

/-- The list with one more occurrence of a site. -/
def addTo (site : Site) : List (Site × Nat) → List (Site × Nat)
  | [] => [(site, 1)]
  | (s, n) :: rest => if s.same site then (s, n + 1) :: rest else (s, n) :: addTo site rest

/-- The number of occurrences of a site. -/
def count (table : Occurrences) (site : Site) : Nat := countIn site (table.getD site.stamp [])

/-- One more occurrence of a site. -/
def add (table : Occurrences) (site : Site) : Occurrences :=
  table.insert site.stamp (addTo site (table.getD site.stamp []))

end Occurrences
end DataExpr
