import DataExpr.Error

/-!
# Comparisons that may fail

A sort asks its comparison which of two elements is smaller.  A comparison that
fails counts as a tie, so that sorting goes on, and the first failure is kept.
-/

namespace DataExpr

/-- A comparison that may fail. -/
abbrev Comparison (α : Type) := α → α → Except Error Ordering

/-- Sorting, which keeps the first failure of a comparison.  It stops only when the
    comparison turns out not to be an order. -/
abbrev Sorting := StateT (Option Error) (Except Error)

namespace Sorting

variable {α : Type}

/-- The result of a sort, which fails if a comparison has failed. -/
def result (sorting : Sorting α) : Except Error α := do
  match ← sorting.run none with
  | (_, some e) => throw e
  | (a, none) => return a

end Sorting

namespace Comparison

variable {α : Type}

/-- The comparison for descending order. -/
def reversed (cmp : Comparison α) (reverse : Bool) : Comparison α :=
  if reverse then fun a b => cmp b a else cmp

/-- Whether one element is smaller than another. -/
def precedes (cmp : Comparison α) (a b : α) : Sorting Bool := fun failure =>
  match cmp a b with
  | .ok order => .ok (order == .lt, failure)
  | .error e => .ok (false, failure.or (some e))

end Comparison
end DataExpr
