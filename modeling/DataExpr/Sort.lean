import DataExpr.Sort.Quick

/-!
# Stable sorting

Short lists are sorted by insertion.  Longer ones are sorted by runs, and from a
certain length on parts without order are sorted by dividing.  Which of several
failing comparisons is met first depends on all of this, as does whether a comparison
that is not an order is noticed.
-/

namespace DataExpr.Comparison

variable {α : Type}

/-- Sorts the elements; those that tie keep their order. -/
def arrange (cmp : Comparison α) (items : List α) : Sorting (List α) :=
  if items.length ≤ 20 then cmp.sortByInsertion items
  else
    cmp.sortByRuns (decide (2 * blockLength < items.length))
      (fun part => cmp.quicksort (2 * part.length.log2) none part) items

/-- The elements in increasing order; elements that tie keep their order. -/
def sort (cmp : Comparison α) (items : List α) : Except Error (List α) :=
  (cmp.arrange items).result

end DataExpr.Comparison
