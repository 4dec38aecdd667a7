import DataExpr.Sort.Comparison

/-!
# Insertion sort

Each element moves to the left as long as it is smaller than its neighbour.  The
sorted part is kept from its last element on.
-/

namespace DataExpr.Comparison

variable {α : Type}

/-- Inserts an element into a sorted list that is given from its last element on. -/
def insertLast (cmp : Comparison α) (a : α) : List α → Sorting (List α)
  | [] => return [a]
  | b :: rest => do
    if ← cmp.precedes a b then return b :: (← cmp.insertLast a rest)
    else return a :: b :: rest

/-- Inserts elements one after the other into a sorted list that is given from its last
    element on. -/
def insertAll (cmp : Comparison α) : List α → List α → Sorting (List α)
  | sorted, [] => return sorted
  | sorted, a :: rest => do cmp.insertAll (← cmp.insertLast a sorted) rest

/-- Sorts by insertion. -/
def sortByInsertion (cmp : Comparison α) (items : List α) : Sorting (List α) :=
  return (← cmp.insertAll [] items).reverse

end DataExpr.Comparison
