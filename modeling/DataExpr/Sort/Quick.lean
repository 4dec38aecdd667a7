import DataExpr.Sort.Run

/-!
# Quicksort

A stable quicksort.  The pivot is a median of medians of three.  If no element is
smaller than the pivot, then those that tie with it are set apart.  After too many
divisions a part is sorted by runs.
-/

namespace DataExpr.Comparison

variable {α : Type}

/-- The position of the median of three elements. -/
def medianOfThree (cmp : Comparison α) (items : Array α) (i j k : Nat) : Sorting Nat :=
  match items[i]?, items[j]?, items[k]? with
  | some a, some b, some c => do
    let x ← cmp.precedes a b
    let y ← cmp.precedes a c
    if x == y then return if (← cmp.precedes b c) == x then j else k else return i
  | _, _, _ => return i

/-- The position of a median of three parts of the given length, each of which is
    represented by its first element or, if it is long, by such a median of its own. -/
def medianOfParts (cmp : Comparison α) (items : Array α) (length i j k : Nat) : Sorting Nat := do
  if 8 ≤ length then
    let n := length / 8
    let i ← cmp.medianOfParts items n i (i + 4 * n) (i + 7 * n)
    let j ← cmp.medianOfParts items n j (j + 4 * n) (j + 7 * n)
    let k ← cmp.medianOfParts items n k (k + 4 * n) (k + 7 * n)
    cmp.medianOfThree items i j k
  else cmp.medianOfThree items i j k
termination_by length

/-- The position of the pivot. -/
def pivotPosition (cmp : Comparison α) (items : Array α) : Sorting Nat :=
  let n := items.size / 8
  cmp.medianOfParts items n 0 (4 * n) (7 * n)

/-- Divides a list by a test.  Both parts are given from their last elements on. -/
def divide (test : α → Sorting Bool) : List α × List α → List α → Sorting (List α × List α)
  | parts, [] => return parts
  | (yes, no), a :: rest => do
    if ← test a then divide test (a :: yes, no) rest else divide test (yes, a :: no) rest

/-- The elements that are smaller than the pivot, and the others with the pivot. -/
def divideBelow (cmp : Comparison α) (before : List α) (pivot : α) (after : List α) :
    Sorting (List α × List α) := do
  let (low, high) ← divide (cmp.precedes · pivot) ([], []) before
  let (low, high) ← divide (cmp.precedes · pivot) (low, pivot :: high) after
  return (low.reverse, high.reverse)

/-- The elements that are not greater than the pivot, with the pivot, and the others. -/
def divideAbove (cmp : Comparison α) (before : List α) (pivot : α) (after : List α) :
    Sorting (List α × List α) := do
  let (high, low) ← divide (cmp.precedes pivot ·) ([], []) before
  let (high, low) ← divide (cmp.precedes pivot ·) (high, pivot :: low) after
  return (low.reverse, high.reverse)

/-- Whether the pivot is not greater than a bound below which no element lies; then it is
    one of the least elements. -/
def isLeast (cmp : Comparison α) (bound : Option α) (pivot : α) : Sorting Bool :=
  match bound with
  | some a => return !(← cmp.precedes a pivot)
  | none => return false

/-- Sorts by dividing at most `divisions` times in a row.  No element is smaller than
    the bound. -/
def quicksort (cmp : Comparison α) (divisions : Nat) (bound : Option α) (items : List α) :
    Sorting (List α) := do
  if items.length ≤ blockLength then cmp.sortBlock items
  else
    match divisions with
    | 0 => cmp.sortByRuns false pure items
    | divisions + 1 =>
      match items.splitAt (← cmp.pivotPosition items.toArray) with
      | (before, pivot :: after) =>
        let (low, high) ← if ← cmp.isLeast bound pivot then pure ([], items)
          else cmp.divideBelow before pivot after
        if low.isEmpty then
          let (low, high) ← cmp.divideAbove before pivot after
          return low ++ (← cmp.quicksort divisions none high)
        else
          let high ← cmp.quicksort divisions (some pivot) high
          return (← cmp.quicksort divisions bound low) ++ high
      | (_, []) => return items

end DataExpr.Comparison
