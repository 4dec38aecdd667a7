import DataExpr.Sort.Insertion
import DataExpr.Sort.Merge

/-!
# Sorting of short blocks

A block is cut into two halves.  Each half is sorted by insertion, in blocks of at
least eight elements after its first four have been sorted by five comparisons.
Then the halves are merged from both ends.
-/

namespace DataExpr.Comparison

variable {α : Type}

/-- Two elements in order. -/
def sortPair (cmp : Comparison α) (a b : α) : Sorting (α × α) := do
  if ← cmp.precedes b a then return (b, a) else return (a, b)

/-- Four elements in order.  Two ordered pairs give the least and the greatest element;
    of the two that remain it is known which one came first. -/
def sortFour (cmp : Comparison α) (a b c d : α) : Sorting (List α) := do
  let (a, b) ← cmp.sortPair a b
  let (c, d) ← cmp.sortPair c d
  let least ← cmp.precedes c a
  let greatest ← cmp.precedes d b
  match least, greatest with
  | false, false => let (x, y) ← cmp.sortPair b c; return [a, x, y, d]
  | false, true => let (x, y) ← cmp.sortPair c d; return [a, x, y, b]
  | true, false => let (x, y) ← cmp.sortPair a b; return [c, x, y, d]
  | true, true => let (x, y) ← cmp.sortPair a d; return [c, x, y, b]

/-- The sorted start of a half, from its last element on, and the rest. -/
def startHalf (cmp : Comparison α) (byFour : Bool) : List α → Sorting (List α × List α)
  | a :: b :: c :: d :: rest => do
    if byFour then return ((← cmp.sortFour a b c d).reverse, rest)
    else return ([a], b :: c :: d :: rest)
  | a :: rest => return ([a], rest)
  | [] => return ([], [])

/-- Sorts a block. -/
def sortBlock (cmp : Comparison α) (items : List α) : Sorting (List α) := do
  if items.length < 2 then return items
  let (left, right) := items.splitAt (items.length / 2)
  let byFour := decide (8 ≤ items.length)
  let (leftStart, leftRest) ← cmp.startHalf byFour left
  let (rightStart, rightRest) ← cmp.startHalf byFour right
  let left ← cmp.insertAll leftStart leftRest
  let right ← cmp.insertAll rightStart rightRest
  cmp.mergeEnds left.reverse right.reverse

end DataExpr.Comparison
