import DataExpr.Sort.Comparison

/-!
# Merging

Two sorted lists are merged from the front, from the back, or from both ends at
once.  Among elements that tie those of the left list come first.
-/

namespace DataExpr.Comparison

variable {α : Type}

/-- Merges from the front.  The merged part is given from its last element on. -/
def mergeFront (cmp : Comparison α) (merged : List α) : List α → List α → Sorting (List α)
  | [], right => return merged.reverseAux right
  | left, [] => return merged.reverseAux left
  | a :: left, b :: right => do
    if ← cmp.precedes b a then cmp.mergeFront (b :: merged) (a :: left) right
    else cmp.mergeFront (a :: merged) left (b :: right)
termination_by left right => left.length + right.length

/-- Merges from the back.  Both lists are given from their last elements on. -/
def mergeBack (cmp : Comparison α) (merged : List α) : List α → List α → Sorting (List α)
  | [], right => return right.reverseAux merged
  | left, [] => return left.reverseAux merged
  | a :: left, b :: right => do
    if ← cmp.precedes b a then cmp.mergeBack (a :: merged) left (b :: right)
    else cmp.mergeBack (b :: merged) (a :: left) right
termination_by left right => left.length + right.length

/-- Merges two sorted lists, starting at the end at which the shorter one lies. -/
def merge (cmp : Comparison α) (left right : List α) : Sorting (List α) :=
  if left.length ≤ right.length then cmp.mergeFront [] left right
  else cmp.mergeBack [] left.reverse right.reverse

/-- A merge from both ends: the smallest elements, from the last one on, the greatest ones,
    and what the front and the back have not taken of each list; the back takes from the end,
    so its lists start there. -/
structure Meeting (α : Type) where
  low : List α
  high : List α
  left : List α
  right : List α
  leftBack : List α
  rightBack : List α

namespace Meeting

/-- Takes an element at the front and one at the back, a number of times.  With steps for
    half of the elements no list runs out before. -/
def advance (cmp : Comparison α) : Nat → Meeting α → Sorting (Meeting α)
  | 0, m => return m
  | steps + 1, ⟨low, high, a :: left, b :: right, c :: leftBack, d :: rightBack⟩ => do
    let (low, left, right) :=
      if ← cmp.precedes b a then (b :: low, a :: left, right) else (a :: low, left, b :: right)
    let (high, leftBack, rightBack) :=
      if ← cmp.precedes d c then (c :: high, leftBack, d :: rightBack)
      else (d :: high, c :: leftBack, rightBack)
    advance cmp steps ⟨low, high, left, right, leftBack, rightBack⟩
  | _ + 1, m => return m

end Meeting

/-- Merges two sorted lists of about equal length from both ends.  If the two ends do
    not meet, then the comparison is not an order. -/
def mergeEnds (cmp : Comparison α) (left right : List α) : Sorting (List α) := do
  let size := left.length + right.length
  let m ← Meeting.advance cmp (size / 2) ⟨[], [], left, right, left.reverse, right.reverse⟩
  let (middle, m) :=
    if size % 2 = 0 then ([], m)
    else if left.length < m.left.length + m.leftBack.length then
      (m.left.take 1, { m with left := m.left.drop 1 })
    else (m.right.take 1, { m with right := m.right.drop 1 })
  if m.left.length + m.leftBack.length = left.length ∧
      m.right.length + m.rightBack.length = right.length then
    return m.low.reverseAux (middle ++ m.high)
  else throw .disorder

end DataExpr.Comparison
