import DataExpr.Sort.Block

/-!
# Sorting by runs

A list is cut into runs from the left to the right, and adjacent runs are joined
along a balanced tree.  A run is a long part that is in order already, or that falls
strictly and is turned round; where there is none, it is a block that is sorted, or a
part that stays loose.  Loose runs that meet stay loose, so that they are sorted as
one.
-/

namespace DataExpr

/-- A part of a list that is being sorted. -/
structure Run (α : Type) where
  items : List α
  sorted : Bool

namespace Comparison

variable {α : Type}

/-- Extends a run that rises, or one that falls strictly, as far as it goes.  The run
    is given from its last element on. -/
def extendRun (cmp : Comparison α) (falling : Bool) (last : α) (run : List α) :
    List α → Sorting (List α)
  | [] => return last :: run
  | b :: rest => do
    if (← cmp.precedes b last) == falling then cmp.extendRun falling b (last :: run) rest
    else return last :: run

/-- The run at the start of a list, in increasing order. -/
def naturalRun (cmp : Comparison α) : List α → Sorting (List α)
  | a :: b :: rest => do
    let falling ← cmp.precedes b a
    let run ← cmp.extendRun falling b [a] rest
    return if falling then run else run.reverse
  | items => return items

/-- The length of a block that is sorted at once. -/
def blockLength : Nat := 32

/-- The least length of a part in order that is worth a run of its own: half of a short
    list, 64 elements of a longer one, and about the square root of a long one. -/
def goodRunLength (length : Nat) : Nat :=
  if length ≤ 4096 then min (length - length / 2) 64
  else
    let root := (1 : Nat) <<< ((1 + length.log2) / 2)
    (root + length / root) / 2

/-- The run at the start of a list: a part in order of at least the given length, else
    a block that is sorted or, if `loose`, a part of that length as it is. -/
def nextRun (cmp : Comparison α) (loose : Bool) (good : Nat) (items : List α) :
    Sorting (Run α) := do
  let run ← if good ≤ items.length then cmp.naturalRun items else pure []
  if good ≤ run.length then return ⟨run, true⟩
  else if loose then return ⟨items.take good, false⟩
  else return ⟨← cmp.sortBlock (items.take blockLength), true⟩

/-- The depth, in a balanced tree over a list of the given length, of the node that joins
    the parts from `start` to `middle` and from `middle` to `stop`: on the scale from 0
    to 2⁶³ it is the number of binary digits that their centres have in common. -/
def joinDepth (length start middle stop : Nat) : Nat :=
  let scale := (0x4000000000000000 + length - 1) / length
  63 - ((scale * (start + middle)) ^^^ (scale * (middle + stop))).log2

/-- The sorted items of a run. -/
def settle (sortLoose : List α → Sorting (List α)) (run : Run α) : Sorting (List α) :=
  if run.sorted then return run.items else sortLoose run.items

/-- Joins two adjacent runs.  The result is loose if both are. -/
def join (cmp : Comparison α) (sortLoose : List α → Sorting (List α)) (left right : Run α) :
    Sorting (Run α) := do
  if left.sorted || right.sorted then
    let l ← settle sortLoose left
    let r ← settle sortLoose right
    return ⟨← cmp.merge l r, true⟩
  else return ⟨left.items ++ right.items, false⟩

/-- Joins a run with those before it whose nodes lie at the given depth or deeper.  The
    runs before it are given from the last one on, each with the depth of its node. -/
def collapse (cmp : Comparison α) (sortLoose : List α → Sorting (List α)) (depth : Nat) :
    List (Run α × Nat) → Run α → Sorting (List (Run α × Nat) × Run α)
  | [], run => return ([], run)
  | (left, d) :: before, run => do
    if depth ≤ d then cmp.collapse sortLoose depth before (← cmp.join sortLoose left run)
    else return ((left, d) :: before, run)

/-- Joins all runs of a list of the given length, of which the first `done` elements are
    the runs before and the current one. -/
def joinRuns (cmp : Comparison α) (loose : Bool) (sortLoose : List α → Sorting (List α))
    (length done : Nat) (before : List (Run α × Nat)) (run : Run α) :
    List α → Sorting (Run α)
  | [] => return (← cmp.collapse sortLoose 0 before run).2
  | a :: rest => do
    let next ← cmp.nextRun loose (goodRunLength length) (a :: rest)
    let stop := done + next.items.length
    let depth := joinDepth length (done - run.items.length) done stop
    let (before, run) ← cmp.collapse sortLoose depth before run
    cmp.joinRuns loose sortLoose length stop ((run, depth) :: before) next
      (rest.drop (next.items.length - 1))
termination_by items => items.length
decreasing_by simp only [List.length_drop, List.length_cons]; omega

/-- Sorts by runs.  Parts without order are left loose if `loose`, and are then sorted by
    the given function. -/
def sortByRuns (cmp : Comparison α) (loose : Bool) (sortLoose : List α → Sorting (List α))
    (items : List α) : Sorting (List α) := do
  let first ← cmp.nextRun loose (goodRunLength items.length) items
  let taken := first.items.length
  let run ← cmp.joinRuns loose sortLoose items.length taken [] first (items.drop taken)
  settle sortLoose run

end Comparison
end DataExpr
