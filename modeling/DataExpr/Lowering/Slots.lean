import DataExpr.Expr.Analysis
import DataExpr.Expr.Equality
import DataExpr.Expr.Smaller
import DataExpr.Lowering.Error

/-!
# Reducers of an aggregate

The reducers in the output of an aggregate accumulate in slots.  Reducers that
accumulate the same share a slot, whatever their defaults are.
-/

namespace DataExpr

namespace Reducer

/-- Whether two reducers accumulate the same. -/
def sameSlot (r s : Reducer Expr) : Bool := r.zipSlot (· == ·) s

/-- The first thing that is wrong with a reducer. -/
def validate (r : Reducer Expr) : Except CompileError Unit := do
  let text := r.kind.display
  let (least, greatest) := r.kind.arity
  if r.args.length < least || greatest < r.args.length then
    throw (.invalidReducer text (.arity least greatest r.args.length))
  if r.initial.isSome && !r.kind.acceptsInitial then
    throw (.invalidReducer text .noInitial)
  match r.kind with
  | .topK 0 => throw (.invalidReducer text .topZero)
  | .percentile p _ =>
    if p.isNegative || p.compare (Double.ofInt 100) == .gt then
      throw (.invalidReducer text (.percentileRange p))
  | _ => pure ()
  for input in r.args ++ r.filter.toList ++ r.initial.toList do
    let a := input.analysis
    if 0 < a.freeReducers then throw (.nestedReducer text)
    if !a.labelsWritten.isEmpty then throw (.labelInReducer text)

end Reducer

namespace Smaller

variable {root : Expr}

/-- A reducer of plain expressions. -/
def plain (r : Reducer (Smaller root)) : Reducer Expr := r.map (·.1)

/-- The slots that the reducers of an aggregate's output need, in the order of their
    first use; every reducer has to be valid. -/
def slots (output : Smaller root) : Except CompileError (List (Reducer (Smaller root))) :=
  output.reducers.foldlM (fun slots r => do
    (plain r).validate
    return if slots.any fun s => (plain s).sameSlot (plain r) then slots else slots ++ [r]) []

end Smaller
end DataExpr
