import DataExpr.Lowering.JoinPlan
import DataExpr.Lowering.State

/-!
# Lowering joins

The two sides and the parts of the condition that a plan assigns to a side have
scopes of their own, entered once for each row; what is checked for each pair of
rows has a third one.  A rule is given the function `go` that lowers smaller
expressions.
-/

namespace DataExpr.Lowering

variable {root : Expr}

/-- The conjunction of some parts of a condition, or nothing if there are none.  Labels
    that they set do not count afterwards. -/
def lowerConjunction (go : LowerSmaller root) (conjuncts : List (Smaller root)) (env : Env) :
    M (Option Op) := do
  let ops ← contained (conjuncts.mapM (go · env))
  match ops with
  | [] => return none
  | [op] => return some op
  | ops => return some (.mk (.and ops))

/-- Lowers what is evaluated for each row of one side. -/
def lowerJoinSide (go : LowerSmaller root) (context : Context) (join : JoinEnv)
    (keys filter : List (Smaller root)) (env : Env) : M (JoinSideOp Op) := do
  let (scope, keys, filter) ← inScope env context env.input fun inner => do
    let inner := { inner with join := some join }
    let keys ← keys.mapM (go · inner)
    let filter ← lowerConjunction go filter inner
    return (keys, filter)
  return { scope, keys, filter }

/-- Lowers a join of two sides, which is known by this key. -/
def lowerJoin (go : LowerSmaller root) (key : NodeKey) (left right : Smaller root)
    (condition : Option (Smaller root)) (kind : JoinKind) (env : Env) : M Op := do
  let leftOp ← go left env
  let rightOp ← go right env
  let leftRow ← freshSlot "left"
  let rightRow ← freshSlot "right"
  let plan := JoinPlan.ofCondition condition kind
  let preFilter ← lowerConjunction go plan.preFilter env
  let join : JoinEnv := ⟨leftRow, rightRow⟩
  let context := Context.part env.context key
  let leftSide ← lowerJoinSide go (context .leftRow) join (plan.keys.map (·.1)) plan.leftFilter env
  let rightSide ←
    lowerJoinSide go (context .rightRow) join (plan.keys.map (·.2)) plan.rightFilter env
  let (pairScope, residual) ← inScope env (context .pair) env.input fun inner =>
    lowerConjunction go plan.residual { inner with join := some join }
  return .mk (.join
    { kind, left := leftOp, right := rightOp, leftRow, rightRow, preFilter, leftSide, rightSide
      pairScope, residual })

end DataExpr.Lowering
