import DataExpr.Eval.Basic
import DataExpr.Value.Lookup
import DataExpr.Value.Sort

/-!
# Evaluation of comprehensions and sorts

Each item of the source is an instance of the scope: the lazy bindings of the scope
are forgotten before it.
-/

namespace DataExpr

variable {σ : Type}

namespace LoopOp

/-- The items that a comprehension goes over. -/
def items (op : LoopOp (Evaluator σ)) (input : Value) : Eval σ (List Value) := do
  (← op.source input).elements

/-- Key and element for one item, or none if the filter rejects it. -/
def step (op : LoopOp (Evaluator σ)) (item : Value) : Eval σ (Option (Option Value × Value)) := do
  Eval.reset op.scope.resets
  if ← Eval.holds op.filter item then
    let key ← op.key.mapM (· item)
    return some (key, ← op.element item)
  else return none

/-- Keys and elements for all items that the filter accepts. -/
def steps (op : LoopOp (Evaluator σ)) : List Value → Eval σ (List (Option Value × Value))
  | [] => return []
  | item :: rest => do
    match ← op.step item with
    | some result => return result :: (← op.steps rest)
    | none => op.steps rest

/-- The collection that a comprehension builds. -/
def build (kind : ComprehensionKind) (results : List (Option Value × Value)) : Value :=
  match kind with
  | .dict => .ofDict (results.map fun r => (r.1.getD .null, r.2))
  | .tuple => .tuple (results.map (·.2))
  | .set => .ofSet (results.map (·.2))
  | .list | .lazy => .list (results.map (·.2))

def collect (op : LoopOp (Evaluator σ)) (input : Value) : Eval σ Value := do
  return build op.kind (← op.steps (← op.items input))

end LoopOp

namespace SortOp

/-- The key of an item. -/
def key (op : SortOp (Evaluator σ)) (item : Value) : Eval σ (List Value) := do
  Eval.reset op.scope.resets
  op.keys.mapM fun k => k.op item

/-- The sorted items of the source. -/
def collect (op : SortOp (Evaluator σ)) (input : Value) : Eval σ Value := do
  let items ← (← op.source input).elements
  if op.keys.isEmpty then return .list (← Value.sort items op.reverse)
  else
    let keyed ← items.mapM fun item => return (← op.key item, item)
    return .list (← Value.sortByKeys (op.keys.map (·.order)) keyed op.reverse)

end SortOp
end DataExpr
