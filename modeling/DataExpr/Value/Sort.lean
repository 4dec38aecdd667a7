import DataExpr.Expr.Operator
import DataExpr.Sort
import DataExpr.Value.Order

/-!
# Sorting values

Values are sorted by their natural order or by keys, whose components are compared
one after the other.
-/

namespace DataExpr

/-- The order of two key components that the place of nulls alone decides. -/
def NullOrder.place (nulls : NullOrder) (a b : Value) : Ordering :=
  match nulls, a.isNull, b.isNull with
  | .first, true, false => .lt
  | .first, false, true => .gt
  | .last, true, false => .gt
  | .last, false, true => .lt
  | _, _, _ => .eq

namespace Value

/-- Sorts values by their natural order. -/
def sort (items : List Value) (reverse : Bool) : Except Error (List Value) :=
  Comparison.sort (Comparison.reversed compare reverse) items

/-- Compares two keys component by component.  Components that are equal are skipped
    without looking at their order, so two nulls tie. -/
def compareKeys : List KeyOrder → Comparison (List Value)
  | order :: orders, a :: as, b :: bs =>
    match order.nulls.place a b with
    | .eq =>
      if a.equals b then compareKeys orders as bs
      else do
        let result ← compare a b
        return if order.descending then result.swap else result
    | placed => .ok placed
  | _, _, _ => .ok .eq

/-- Sorts values by their keys. -/
def sortByKeys (orders : List KeyOrder) (keyed : List (List Value × Value)) (reverse : Bool) :
    Except Error (List Value) := do
  let cmp : Comparison (List Value × Value) := fun a b => compareKeys orders a.1 b.1
  return (← Comparison.sort (cmp.reversed reverse) keyed).map (·.2)

end Value
end DataExpr
