import DataExpr.Expr.Traverse

/-!
# Expressions smaller than another

The expressions that are smaller than a root, closed under subexpressions.  A
recursion over an expression that reaches deep into it, as the reductions of an
aggregate or the parts of a join condition do, goes through these.
-/

namespace DataExpr

/-- The expressions smaller than a root. -/
abbrev Smaller (root : Expr) := { e : Expr // sizeOf e < sizeOf root }

/-- The node of an expression, with subexpressions that are smaller. -/
def Expr.parts (e : Expr) : Node (Smaller e) :=
  e.node.attach.map fun c => ⟨c.1, Expr.sizeOf_lt_of_mem c.2⟩

namespace Smaller

variable {root : Expr}

/-- The node of an expression below a root.  Its subexpressions are smaller than the root
    too, and smaller than the expression. -/
def parts (e : Smaller root) : Node { c : Smaller root // sizeOf c.1 < sizeOf e.1 } :=
  e.1.parts.map fun c => ⟨⟨c.1, Nat.lt_trans c.2 e.2⟩, c.2⟩

/-- The operands of nested conjunctions, from left to right. -/
def conjuncts (e : Smaller root) : List (Smaller root) :=
  match e.parts with
  | .and items => items.flatMap fun c => conjuncts c.1
  | _ => [e]
termination_by sizeOf e.1
decreasing_by exact c.2

/-- The reducers of an expression that belong to the enclosing aggregate, in the order
    of evaluation.  Another aggregate has reducers of its own, and inside a reducer
    only the default belongs to the same aggregate. -/
def reducers (e : Smaller root) : List (Reducer (Smaller root)) :=
  match e.parts with
  | .aggregate _ _ => []
  | .reducer r =>
    let nested := match r.default with
      | some d => reducers d.1
      | none => []
    r.map (·.1) :: nested
  | other => other.children.flatMap fun c => reducers c.1
termination_by sizeOf e.1
decreasing_by
  · exact d.2
  · exact c.2

end Smaller
end DataExpr
