import DataExpr.Expr.Analysis
import DataExpr.Expr.Smaller

/-!
# Plans of joins

The condition of a join is a conjunction.  Its conjuncts are sorted by the rows
they read: equalities between the two sides become keys, a conjunct on one side is
checked once for each row, one on no side once for the whole join, and the rest for
each pair.  On a side whose rows are preserved a conjunct is checked for each pair,
so that a row that fails it still shows up without a partner.
-/

namespace DataExpr

/-- What a conjunct of a join condition is used for. -/
inductive ConjunctRole (α : Type) where
  /-- It always holds. -/
  | trivial
  /-- An equality of an expression on the left row with one on the right row. -/
  | key (left right : α)
  | neither
  | left
  | right
  | both

structure JoinPlan (α : Type) where
  keys : List (α × α)
  leftFilter : List α
  rightFilter : List α
  preFilter : List α
  residual : List α

namespace Sides

def onlyLeft (s : Sides) : Bool := s.left && !s.right

def onlyRight (s : Sides) : Bool := s.right && !s.left

/-- The use of a conjunct that reads these sides and is no key. -/
def role {α : Type} : Sides → ConjunctRole α
  | ⟨false, false⟩ => .neither
  | ⟨true, false⟩ => .left
  | ⟨false, true⟩ => .right
  | ⟨true, true⟩ => .both

end Sides

namespace Smaller

variable {root : Expr}

/-- What a conjunct is used for. -/
def role (e : Smaller root) : ConjunctRole (Smaller root) :=
  match e.parts with
  | .constant (.bool true) => .trivial
  | .binary .eq left right =>
    let l := left.1.1.analysis.sides
    let r := right.1.1.analysis.sides
    if l.onlyLeft && r.onlyRight then .key left.1 right.1
    else if l.onlyRight && r.onlyLeft then .key right.1 left.1
    else e.1.analysis.sides.role
  | _ => e.1.analysis.sides.role

end Smaller

namespace JoinPlan

variable {root : Expr}

/-- The conjuncts of one use. -/
def select (conjuncts : List (Smaller root)) (wanted : ConjunctRole (Smaller root) → Bool) :
    List (Smaller root) :=
  conjuncts.filter fun c => wanted c.role

/-- The plan of a join with this condition. -/
def ofCondition (condition : Option (Smaller root)) (kind : JoinKind) : JoinPlan (Smaller root) :=
  let conjuncts := condition.toList.flatMap Smaller.conjuncts
  let left := select conjuncts fun | .left => true | _ => false
  let right := select conjuncts fun | .right => true | _ => false
  let both := select conjuncts fun | .both => true | _ => false
  let leftPreserved := kind matches .left | .outer
  let rightPreserved := kind matches .right | .outer
  { keys := conjuncts.filterMap fun c =>
      match c.role with
      | .key l r => some (l, r)
      | _ => none
    leftFilter := if leftPreserved then [] else left
    rightFilter := if rightPreserved then [] else right
    preFilter := select conjuncts fun | .neither => true | _ => false
    residual := both ++ (if leftPreserved then left else []) ++
      (if rightPreserved then right else []) }

end JoinPlan
end DataExpr
