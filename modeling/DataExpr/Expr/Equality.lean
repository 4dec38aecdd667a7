import DataExpr.Expr.Traverse.Lemmas
import DataExpr.Value.Equality

/-!
# Equality and likeness of expressions

Both compare the structure and ignore identities.  Equality compares constants
with equality of values, likeness with likeness of values.  Both are reflexive, so
an expression that is met again in the same place of memory is not walked through.
-/

namespace DataExpr.Expr

/-- Whether two expressions have the same structure, given when constants agree. -/
def sameBy (constants : Value → Value → Bool) (e f : Expr) : Bool :=
  Node.zip constants (fun c d => sameBy constants c.1 d) e.node.attach f.node
termination_by sizeOf e
decreasing_by exact Expr.sizeOf_lt_of_mem c.2

theorem sameBy_eq (constants : Value → Value → Bool) (e f : Expr) :
    sameBy constants e f = e.node.zip constants (sameBy constants) f.node := by
  have h := Node.zip_map_left constants (sameBy constants) (fun c => c.1) e.node.attach f.node
  rw [Node.attach_map_val] at h
  rw [sameBy, h]

/-- Every expression has its own structure. -/
theorem sameBy_self {constants : Value → Value → Bool} (hc : ∀ v, constants v v = true)
    (e : Expr) : sameBy constants e e = true := by
  rw [sameBy_eq]
  exact Node.zip_self hc fun c h => sameBy_self hc c
termination_by sizeOf e
decreasing_by exact Expr.sizeOf_lt_of_mem h

/-- Structural equality. -/
def beq (e f : Expr) : Bool :=
  withPtrEq e f (fun _ => sameBy Value.beq e f) fun h => h ▸ sameBy_self Value.beq_self e

instance : BEq Expr := ⟨beq⟩

theorem beq_self (e : Expr) : (e == e) = true := sameBy_self Value.beq_self e

/-- Structural equality that sees only the size of constant sets and dictionaries. -/
def alike (e f : Expr) : Bool :=
  withPtrEq e f (fun _ => sameBy Value.alike e f) fun h => h ▸ sameBy_self Value.alike_self e

theorem alike_self (e : Expr) : e.alike e = true := sameBy_self Value.alike_self e

/-- Whether two handles denote one and the same node. -/
def same (e f : Expr) : Bool := e.id == f.id

end DataExpr.Expr
