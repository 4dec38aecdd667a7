import DataExpr.Expr.Analysis
import DataExpr.Expr.Size

/-!
# Input contexts

The same subexpression means the same only where it has the same input.  An input
context tells which input that is: the input of the program, or the one that
comes with a part of some expression in an outer context, such as the items of a
comprehension or the result of a producer.

An expression with effects, or one that depends on more than its input, is known
by its identity; any other by its shape.
-/

namespace DataExpr

/-- How a subexpression is recognised as a repetition of another. -/
inductive NodeKey where
  | identity (id : Nat)
  | shape (e : Expr) (size : UInt64) (size_eq : size = e.size)

namespace NodeKey

/-- The key of an expression with this analysis. -/
def of (e : Expr) (a : Analysis) : NodeKey :=
  if a.hasSideEffects || a.readsLabels || a.readsCaught then .identity e.id
  else .shape e e.size rfl

def beq : NodeKey → NodeKey → Bool
  | .identity i, .identity j => i == j
  | .shape e _ _, .shape f _ _ => e == f
  | _, _ => false

instance : BEq NodeKey := ⟨beq⟩

theorem beq_self (k : NodeKey) : (k == k) = true := by
  cases k with
  | identity i => exact beq_self_eq_true i
  | shape e size size_eq => exact e.beq_self

/-- Likeness: of constant sets and dictionaries only the size counts. -/
def alike : NodeKey → NodeKey → Bool
  | .identity i, .identity j => i == j
  | .shape e _ _, .shape f _ _ => e.alike f
  | _, _ => false

theorem alike_self (k : NodeKey) : k.alike k = true := by
  cases k with
  | identity i => exact beq_self_eq_true i
  | shape e size size_eq => exact e.alike_self

/-- A number that like keys have in common. -/
def stamp : NodeKey → UInt64
  | .identity i => i.toUInt64
  | .shape _ size _ => size

theorem stamp_eq_of_beq {k l : NodeKey} (h : (k == l) = true) : k.stamp = l.stamp := by
  cases k <;> cases l <;> try exact Bool.noConfusion h
  case identity.identity i j => rw [eq_of_beq (show (i == j) = true from h)]
  case shape.shape e m hm f n hn =>
    subst hm hn
    exact Expr.size_eq_of_sameBy (show e.sameBy Value.beq f = true from h)

theorem stamp_eq_of_alike {k l : NodeKey} (h : k.alike l = true) : k.stamp = l.stamp := by
  cases k <;> cases l <;> try exact Bool.noConfusion h
  case identity.identity i j => rw [eq_of_beq (show (i == j) = true from h)]
  case shape.shape e m hm f n hn =>
    subst hm hn
    exact Expr.size_eq_of_sameBy (show e.sameBy Value.alike f = true from h)

end NodeKey

/-- The part of an expression that has an input of its own. -/
inductive Part where
  | item | sortItem | row | output | leftRow | rightRow | pair | consumer
deriving DecidableEq, Repr

def Part.stamp : Part → UInt64
  | item => 1
  | sortItem => 2
  | row => 3
  | output => 4
  | leftRow => 5
  | rightRow => 6
  | pair => 7
  | consumer => 8

inductive Context where
  /-- The input of the program. -/
  | root
  /-- The input of a part of an expression in an outer context. -/
  | part (outer : Context) (node : NodeKey) (which : Part)

namespace Context

/-- Whether two contexts come from like parts of like expressions. -/
def alike : Context → Context → Bool
  | .root, .root => true
  | .part outer node which, .part outer' node' which' =>
    which == which' && node.alike node' && outer.alike outer'
  | _, _ => false

theorem alike_self (context : Context) : context.alike context = true := by
  induction context with
  | root => rfl
  | part outer node which ih => simp [alike, node.alike_self, ih]

/-- Whether two contexts have the same input, as far as likeness can tell. -/
def same (a b : Context) : Bool :=
  withPtrEq a b (fun _ => a.alike b) fun h => h ▸ a.alike_self

/-- A number that contexts with the same input have in common, and that tells most others
    apart. -/
def stamp : Context → UInt64
  | .root => 0
  | .part outer node which => 1000003 * (31 * outer.stamp + which.stamp) + node.stamp

theorem stamp_eq_of_alike {a b : Context} (h : a.alike b = true) : a.stamp = b.stamp := by
  induction a generalizing b with
  | root =>
    cases b with
    | root => rfl
    | part => exact Bool.noConfusion h
  | part outer node which ih =>
    cases b with
    | root => exact Bool.noConfusion h
    | part outer' node' which' =>
      simp only [alike, Bool.and_eq_true, beq_iff_eq] at h
      simp only [stamp, ih h.2, NodeKey.stamp_eq_of_alike h.1.2, h.1.1]

end Context

/-- A subexpression in its input context. -/
structure Site where
  context : Context
  node : NodeKey

namespace Site

def same (a b : Site) : Bool := a.context.same b.context && a.node == b.node

/-- A number that occurrences of one site have in common, and that tells most others
    apart. -/
def stamp (site : Site) : UInt64 := 1000003 * site.context.stamp + site.node.stamp

theorem stamp_eq_of_same {a b : Site} (h : a.same b = true) : a.stamp = b.stamp := by
  simp only [same, Bool.and_eq_true] at h
  simp only [stamp, Context.stamp_eq_of_alike h.1, NodeKey.stamp_eq_of_beq h.2]

end Site

end DataExpr
