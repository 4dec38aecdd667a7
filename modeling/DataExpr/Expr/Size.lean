import DataExpr.Expr.Equality

/-!
# Size of expressions

Expressions of different sizes have different structures (`size_eq_of_sameBy`), so that
sizes serve to look expressions up.
-/

namespace DataExpr.Expr

/-- The number of nodes of an expression, in which a shared subexpression counts at each
    use.  It wraps around as a word. -/
def size (e : Expr) : UInt64 := e.children.attach.foldr (fun c n => size c.1 + n) 1
termination_by sizeOf e
decreasing_by exact Expr.sizeOf_lt_of_mem c.2

theorem size_eq (e : Expr) : e.size = e.children.foldr (fun c n => c.size + n) 1 := by
  rw [size]
  exact List.foldr_attach (f := fun c n => size c + n)

theorem foldr_size_eq_of_zipList {p : Expr → Expr → Bool} {es fs : List Expr}
    (hp : ∀ e ∈ es, ∀ f, p e f = true → e.size = f.size) (h : zipList p es fs = true) :
    es.foldr (fun c n => c.size + n) 1 = fs.foldr (fun c n => c.size + n) 1 := by
  induction es generalizing fs with
  | nil => cases fs <;> simp_all [zipList]
  | cons e es ih =>
    cases fs with
    | nil => simp_all [zipList]
    | cons f fs =>
      simp only [zipList, Bool.and_eq_true] at h
      simp only [List.foldr_cons, hp e List.mem_cons_self f h.1,
        ih (fun x hx => hp x (List.mem_cons_of_mem e hx)) h.2]

/-- Expressions of the same structure have the same size. -/
theorem size_eq_of_sameBy {constants : Value → Value → Bool} {e f : Expr}
    (h : sameBy constants e f = true) : e.size = f.size := by
  rw [sameBy_eq] at h
  rw [size_eq e, size_eq f]
  exact foldr_size_eq_of_zipList (fun c hc d hd => size_eq_of_sameBy hd) (Node.zip_children h)
termination_by sizeOf e
decreasing_by exact Expr.sizeOf_lt_of_mem hc

end DataExpr.Expr
