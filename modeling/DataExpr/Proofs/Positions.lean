import DataExpr.Expr.Sharing
import DataExpr.Proofs.Subexpressions

/-!
# Positions in an expression

A position is a path from the root: the indices of the children that lead to a subexpression.  A
node that is shared stands at several positions.
-/

namespace DataExpr.Expr

/-- The subexpression at a position. -/
def at? : Expr → List Nat → Option Expr
  | e, [] => some e
  | e, i :: p => e.children[i]?.bind fun c => at? c p

/-- Two positions hold one and the same node. -/
def SharedAt (e : Expr) (p q : List Nat) : Prop :=
  ∃ c d, e.at? p = some c ∧ e.at? q = some d ∧ c.same d = true

variable {c d e : Expr} {p q : List Nat}

@[simp] theorem at?_nil (e : Expr) : e.at? [] = some e := rfl

theorem at?_cons (e : Expr) (i : Nat) (p : List Nat) :
    e.at? (i :: p) = e.children[i]?.bind fun c => c.at? p := rfl

/-- What stands at a position occurs in the expression. -/
theorem within_of_at? (h : e.at? p = some d) : Within d e := by
  induction p generalizing e with
  | nil => exact Option.some.inj h ▸ .refl e
  | cons i p ih =>
    obtain ⟨c, hc, h⟩ := Option.bind_eq_some_iff.mp h
    exact .under (List.mem_of_getElem? hc) (ih h)

/-- What occurs in an expression has a position. -/
theorem exists_at?_of_within (h : Within d e) : ∃ p, e.at? p = some d := by
  induction h with
  | refl => exact ⟨[], rfl⟩
  | under hc _ ih =>
    obtain ⟨i, hi⟩ := List.mem_iff_getElem?.mp hc
    obtain ⟨p, hp⟩ := ih
    exact ⟨i :: p, by rw [at?_cons, hi]; exact hp⟩

theorem Within.sizeOf_le (h : Within d e) : sizeOf d ≤ sizeOf e := by
  induction h with
  | refl => exact Nat.le_refl _
  | under hc _ ih => exact Nat.le_trans ih (Nat.le_of_lt (Expr.sizeOf_lt_of_mem hc))

/-- What occurs in an expression is the expression or a child in it. -/
theorem Within.root_or_child (h : Within d e) :
    d = e ∨ ∃ c, Within c e ∧ d ∈ c.children := by
  induction h with
  | refl => exact .inl rfl
  | under hc _ ih =>
    refine .inr ?_
    rcases ih with rfl | ⟨b, hb, hd⟩
    · exact ⟨_, .refl _, hc⟩
    · exact ⟨b, hb.trans (.child hc), hd⟩

/-! ### Identities at positions -/

/-- The identity of the node at a position. -/
def idAt? (e : Expr) (p : List Nat) : Option Nat := (e.at? p).map id

theorem idAt?_cons (e : Expr) (i : Nat) (p : List Nat) :
    e.idAt? (i :: p) = e.children[i]?.bind fun c => c.idAt? p := by
  rw [idAt?, at?_cons, Option.map_bind]
  rfl

theorem sharedAt_iff : e.SharedAt p q ↔ ∃ i, e.idAt? p = some i ∧ e.idAt? q = some i := by
  constructor
  · rintro ⟨c, d, hc, hd, same⟩
    refine ⟨c.id, by rw [idAt?, hc]; rfl, ?_⟩
    rw [idAt?, hd, show c.id = d.id from eq_of_beq same]
    rfl
  · rintro ⟨i, hp, hq⟩
    obtain ⟨c, hc, rfl⟩ := Option.map_eq_some_iff.mp hp
    obtain ⟨d, hd, same⟩ := Option.map_eq_some_iff.mp hq
    exact ⟨c, d, hc, hd, beq_iff_eq.mpr same.symm⟩

end DataExpr.Expr
