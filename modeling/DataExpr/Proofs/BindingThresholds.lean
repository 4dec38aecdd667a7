import DataExpr.Proofs.ProgramMeaning

/-!
# Thresholds of binding

The threshold decides which repeated subexpressions are bound, and thereby which operations are
evaluated how often.  The results of a program do not tell (`Program.call_threshold`).
-/

namespace DataExpr

open Eval Lowering

namespace Program

variable {σ τ : Type} {S : Semantics} {host : Host σ} {host' : Host τ} {r : Registry} {e : Expr}
  {t u : Weight.Threshold} {program other : Program} {params params' : Params}

/-- **What is bound makes no difference.**  Programs of an expression with two thresholds give the
    same results. -/
theorem call_threshold (hS : S.Describes host) (hS' : S.Describes host') (he : e.Tame r)
    {param : String → Value} (h : OfPart e t param program params)
    (h' : OfPart e u param other params') (input : Value) (state : σ) (state' : τ) :
    (program.call host input params state).1 = (other.call host' input params' state').1 := by
  rw [h.call_eq_meaning hS he, h'.call_eq_meaning hS' he]

/-- The reciprocal of the input, twice. -/
def twoReciprocals : Expr := .mk 0 (.collection .tuple [quotient, quotient])

theorem tame_twoReciprocals (r : Registry) : twoReciprocals.Tame r := by
  have nodes : ∀ d, Expr.Within d twoReciprocals →
      (∀ keys output, d.node ≠ .aggregate keys output) ∧ d.node.Exact r ∧
        (∀ s, d.node ≠ .reducer s) ∧ ∀ p c, d.node ≠ .pipe p c := by
    simp [twoReciprocals, quotient, Expr.forall_within_mk, Node.children, Expr.node, Node.Exact,
      Value.Exact]
  exact ⟨exists_of_isSome (by decide +kernel),
    Expr.candid_of_noAggregate fun d hd => (nodes d hd).1,
    fun d hd => (nodes d hd).2.1, by decide +kernel, by decide +kernel,
    fun d hd s hs => absurd hs ((nodes d hd).2.2.1 s), fun d hd => (nodes d hd).2.2.2⟩

/-- The one program has a slot for the reciprocal and the other one computes it twice. -/
theorem call_threshold_twoReciprocals : ∃ program other,
    Program.ofExpr twoReciprocals [] (.ofFloat 0) = .ok program ∧
      Program.ofExpr twoReciprocals [] (.ofFloat 1e9) = .ok other ∧
        program.layout.slots = other.layout.slots + 1 ∧
          (program.call Host.none (.int 2) .none ()).1 =
            (other.call Host.none (.int 2) .none ()).1 := by
  obtain ⟨program, h⟩ := exists_of_isSome
    (r := Program.ofExpr twoReciprocals [] (.ofFloat 0)) (by decide +kernel)
  obtain ⟨other, h'⟩ := exists_of_isSome
    (r := Program.ofExpr twoReciprocals [] (.ofFloat 1e9)) (by decide +kernel)
  have facts : ((Program.ofExpr twoReciprocals [] (.ofFloat 0)).toOption.map fun p =>
      (p.params.isEmpty, p.layout.slots)) = some (true, 1) := by decide +kernel
  have facts' : ((Program.ofExpr twoReciprocals [] (.ofFloat 1e9)).toOption.map fun p =>
      (p.params.isEmpty, p.layout.slots)) = some (true, 0) := by decide +kernel
  rw [h] at facts
  rw [h'] at facts'
  obtain ⟨hempty, slots⟩ := Prod.mk.inj (Option.some.inj facts)
  obtain ⟨hempty', slots'⟩ := Prod.mk.inj (Option.some.inj facts')
  have hnone := List.isEmpty_iff.mp hempty
  have hnone' := List.isEmpty_iff.mp hempty'
  refine ⟨program, other, h, h', slots.trans (congrArg (· + 1) slots'.symm), ?_⟩
  exact call_threshold describes_none describes_none
    (tame_twoReciprocals ⟨fun i => ⟨i, "", true⟩, fun _ => ("", [])⟩)
    ⟨⟨[], h⟩, [], bind_closed hnone, fun n _ => rfl⟩
    ⟨⟨[], h'⟩, [], bind_closed hnone', fun n _ => by rw [hnone, hnone']⟩ (.int 2) () ()

/-- Two handlers, each with the message of the error that it handles, by way of a reducer in another
    handler. -/
def twoErrors : Expr :=
  .mk 0 (.collection .tuple [itemOrError 10 "x",
    .mk 1 (.guarded (.mk 2 (.binary .div (.mk 3 (.constant (.int 1)))
      (.mk 4 (.constant (.int 0))))) [⟨[], outerError 30, none⟩])])

/-- The threshold decides which error is read. -/
theorem twoErrors_bound :
    (match Program.ofExpr twoErrors [] (.ofFloat 0), Program.ofExpr twoErrors [] (.ofFloat 1e9) with
      | .ok program, .ok other =>
        match (program.call Host.none (.list [.int 1]) .none ()).1,
          (other.call Host.none (.list [.int 1]) .none ()).1 with
        | .ok (.tuple [v, w]), .ok (.tuple [v', w']) => v == w && v == v' && !(v' == w')
        | _, _ => false
      | _, _ => false) = true := by
  decide +kernel

end Program
end DataExpr
