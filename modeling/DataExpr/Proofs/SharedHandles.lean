import DataExpr.Proofs.IdentityFree
import Mathlib.Data.Set.Function

/-!
# Shared handles

Whether two nodes of an expression are one handle or two copies matters to lowering only where it
knows them by their identity.  Copies without effects that read neither labels nor the error that
is being handled can be merged into one handle, and one such handle can be split into copies: the
program stays the same, or the error with which the expression does not compile
(`ofExpr_rename_of_injOn`).  Handles that set labels are different: a repetition is checked against
what was found at the first occurrence, not against the labels that are set where it stands
(`setAndRead_shared`).
-/

namespace DataExpr

namespace Expr

/-- The identities by which lowering knows what is in an expression. -/
def knownIds (e : Expr) : Set Nat := {i | ∃ c, Within c e ∧ c.KnownById ∧ c.id = i}

open Classical in
/-- A renaming with its values doubled where it matters, and all other identities in between. -/
noncomputable def spread (f : Nat → Nat) (e : Expr) (i : Nat) : Nat :=
  if i ∈ e.knownIds then 2 * f i else 2 * i + 1

variable {f : Nat → Nat} {e : Expr}

theorem spread_injective (hf : Set.InjOn f e.knownIds) : (e.spread f).Injective := by
  intro i j h
  unfold spread at h
  by_cases hi : i ∈ e.knownIds
  · by_cases hj : j ∈ e.knownIds
    · rw [if_pos hi, if_pos hj] at h
      exact hf hi hj (by omega)
    · rw [if_pos hi, if_neg hj] at h
      omega
  · by_cases hj : j ∈ e.knownIds
    · rw [if_neg hi, if_pos hj] at h
      omega
    · rw [if_neg hi, if_neg hj] at h
      omega

end Expr

/-- A renaming that keeps apart the identities by which lowering knows what is in an expression,
    with its values doubled. -/
noncomputable def Relabeling.ofInjOn {f : Nat → Nat} {e : Expr} (hf : Set.InjOn f e.knownIds) :
    Relabeling where
  label c := if c.KnownById then e.spread f c.id else 2 * f c.id
  ids := e.spread f
  injective := Expr.spread_injective hf
  label_eq _ known := if_pos known

variable {f : Nat → Nat} {e : Expr}

theorem Expr.relabel_ofInjOn (hf : Set.InjOn f e.knownIds) :
    e.relabel (Relabeling.ofInjOn hf).label = (e.rename f).rename (2 * ·) := by
  rw [rename_rename, rename_apply]
  apply relabel_congr e
  intro c hc
  by_cases known : c.KnownById
  · have mem : c.id ∈ e.knownIds := ⟨c, hc, known, rfl⟩
    simp only [Relabeling.ofInjOn, spread, if_pos known, if_pos mem]
  · simp only [Relabeling.ofInjOn, if_neg known]

namespace Program

/-- **Sharing does not matter where nothing is known by identity.**  When copies in an expression
are merged into one handle, and those that lowering knows by their identity are kept apart, the
expression has the same program or fails with the same error. -/
theorem ofExpr_rename_of_injOn (hf : Set.InjOn f e.knownIds) (signature : Signature)
    (threshold : Weight.Threshold) :
    Program.ofExpr (e.rename f) signature threshold = Program.ofExpr e signature threshold := by
  have double : (fun i : Nat => 2 * i).Injective := fun i j h => by
    dsimp only at h
    omega
  calc Program.ofExpr (e.rename f) signature threshold
      = Program.ofExpr ((e.rename f).rename (2 * ·)) signature threshold :=
        (ofExpr_rename double _ signature threshold).symm
    _ = Program.ofExpr (e.relabel (Relabeling.ofInjOn hf).label) signature threshold := by
        rw [Expr.relabel_ofInjOn]
    _ = Program.ofExpr e signature threshold := ofExpr_relabel _ e signature threshold

/-- A label that is set to the double of the input and read, and the double once more. -/
def doubles : Expr :=
  .mk 0 (.collection .tuple
    [.mk 1 (.label "x" (.mk 2 (.binary .add (.mk 3 .input) (.mk 3 .input)))), .mk 4 (.labelRef "x"),
      .mk 5 (.binary .add (.mk 6 .input) (.mk 7 .input))])

/-- The two doubles as one handle. -/
def oneDouble (i : Nat) : Nat :=
  if i = 5 then 2 else if 6 ≤ i then 3 else i

theorem knownIds_doubles : doubles.knownIds ⊆ {0, 1, 4} := by
  have known : ∀ c, Expr.Within c doubles → c.KnownById → c.id ∈ [0, 1, 4] := by
    simp only [doubles, Expr.forall_within_mk, Node.children, List.forall_mem_cons,
      List.not_mem_nil, false_implies, implies_true, and_true]
    decide +kernel
  rintro i ⟨c, hc, hknown, rfl⟩
  simpa using known c hc hknown

theorem ofExpr_rename_doubles :
    Set.InjOn oneDouble doubles.knownIds ∧
      Program.ofExpr (doubles.rename oneDouble) [] Weight.bindingThreshold =
        Program.ofExpr doubles [] Weight.bindingThreshold ∧
      (Program.ofExpr doubles [] Weight.bindingThreshold).isOk = true := by
  have apart : Set.InjOn oneDouble {0, 1, 4} := by
    intro i hi j hj
    simp only [Set.mem_insert_iff, Set.mem_singleton_iff] at hi hj
    rcases hi with rfl | rfl | rfl <;> rcases hj with rfl | rfl | rfl <;> decide
  have apart := apart.mono knownIds_doubles
  exact ⟨apart, ofExpr_rename_of_injOn apart [] Weight.bindingThreshold, by decide +kernel⟩

/-- A label that is set and then read. -/
def setAndRead (i : Nat) : Expr :=
  .mk i (.collection .tuple
    [.mk (i + 1) (.label "x" (.mk (i + 2) (.constant (.int 1)))), .mk (i + 3) (.labelRef "x")])

/-- The label set and read in both branches of a conditional. -/
def eitherWay (yes no : Nat) : Expr :=
  .mk 0 (.conditional (.mk 1 (.parameter "f")) (setAndRead yes) (setAndRead no))

/-- Two copies that set a label and then read it compile where one handle does not: its second
    occurrence is told that it reads the label, and not that it sets it first. -/
theorem setAndRead_shared :
    (eitherWay 2 6).rename (fun i => if 6 ≤ i then i - 4 else i) = eitherWay 2 2 ∧
      (match Program.ofExpr (eitherWay 2 6) [] Weight.bindingThreshold,
          Program.ofExpr (eitherWay 2 2) [] Weight.bindingThreshold with
        | .ok _, .error err => decide (err = .unresolvedLabel "x")
        | _, _ => false) = true := by
  constructor
  · simp [eitherWay, setAndRead, Expr.rename_eq, Node.map, Expr.id, Expr.node]
  · decide +kernel

end Program
end DataExpr
