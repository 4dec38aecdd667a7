import DataExpr.Proofs.Subexpressions

/-!
# What the analysis knows comes from somewhere

The analysis of an expression knows of parameters, labels, calls that are not pure, errors and rows
exactly if a node from which the knowledge is passed on has them (`Expr.on_analysis`).

An analyzer that remembers results gives the same as one that does not, as long as one identity
belongs to one expression (`Analyzer.analyze_after`).
-/

namespace DataExpr

/-! ### Expressions -/

namespace Expr

/-- An expression occurs in another one on a way through these parts of nodes. -/
inductive Through (parts : Node Expr → List Expr) : Expr → Expr → Prop
  | refl (e : Expr) : Through parts e e
  | under {d c e : Expr} (hc : c ∈ parts e.node) (h : Through parts d c) : Through parts d e

/-- It occurs outside of the handlers of guarded expressions. -/
abbrev Unhandled : Expr → Expr → Prop := Through Node.unhandled

/-- It occurs outside of the conditions of joins. -/
abbrev BesideRows : Expr → Expr → Prop := Through Node.besideRows

theorem through_children {d e : Expr} : Through Node.children d e ↔ Within d e := by
  constructor
  · intro h
    induction h with
    | refl => exact .refl _
    | under hc _ ih => exact .under hc ih
  · intro h
    induction h with
    | refl => exact .refl _
    | under hc _ ih => exact .under hc ih

theorem Through.cases {parts : Node Expr → List Expr} {d e : Expr} (h : Through parts d e) :
    d = e ∨ ∃ c ∈ parts e.node, Through parts d c := by
  cases h with
  | refl => exact .inl rfl
  | under hc h => exact .inr ⟨_, hc, h⟩

open Analysis (Mark)

/-- **The analysis is exact.**  It has a mark exactly if some expression from which the mark is
    passed on owns it. -/
theorem on_analysis (m : Mark) (e : Expr) (he : e.Analyzed) :
    m.On e.analysis ↔ ∃ d, Through m.parts d e ∧ m.Owns d.node := by
  rw [he.on_iff m]
  constructor
  · rintro (own | ⟨c, hc, hon⟩)
    · exact ⟨e, .refl e, own⟩
    · have hmem := m.mem_children hc
      obtain ⟨d, hd, own⟩ := (on_analysis m c (he.of_child hmem)).1 hon
      exact ⟨d, .under hc hd, own⟩
  · rintro ⟨d, hd, own⟩
    rcases hd.cases with rfl | ⟨c, hc, hd⟩
    · exact .inl own
    · have hmem := m.mem_children hc
      exact .inr ⟨c, hc, (on_analysis m c (he.of_child hmem)).2 ⟨d, hd, own⟩⟩
termination_by sizeOf e
decreasing_by all_goals exact Expr.sizeOf_lt_of_mem hmem

end Expr

/-! ### Analysis with memory -/

/-- From every state of a kind an action gives this value and ends in a state of the kind. -/
def Keeps {τ α : Type} (P : τ → Prop) (x : StateM τ α) (a : α) : Prop :=
  ∀ s, P s → (x.run s).1 = a ∧ P (x.run s).2

namespace Keeps

variable {τ α β ε δ : Type} {P : τ → Prop}

protected theorem pure (a : α) : Keeps P (pure a) a := fun _ h => ⟨rfl, h⟩

theorem bind {x : StateM τ α} {f : α → StateM τ β} {a : α} {b : β} (hx : Keeps P x a)
    (hf : Keeps P (f a) b) : Keeps P (x >>= f) b := by
  intro s hs
  obtain ⟨hvalue, hstate⟩ := hx s hs
  obtain ⟨hvalue', hstate'⟩ := hf _ hstate
  rw [← hvalue] at hvalue' hstate'
  exact ⟨hvalue', hstate'⟩

theorem mapM {f : ε → StateM τ δ} {g : ε → δ} (h : ∀ c, Keeps P (f c) (g c)) (cs : List ε) :
    Keeps P (cs.mapM f) (cs.map g) := by
  induction cs with
  | nil => exact .pure []
  | cons c cs ih =>
    rw [List.mapM_cons]
    exact (h c).bind (ih.bind (.pure _))

variable {f : ε → StateM τ δ} {g : ε → δ} (h : ∀ c, Keeps P (f c) (g c))
include h

theorem traverseOption (o : Option ε) : Keeps P (traverseOption f o) (o.map g) := by
  cases o with
  | none => exact .pure none
  | some c => exact (h c).bind (.pure _)

theorem traversePathStep (step : PathStep ε) : Keeps P (step.traverse f) (step.map g) := by
  cases step with
  | key c => exact (h c).bind (.pure _)
  | attr name => exact .pure _

theorem traverseSortKey (k : SortKey ε) : Keeps P (k.traverse f) (k.map g) :=
  (h k.key).bind (.pure _)

theorem traverseHandler (handler : Handler ε) : Keeps P (handler.traverse f) (handler.map g) :=
  (traverseOption h handler.reraiseIf).bind ((h handler.value).bind (.pure _))

theorem traverseReducer (r : Reducer ε) : Keeps P (r.traverse f) (r.map g) :=
  (traverseOption h r.filter).bind ((mapM h r.args).bind
    ((traverseOption h r.initial).bind ((traverseOption h r.default).bind (.pure _))))

/-- What visits of the parts keep, the visit of a node keeps. -/
theorem traverse (node : Node ε) : Keeps P (node.traverse f) (node.map g) := by
  cases node with
  | input | constant | parameter | labelRef | caught | joinRow => exact .pure _
  | access source path default =>
    exact (h source).bind ((mapM (traversePathStep h) path).bind
      ((traverseOption h default).bind (.pure _)))
  | call _ args | builtin _ args => exact (mapM h args).bind (.pure _)
  | and items | or items | collection _ items => exact (mapM h items).bind (.pure _)
  | dict pairs =>
    have pair (p : ε × ε) : Keeps P (do let k ← f p.1; return (k, ← f p.2)) (g p.1, g p.2) :=
      (h p.1).bind ((h p.2).bind (.pure _))
    exact (mapM pair pairs).bind (.pure _)
  | binary _ a b | pipe a b => exact (h a).bind ((h b).bind (.pure _))
  | unary _ a | label _ a => exact (h a).bind (.pure _)
  | comprehension kind key element source filter =>
    exact (h source).bind ((traverseOption h filter).bind
      ((traverseOption h key).bind ((h element).bind (.pure _))))
  | sort source keys _ =>
    exact (h source).bind ((mapM (traverseSortKey h) keys).bind (.pure _))
  | guarded body handlers =>
    exact (h body).bind ((mapM (traverseHandler h) handlers).bind (.pure _))
  | conditional condition yes no =>
    exact (h condition).bind ((h yes).bind ((h no).bind (.pure _)))
  | reducer r => exact (traverseReducer h r).bind (.pure _)
  | aggregate keys output => exact (mapM h keys).bind ((h output).bind (.pure _))
  | join left right condition _ =>
    exact (h left).bind ((h right).bind ((traverseOption h condition).bind (.pure _)))

end Keeps

namespace Analyzer

/-- One identity belongs to one expression, in all of several expressions. -/
def CoherentAll (roots : List Expr) : Prop :=
  ∀ c d, (∃ e ∈ roots, Expr.Within c e) → (∃ e ∈ roots, Expr.Within d e) → c.id = d.id → c = d

/-- What is remembered of the nodes of some expressions is their analysis. -/
def Faithful (roots : List Expr) (known : Analyzer) : Prop :=
  ∀ d, (∃ e ∈ roots, Expr.Within d e) → ∀ result, known.get? d.id = some result →
    result = d.analyze

variable {roots : List Expr}

theorem Faithful.nil : Faithful roots [] := fun _ _ _ h => by cases h

theorem Faithful.cons (coherent : CoherentAll roots) {known : Analyzer}
    (faithful : Faithful roots known) {e : Expr} (he : ∃ r ∈ roots, Expr.Within e r) :
    Faithful roots ((e.id, e.analyze) :: known) := by
  intro d hd result h
  by_cases same : e.id = d.id
  · obtain rfl := coherent e d he hd same
    simpa [get?] using h.symm
  · exact faithful d hd result (by simpa [get?, same] using h)

/-- An analyzer that remembers what it met gives the analysis and goes on remembering that. -/
theorem keeps_analyze (coherent : CoherentAll roots) (e : Expr)
    (he : ∃ r ∈ roots, Expr.Within e r) : Keeps (Faithful roots) (analyze e) e.analyze := by
  have parts : Keeps (Faithful roots) (e.node.attach.traverse fun c => analyze c.1)
      (e.node.attach.map fun c => c.1.analyze) := by
    apply Keeps.traverse
    rintro ⟨c, hc⟩
    apply keeps_analyze coherent c
    obtain ⟨r, hr, hwithin⟩ := he
    exact ⟨r, hr, .trans (.child hc) hwithin⟩
  intro known faithful
  cases hknown : known.get? e.id with
  | some result =>
    have run : (analyze e).run known = (result, known) := by
      rw [analyze, StateT.run_bind, StateT.run_get, pure_bind, hknown]
      rfl
    rw [run]
    exact ⟨faithful e he result hknown, faithful⟩
  | none =>
    obtain ⟨hvalue, hstate⟩ := parts known faithful
    have run : (analyze e).run known =
        (e.analyze, (e.id, e.analyze) ::
          ((e.node.attach.traverse fun c => analyze c.1).run known).2) := by
      rw [analyze, Expr.analyze, ← hvalue, StateT.run_bind, StateT.run_get, pure_bind, hknown]
      rfl
    rw [run]
    exact ⟨rfl, hstate.cons coherent he⟩
termination_by sizeOf e
decreasing_by exact Expr.sizeOf_lt_of_mem hc

/-- What an analyzer remembers after it has met these expressions, one after the other. -/
def after (met : List Expr) : Analyzer :=
  met.foldl (fun known e => ((analyze e).run known).2) []

theorem faithful_foldl (coherent : CoherentAll roots) (met : List Expr) (hmet : met ⊆ roots)
    {known : Analyzer} (faithful : Faithful roots known) :
    Faithful roots (met.foldl (fun known e => ((analyze e).run known).2) known) := by
  induction met generalizing known with
  | nil => exact faithful
  | cons e met ih =>
    obtain ⟨he, hmet⟩ := List.cons_subset.1 hmet
    exact ih hmet (keeps_analyze coherent e ⟨e, he, .refl e⟩ known faithful).2

/-- **What was analyzed before makes no difference.** -/
theorem analyze_after (met : List Expr) (e : Expr) (coherent : CoherentAll (e :: met)) :
    ((analyze e).run (after met)).1 = e.analyze := by
  have faithful : Faithful (e :: met) (after met) :=
    faithful_foldl coherent met (List.subset_cons_self e met) .nil
  exact (keeps_analyze coherent e ⟨e, List.mem_cons_self, .refl e⟩ _ faithful).1

end Analyzer

/-! ### Exactness -/

/-- A node invokes a function of the host: it calls it, or folds with it. -/
def Node.Invokes {ε : Type} (f : Function) : Node ε → Prop
  | .call g _ => g = f
  | .reducer r => r.kind = .reduce f
  | _ => False

namespace Expr

open Analysis (Mark)

/-- **The analysis knows what occurs, and nothing else.**  Of the functions that reducers fold with
    it takes no notice, so it is exact about side effects as far as these are pure. -/
theorem analyze_exact {e : Expr} {a : Analysis} (h : e.analyze = .ok a) :
    (∀ n, n ∈ a.params ↔ ∃ d, Within d e ∧ d.node = .parameter n) ∧
    (∀ n, n ∈ a.labelsRead ↔ ∃ d, Within d e ∧ d.node = .labelRef n) ∧
    (∀ n, n ∈ a.labelsWritten ↔ ∃ d, Within d e ∧ ∃ c, d.node = .label n c) ∧
    (a.impure = true ↔ ∃ d, Within d e ∧ ∃ f args, d.node = .call f args ∧ f.isPure = false) ∧
    ((∀ d, Within d e → ∀ r f, d.node = .reducer r → r.kind = .reduce f → f.isPure = true) →
      (a.impure = true ↔ ∃ d, Within d e ∧ ∃ f, d.node.Invokes f ∧ f.isPure = false)) ∧
    (a.readsCaught = true ↔ ∃ d, Unhandled d e ∧ d.node = .caught) ∧
    (a.sides.left = true ↔ ∃ d, BesideRows d e ∧ d.node = .joinRow .left) ∧
    (a.sides.right = true ↔ ∃ d, BesideRows d e ∧ d.node = .joinRow .right) ∧
    ∀ met, Analyzer.CoherentAll (e :: met) →
      ((Analyzer.analyze e).run (Analyzer.after met)).1 = .ok a := by
  obtain ⟨he, rfl⟩ := analyzed_of_ok h
  -- A mark that goes through every child is on when some subexpression owns it.
  have within (m : Mark) (parts : ∀ node : Node Expr, m.parts node = node.children) :
      m.On e.analysis ↔ ∃ d, Within d e ∧ m.Owns d.node := by
    simp only [on_analysis m e he, funext parts, through_children]
  have called : e.analysis.impure = true ↔
      ∃ d, Within d e ∧ ∃ f args, d.node = .call f args ∧ f.isPure = false :=
    within .impure fun _ => rfl
  refine ⟨fun n => within (.param n) fun _ => rfl, fun n => within (.labelRead n) fun _ => rfl,
    fun n => within (.labelWritten n) fun _ => rfl, called, fun pure => ?_,
    on_analysis .caught e he, on_analysis .left e he, on_analysis .right e he, ?_⟩
  · refine called.trans (exists_congr fun d => and_congr_right fun hd => ?_)
    -- With pure folds only a call invokes a function that is not pure.
    constructor
    · rintro ⟨f, args, hnode, himpure⟩
      exact ⟨f, by rw [hnode]; rfl, himpure⟩
    · rintro ⟨f, hinvokes, himpure⟩
      cases hnode : d.node with
      | call g args =>
        rw [hnode] at hinvokes
        obtain rfl : g = f := hinvokes
        exact ⟨g, args, rfl, himpure⟩
      | reducer r =>
        rw [hnode] at hinvokes
        simp [pure d hd r f hnode hinvokes] at himpure
      | _ =>
        rw [hnode] at hinvokes
        exact hinvokes.elim
  · intro met coherent
    rw [Analyzer.analyze_after met e coherent, h]

/-- A call whose error is read in a handler, with a parameter as its argument. -/
def guardedCall (f : Function) : Expr :=
  .mk 0 (.guarded (.mk 1 (.call f [.mk 2 (.parameter "p")])) [⟨[], .mk 3 .caught, none⟩])

/-- The handler keeps the error to itself; the call is known as that of an impure function. -/
theorem analyze_exact_guardedCall : ∃ a, (guardedCall ⟨7, "f", false⟩).analyze = .ok a ∧
    (a.impure = true ↔ ∃ d, Within d (guardedCall ⟨7, "f", false⟩) ∧
      ∃ f args, d.node = .call f args ∧ f.isPure = false) ∧
    (a.readsCaught = true ↔
      ∃ d, Unhandled d (guardedCall ⟨7, "f", false⟩) ∧ d.node = .caught) := by
  have analyzed : (guardedCall ⟨7, "f", false⟩).analyze.toOption.isSome = true := by decide +kernel
  cases h : (guardedCall ⟨7, "f", false⟩).analyze with
  | error e =>
    rw [h] at analyzed
    cases analyzed
  | ok a =>
    obtain ⟨-, -, -, called, -, caught, -⟩ := analyze_exact h
    exact ⟨a, rfl, called, caught⟩

/-- A fold of the rows with a function. -/
def folded (f : Function) : Expr :=
  .mk 0 (.aggregate [] (.mk 1 (.reducer ⟨.reduce f, [.mk 2 .input], none, none, none⟩)))

/-- Of the function that a reducer folds with the analysis takes no notice. -/
theorem analyze_folded :
    (∃ d, Within d (folded ⟨7, "f", false⟩) ∧ ∃ f, d.node.Invokes f ∧ f.isPure = false) ∧
      ((folded ⟨7, "f", false⟩).analyze.toOption.map Analysis.impure) = some false := by
  constructor
  · exact ⟨_, .child List.mem_cons_self, _, rfl, rfl⟩
  · decide +kernel

end Expr
end DataExpr
