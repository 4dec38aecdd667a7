import DataExpr.Proofs.ProgramMeaning

/-!
# Programs with pipes

A producer is computed at each use of the consumer's input, or once before the consumer.  What is
bound for a consumer does not tell which of the two it is, so the bindings of two pipes with equal
producers are confused if one producer is computed in the first way and the other in the second.  In
a regular expression equal producers are computed in one way, and its program computes what the
expression means (`Program.call_eq_of_regular`).  It follows that a branch of a conditional gives
what its own program gives (`Program.call_branch`), and that a pipe is composition, as far as the
producer does not fail (`Program.call_pipe`).
-/

namespace DataExpr

open Eval Lowering

variable {σ : Type}

/-! ### Regular expressions -/

/-- A mild expression in which no producer of a pipe reads the error that is handled, and equal
    producers are all computed at each use of the input or all computed once. -/
structure Expr.Regular (r : Registry) (threshold : Weight.Threshold) (e : Expr) : Prop
    extends e.Mild r where
  uncaught : ∀ d, Within d e → ∀ p c, d.node = .pipe p c → p.analysis.readsCaught = false
  oneWay : ∀ d, Within d e → ∀ p c, d.node = .pipe p c →
    ∀ d', Within d' e → ∀ p' c', d'.node = .pipe p' c' → (p == p') = true →
      inlines threshold p c = inlines threshold p' c'

/-- The semantics in which pipes compute their producers as lowering decides. -/
def Semantics.lowered (S : Semantics) (threshold : Weight.Threshold) : Semantics where
  function := S.function
  inlines := Lowering.inlines threshold
  inlines_rename f p c := by simp only [Lowering.inlines, Expr.analysis_rename]

namespace Expr

variable {r : Registry} {threshold : Weight.Threshold} {d e : Expr}

theorem Regular.within (h : e.Regular r threshold) (hd : Within d e) : d.Regular r threshold where
  toMild := h.toMild.within hd
  uncaught c hc := h.uncaught c (hc.trans hd)
  oneWay c hc p q hnode c' hc' := h.oneWay c (hc.trans hd) p q hnode c' (hc'.trans hd)

/-- A producer like this one is computed at each use of the input. -/
def Inlined (threshold : Weight.Threshold) (e p : Expr) : Prop :=
  ∃ d p' c, Within d e ∧ d.node = .pipe p' c ∧ p'.rename (fun _ => 0) = p.rename (fun _ => 0) ∧
    inlines threshold p' c = true

theorem inlined_rename (f : Nat → Nat) (p : Expr) :
    Inlined threshold e (p.rename f) ↔ Inlined threshold e p := by
  simp only [Inlined, rename_rename]

/-- A producer of a regular expression is computed like any other one that is like it. -/
theorem Regular.inlined_iff (h : e.Regular r threshold) {p c : Expr} (hd : Within d e)
    (hnode : d.node = .pipe p c) : Inlined threshold e p ↔ inlines threshold p c = true := by
  constructor
  · rintro ⟨d', p', c', hd', hnode', hsame, mode⟩
    have equal : (p == p') = true := by
      rw [← beq_rename_left (fun _ => 0), ← beq_rename_right (fun _ => 0), hsame]
      exact beq_self _
    rw [h.oneWay d hd p c hnode d' hd' p' c' hnode' equal]
    exact mode
  · exact fun mode => ⟨d, p, c, hd, hnode, rfl, mode⟩

end Expr

namespace Program

variable {S : Semantics} {host : Host σ} {r : Registry} {e c yes no : Expr}
  {signature : Signature} {threshold : Weight.Threshold} {program : Program} {params : Params}
  {values : List Value}

open Classical in
/-- **A program with pipes computes what its expression means**, as far as equal producers are
    computed in one way. -/
theorem call_eq_of_regular (hS : S.Describes host) (he : e.Regular r threshold)
    (h : Program.ofExpr e signature threshold = .ok program) (input : Value) (params : Params)
    (state : σ) :
    (program.call host input params state).1 = (do
      let values ← program.params.bind params
      e.meaning (S.lowered threshold) (.start input (program.params.valueOf values))) := by
  rw [call_fst]
  refine bind_congr fun values => ?_
  let X : Execution σ := .ofProgram (S := S.lowered threshold) hS program values r threshold
    (fun p => decide (Expr.Inlined threshold e p)) fun f p => by simp only [Expr.inlined_rename]
  have mode (d : Expr) (hd : Expr.Within d e) (p c : Expr) (hnode : d.node = .pipe p c) :
      inlines threshold p c = X.inline p := by
    rw [Bool.eq_iff_iff, ← he.inlined_iff hd hnode]
    exact (decide_eq_true_iff).symm
  have orderly : X.Orderly e := ⟨he.toMild, he.uncaught, mode, mode⟩
  obtain ⟨roles, unkept, body⟩ := body_yields X orderly h rfl input
  exact (body _ (unkept.holds rfl trivial)).1

/-- The program of a part of an expression computes what this part means, given the same values of
    the parameters that it mentions. -/
theorem call_part (hS : S.Describes host) (he : e.Regular r threshold)
    (h : Program.ofExpr e signature threshold = .ok program)
    (hvalues : program.params.bind params = .ok values) {param : String → Value}
    (agree : ∀ n, e.Mentions n → program.params.valueOf values n = param n) (input : Value)
    (state : σ) :
    (program.call host input params state).1 =
      e.meaning (S.lowered threshold) (.start input param) := by
  rw [call_eq_of_regular hS he h, hvalues]
  exact (Expr.meaning_withParam (s := .start input (program.params.valueOf values)) e he.analyzed
    he.candid fun n hn => (agree n hn).symm).symm

theorem OfPart.call_eq {param : String → Value} (h : OfPart e threshold param program params)
    (hS : S.Describes host) (he : e.Regular r threshold) (input : Value) (state : σ) :
    (program.call host input params state).1 =
      e.meaning (S.lowered threshold) (.start input param) := by
  obtain ⟨⟨signature, compiled⟩, values, accepted, agree⟩ := h
  exact call_part hS he compiled accepted agree input state

/-! ### Branches -/

/-- **A branch means the same in a conditional as alone.**  The program of a conditional on a
    parameter gives what the program of the taken branch gives on the same input and the same
    parameters, whatever the two branches share, as far as equal producers are computed in one way
    in both. -/
theorem call_branch (hS : S.Describes host) (he : e.Regular r threshold) {flag : String}
    (hnode : e.node = .conditional c yes no) (hflag : c.node = .parameter flag)
    (h : Program.ofExpr e signature threshold = .ok program)
    (hvalues : program.params.bind params = .ok values)
    {signature₁ signature₂ : Signature} {first second : Program} {params₁ params₂ : Params}
    {values₁ values₂ : List Value}
    (hfirst : Program.ofExpr yes signature₁ threshold = .ok first)
    (hvalues₁ : first.params.bind params₁ = .ok values₁)
    (agree₁ : ∀ n, yes.Mentions n →
      first.params.valueOf values₁ n = program.params.valueOf values n)
    (hsecond : Program.ofExpr no signature₂ threshold = .ok second)
    (hvalues₂ : second.params.bind params₂ = .ok values₂)
    (agree₂ : ∀ n, no.Mentions n →
      second.params.valueOf values₂ n = program.params.valueOf values n)
    (input : Value) (state : σ) :
    (program.call host input params state).1 =
      if (program.params.valueOf values flag).isTruthy
      then (first.call host input params₁ state).1
      else (second.call host input params₂ state).1 := by
  have hyes : Expr.Within yes e := .child (by simp [Expr.children, hnode, Node.children])
  have hno : Expr.Within no e := .child (by simp [Expr.children, hnode, Node.children])
  rw [call_part hS (he.within hyes) hfirst hvalues₁ agree₁,
    call_part hS (he.within hno) hsecond hvalues₂ agree₂, call_eq_of_regular hS he h, hvalues]
  change e.meaning (S.lowered threshold) (.start input (program.params.valueOf values)) = _
  rw [Expr.meaning_conditional rfl hnode, Expr.meaning_parameter rfl hflag]
  rfl

/-- An expression is regular if nothing in it reads an error or the rows of a join, there are no
    effects and folds with functions of the host, and all producers are computed in one way. -/
theorem regular_of_unread {mode : Bool} (analyzed : e.Analyzed)
    (effects : e.analysis.hasSideEffects = false) (labels : e.analysis.readsLabels = false)
    (reads : ∀ d, Expr.Within d e →
      d.analysis.readsCaught = false ∧ d.analysis.sides = ⟨false, false⟩)
    (nodes : ∀ d, Expr.Within d e → d.node.Exact r ∧ ∀ s, d.node ≠ .reducer s)
    (modes : ∀ d, Expr.Within d e → ∀ p c, d.node = .pipe p c → inlines threshold p c = mode) :
    e.Regular r threshold where
  analyzed := analyzed
  candid := Expr.candid_of_unread reads
  exact d hd := (nodes d hd).1
  effects := effects
  labels := labels
  reduces d hd s hs := absurd hs ((nodes d hd).2 s)
  uncaught d hd p c hnode := by
    have hp : Expr.Within p d := .child (by simp [Expr.children, hnode, Node.children])
    exact (reads p (hp.trans hd)).1
  oneWay d hd p c hnode d' hd' p' c' hnode' _ :=
    (modes d hd p c hnode).trans (modes d' hd' p' c' hnode').symm

/-- An expression with this program, whose parameters have no defaults. -/
theorem exists_required {e : Expr} (names : List String)
    (h : ((Program.ofExpr e [] Weight.bindingThreshold).toOption.map fun program =>
      program.params.names == names && program.params.all (·.default.isNone)) = some true) :
    ∃ program, Program.ofExpr e [] Weight.bindingThreshold = .ok program ∧
      program.params = names.map (⟨·, none⟩) := by
  cases hprogram : Program.ofExpr e [] Weight.bindingThreshold with
  | error err =>
    rw [hprogram] at h
    cases h
  | ok program =>
    rw [hprogram] at h
    have both := Option.some.inj h
    rw [Bool.and_eq_true, beq_iff_eq, List.all_eq_true] at both
    obtain ⟨rfl, hdefault⟩ := both
    refine ⟨program, rfl, ?_⟩
    rw [Signature.names, List.map_map]
    have same : program.params.map id =
        program.params.map ((⟨·, none⟩) ∘ ParamSpec.name) := by
      apply List.map_congr_left
      rintro ⟨name, default⟩ hmem
      obtain rfl := Option.isNone_iff_eq_none.mp (hdefault _ hmem)
      rfl
    rwa [List.map_id] at same

/-- The input and two more. -/
def plusTwo (i : Nat) : Expr :=
  .mk i (.binary .add (.mk (i + 1) (.binary .add (.mk (i + 2) .input)
    (.mk (i + 3) (.constant (.int 1))))) (.mk (i + 4) (.constant (.int 1))))

/-- The input by twenty. -/
def byTwenty (i : Nat) : Expr :=
  .mk i (.binary .mul (.mk (i + 1) (.binary .mul (.mk (i + 2) (.binary .mul
    (.mk (i + 3) .input) (.mk (i + 4) (.constant (.int 10)))))
    (.mk (i + 5) (.constant (.int 2))))) (.mk (i + 6) (.constant (.int 1))))

/-- The input by twenty, and one more. -/
def byTwentyAndOne : Expr := .mk 50 (.binary .add (byTwenty 40) (.mk 51 (.constant (.int 1))))

/-- The input and two more by twenty. -/
def twoByTwenty : Expr := .mk 2 (.pipe (plusTwo 10) (byTwenty 20))

/-- What the consumer makes of the input and two more. -/
def twoInto (consumer : Expr) : Expr := .mk 3 (.pipe (plusTwo 30) consumer)

/-- One of the two, as the parameter says. -/
def twentyOr (consumer : Expr) : Expr :=
  .mk 0 (.conditional (.mk 1 (.parameter "f")) twoByTwenty (twoInto consumer))

theorem regular_twentyOr (r : Registry) :
    (twentyOr byTwentyAndOne).Regular r Weight.bindingThreshold := by
  have reads : ∀ d, Expr.Within d (twentyOr byTwentyAndOne) →
      d.analysis.readsCaught = false ∧ d.analysis.sides = ⟨false, false⟩ := by
    simp only [twentyOr, twoByTwenty, twoInto, plusTwo, byTwenty, byTwentyAndOne,
      Expr.forall_within_mk, Node.children, List.forall_mem_cons, List.not_mem_nil, false_imp_iff,
      implies_true, and_true]
    decide +kernel
  have nodes : ∀ d, Expr.Within d (twentyOr byTwentyAndOne) →
      d.node.Exact r ∧ ∀ s, d.node ≠ .reducer s := by
    simp [twentyOr, twoByTwenty, twoInto, plusTwo, byTwenty, byTwentyAndOne,
      Expr.forall_within_mk, Node.children, Expr.node, Node.Exact, Value.Exact]
  have modes : ∀ d, Expr.Within d (twentyOr byTwentyAndOne) → ∀ p c, d.node = .pipe p c →
      inlines Weight.bindingThreshold p c = true := by
    simp [twentyOr, twoByTwenty, twoInto, plusTwo, byTwenty, byTwentyAndOne,
      Expr.forall_within_mk, Node.children, Expr.node]
    decide +kernel
  exact regular_of_unread (exists_of_isSome (by decide +kernel)) (by decide +kernel)
    (by decide +kernel) reads nodes modes

/-- The two pipes mention no parameters. -/
theorem not_mentions_pipes {x : Expr} {n : String}
    (hx : Expr.Within x twoByTwenty ∨ Expr.Within x (twoInto byTwentyAndOne)) : ¬x.Mentions n := by
  have first : ∀ d, Expr.Within d twoByTwenty → ∀ n, d.node ≠ .parameter n := by
    simp [twoByTwenty, plusTwo, byTwenty, Expr.forall_within_mk, Node.children, Expr.node]
  have second : ∀ d, Expr.Within d (twoInto byTwentyAndOne) → ∀ n, d.node ≠ .parameter n := by
    simp [twoInto, plusTwo, byTwenty, byTwentyAndOne, Expr.forall_within_mk, Node.children,
      Expr.node]
  rintro ⟨d, hd, hnode⟩
  rcases hx with hx | hx
  · exact first d (hd.trans hx) n hnode
  · exact second d (hd.trans hx) n hnode

theorem call_branch_twentyOr : ∃ program first second,
    Program.ofExpr (twentyOr byTwentyAndOne) [] Weight.bindingThreshold = .ok program ∧
      Program.ofExpr twoByTwenty [] Weight.bindingThreshold = .ok first ∧
      Program.ofExpr (twoInto byTwentyAndOne) [] Weight.bindingThreshold = .ok second ∧
      (program.call Host.none (.int 5) (.named [("f", .bool false)]) ()).1 =
        (second.call Host.none (.int 5) .none ()).1 := by
  obtain ⟨program, h, hparams⟩ :=
    exists_required (e := twentyOr byTwentyAndOne) ["f"] (by decide +kernel)
  obtain ⟨first, hfirst, hnone⟩ := exists_closed (e := twoByTwenty) (by decide +kernel)
  obtain ⟨second, hsecond, hnone'⟩ :=
    exists_closed (e := twoInto byTwentyAndOne) (by decide +kernel)
  refine ⟨program, first, second, h, hfirst, hsecond, ?_⟩
  have hvalues : program.params.bind (.named [("f", .bool false)]) = .ok [.bool false] := by
    rw [hparams]
    rfl
  have hfalse : program.params.valueOf [.bool false] "f" = .bool false := by
    rw [hparams]
    rfl
  have branch := call_branch describes_none
    (regular_twentyOr ⟨fun i => ⟨i, "", true⟩, fun _ => ("", [])⟩) rfl rfl h hvalues
    hfirst (bind_closed hnone) (fun n hn => absurd hn (not_mentions_pipes (.inl (.refl _))))
    hsecond (bind_closed hnone') (fun n hn => absurd hn (not_mentions_pipes (.inr (.refl _))))
    (.int 5) ()
  rw [hfalse] at branch
  exact branch

/-- The input by twenty, and the input twice. -/
def byTwentyAndTwice : Expr :=
  .mk 50 (.binary .add (.mk 51 (.binary .add (byTwenty 40) (.mk 52 .input))) (.mk 53 .input))

/-- In the second branch the product is the one of the first branch, where the consumer reads the
    input of the pipe. -/
theorem twentyOr_stale :
    (match Program.ofExpr (twentyOr byTwentyAndTwice) [] Weight.bindingThreshold,
        Program.ofExpr (twoInto byTwentyAndTwice) [] Weight.bindingThreshold with
      | .ok program, .ok alone =>
        match (program.call Host.none (.int 5) (.named [("f", .bool false)]) ()).1,
          (alone.call Host.none (.int 5) .none ()).1 with
        | .ok v, .ok w => v == .int 194 && w == .int 154
        | _, _ => false
      | _, _ => false) = true := by
  decide +kernel

/-! ### Composition -/

/-- **A pipe is composition, as far as the producer does not fail.**  The program of a pipe gives
    what the program of the consumer gives on the value of the producer's own program, whether
    lowering computes the producer before the consumer or at each use of its input.  If the
    producer fails, so does the pipe where the producer is computed before the consumer; where it
    is computed at the uses, the consumer has its error in place of the input, and fails only if it
    needs it. -/
theorem call_pipe (hS : S.Describes host) (he : e.Regular r threshold) {p : Expr}
    (hnode : e.node = .pipe p c) (h : Program.ofExpr e signature threshold = .ok program)
    (hvalues : program.params.bind params = .ok values)
    {signature₁ signature₂ : Signature} {first second : Program} {params₁ params₂ : Params}
    {values₁ values₂ : List Value}
    (hfirst : Program.ofExpr p signature₁ threshold = .ok first)
    (hvalues₁ : first.params.bind params₁ = .ok values₁)
    (agree₁ : ∀ n, p.Mentions n →
      first.params.valueOf values₁ n = program.params.valueOf values n)
    (hsecond : Program.ofExpr c signature₂ threshold = .ok second)
    (hvalues₂ : second.params.bind params₂ = .ok values₂)
    (agree₂ : ∀ n, c.Mentions n →
      second.params.valueOf values₂ n = program.params.valueOf values n)
    (input : Value) (state : σ) :
    (∀ v, (first.call host input params₁ state).1 = .ok v →
      (program.call host input params state).1 = (second.call host v params₂ state).1) ∧
    ∀ err, (first.call host input params₁ state).1 = .error err →
      (program.call host input params state).1 =
        if inlines threshold p c
        then c.meaning (S.lowered threshold)
          ((Scene.start input (program.params.valueOf values)).within (.error err))
        else .error err := by
  have hp : Expr.Within p e := .child (by simp [Expr.children, hnode, Node.children])
  have hc : Expr.Within c e := .child (by simp [Expr.children, hnode, Node.children])
  have whole := call_part hS he h hvalues (fun _ _ => rfl) input state
  rw [Expr.meaning_pipe rfl hnode,
    ← call_part hS (he.within hp) hfirst hvalues₁ agree₁ input state] at whole
  constructor
  · intro v hv
    rw [whole, hv, call_part hS (he.within hc) hsecond hvalues₂ agree₂ v state]
    exact ite_self _
  · intro err herr
    rw [whole, herr]
    rfl

theorem call_pipe_twoInto : ∃ program first second v,
    Program.ofExpr (twoInto byTwentyAndOne) [] Weight.bindingThreshold = .ok program ∧
      Program.ofExpr (plusTwo 30) [] Weight.bindingThreshold = .ok first ∧
      Program.ofExpr byTwentyAndOne [] Weight.bindingThreshold = .ok second ∧
      (first.call Host.none (.int 5) .none ()).1 = .ok v ∧
      (program.call Host.none (.int 5) .none ()).1 = (second.call Host.none v .none ()).1 := by
  obtain ⟨program, h, hnone⟩ := exists_closed (e := twoInto byTwentyAndOne) (by decide +kernel)
  obtain ⟨first, hfirst, hnone₁⟩ := exists_closed (e := plusTwo 30) (by decide +kernel)
  obtain ⟨second, hsecond, hnone₂⟩ := exists_closed (e := byTwentyAndOne) (by decide +kernel)
  have runs : ((Program.ofExpr (plusTwo 30) [] Weight.bindingThreshold).toOption.bind
      fun first => (first.call Host.none (.int 5) .none ()).1.toOption).isSome = true := by
    decide +kernel
  rw [hfirst] at runs
  obtain ⟨v, hv⟩ := exists_of_isSome runs
  refine ⟨program, first, second, v, h, hfirst, hsecond, hv, ?_⟩
  have hwithin : Expr.Within (twoInto byTwentyAndOne) (twentyOr byTwentyAndOne) :=
    .child (by simp [twentyOr, Expr.children, Expr.node, Node.children])
  have regular := (regular_twentyOr ⟨fun i => ⟨i, "", true⟩, fun _ => ("", [])⟩).within hwithin
  have silent {x : Expr} (hx : x ∈ (twoInto byTwentyAndOne).children) (n : String) :
      ¬x.Mentions n := not_mentions_pipes (.inr (.child hx))
  exact (call_pipe describes_none regular rfl h (bind_closed hnone) hfirst (bind_closed hnone₁)
    (fun n hn => absurd hn (silent (by simp [twoInto, Expr.children, Expr.node, Node.children]) n))
    hsecond (bind_closed hnone₂)
    (fun n hn => absurd hn (silent (by simp [twoInto, Expr.children, Expr.node, Node.children]) n))
    (.int 5) ()).1 v hv

/-- An item that is missing, for a consumer that does not read it. -/
def pipedMissing : Expr :=
  .mk 0 (.pipe (inputItem 1 (.str "missing")) (.mk 5 (.constant (.int 1))))

/-- The producer fails and the pipe does not. -/
theorem pipedMissing_ignored :
    (match Program.ofExpr pipedMissing [] Weight.bindingThreshold,
        Program.ofExpr (inputItem 1 (.str "missing")) [] Weight.bindingThreshold with
      | .ok program, .ok producer =>
        match (program.call Host.none (.dict []) .none ()).1,
          (producer.call Host.none (.dict []) .none ()).1 with
        | .ok v, .error err => v == .int 1 && err.message == "key missing not found"
        | _, _ => false
      | _, _ => false) = true := by
  decide +kernel

end Program
end DataExpr
