import DataExpr.Proofs.ParameterBinding
import DataExpr.Proofs.ParameterCoverage
import DataExpr.Proofs.SettledLowering

/-!
# Parameters reach the right place

A program takes the declared parameters first, as they are declared, and then the others that its
expression mentions, each one once and as a required one (`Program.params_ofExpr`).  Values given
by position and by name are bound alike, and wherever a reference to a parameter was lowered, it
stands for the value that the parameter is bound to (`Program.parameters_reach`).
-/

namespace DataExpr

open Lowering

variable {e : Expr} {signature : Signature} {threshold : Weight.Threshold} {program : Program}

/-- The parameters of a program are the declared ones, followed by new required ones. -/
theorem Program.params_ofExpr (h : Program.ofExpr e signature threshold = .ok program) :
    ∃ added : List String, added.Nodup ∧ (∀ n ∈ added, n ∉ signature.names) ∧
      program.params = signature ++ added.map (⟨·, none⟩) := by
  obtain ⟨-, counts, body, s, -, hlower, rfl⟩ := ofExpr_cases h
  exact lower_appends rfl hlower

/-- Their names are the declared ones and those that the expression mentions. -/
theorem Program.names_ofExpr (coherent : e.Coherent)
    (h : Program.ofExpr e signature threshold = .ok program) (n : String) :
    n ∈ program.params.names ↔ n ∈ signature.names ∨ e.Mentions n := by
  obtain ⟨-, counts, body, s, -, hlower, rfl⟩ := ofExpr_cases h
  have noted : (State.start signature counts).Noted e := fun _ hb => absurd hb List.not_mem_nil
  have covered : (Env.start .emit threshold).Covered (.start signature counts) :=
    fun _ h => by cases h
  have names := ((lower_adds coherent (.refl e) rfl hlower).exact noted covered).2 n
  rwa [Expr.among_cons, or_iff_left Expr.not_among_nil] at names

theorem Program.nodup_params (valid : signature.validate = .ok ())
    (h : Program.ofExpr e signature threshold = .ok program) : program.params.names.Nodup := by
  obtain ⟨added, nodup, fresh, hparams⟩ := Program.params_ofExpr h
  have names : program.params.names = signature.names ++ added := by
    simp [hparams, Signature.names, Function.comp_def]
  rw [names]
  exact List.nodup_append'.2 ⟨Signature.nodup_of_validate valid, nodup,
    fun n hn hadded => fresh n hadded hn⟩

/-- **Parameters reach the right place.**  A program has the declared parameters, as they are
    declared and in their order, and after them as required ones those that only the expression
    mentions, with distinct names.  Values may be given by position or under the first names: they
    bind the first parameters, and the others take their defaults, or else the first one without a
    default is missing.  If they are accepted, each parameter is bound to the value that is given
    for it, or to its default, and a run is that of the program in which each reference to a
    parameter was lowered to this value. -/
theorem Program.parameters_reach (coherent : e.Coherent) (valid : signature.validate = .ok ())
    (h : Program.ofExpr e signature threshold = .ok program) :
    (∃ added : List String, program.params = signature ++ added.map (⟨·, none⟩)) ∧
    program.params.names.Nodup ∧
    (∃ a, e.analyze = .ok a ∧
      ∀ n, n ∈ program.params.names ↔ n ∈ signature.names ∨ n ∈ a.params) ∧
    (∀ given : List Value, given.length ≤ program.params.length →
      program.params.bind (.positional given) =
        program.params.bind (.named (program.params.names.zip given)) ∧
      program.params.bind (.positional given) =
        match (program.params.drop given.length).find? fun spec => spec.default.isNone with
        | some spec => .error (.missingParameter spec.name)
        | none => .ok (given ++ (program.params.drop given.length).filterMap ParamSpec.default)) ∧
    ∀ (params : Params) (values : List Value), program.params.bind params = .ok values →
      (∀ index spec, program.params[index]? = some spec →
        (params.given? index spec.name).or spec.default =
          some (program.params.valueOf values spec.name)) ∧
      ∀ {σ : Type} (host : Host σ), ∃ settled,
        Program.ofSettled (program.params.valueOf values) e signature threshold = .ok settled ∧
        ∀ x : Value, program.call host x params = settled.call host x params ∧
          ∀ count, program.takeBy (OpNode.evaluate host) count x params =
            settled.takeBy (OpNode.evaluate host) count x params := by
  have nodup := Program.nodup_params valid h
  obtain ⟨added, -, -, hparams⟩ := Program.params_ofExpr h
  refine ⟨⟨added, hparams⟩, nodup, ?_, fun given fits => ⟨?_, ?_⟩,
    fun params values hbind => ⟨?_, ?_⟩⟩
  · obtain ⟨⟨a, ha⟩, -⟩ := ofExpr_cases h
    exact ⟨a, ha, fun n => by rw [Program.names_ofExpr coherent h, Expr.mem_params ha]⟩
  · exact (Signature.bind_named_zip nodup given fits).symm
  · exact Signature.bind_positional nodup given fits
  · intro index spec hspec
    obtain ⟨hvalue, present⟩ := Signature.valueAt_of_bind nodup hbind hspec
    obtain ⟨v, hv⟩ := Option.isSome_iff_exists.1 present
    rw [hvalue, hv, Signature.valueOf, Signature.indexOf?_name nodup hspec]
    simp [hv]
  · exact fun host => Program.ofSettled_runs h hbind host

/-! ### A report on regions -/

/-- The items of the input less a parameter. -/
def loweredItems (i : Nat) : Expr :=
  .mk i (.comprehension .list none
    (.mk (i + 1) (.binary .sub (.mk (i + 2) .input) (.mk (i + 3) (.parameter "low"))))
    (.mk (i + 4) .input) none)

/-- The number of items for a region that is a parameter. -/
def regionCount : Expr :=
  .mk 11 (.aggregate [.mk 12 (.parameter "region")]
    (.mk 13 (.collection .tuple [.mk 14 (.parameter "region"),
      .mk 15 (.reducer ⟨.count, [], none, none, none⟩)])))

/-- The lowered items, twice, and the number of items. -/
def regional : Expr := .mk 0 (.collection .tuple [loweredItems 1, loweredItems 6, regionCount])

theorem coherent_regional : regional.Coherent := by
  refine Expr.coherent_of_nodes [regional,
    loweredItems 1, .mk 2 (.binary .sub (.mk 3 .input) (.mk 4 (.parameter "low"))), .mk 3 .input,
    .mk 4 (.parameter "low"), .mk 5 .input,
    loweredItems 6, .mk 7 (.binary .sub (.mk 8 .input) (.mk 9 (.parameter "low"))), .mk 8 .input,
    .mk 9 (.parameter "low"), .mk 10 .input,
    regionCount, .mk 12 (.parameter "region"),
    .mk 13 (.collection .tuple [.mk 14 (.parameter "region"),
      .mk 15 (.reducer ⟨.count, [], none, none, none⟩)]), .mk 14 (.parameter "region"),
    .mk 15 (.reducer ⟨.count, [], none, none, none⟩)] List.mem_cons_self ?_ ?_
  · simp [regional, loweredItems, regionCount, Expr.children, Expr.node, Node.children,
      Reducer.children]
  · simp [regional, loweredItems, regionCount, Expr.id]

/-- The second list is read from the slot of the first one, the region of the output from the
    group: both parameters have places, the undeclared one after the other, and the run is that of
    the program in which the values stand. -/
theorem parameters_reach_regional : ∃ program,
    Program.ofExpr regional [⟨"low", some (.int 0)⟩] Weight.bindingThreshold = .ok program ∧
    (∃ added : List String, program.params = ⟨"low", some (.int 0)⟩ :: added.map (⟨·, none⟩)) ∧
    program.params.names.Nodup ∧ "region" ∈ program.params.names ∧
    program.params.bind (.positional []) = program.params.bind (.named []) ∧
    ∀ values, program.params.bind (.named [("region", .str "north")]) = .ok values →
      ∀ x : Value, ∃ settled,
        Program.ofSettled (program.params.valueOf values) regional [⟨"low", some (.int 0)⟩]
          Weight.bindingThreshold = .ok settled ∧
        program.call Host.none x (.named [("region", .str "north")]) =
          settled.call Host.none x (.named [("region", .str "north")]) := by
  obtain ⟨program, h⟩ := exists_of_isSome
    (r := Program.ofExpr regional [⟨"low", some (.int 0)⟩] Weight.bindingThreshold)
    (by decide +kernel)
  obtain ⟨declared, nodup, ⟨a, ha, names⟩, bound, runs⟩ :=
    Program.parameters_reach coherent_regional (by decide +kernel) h
  refine ⟨program, h, declared, nodup, (names _).2 (.inr ?_), ?_, fun values hbind x => ?_⟩
  · have listed : (regional.analyze.toOption.map fun a => decide ("region" ∈ a.params)) =
        some true := by decide +kernel
    rw [ha] at listed
    exact of_decide_eq_true (Option.some.inj listed)
  · simpa using (bound [] (Nat.zero_le _)).1
  · obtain ⟨settled, hsettled, run⟩ := (runs _ values hbind).2 Host.none
    exact ⟨settled, hsettled, (run x).1⟩

end DataExpr
