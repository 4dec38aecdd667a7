import DataExpr.Proofs.LabelSafety
import DataExpr.Proofs.LoweringSoundness
import DataExpr.Proofs.ParameterMentions

/-!
# What programs compute

The program of an expression without effects, labels and pipes computes what the expression means,
whatever is shared in it (`Program.call_eq_meaning`).  The laws of the meaning are laws of programs:
a guarded expression is composed of its body and its handlers (`Program.call_guarded`).
-/

namespace DataExpr

open Eval Lowering

variable {σ : Type}

/-- What an expression sees when its program is called. -/
def Scene.start (input : Value) (param : String → Value) : Scene :=
  { input := .ok input, param, caught := none, left := none, right := none, output := none }

namespace Execution

variable {X : Execution σ} {roles : ValueRoles} {t : State} {s : Scene}

/-- No slot keeps a value. -/
def Unkept (roles : ValueRoles) : Prop := ∀ n v, roles n ≠ .kept v

theorem Unkept.entered (h : Unkept roles) : Unkept (X.entered roles t s) := by
  intro n v hkept
  unfold Execution.entered Roles.enter at hkept
  split at hkept
  · cases hkept
  · exact h n v hkept

theorem unkept_free : Unkept fun _ => .free := fun _ _ h => by cases h

/-- A new frame holds what is not kept. -/
theorem Unkept.holds (h : Unkept roles) {layout : Layout}
    (hroom : X.room = ⟨layout.slots, layout.groups, X.room.params⟩) {state : σ}
    (hstate : X.still state) :
    X.Holds roles (fun _ => none) ⟨.ofLayout layout X.values, state⟩ := by
  refine ⟨hstate, rfl, ?_, ?_, fun n v hn => absurd hn (h n v), fun n r v _ hset => ?_, nofun⟩
  · rw [hroom]
    exact Nat.le_of_eq (Array.size_replicate ..).symm
  · rw [hroom]
    exact Nat.le_of_eq (Array.size_replicate ..).symm
  · rw [Frame.slot?_ofLayout] at hset
    cases hset

/-- The execution of a program with these values of its parameters, where these producers are
    computed at each use of the input. -/
abbrev ofProgram {S : Semantics} {host : Host σ} (hS : S.Describes host) (program : Program)
    (values : List Value) (registry : Registry) (threshold : Weight.Threshold)
    (inline : Expr → Bool) (inline_rename : ∀ f p, inline (p.rename f) = inline p) :
    Execution σ where
  semantics := S
  host := host
  describes := hS
  room := ⟨program.layout.slots, program.layout.groups, program.params⟩
  values := values
  registry := registry
  threshold := threshold
  inline := inline
  inline_rename := inline_rename
  still := fun _ => True
  stays := fun _ _ _ _ _ => trivial

end Execution

/-- The body of a program may use its slots in a new frame. -/
theorem clear_body (X : Execution σ) {e : Expr} {signature : Signature}
    {threshold : Weight.Threshold} {counts : Occurrences} {body : Op} {s : State}
    (h : Gives (lower e (.start .emit threshold)) (.start signature counts) body s)
    (hroom : X.room = ⟨(s.program body).layout.slots, (s.program body).layout.groups,
      (s.program body).params⟩) (scene : Scene) :
    s.scope.resets.Nodup ∧ X.Clear (X.entered (fun _ => .free) s scene) body := by
  have bounds := (start_wellScoped h).body
  obtain ⟨placed, tidy, apart⟩ := lower_start h
  refine ⟨?_, ⟨_, placed⟩, ⟨_, hroom ▸ bounds⟩, fun n hn => Execution.entered_apart ?_⟩
  · rw [s.resets_scope]
    exact (List.nodup_append.mp tidy.nodup).1
  · rw [s.resets_scope]
    exact fun hmem => apart.apart n hn (List.mem_append_left _ hmem)

/-- What the body of a program evaluates to in a new frame. -/
theorem Program.body_yields (X : Execution σ) {e : Expr} (he : X.Orderly e) {signature : Signature}
    {program : Program} (h : Program.ofExpr e signature X.threshold = .ok program)
    (hroom : X.room = ⟨program.layout.slots, program.layout.groups, program.params⟩)
    (input : Value) :
    ∃ roles : ValueRoles, Execution.Unkept roles ∧
      X.Within roles (fun _ => none) (program.body.eval X.host input)
        (e.meaning X.semantics (.start input X.param)) := by
  obtain ⟨-, counts, body, s, -, hlower, rfl⟩ := ofExpr_cases h
  obtain ⟨defined, sound⟩ :=
    (Execution.lower_sound rfl rfl he hlower).gives (.start .emit X.threshold)
    .nil ⟨rfl, rfl, rfl, .here⟩
  obtain ⟨hnodup, clear⟩ := clear_body X hlower hroom (.start input X.param)
  have finds (roles : ValueRoles) : X.Finds (.start .emit X.threshold) roles (fun _ => none) input
      (.start input X.param) := ⟨fun _ => rfl, nofun, rfl, fun _ => rfl, nofun⟩
  refine ⟨_, Execution.unkept_free.entered, (sound s (.refl s)).yields ?_ clear
    (defined.opens rfl (Execution.assigns_enter hnodup) (finds _))⟩
  exact ⟨finds _, nofun, ⟨nofun, nofun⟩⟩

/-- A call runs the body in a new frame. -/
theorem Program.call_fst (host : Host σ) (program : Program) (input : Value) (params : Params)
    (state : σ) :
    (program.call host input params state).1 = (do
      let values ← program.params.bind params
      ((program.body.eval host input).run ⟨.ofLayout program.layout values, state⟩).1) := by
  change ((program.runFresh params (program.body.eval host input) state).1.map (·.1)) = _
  unfold runFresh frame
  cases program.params.bind params with
  | error err => rfl
  | ok values =>
    change (Except.map _ ((program.body.eval host input).run _).1).map _ =
      ((program.body.eval host input).run _).1
    cases ((program.body.eval host input).run ⟨.ofLayout program.layout values, state⟩).1 <;> rfl

/-- **A program computes what its expression means.** -/
theorem Program.call_eq_meaning {S : Semantics} {host : Host σ} (hS : S.Describes host)
    {r : Registry} {e : Expr} (he : e.Tame r) {signature : Signature}
    {threshold : Weight.Threshold} {program : Program}
    (h : Program.ofExpr e signature threshold = .ok program) (input : Value) (params : Params)
    (state : σ) :
    (program.call host input params state).1 = (do
      let values ← program.params.bind params
      e.meaning S (.start input (program.params.valueOf values))) := by
  rw [call_fst]
  refine bind_congr fun values => ?_
  let X : Execution σ := .ofProgram hS program values r threshold (fun _ => false) fun _ _ => rfl
  obtain ⟨roles, unkept, body⟩ := body_yields X (.ofTame he) h rfl input
  exact (body _ (unkept.holds rfl trivial)).1

/-! ### Parameters that are not mentioned -/

/-- A part sees the parameters that the whole sees. -/
theorem Scene.shift_withParam (s : Scene) (param : String → Value) (shift : Shift) :
    ({ s with param } : Scene).shift shift = { s.shift shift with param } := by
  cases shift <;> rfl

/-- An expression means the same whatever the parameters are that it does not mention. -/
theorem Expr.meaning_withParam {S : Semantics} (e : Expr) (analyzed : e.Analyzed)
    (candid : e.Candid) {s : Scene} {param : String → Value}
    (agree : ∀ n, e.Mentions n → param n = s.param n) :
    e.meaning S { s with param } = e.meaning S s := by
  have key : ({ s with param } : Scene).key? e = s.key? e := rfl
  cases h : s.key? e with
  | some v => rw [meaning_of_key h, meaning_of_key (key.trans h)]
  | none =>
    rw [meaning_of_node h, meaning_of_node (key.trans h)]
    have image (c : Smaller e) : image (fun c => c.id) c = c.1 := relabel_id c.1
    apply AlikeOn.node (f := fun i => i)
    · refine ⟨fun shift c hc c' hc' => ?_, fun n hnode => ?_, fun _ _ => rfl, fun _ => rfl,
        fun _ => rfl, fun _ => rfl, fun _ => rfl⟩
      · rw [image] at hc'
        rw [hc', Scene.shift_withParam]
        have hwithin := (covers_part analyzed candid hc).1
        refine meaning_withParam c.1 (hwithin.analyzed analyzed).1 (candid.within hwithin)
          fun n hn => ?_
        rw [Scene.shift_param]
        exact agree n (hn.within hwithin)
      · refine agree n ⟨e, .refl e, ?_⟩
        rw [← map_parts, hnode]
        rfl
    · exact congrArg (Node.map · e.parts) (funext fun c => (image c).symm)
termination_by sizeOf e
decreasing_by exact c.2

/-! ### Tame expressions, node by node -/

namespace Expr

/-- Without aggregates there is no reducer that could read anything. -/
theorem candid_of_noAggregate {e : Expr}
    (h : ∀ d, Within d e → ∀ keys output, d.node ≠ .aggregate keys output) : e.Candid := by
  intro d keys output reducers hd hparts
  have hnode := d.map_parts
  rw [hparts] at hnode
  exact absurd hnode.symm (h d hd _ _)

/-- Where nothing reads an error or the rows of a join, no reducer does. -/
theorem candid_of_unread {e : Expr}
    (h : ∀ d, Within d e → d.analysis.readsCaught = false ∧ d.analysis.sides = ⟨false, false⟩) :
    e.Candid := by
  intro d keys output reducers hd hparts hslots r hr c hc
  have hwithin : Within c.1 e := by
    refine .trans (output.within_of_mem_reducers r ?_ c (List.mem_append_left _ hc))
      (.trans (.child (mem_parts ?_)) hd)
    · exact output.mem_reducers_of_mem_slots hslots r hr
    · rw [hparts]
      exact List.mem_append_right _ List.mem_cons_self
  obtain ⟨hcaught, hsides⟩ := h c.1 hwithin
  constructor
  · intro hread
    rw [hcaught] at hread
    cases hread
  · constructor
    · intro hread
      rw [hsides] at hread
      cases hread
    · intro hread
      rw [hsides] at hread
      cases hread

end Expr

/-! ### Laws of programs -/

/-- The eachReciprocal of the items of the input. -/
def eachReciprocal : Expr := .mk 0 (.comprehension .list none reciprocal (.mk 6 .input) none)

theorem within_eachReciprocal {d : Expr} (h : Expr.Within d eachReciprocal) :
    d = eachReciprocal ∨ d = .mk 6 .input ∨ d = reciprocal ∨ d = quotient ∨
      d = .mk 3 (.constant (.int 1)) ∨ d = .mk 4 .input ∨ d = .mk 5 .caught := by
  have leaf {c : Expr} (h : Expr.Within d c) (hc : c.children = []) : d = c := by
    rcases h.cases with rfl | ⟨x, hx, -⟩
    · rfl
    · exact absurd (hc ▸ hx) List.not_mem_nil
  rcases h.cases with rfl | ⟨c, hc, h⟩
  · exact .inl rfl
  have hc : c = reciprocal ∨ c = .mk 6 .input := by
    simpa [eachReciprocal, Expr.children, Expr.node, Node.children, or_comm] using hc
  rcases hc with rfl | rfl
  · rcases h.cases with rfl | ⟨c, hc, h⟩
    · exact .inr (.inr (.inl rfl))
    have hc : c = quotient ∨ c = .mk 5 .caught := by
      simpa [reciprocal, Expr.children, Expr.node, Node.children, Handler.children] using hc
    rcases hc with rfl | rfl
    · rcases h.cases with rfl | ⟨c, hc, h⟩
      · exact .inr (.inr (.inr (.inl rfl)))
      have hc : c = .mk 3 (.constant (.int 1)) ∨ c = .mk 4 .input := by
        simpa [quotient, Expr.children, Expr.node, Node.children] using hc
      rcases hc with rfl | rfl
      · exact .inr (.inr (.inr (.inr (.inl (leaf h rfl)))))
      · exact .inr (.inr (.inr (.inr (.inr (.inl (leaf h rfl))))))
    · exact .inr (.inr (.inr (.inr (.inr (.inr (leaf h rfl))))))
  · exact .inr (.inl (leaf h rfl))

theorem tame_eachReciprocal (r : Registry) : eachReciprocal.Tame r := by
  refine ⟨exists_of_isSome (by decide +kernel), fun d keys output reducers hd hparts => ?_,
    fun d hd => ?_, by decide +kernel, by decide +kernel, fun d hd => ?_, fun d hd => ?_⟩
  · have hnode := d.map_parts
    rw [hparts] at hnode
    rcases within_eachReciprocal hd with rfl | rfl | rfl | rfl | rfl | rfl | rfl <;> cases hnode
  · rcases within_eachReciprocal hd with rfl | rfl | rfl | rfl | rfl | rfl | rfl <;> trivial
  · rcases within_eachReciprocal hd with rfl | rfl | rfl | rfl | rfl | rfl | rfl <;> exact nofun
  · rcases within_eachReciprocal hd with rfl | rfl | rfl | rfl | rfl | rfl | rfl <;> exact nofun

theorem tame_reciprocal (r : Registry) : reciprocal.Tame r := by
  refine (tame_eachReciprocal r).within (.child ?_)
  simp [eachReciprocal, Expr.children, Expr.node, Node.children]

/-- An expression with this program, which has no parameters. -/
theorem exists_closed {e : Expr}
    (h : ((Program.ofExpr e [] Weight.bindingThreshold).toOption.map fun program =>
      program.params.isEmpty) = some true) :
    ∃ program, Program.ofExpr e [] Weight.bindingThreshold = .ok program ∧ program.params = [] := by
  cases hprogram : Program.ofExpr e [] Weight.bindingThreshold with
  | error err =>
    rw [hprogram] at h
    cases h
  | ok program =>
    rw [hprogram] at h
    exact ⟨program, rfl, List.isEmpty_iff.mp (Option.some.inj h)⟩

/-- Functions that answer every call with an error. -/
def Semantics.none : Semantics :=
  { function := fun f _ => .error (.function f.name "unknown")
    inlines := fun _ _ => false
    inlines_rename := fun _ _ _ => rfl }

theorem describes_none : Semantics.none.Describes Host.none := fun _ _ _ _ => rfl

namespace Program

variable {S : Semantics} {host : Host σ} {r : Registry} {e c : Expr} {signature : Signature}
  {threshold : Weight.Threshold} {program alone : Program} {params params' : Params}
  {values : List Value}

theorem bind_closed (h : program.params = []) : program.params.bind .none = .ok [] := by
  rw [h]
  rfl

/-- With parameters that are accepted, a program computes the meaning. -/
theorem call_eq_of_bind (hS : S.Describes host) (he : e.Tame r)
    (h : Program.ofExpr e signature threshold = .ok program)
    (hvalues : program.params.bind params = .ok values) (input : Value) (state : σ) :
    (program.call host input params state).1 =
      e.meaning S (.start input (program.params.valueOf values)) := by
  rw [call_eq_meaning hS he h, hvalues]
  rfl

/-- A program of this expression, with parameters by which what the expression mentions has these
    values. -/
structure OfPart (e : Expr) (threshold : Weight.Threshold) (param : String → Value)
    (program : Program) (params : Params) : Prop where
  compiled : ∃ signature, Program.ofExpr e signature threshold = .ok program
  accepted : ∃ values, program.params.bind params = .ok values ∧
    ∀ n, e.Mentions n → program.params.valueOf values n = param n

/-- A program of an expression computes what the expression means. -/
theorem OfPart.call_eq_meaning {param : String → Value}
    (h : OfPart e threshold param program params)
    (hS : S.Describes host) (he : e.Tame r) (input : Value) (state : σ) :
    (program.call host input params state).1 = e.meaning S (.start input param) := by
  obtain ⟨⟨signature, compiled⟩, values, accepted, agree⟩ := h
  rw [call_eq_of_bind hS he compiled accepted]
  exact (Expr.meaning_withParam (s := .start input (program.params.valueOf values)) e he.analyzed
    he.candid fun n hn => (agree n hn).symm).symm

/-- **Guarded expressions are composed.**  The program of a guarded expression gives what a
    program of the body alone gives, if that is a value; else the first handler that catches the
    error says what is done about it, with the message of the error in place. -/
theorem call_guarded (hS : S.Describes host) (he : e.Tame r) {handlers : List (Handler Expr)}
    (hnode : e.node = .guarded c handlers)
    (h : Program.ofExpr e signature threshold = .ok program)
    (hvalues : program.params.bind params = .ok values)
    (halone : OfPart c threshold (program.params.valueOf values) alone params') (input : Value)
    (state state' : σ) :
    (program.call host input params state).1 =
      rescue (alone.call host input params' state').1 fun err =>
        let scene := (Scene.start input (program.params.valueOf values)).catching err
        (handlers.find? (·.catches err)).map fun h =>
          handled err (h.reraiseIf.map fun c => c.meaning S scene) (h.value.meaning S scene) := by
  have hc : c.Tame r := he.within (.child (by simp [Expr.children, hnode, Node.children]))
  rw [call_eq_of_bind hS he h hvalues, halone.call_eq_meaning hS hc]
  exact Expr.meaning_guarded rfl hnode

theorem call_guarded_reciprocal : ∃ program alone,
    Program.ofExpr reciprocal [] Weight.bindingThreshold = .ok program ∧
      Program.ofExpr quotient [] Weight.bindingThreshold = .ok alone ∧
        (program.call Host.none (.int 0) .none ()).1 =
          rescue (alone.call Host.none (.int 0) .none ()).1 fun err =>
            let scene := (Scene.start (.int 0) (program.params.valueOf [])).catching err
            ([⟨[], .mk 5 .caught, none⟩].find? (·.catches err)).map fun h : Handler Expr =>
              handled err (h.reraiseIf.map fun c => c.meaning .none scene)
                (h.value.meaning .none scene) := by
  obtain ⟨program, h, hparams⟩ := exists_closed (e := reciprocal) (by decide +kernel)
  obtain ⟨alone, halone, hnone⟩ := exists_closed (e := quotient) (by decide +kernel)
  refine ⟨program, alone, h, halone, ?_⟩
  have same : alone.params = program.params := hnone.trans hparams.symm
  have hvalues : program.params.bind .none = .ok [] := by
    rw [hparams]
    rfl
  exact call_guarded describes_none (tame_reciprocal ⟨fun i => ⟨i, "", true⟩, fun _ => ("", [])⟩)
    rfl h hvalues ⟨⟨[], halone⟩, [], same ▸ hvalues, fun n _ => by rw [same]⟩ (.int 0) () ()

/-- The message of an error that is handled around this, by way of a reducer in another handler. -/
def outerError (i : Nat) : Expr :=
  .mk i (.aggregate [] (.mk (i + 1) (.guarded
    (.mk (i + 2) (.binary .div (.mk (i + 3) (.constant (.int 1)))
      (.mk (i + 4) (.constant (.int 0)))))
    [⟨[], .mk (i + 5) (.reducer ⟨.first, [.mk (i + 6) .caught], none, none, none⟩), none⟩])))

/-- The part of the input under a key. -/
def inputItem (i : Nat) (key : Value) : Expr :=
  .mk i (.access (.mk (i + 1) .input) [.key (.mk (i + 2) (.constant key))] none)

/-- The part of the input under a key, or the message of the error. -/
def itemOrError (i : Nat) (key : String) : Expr :=
  .mk i (.guarded (inputItem (i + 1) (.str key)) [⟨[], outerError (i + 4), none⟩])

/-- A handler for the error of one missing key, in which another key may be missing. -/
def otherItem : Expr :=
  .mk 0 (.guarded (.mk 1 (.collection .tuple [itemOrError 10 "a", inputItem 2 (.str "b")]))
    [⟨[], itemOrError 30 "c", none⟩])

/-- The error of an outer handler that is read by a reducer is that of the handler which read it
    first. -/
theorem otherItem_stale :
    (match Program.ofExpr otherItem [] Weight.bindingThreshold,
        Program.ofExpr (itemOrError 30 "c") [] Weight.bindingThreshold with
      | .ok program, .ok alone =>
        match (program.call Host.none (.dict [(.str "z", .int 1)]) .none ()).1,
          (alone.call Host.none (.dict [(.str "z", .int 1)]) .none ()).1 with
        | .ok v, .ok w => v == .str "key a not found" && w == .str "key c not found"
        | _, _ => false
      | _, _ => false) = true := by
  decide +kernel

/-- A join whose condition reads the left row by way of a reducer in the condition of another
    join. -/
def leftRowReduced : Expr :=
  .mk 0 (.join (inputItem 1 (.int 0)) (inputItem 4 (.int 1)) (some (.mk 7 (.or [
    .mk 8 (.joinRow .right),
    .mk 9 (.aggregate [] (.mk 10 (.join (.mk 11 (.constant (.list [.int 1])))
      (.mk 12 (.constant (.list [.int 1])))
      (some (.mk 13 (.binary .eq
        (.mk 14 (.reducer ⟨.first, [.mk 15 (.joinRow .left)], none, none, none⟩))
        (.mk 16 (.constant (.int 1)))))) .inner)))]))) .inner)

/-- The condition is evaluated for the right rows alone, where no left row is in place. -/
theorem leftRowReduced_unset :
    (match Program.ofExpr leftRowReduced [] Weight.bindingThreshold with
      | .ok program =>
        match (program.call Host.none (.list [.list [.int 1], .list [.int 0]]) .none ()).1 with
        | .error (.unboundLabel name) => name == "left_3"
        | _ => false
      | .error _ => false) = true := by
  decide +kernel

end Program

end DataExpr
