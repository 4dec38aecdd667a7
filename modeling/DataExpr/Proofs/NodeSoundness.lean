import DataExpr.Proofs.Simulation
import DataExpr.Proofs.Stage

/-!
# Sound nodes

An operation that lowering makes for a node yields what the node means, given that the operations
of its parts do.  There is one statement for each kind of node.
-/

namespace DataExpr

open Eval Lowering Op

variable {σ α β : Type}

/-- An expression without effects, labels and pipes, whose reducers read only what the analysis of
    the outputs knows of. -/
structure Expr.Tame (r : Registry) (e : Expr) : Prop where
  analyzed : e.Analyzed
  candid : e.Candid
  exact : e.Exact r
  effects : e.analysis.hasSideEffects = false
  labels : e.analysis.readsLabels = false
  reduces : ∀ d, Within d e → ∀ s, d.node = .reducer s → ∀ f, s.kind = .reduce f → f.isPure = true
  pipes : ∀ d, Within d e → ∀ p c, d.node ≠ .pipe p c

/-- An expression without effects and labels, whose reducers read only what the analysis of the
    outputs knows of. -/
structure Expr.Mild (r : Registry) (e : Expr) : Prop where
  analyzed : e.Analyzed
  candid : e.Candid
  exact : e.Exact r
  effects : e.analysis.hasSideEffects = false
  labels : e.analysis.readsLabels = false
  reduces : ∀ d, Within d e → ∀ s, d.node = .reducer s → ∀ f, s.kind = .reduce f → f.isPure = true

namespace Expr

variable {r : Registry} {d e : Expr}

theorem Mild.within (h : e.Mild r) (hd : Within d e) : d.Mild r := by
  obtain ⟨analyzed, covers⟩ := hd.analyzed h.analyzed
  refine ⟨analyzed, h.candid.within hd, fun c hc => h.exact c (hc.trans hd),
    covers.effectFree h.effects, ?_, fun c hc => h.reduces c (hc.trans hd)⟩
  have hread := Analysis.readsLabels_eq_false.mp h.labels
  exact Analysis.readsLabels_eq_false.mpr fun n hn => hread n (covers.labelsRead n hn)

/-- Without the error it reads, a mild expression means the same. -/
theorem Mild.steady (h : e.Mild r) (hread : e.analysis.readsCaught = false) (S : Semantics) :
    e.Steady S := by
  intro s err
  refine e.meaning_congr h.analyzed h.candid ⟨rfl, .inl rfl, .inl rfl, fun h => ?_, fun _ => rfl,
    fun _ => rfl⟩
  rw [hread] at h
  cases h

/-- A mild expression that does not read the error is known by its shape. -/
theorem Mild.nodeKey_eq (h : e.Mild r) (hread : e.analysis.readsCaught = false) :
    NodeKey.of e e.analysis = .shape e e.size rfl := by
  rw [NodeKey.of, h.effects, h.labels, hread]
  rfl

theorem Tame.mild (h : e.Tame r) : e.Mild r :=
  ⟨h.analyzed, h.candid, h.exact, h.effects, h.labels, h.reduces⟩

theorem Tame.within (h : e.Tame r) (hd : Within d e) : d.Tame r :=
  { h.mild.within hd with pipes := fun c hc => h.pipes c (hc.trans hd) }

end Expr

namespace Execution

variable (X : Execution σ)

/-- A mild expression in which each pipe computes its producer in the way that is known for it, and
    no producer reads the error that is handled. -/
structure Orderly (e : Expr) : Prop extends e.Mild X.registry where
  uncaught : ∀ d, Expr.Within d e → ∀ p c, d.node = .pipe p c → p.analysis.readsCaught = false
  lowered : ∀ d, Expr.Within d e → ∀ p c, d.node = .pipe p c →
    inlines X.threshold p c = X.inline p
  meant : ∀ d, Expr.Within d e → ∀ p c, d.node = .pipe p c →
    X.semantics.inlines p c = X.inline p

variable {X} in
theorem Orderly.within {d e : Expr} (h : X.Orderly e) (hd : Expr.Within d e) : X.Orderly d where
  toMild := h.toMild.within hd
  uncaught c hc := h.uncaught c (hc.trans hd)
  lowered c hc := h.lowered c (hc.trans hd)
  meant c hc := h.meant c (hc.trans hd)

variable {X} in
theorem Orderly.ofTame {e : Expr} (h : e.Tame X.registry) : X.Orderly e where
  toMild := h.mild
  uncaught d hd p c hnode := absurd hnode (h.pipes d hd p c)
  lowered d hd p c hnode := absurd hnode (h.pipes d hd p c)
  meant d hd p c hnode := absurd hnode (h.pipes d hd p c)

/-- In these surroundings an operation yields what the node of an expression means. -/
def NodeSound (env : Env) (t : State) (op : Op) (e : Expr) : Prop :=
  X.Yielding env t op e.analysis
    fun s => e.parts.meaning (fun c => c.1.meaning X.semantics) s X.semantics

/-! ### Sound parts -/

section Parts

variable {root : Expr} (env : Env) (t : State)

abbrev AllSound (ops : List Op) (cs : List (Smaller root)) : Prop :=
  List.Forall₂ (fun op c => X.Sound env t op c.1) ops cs

abbrev OptionSound (op : Option Op) (c : Option (Smaller root)) : Prop :=
  Option.Rel (fun op c => X.Sound env t op c.1) op c

inductive StepSound : Step Op → PathStep (Smaller root) → Prop
  | key {op : Op} {c : Smaller root} (h : X.Sound env t op c.1) : StepSound (.key op) (.key c)
  | attr {name : String} : StepSound (.attr name) (.attr name)

structure PairSound (ops : Op × Op) (p : Smaller root × Smaller root) : Prop where
  key : X.Sound env t ops.1 p.1.1
  value : X.Sound env t ops.2 p.2.1

structure SortKeySound (op : SortKeyOp Op) (k : SortKey (Smaller root)) : Prop where
  order : op.order = k.order
  key : X.Sound env t op.op k.key.1

structure HandlerSound (op : HandlerOp Op) (h : Handler (Smaller root)) : Prop where
  kinds : op.kinds = h.kinds
  reraiseIf : X.OptionSound env t op.reraiseIf h.reraiseIf
  value : X.Sound env t op.value h.value.1

structure SlotSound (op : SlotOp Op) (r : Reducer (Smaller root)) : Prop where
  kind : op.kind = r.kind
  seedEmpty : op.seedEmpty = r.initial.any (·.1.analysis.inputUses == 0)
  filter : X.OptionSound env t op.filter r.filter
  args : X.AllSound env t op.args r.args
  initial : X.OptionSound env t op.initial r.initial

/-- What is read when no row qualified. -/
inductive FallbackSound (r : Reducer (Smaller root)) : Op → Prop
  | default {d : Smaller root} {op : Op} (hdefault : r.default = some d)
      (h : X.Sound env t op d.1) : FallbackSound r op
  | initial {c : Smaller root} {op : Op} (hdefault : r.default = none)
      (hinitial : r.initial.filter (·.1.analysis.inputUses == 0) = some c)
      (h : X.Sound env t op c.1) : FallbackSound r op
  | static {name : String} (hdefault : r.default = none)
      (hinitial : r.initial.filter (·.1.analysis.inputUses == 0) = none) :
      FallbackSound r (.mk (.const name r.kind.staticDefault))

/-- The conjunction of sound operations. -/
def ConjunctionSound (op : Option Op) (cs : List (Smaller root)) : Prop :=
  ∃ ops, op = conjunctionOp ops ∧ X.AllSound env t ops cs

structure SideSound (op : JoinSideOp Op) (keys filter : List (Smaller root)) : Prop where
  scope : op.scope = t.scope
  keys : X.AllSound env t op.keys keys
  filter : X.ConjunctionSound env t op.filter filter

end Parts

/-! ### Evaluated parts -/

/-- An operation of a node of an expression, evaluated where it sees what the expression sees. -/
structure Stage (e : Expr) (whole : Node (Smaller e)) (env : Env) (t : State) (node : OpNode Op)
    (roles : ValueRoles) (views : Views) (x : Value) (s : Scene) : Prop where
  orderly : X.Orderly e
  parts : e.parts = whole
  sees : X.Sees env roles views x e.analysis s
  clear : X.Clear roles (.mk node)
  binds : X.Binds env t roles views x s

variable {X} {e : Expr} {env : Env} {t : State} {whole : Node (Smaller e)}

/-- A node is sound if what it evaluates to is what is meant. -/
theorem NodeSound.of {node : OpNode Op} (he : X.Orderly e) (hnode : e.parts = whole)
    (h : ∀ {roles : ValueRoles} {views : Views} {x : Value} {s : Scene},
      X.Stage e whole env t node roles views x s →
        X.Within roles views ((foldNode (OpNode.evaluate X.host) node).evaluate X.host x)
          (whole.meaning (fun c => c.1.meaning X.semantics) s X.semantics)) :
    X.NodeSound env t (.mk node) e := by
  refine ⟨fun sees clear binds => ?_⟩
  rw [Op.eval, fold, hnode]
  exact h ⟨he, hnode, sees, clear, binds⟩

namespace Stage

variable {node : OpNode Op} {roles roles' : ValueRoles} {views views' : Views} {x y : Value}
  {s s' : Scene} (st : X.Stage e whole env t node roles views x s)
include st

theorem covers {shift : Shift} {c : Smaller e} (hc : whole.Evaluates shift c) :
    shift.Covers e.analysis c.1.analysis :=
  (Expr.covers_part st.orderly.analyzed st.orderly.candid (st.parts ▸ hc)).2

/-- A part that is evaluated where the node is. -/
theorem here {c : Smaller e} {op : Op} (h : X.Sound env t op c.1) (hc : c ∈ whole.onScene)
    (hop : op ∈ node.parts) :
    X.Within roles views (op.eval X.host x) (c.1.meaning X.semantics s) :=
  h.yields (st.sees.same (.refl _) (st.covers (.here hc)))
    (st.clear.part (fun _ _ => rfl) hop) st.binds

theorem all {cs : List (Smaller e)} {ops : List Op} (h : X.AllSound env t ops cs)
    (hcs : ∀ c ∈ cs, c ∈ whole.onScene) (hops : ∀ op ∈ ops, op ∈ node.parts) :
    List.Forall₂ (fun op (c : Smaller e) => X.Within roles views (op.eval X.host x)
      (c.1.meaning X.semantics s)) ops cs :=
  forall₂_imp_both h fun op hop c hc h => st.here h (hcs c hc) (hops op hop)

theorem option {c : Option (Smaller e)} {op : Option Op} (h : X.OptionSound env t op c)
    (hc : ∀ d ∈ c.toList, d ∈ whole.onScene) (hop : ∀ o ∈ op.toList, o ∈ node.parts) :
    Option.Rel (fun op (c : Smaller e) => X.Within roles views (op.eval X.host x)
      (c.1.meaning X.semantics s)) op c :=
  rel_imp_both h fun o ho d hd h => st.here h (hc d hd) (hop o ho)

end Stage

section Fold

variable {p : Worlds σ} {host : Host σ} {x : Value}

theorem mapM_foldAll {ops : List Op} {cs : List β} {f : β → Result}
    (h : List.Forall₂ (fun op c => Yields p p (op.eval host x) (f c)) ops cs) :
    Yields p p ((foldAll (OpNode.evaluate host) ops).mapM (· x)) (cs.mapM f) := by
  rw [foldAll_eq]
  refine Yields.mapM ?_
  rw [List.forall₂_map_left_iff]
  exact h

theorem forall₂_foldAll {ops : List Op} {cs : List β} {f : β → Result}
    (h : List.Forall₂ (fun op c => Yields p p (op.eval host x) (f c)) ops cs) :
    List.Forall₂ (fun m r => Yields p p (m x) r) (foldAll (OpNode.evaluate host) ops)
    (cs.map f) := by
  rw [foldAll_eq, List.forall₂_map_left_iff, List.forall₂_map_right_iff]
  exact h

theorem rel_foldOption {op : Option Op} {c : Option β} {f : β → Result}
    (h : Option.Rel (fun op c => Yields p p (op.eval host x) (f c)) op c) :
    Option.Rel (fun m r => Yields p p (m x) r) (foldOption (OpNode.evaluate host) op)
    (c.map f) := by
  cases h with
  | none => exact .none
  | some h => exact .some h

end Fold

/-- A pure function answers as the semantics says. -/
theorem call {roles : ValueRoles} {views : Views} {f : Function} (hf : f.isPure = true)
    (args : List Value) :
    X.Within roles views (Eval.call X.host f args) (X.semantics.function f args) := by
  intro w hw
  rw [run_call]
  exact ⟨X.describes f args w.host hf, X.stays f args w.host hf hw.host, hw.params, hw.slots,
    hw.groups, hw.kept, hw.memo, hw.view⟩

/-- The input is what the scene says. -/
theorem within_input {op : Op} {roles : ValueRoles} {views : Views} {x : Value} {a : Analysis}
    {s : Scene} (h : InputGives env op) (sees : X.Sees env roles views x a s)
    (clear : X.Clear roles op) : X.Within roles views (op.eval X.host x) s.input := by
  cases h with
  | value h =>
    rw [sees.finds.input h]
    exact .pure x (.refl _)
  | inline h => exact sees.finds.computed op h _ (.refl _) clear

/-! ### Nodes that are evaluated in place -/

section InPlace

variable (he : X.Orderly e)
include he

omit he in
theorem sound_input {op : Op} (hnode : e.parts = .input) (h : InputGives env op) :
    X.NodeSound env t op e := by
  refine ⟨fun sees clear _ => ?_⟩
  rw [hnode]
  exact within_input h sees clear

theorem sound_constant {name : String} {v : Value} (hnode : e.parts = .constant v) :
    X.NodeSound env t (.mk (.const name v)) e :=
  .of he hnode fun _ => .pure v (.refl _)

theorem sound_parameter {name : String} {index : Nat} (hnode : e.parts = .parameter name) :
    X.NodeSound env t (.mk (.param index name)) e := by
  refine .of he hnode fun {_ _ _ s} st => ?_
  obtain ⟨a, hindex⟩ := st.clear.reach
  change X.Within _ _ _ (.ok (s.param name))
  refine ofFrame (k := fun fr => pure (fr.param index)) fun w hw => ?_
  rw [Frame.param, hw.params, st.sees.finds.param, param, Signature.valueOf,
    show X.room.params.indexOf? name = some index from hindex]
  rfl

theorem sound_access {source : Smaller e} {path : List (PathStep (Smaller e))}
    {default : Option (Smaller e)} {op : Op} {steps : List (Step Op)} {fallback : Option Op}
    (hnode : e.parts = .access source path default) (hsource : X.Sound env t op source.1)
    (hsteps : List.Forall₂ (X.StepSound env t) steps path)
    (hdefault : X.OptionSound env t fallback default) :
    X.NodeSound env t (.mk (.access op steps fallback)) e := by
  refine .of he hnode fun {roles views x s} st => ?_
  have taken : List.Forall₂ (Yields.OfStep (X.Holds roles views) x)
      (foldSteps (OpNode.evaluate X.host) steps)
      (path.map (PathStep.map fun c => c.1.meaning X.semantics s)) := by
    rw [foldSteps_eq, List.forall₂_map_left_iff, List.forall₂_map_right_iff]
    refine forall₂_imp_both hsteps fun step hstep k hk h => ?_
    cases h with
    | attr => exact .attr
    | @key op c h =>
      refine .key (st.here h ?_ ?_)
      · simp only [Node.onScene, Node.children, List.mem_cons, List.mem_append, List.mem_flatMap]
        exact .inl (.inr ⟨_, hk, List.mem_cons_self⟩)
      · simp only [OpNode.parts, List.mem_cons, List.mem_append, List.mem_flatMap]
        exact .inr (.inl ⟨_, hstep, List.mem_cons_self⟩)
  have absent := st.option hdefault (fun c hc => List.mem_append_right _ hc)
    fun op hop => List.mem_cons_of_mem _ (List.mem_append_right _ hop)
  exact (st.here hsource List.mem_cons_self List.mem_cons_self).bind fun v =>
    Yields.follow (rel_foldOption absent) taken v

theorem sound_call {name : String} {f : Function} {args : List (Smaller e)} {ops : List Op}
    (hnode : e.parts = .call f args) (h : X.AllSound env t ops args) :
    X.NodeSound env t (.mk (.call name f ops)) e := by
  have hpure : f.isPure = true := by
    have ha := Expr.analysis_parts he.analyzed
    rw [hnode] at ha
    simp only [Node.map, Node.analysis, Analysis.cost, Analysis.bind_eq_ok] at ha
    obtain ⟨a, -, constants, -, weight, -, ha⟩ := ha
    have himpure := (Analysis.hasSideEffects_eq_false.mp he.effects).1
    rw [← Except.ok.inj ha] at himpure
    simpa using (Bool.or_eq_false_iff.mp himpure).2
  refine .of he hnode fun st => ?_
  exact (mapM_foldAll (st.all h (fun _ h => h) fun _ h => h)).bind fun values => call hpure values

theorem sound_builtin {f : Builtin} {args : List (Smaller e)} {ops : List Op}
    (hnode : e.parts = .builtin f args) (h : X.AllSound env t ops args) :
    X.NodeSound env t (.mk (.builtin f ops)) e := by
  refine .of he hnode fun st => ?_
  exact (mapM_foldAll (st.all h (fun _ h => h) fun _ h => h)).bind fun values =>
    .lift (f.apply values) (.refl _)

theorem sound_binary {f : BinaryOp} {left right : Smaller e} {l r : Op}
    (hnode : e.parts = .binary f left right) (hleft : X.Sound env t l left.1)
    (hright : X.Sound env t r right.1) : X.NodeSound env t (.mk (.binary f l r)) e := by
  refine .of he hnode fun st => ?_
  refine (st.here hleft List.mem_cons_self List.mem_cons_self).bind fun a => ?_
  refine (st.here hright ?_ ?_).bind fun b => .lift (f.apply a b) (.refl _)
  · exact List.mem_cons_of_mem _ List.mem_cons_self
  · exact List.mem_cons_of_mem _ List.mem_cons_self

theorem sound_unary {f : UnaryOp} {operand : Smaller e} {op : Op}
    (hnode : e.parts = .unary f operand) (h : X.Sound env t op operand.1) :
    X.NodeSound env t (.mk (.unary f op)) e := by
  refine .of he hnode fun st => ?_
  exact (st.here h List.mem_cons_self List.mem_cons_self).bind fun v =>
    .lift (f.apply v) (.refl _)

theorem sound_and {items : List (Smaller e)} {ops : List Op} (hnode : e.parts = .and items)
    (h : X.AllSound env t ops items) : X.NodeSound env t (.mk (.and ops)) e :=
  .of he hnode fun st =>
    Yields.shortCircuit (forall₂_foldAll (st.all h (fun _ h => h) fun _ h => h)) (.bool true)

theorem sound_or {items : List (Smaller e)} {ops : List Op} (hnode : e.parts = .or items)
    (h : X.AllSound env t ops items) : X.NodeSound env t (.mk (.or ops)) e :=
  .of he hnode fun st =>
    Yields.shortCircuit (forall₂_foldAll (st.all h (fun _ h => h) fun _ h => h)) (.bool false)

theorem sound_collection {kind : CollectionKind} {items : List (Smaller e)} {ops : List Op}
    (hnode : e.parts = .collection kind items) (h : X.AllSound env t ops items) :
    X.NodeSound env t (.mk (.collection kind ops)) e := by
  refine .of he hnode fun st => ?_
  exact (mapM_foldAll (st.all h (fun _ h => h) fun _ h => h)).bind fun values =>
    .pure (kind.build values) (.refl _)

theorem sound_dict {pairs : List (Smaller e × Smaller e)} {ops : List (Op × Op)}
    (hnode : e.parts = .dict pairs) (h : List.Forall₂ (X.PairSound env t) ops pairs) :
    X.NodeSound env t (.mk (.dict ops)) e := by
  refine .of he hnode fun {roles views x s} st => ?_
  have entry : List.Forall₂ (fun (o : Op × Op) (p : Smaller e × Smaller e) =>
      X.Within roles views (do
        let k ← o.1.eval X.host x
        let v ← o.2.eval X.host x
        return (k, v)) (do
        let k ← p.1.1.meaning X.semantics s
        let v ← p.2.1.meaning X.semantics s
        return (k, v))) ops pairs := by
    refine forall₂_imp_both h fun o ho p hp h => ?_
    have part {op : Op} {c : Smaller e} (h : X.Sound env t op c.1) (hop : op ∈ [o.1, o.2])
        (hc : c ∈ [p.1, p.2]) := st.here h (List.mem_flatMap.mpr ⟨p, hp, hc⟩)
      (List.mem_flatMap.mpr ⟨o, ho, hop⟩)
    refine (part h.key List.mem_cons_self List.mem_cons_self).bind fun k => ?_
    refine (part h.value ?_ ?_).bind fun v => .pure (k, v) (.refl _)
    · exact List.mem_cons_of_mem _ List.mem_cons_self
    · exact List.mem_cons_of_mem _ List.mem_cons_self
  refine Yields.bind ?_ fun entries => .pure (Value.ofDict entries) (.refl _)
  rw [foldPairs_eq]
  refine Yields.mapM ?_
  rw [List.forall₂_map_left_iff]
  exact entry

theorem sound_conditional {condition yes no : Smaller e} {c y n : Op}
    (hnode : e.parts = .conditional condition yes no) (hcondition : X.Sound env t c condition.1)
    (hyes : X.Sound env t y yes.1) (hno : X.Sound env t n no.1) :
    X.NodeSound env t (.mk (.cond c y n)) e := by
  refine .of he hnode fun st => ?_
  refine (st.here hcondition List.mem_cons_self List.mem_cons_self).bind fun v => ?_
  refine .ite _ (st.here hyes ?_ ?_) (st.here hno ?_ ?_)
  · exact List.mem_cons_of_mem _ List.mem_cons_self
  · exact List.mem_cons_of_mem _ List.mem_cons_self
  · exact List.mem_cons_of_mem _ (List.mem_cons_of_mem _ List.mem_cons_self)
  · exact List.mem_cons_of_mem _ (List.mem_cons_of_mem _ List.mem_cons_self)

/-- A guarded expression without handlers is its body. -/
theorem sound_unguarded {body : Smaller e} {op : Op} (hnode : e.parts = .guarded body [])
    (h : X.Sound env t op body.1) : X.NodeSound env t op e := by
  refine ⟨fun {roles views x s} sees clear binds => ?_⟩
  have part : e.parts.Evaluates .same body := by
    rw [hnode]
    exact .here (List.mem_singleton_self body)
  have meaning : (Node.guarded body []).meaning (fun c => c.1.meaning X.semantics) s X.semantics =
      body.1.meaning X.semantics s := by
    change rescue (body.1.meaning X.semantics s) (fun _ => none) = _
    cases body.1.meaning X.semantics s <;> rfl
  rw [hnode, meaning]
  have covers := (Expr.covers_part he.analyzed he.candid part).2
  exact h.yields (sees.same (.refl _) covers) clear binds

theorem sound_caught {b : Binding} (hnode : e.parts = .caught) (hb : env.caught = some b) :
    X.NodeSound env t (.mk (.caught b)) e := by
  refine .of he hnode fun {_ _ _ s} st => ?_
  have hread : e.analysis.readsCaught = true := by
    have ha := Expr.analysis_parts he.analyzed
    rw [hnode] at ha
    exact (congrArg Analysis.readsCaught (Except.ok.inj ha)).symm
  obtain ⟨v, hv, hs⟩ := st.sees.caught hread b hb
  change X.Within _ _ _ (s.caught.elim (Except.error (Error.unboundLabel "caught")) Except.ok)
  rw [hs]
  refine ofFrame (k := fun fr => pure ((fr.slot? b.slot).getD .null)) fun w hw => ?_
  rw [hw.kept _ _ hv]
  rfl

/-- A row of a join that is in place. -/
theorem sound_row (row : Scene → Option Value) {b : Binding} {side : JoinSide}
    (hnode : e.parts = .joinRow side)
    (hmeaning : ∀ s v, row s = some v →
      (Node.joinRow side).meaning (fun c : Smaller e => c.1.meaning X.semantics) s X.semantics =
        .ok v)
    (hrow : ∀ {roles views x s}, X.Sees env roles views x e.analysis s →
      ∃ v, roles b.slot = .kept v ∧ row s = some v) :
    X.NodeSound env t (.mk (.register b)) e := by
  refine .of he hnode fun {_ _ _ s} st => ?_
  obtain ⟨v, hv, hs⟩ := hrow st.sees
  rw [hmeaning s v hs]
  exact readSlot hv

theorem sound_leftRow {j : JoinEnv} (hnode : e.parts = .joinRow .left)
    (hj : env.join = some j) : X.NodeSound env t (.mk (.register j.left)) e := by
  have hread : e.analysis.sides.left = true := by
    have ha := Expr.analysis_parts he.analyzed
    rw [hnode] at ha
    exact (congrArg (fun a => a.sides.left) (Except.ok.inj ha)).symm
  refine sound_row he Scene.left hnode (fun s v hs => ?_) fun sees => sees.rows.left hread j hj
  change s.left.elim _ _ = _
  rw [hs]
  rfl

theorem sound_rightRow {j : JoinEnv} (hnode : e.parts = .joinRow .right)
    (hj : env.join = some j) : X.NodeSound env t (.mk (.register j.right)) e := by
  have hread : e.analysis.sides.right = true := by
    have ha := Expr.analysis_parts he.analyzed
    rw [hnode] at ha
    exact (congrArg (fun a => a.sides.right) (Except.ok.inj ha)).symm
  refine sound_row he Scene.right hnode (fun s v hs => ?_) fun sees =>
    sees.rows.right hread j hj
  change s.right.elim _ _ = _
  rw [hs]
  rfl

theorem sound_reducer {red : Reducer (Smaller e)} {aggregate : AggregateEnv} {index : Nat}
    {op : Op} (hnode : e.parts = .reducer red) (haggregate : env.aggregate = some aggregate)
    (hindex : (aggregate.slots.findIdx? fun slot => slot.sameSlot (Smaller.plain red)) =
      some index)
    (h : X.FallbackSound env t red op) :
    X.NodeSound env t (.mk (.slotValue aggregate.group index op)) e := by
  refine .of he hnode fun {roles views x s} st => ?_
  obtain ⟨-, group, hview, hs⟩ := st.sees.finds.output _ haggregate
  have hslot : (s.output.bind fun view => view.slot? (Smaller.plain red)) =
      some group.values[index]?.join := by
    rw [hs, Option.bind_some, AggregateEnv.view]
    split <;> simp [OutputView.nested, OutputView.ofGroup, hindex]
  have fallback : X.Within roles views (op.eval X.host x)
      (red.fallback (fun c => c.1.meaning X.semantics) s) := by
    rw [Reducer.fallback]
    cases h with
    | @default d _ hdefault h =>
      rw [hdefault]
      refine st.here h (List.mem_append_left _ ?_) List.mem_cons_self
      rw [hdefault]
      exact List.mem_cons_self
    | @initial c _ hdefault hinitial h =>
      rw [hdefault, hinitial]
      refine st.here h (List.mem_append_right _ ?_) List.mem_cons_self
      rw [Option.eq_some_of_filter_eq_some hinitial]
      exact List.mem_cons_self
    | static hdefault hinitial =>
      rw [hdefault, hinitial]
      exact .pure _ (.refl _)
  change X.Within roles views _ (red.meaning (fun c => c.1.meaning X.semantics) s)
  rw [Reducer.meaning, hslot]
  refine (currentGroup hview).after ?_
  cases group.values[index]?.join with
  | some v => exact .pure v (.refl _)
  | none => exact fallback

end InPlace

/-! ### Pipes -/

section Pipes

variable {p : Expr} {roles : ValueRoles} {views : Views} {x : Value} {s : Scene} {input : Input}

/-- The consumer of a producer that is known by its shape comes after this producer. -/
theorem producers_consumer (hkey : NodeKey.of p p.analysis = .shape p p.size rfl) :
    (env.consumer p input).context.producers =
      [p.rename fun _ => 0] ++ env.context.producers := by
  rw [Env.consumer, hkey]
  rfl

variable (binds : X.Binds env t roles views x s) (hp : p.Mild X.registry)
  (hread : p.analysis.readsCaught = false) (rows : Rows env.join roles p.analysis s)
include binds hp hread rows

theorem Binds.inlined (mode : X.inline p = true) :
    X.Binds (env.consumer p input) t roles views x (s.within (p.meaning X.semantics s)) := by
  rw [← p.meaning_rename fun _ => 0]
  refine binds.along (.refl _) (.inlined .here ?_ ((hp.steady hread _).rename _) ?_) rfl
    (producers_consumer (hp.nodeKey_eq hread))
  · rw [X.inline_rename]
    exact mode
  · rw [Expr.analysis_rename]
    exact rows

theorem Binds.piped (mode : X.inline p = false) {v : Value}
    (value : p.meaning X.semantics s = .ok v) :
    X.Binds (env.consumer p input) t roles views v (s.within (.ok v)) := by
  refine binds.along (.refl _) (.piped .here ?_ ((hp.steady hread _).rename _) ?_ ?_) rfl
    (producers_consumer (hp.nodeKey_eq hread))
  · rw [X.inline_rename]
    exact mode
  · rw [Expr.analysis_rename]
    exact rows
  · rw [Expr.meaning_rename]
    exact value

end Pipes

section Pipe

variable {producer consumer : Smaller e} {p op : Op} (he : X.Orderly e)
  (hnode : e.parts = .pipe producer consumer)
include he hnode

/-- A producer is evaluated where its pipe is, and does not read the error that is handled there. -/
theorem producer_part : producer.1.Mild X.registry ∧ producer.1.analysis.readsCaught = false ∧
    Shift.Covers e.analysis producer.1.analysis .same := by
  have part : e.parts.Evaluates .same producer := by
    rw [hnode]
    exact .here (List.mem_singleton_self producer)
  obtain ⟨hwithin, covers⟩ := Expr.covers_part he.analyzed he.candid part
  refine ⟨he.toMild.within hwithin, he.uncaught e (.refl e) producer.1 consumer.1 ?_, covers⟩
  rw [← Expr.map_parts, hnode]
  rfl

theorem consumer_part (result : Result) :
    Shift.Covers e.analysis consumer.1.analysis (.within result) := by
  have part : e.parts.Evaluates (.within result) consumer := by
    rw [hnode]
    exact .consumer
  exact (Expr.covers_part he.analyzed he.candid part).2

theorem inlines_part : X.semantics.inlines producer.1 consumer.1 = X.inline producer.1 := by
  refine he.meant e (.refl e) producer.1 consumer.1 ?_
  rw [← Expr.map_parts, hnode]
  rfl

variable (hproducer : X.Sound env t p producer.1)
include hproducer

/-- A producer that is computed at each use of the input. -/
theorem sound_inlined (mode : X.inline producer.1 = true)
    (hconsumer : X.Sound (env.consumer producer.1 (.inline p)) t op consumer.1) :
    X.NodeSound env t op e := by
  refine ⟨fun {roles views x s} sees clear binds => ?_⟩
  obtain ⟨hp, hread, covers⟩ := producer_part he hnode
  have covered := consumer_part he hnode (producer.1.meaning X.semantics s)
  have rows := (sees.same (.refl _) covers).rows
  have meaning : (Node.pipe producer consumer).meaning (fun c => c.1.meaning X.semantics) s
      X.semantics = consumer.1.meaning X.semantics
      (s.within (producer.1.meaning X.semantics s)) := by
    rw [Node.meaning, inlines_part he hnode, if_pos mode]
  rw [hnode, meaning]
  have supplied : X.Supplies roles views p x (producer.1.meaning X.semantics s) := by
    intro roles' hle clear'
    exact hproducer.yields (sees.same hle covers) clear' (binds.grow hle)
  exact hconsumer.yields (sees.consumer (.refl _) covered (sees.finds.inlined producer.1 supplied))
    clear (binds.inlined hp hread rows mode)

/-- A producer that is computed once before the consumer. -/
theorem sound_piped (mode : X.inline producer.1 = false)
    (hconsumer : X.Sound (env.consumer producer.1 .value) t op consumer.1) :
    X.NodeSound env t (.mk (.pipe p op)) e := by
  refine .of he hnode fun {roles views x s} st => ?_
  obtain ⟨hp, hread, covers⟩ := producer_part he hnode
  have rows := (st.sees.same (.refl _) covers).rows
  have produced := st.here hproducer (List.mem_singleton_self producer) List.mem_cons_self
  rw [Node.meaning, inlines_part he hnode, if_neg (by simp [mode])]
  refine produced.bindOk (fun v value => ?_) (.refl _)
  have covered := consumer_part he hnode (.ok v)
  exact hconsumer.yields (st.sees.consumer (.refl _) covered (st.sees.finds.piped producer.1 v))
    (st.clear.part (fun _ _ => rfl) (List.mem_cons_of_mem _ List.mem_cons_self))
    (st.binds.piped hp hread rows mode value)

end Pipe
end Execution
end DataExpr
