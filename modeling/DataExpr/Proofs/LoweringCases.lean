import DataExpr.Lowering.Lower

/-!
# What lowering can do

Lowering an expression hands out names and places, changes what is known about labels and
gives an operation.  `lower_cases` says once what a successful emission can have done: it
took the key of a group, it read a binding that was there, it made a new binding, or it
lowered the node in place.  `NodeGives` has one case for each kind of node.  Every later
statement about lowered programs is an induction over the size of the expression that
takes these cases apart.
-/

namespace DataExpr.Lowering

variable {α β : Type}

/-! ### Successful steps -/

/-- A step that succeeds in a state, with its result and the state after it. -/
def Gives (m : M α) (s : State) (a : α) (s' : State) : Prop := m.run s = .ok (a, s')

theorem gives_pure {a b : α} {s s' : State} : Gives (pure a) s b s' ↔ b = a ∧ s' = s := by
  constructor
  · intro h
    cases h
    exact ⟨rfl, rfl⟩
  · rintro ⟨rfl, rfl⟩
    rfl

theorem gives_bind {m : M α} {f : α → M β} {s s' : State} {b : β} :
    Gives (m >>= f) s b s' ↔ ∃ a s₁, Gives m s a s₁ ∧ Gives (f a) s₁ b s' := by
  unfold Gives
  rw [StateT.run_bind]
  cases h : m.run s with
  | error e =>
    constructor
    · intro h'
      cases h'
    · rintro ⟨a, s₁, h', -⟩
      cases h'
  | ok p =>
    constructor
    · intro h'
      exact ⟨p.1, p.2, rfl, h'⟩
    · rintro ⟨a, s₁, h', hf⟩
      cases h'
      exact hf

theorem not_gives_throw {err : CompileError} {a : α} {s s' : State} :
    ¬Gives (throw err) s a s' := by
  intro h
  cases h

theorem gives_get {s s' t : State} : Gives get s t s' ↔ t = s ∧ s' = s := by
  constructor
  · intro h
    cases h
    exact ⟨rfl, rfl⟩
  · rintro ⟨rfl, rfl⟩
    rfl

theorem gives_modify {f : State → State} {s s' : State} {u : Unit} :
    Gives (modify f) s u s' ↔ s' = f s := by
  constructor
  · intro h
    cases h
    rfl
  · rintro rfl
    rfl

theorem gives_lift {r : Except CompileError α} {s s' : State} {a : α} :
    Gives (liftM r : M α) s a s' ↔ r = .ok a ∧ s' = s := by
  cases r with
  | error e =>
    constructor
    · intro h
      cases h
    · rintro ⟨h, -⟩
      cases h
  | ok b =>
    constructor
    · intro h
      cases h
      exact ⟨rfl, rfl⟩
    · rintro ⟨h, rfl⟩
      cases h
      rfl

theorem gives_set {t s s' : State} {u : PUnit} : Gives (set t) s u s' ↔ s' = t := by
  constructor
  · intro h
    cases h
    rfl
  · rintro rfl
    rfl

theorem gives_assigned {s s' : State} {names : NameSet} :
    Gives assigned s names s' ↔ names = s.assigned ∧ s' = s := by
  simp only [assigned, gives_bind, gives_get, gives_pure]
  constructor
  · rintro ⟨_, _, ⟨rfl, rfl⟩, rfl, rfl⟩
    exact ⟨rfl, rfl⟩
  · rintro ⟨rfl, rfl⟩
    exact ⟨_, _, ⟨rfl, rfl⟩, rfl, rfl⟩

theorem gives_setAssigned {names : NameSet} {s s' : State} {u : Unit} :
    Gives (setAssigned names) s u s' ↔ s' = { s with assigned := names } := gives_modify

theorem gives_get_bind {f : State → M β} {s s' : State} {b : β} :
    Gives (get >>= f) s b s' ↔ Gives (f s) s b s' := Iff.rfl

theorem gives_assigned_bind {f : NameSet → M β} {s s' : State} {b : β} :
    Gives (assigned >>= f) s b s' ↔ Gives (f s.assigned) s b s' := Iff.rfl

/-! ### Several steps -/

/-- Steps for the elements of a list, one after the other. -/
inductive Sequence (R : α → State → β → State → Prop) :
    List α → State → List β → State → Prop
  | nil {s : State} : Sequence R [] s [] s
  | cons {a : α} {as : List α} {b : β} {bs : List β} {s s₁ s' : State} (head : R a s b s₁)
      (tail : Sequence R as s₁ bs s') : Sequence R (a :: as) s (b :: bs) s'

/-- A step for an optional element. -/
inductive Optional (R : α → State → β → State → Prop) :
    Option α → State → Option β → State → Prop
  | none {s : State} : Optional R none s none s
  | some {a : α} {b : β} {s s' : State} (h : R a s b s') : Optional R (some a) s (some b) s'

theorem gives_mapM {f : α → M β} {as : List α} {bs : List β} {s s' : State} :
    Gives (as.mapM f) s bs s' ↔ Sequence (fun a => Gives (f a)) as s bs s' := by
  induction as generalizing s s' bs with
  | nil =>
    rw [List.mapM_nil, gives_pure]
    constructor
    · rintro ⟨rfl, rfl⟩
      exact .nil
    · intro h
      cases h
      exact ⟨rfl, rfl⟩
  | cons a as ih =>
    rw [List.mapM_cons]
    simp only [gives_bind, gives_pure, ih]
    constructor
    · rintro ⟨b, s₁, hb, bs, s₂, hbs, rfl, rfl⟩
      exact .cons hb hbs
    · intro h
      cases h with
      | cons head tail => exact ⟨_, _, head, _, _, tail, rfl, rfl⟩

theorem gives_mapM_option {f : α → M β} {a : Option α} {b : Option β} {s s' : State} :
    Gives (a.mapM f) s b s' ↔ Optional (fun a => Gives (f a)) a s b s' := by
  cases a with
  | none =>
    constructor
    · intro h
      obtain ⟨rfl, rfl⟩ := gives_pure.mp (show Gives (pure none) s b s' from h)
      exact .none
    · intro h
      cases h
      rfl
  | some a =>
    have hmap : Gives ((some a).mapM f) s b s' ↔
        Gives (f a >>= fun b => pure (some b)) s b s' := Iff.rfl
    rw [hmap]
    simp only [gives_bind, gives_pure]
    constructor
    · rintro ⟨b, s₁, hb, rfl, rfl⟩
      exact .some hb
    · intro h
      cases h with
      | some h => exact ⟨_, _, h, rfl, rfl⟩

namespace Sequence

variable {γ : Type} {R : α → State → β → State → Prop} {as : List α} {bs : List β}
  {s s' : State}

/-- Steps of which each is one of another kind as well. -/
theorem imp {Q : α → State → γ → State → Prop} {f : γ → β} {cs : List γ}
    (h : Sequence Q as s cs s') (hQ : ∀ a ∈ as, ∀ s c s', Q a s c s' → R a s (f c) s') :
    Sequence R as s (cs.map f) s' := by
  induction h with
  | nil => exact .nil
  | cons head _ ih =>
    refine .cons (hQ _ List.mem_cons_self _ _ _ head) (ih fun a ha => ?_)
    exact hQ a (List.mem_cons_of_mem _ ha)

end Sequence

/-! ### Names and places -/

/-- A new slot is the first one that was free. -/
theorem gives_freshSlot {stem : String} {s s' : State} {b : Binding}
    (h : Gives (freshSlot stem) s b s') :
    b.slot = s.supply.slots ∧ ∃ n, s' = { s with
      supply := { s.supply with slots := s.supply.slots + 1, counter := n } } := by
  cases h
  exact ⟨rfl, _, rfl⟩

theorem gives_freshName {stem name : String} {s s' : State}
    (h : Gives (freshName stem) s name s') :
    ∃ n, s' = { s with supply := { s.supply with counter := n } } := by
  cases h
  exact ⟨_, rfl⟩

/-- Naming a constant changes nothing but the names. -/
theorem gives_constantName {value : Value} {name : String} {s s' : State}
    (h : Gives (constantName value) s name s') :
    ∃ n cs, s' = { s with supply := { s.supply with counter := n, constants := cs } } := by
  unfold constantName at h
  simp only [gives_bind, gives_get] at h
  obtain ⟨_, s, ⟨rfl, rfl⟩, h⟩ := h
  cases hc : s.supply.constants.find? (fun c => c.2 == value) with
  | some c =>
    rw [hc] at h
    obtain ⟨-, rfl⟩ := gives_pure.mp h
    exact ⟨_, _, rfl⟩
  | none =>
    rw [hc] at h
    cases h
    exact ⟨_, _, rfl⟩

/-- The slot of a label is the one it has, or else the first one that was free. -/
theorem gives_labelSlot {name : String} {s s' : State} {b : Binding}
    (h : Gives (labelSlot name) s b s') :
    ((name, b) ∈ s.supply.labels ∧ s' = s) ∨
      (b = ⟨s.supply.slots, "label_" ++ name⟩ ∧ (∀ l ∈ s.supply.labels, l.1 ≠ name) ∧
        s' = { s with supply := { s.supply with
          slots := s.supply.slots + 1, labels := s.supply.labels ++ [(name, b)] } }) := by
  unfold labelSlot at h
  simp only [gives_bind, gives_get] at h
  obtain ⟨_, s, ⟨rfl, rfl⟩, h⟩ := h
  cases hl : s.supply.labels.find? (fun l => l.1 == name) with
  | some l =>
    rw [hl] at h
    obtain ⟨rfl, rfl⟩ := gives_pure.mp h
    have hname : l.1 = name := by simpa using List.find?_some hl
    refine .inl ⟨?_, rfl⟩
    rw [← hname]
    exact List.mem_of_find?_eq_some hl
  | none =>
    rw [hl] at h
    cases h
    refine .inr ⟨rfl, fun l hmem => ?_, rfl⟩
    simpa using List.find?_eq_none.mp hl l hmem

theorem gives_freshGroup {s s' : State} {g : Nat} (h : Gives freshGroup s g s') :
    g = s.supply.groups ∧
      s' = { s with supply := { s.supply with groups := s.supply.groups + 1 } } := by
  cases h
  exact ⟨rfl, rfl⟩

/-- A parameter has the position of its name in the signature, to which it is added if it
    is not declared. -/
theorem gives_paramIndex {name : String} {s s' : State} {index : Nat}
    (h : Gives (paramIndex name) s index s') :
    (s.supply.signature.indexOf? name = some index ∧ s' = s) ∨
      (s.supply.signature.indexOf? name = none ∧ index = s.supply.signature.length ∧
        s' = { s with supply := { s.supply with
          signature := s.supply.signature ++ [⟨name, none⟩] } }) := by
  unfold paramIndex at h
  simp only [gives_bind, gives_get] at h
  obtain ⟨_, s, ⟨rfl, rfl⟩, h⟩ := h
  cases hi : s.supply.signature.indexOf? name with
  | some i =>
    rw [hi] at h
    obtain ⟨rfl, rfl⟩ := gives_pure.mp h
    exact .inl ⟨rfl, rfl⟩
  | none =>
    rw [hi] at h
    cases h
    exact .inr ⟨rfl, rfl, rfl⟩

/-! ### Parts that do not count afterwards -/

theorem gives_contained {part : M α} {s s' : State} {a : α} :
    Gives (contained part) s a s' ↔
      ∃ s₁, Gives part s a s₁ ∧ s' = { s₁ with assigned := s.assigned } := by
  simp only [contained, gives_bind, gives_assigned, gives_setAssigned, gives_pure]
  constructor
  · rintro ⟨_, _, ⟨rfl, rfl⟩, a, s₁, h, _, _, rfl, rfl, rfl⟩
    exact ⟨s₁, h, rfl⟩
  · rintro ⟨s₁, h, rfl⟩
    exact ⟨_, _, ⟨rfl, rfl⟩, a, s₁, h, (), _, rfl, rfl, rfl⟩

/-- The scope of the bindings that a state has. -/
def State.scope (s : State) : Scope Op := ⟨s.bound.map fun b => ⟨b.binding, b.definition⟩⟩

theorem State.resets_scope (s : State) : s.scope.resets = s.bound.map fun b => b.binding.slot := by
  simp [scope, Scope.resets, Function.comp_def]

/-- The surroundings in a scope of its own. -/
def Env.enter (env : Env) (context : Context) (input : Input) : Env :=
  { env with context, input, mayBind := true }

/-- The state at the start of a scope. -/
def State.enter (s : State) : State := { s with bound := [] }

/-- The state after a scope, given the one in which it was entered. -/
def State.leave (s outer : State) : State :=
  { s with bound := outer.bound, assigned := outer.assigned }

theorem gives_inScope {env : Env} {context : Context} {input : Input} {part : Env → M α}
    {s s' : State} {r : Scope Op × α} :
    Gives (inScope env context input part) s r s' ↔
      ∃ s₁, Gives (part (env.enter context input)) s.enter r.2 s₁ ∧ r.1 = s₁.scope ∧
        s' = s₁.leave s := by
  obtain ⟨scope, a⟩ := r
  simp only [inScope, gives_bind, gives_get, gives_set, gives_pure, Prod.mk.injEq]
  constructor
  · rintro ⟨_, _, ⟨rfl, rfl⟩, _, _, rfl, a, _, h, _, s₁, ⟨rfl, rfl⟩, _, _, rfl, ⟨rfl, rfl⟩, rfl⟩
    exact ⟨s₁, h, rfl, rfl⟩
  · rintro ⟨s₁, h, rfl, rfl⟩
    exact ⟨s, s, ⟨rfl, rfl⟩, ⟨⟩, _, rfl, a, s₁, h, s₁, s₁, ⟨rfl, rfl⟩, ⟨⟩, _, rfl,
      ⟨rfl, rfl⟩, rfl⟩

/-! ### One case for each kind of node -/

section Cases

variable {root : Expr}

/-- The operation of a smaller expression. -/
def Lowers (env : Env) (c : Smaller root) (s : State) (op : Op) (s' : State) : Prop :=
  Gives (lower c.1 env) s op s'

/-- The operation of a smaller expression whose labels do not count afterwards. -/
def LowersContained (env : Env) (c : Smaller root) (s : State) (op : Op) (s' : State) : Prop :=
  ∃ s₁, Lowers env c s op s₁ ∧ s' = { s₁ with assigned := s.assigned }

/-- Operands of which only the first one is certain to be evaluated. -/
inductive ShortCircuit (env : Env) :
    List (Smaller root) → State → List Op → State → Prop
  | nil {s : State} : ShortCircuit env [] s [] s
  | cons {c : Smaller root} {cs : List (Smaller root)} {s s₁ s₂ : State} {op : Op}
      {ops : List Op} (head : Lowers env c s op s₁) (tail : Sequence (Lowers env) cs s₁ ops s₂) :
      ShortCircuit env (c :: cs) s (op :: ops) { s₂ with assigned := s₁.assigned }

/-- A step of an access path. -/
inductive StepGives (env : Env) : PathStep (Smaller root) → State → Step Op → State → Prop
  | key {c : Smaller root} {s s' : State} {op : Op} (h : Lowers env c s op s') :
      StepGives env (.key c) s (.key op) s'
  | attr {name : String} {s : State} : StepGives env (.attr name) s (.attr name) s

/-- A key of a dictionary and its value. -/
def PairGives (env : Env) (p : Smaller root × Smaller root) (s : State) (ops : Op × Op)
    (s' : State) : Prop :=
  ∃ s₁, Lowers env p.1 s ops.1 s₁ ∧ Lowers env p.2 s₁ ops.2 s'

def SortKeyGives (env : Env) (k : SortKey (Smaller root)) (s : State) (op : SortKeyOp Op)
    (s' : State) : Prop :=
  Lowers env k.key s op.op s' ∧ op.order = k.order

/-- A handler, lowered where the labels `before` are set, and the labels it leaves. -/
def HandlerGives (env : Env) (before : NameSet) (h : Handler (Smaller root)) (s : State)
    (r : HandlerOp Op × NameSet) (s' : State) : Prop :=
  r.1.kinds = h.kinds ∧ r.2 = s'.assigned ∧ ∃ s₁,
    Optional (Lowers env) h.reraiseIf { s with assigned := before } r.1.reraiseIf s₁ ∧
      Lowers env h.value s₁ r.1.value s'

/-- What a reducer reports when no row qualified. -/
inductive FallbackGives (env : Env) (r : Reducer (Smaller root)) :
    State → Op → State → Prop
  | default {d : Smaller root} {s s' : State} {op : Op} (hdefault : r.default = some d)
      (h : LowersContained env d s op s') : FallbackGives env r s op s'
  | initial {c : Smaller root} {s s' : State} {op : Op} (hdefault : r.default = none)
      (hinitial : r.initial = some c) (huses : c.1.analysis.inputUses = 0)
      (h : LowersContained env c s op s') : FallbackGives env r s op s'
  | static {s s' : State} {name : String} (hdefault : r.default = none)
      (hinitial : ∀ c, r.initial = some c → c.1.analysis.inputUses ≠ 0)
      (h : Gives (constantName r.kind.staticDefault) s name s') :
      FallbackGives env r s (.mk (.const name r.kind.staticDefault)) s'

/-- The operations that feed a slot. -/
def SlotGives (env : Env) (r : Reducer (Smaller root)) (s : State) (op : SlotOp Op)
    (s' : State) : Prop :=
  op.kind = r.kind ∧ op.seedEmpty = r.initial.any (·.1.analysis.inputUses == 0) ∧ ∃ s₁ s₂,
    Optional (LowersContained env) r.filter s op.filter s₁ ∧
      Sequence (LowersContained env) r.args s₁ op.args s₂ ∧
      Optional (LowersContained env) r.initial s₂ op.initial s'

/-- The conjunction of some operations, or none if there are none. -/
def conjunctionOp : List Op → Option Op
  | [] => none
  | [op] => some op
  | ops => some (.mk (.and ops))

def ConjunctionGives (env : Env) (cs : List (Smaller root)) (s : State) (op : Option Op)
    (s' : State) : Prop :=
  ∃ ops s₁, Sequence (Lowers env) cs s ops s₁ ∧ op = conjunctionOp ops ∧
    s' = { s₁ with assigned := s.assigned }

/-- What is evaluated for each row of one side of a join. -/
def SideGives (context : Context) (join : JoinEnv) (keys filter : List (Smaller root)) (env : Env)
    (s : State) (op : JoinSideOp Op) (s' : State) : Prop :=
  ∃ s₁ s₂, Sequence (Lowers { env.enter context env.input with join := some join }) keys s.enter
      op.keys s₁ ∧
    ConjunctionGives { env.enter context env.input with join := some join } filter s₁ op.filter
      s₂ ∧
    op.scope = s₂.scope ∧ s' = s₂.leave s

/-- Whether the producer of a pipe is evaluated at each use of the consumer's input. -/
def inlines (threshold : Weight.Threshold) (producer consumer : Expr) : Bool :=
  !producer.analysis.hasSideEffects &&
    Weight.isSimple producer.analysis.weight consumer.analysis.inputUses threshold

/-- The surroundings of the consumer of a pipe. -/
def Env.consumer (env : Env) (producer : Expr) (input : Input) : Env :=
  { env with
    context := .part env.context (.of producer producer.analysis) .consumer
    mayBind := env.mayBind && !producer.analysis.readsLabels
    input }

/-- The input as an operation. -/
inductive InputGives (env : Env) : Op → Prop
  | value (h : env.input = .value) : InputGives env (.mk .input)
  | inline {producer : Op} (h : env.input = .inline producer) : InputGives env producer

/-- The surroundings of what an aggregate evaluates for each row. -/
def Env.row (env : Env) (key : NodeKey) : Env :=
  { env.enter (.part env.context key .row) .value with aggregate := none }

/-- The aggregate around its own output. -/
def AggregateEnv.of {root : Expr} (env : Env) (key : NodeKey) (group : Nat)
    (keys : List (Smaller root)) (reducers : List (Reducer (Smaller root))) : AggregateEnv :=
  { group, keys := keys.map (·.1), context := .part env.context key .output
    slots := reducers.map Smaller.plain }

/-- The surroundings of the output of an aggregate. -/
def Env.output (env : Env) (aggregate : AggregateEnv) : Env :=
  { env.enter aggregate.context .unavailable with aggregate := some aggregate }

/-- The surroundings of what a join checks for each pair of rows. -/
def Env.pair (env : Env) (key : NodeKey) (join : JoinEnv) : Env :=
  { env.enter (.part env.context key .pair) env.input with join := some join }

/-! Every part is lowered in the same pass as the whole. -/

section Pass

variable {env : Env} (h : env.pass = .emit)
include h

theorem Env.pass_enter {context : Context} {input : Input} :
    (env.enter context input).pass = .emit := h

theorem Env.pass_consumer {producer : Expr} {input : Input} :
    (env.consumer producer input).pass = .emit := h

theorem Env.pass_row {key : NodeKey} : (env.row key).pass = .emit := h

theorem Env.pass_output {aggregate : AggregateEnv} : (env.output aggregate).pass = .emit := h

theorem Env.pass_pair {key : NodeKey} {join : JoinEnv} : (env.pair key join).pass = .emit := h

theorem Env.pass_side {context : Context} {join : JoinEnv} :
    ({ env.enter context env.input with join := some join } : Env).pass = .emit := h

theorem Env.pass_handler {caught : Binding} :
    ({ env with caught := some caught } : Env).pass = .emit := h

end Pass

/-- What lowering in place can do with a node of an expression `e`, which is known by `key`:
    the operation that comes out and the state afterwards. -/
inductive NodeGives (e : Expr) (env : Env) (key : NodeKey) :
    Node (Smaller e) → State → Op → State → Prop
  | input {s : State} {op : Op} (h : InputGives env op) : NodeGives e env key .input s op s
  | constant {value : Value} {s s' : State} {name : String}
      (h : Gives (constantName value) s name s') :
      NodeGives e env key (.constant value) s (.mk (.const name value)) s'
  | parameter {name : String} {s s' : State} {index : Nat}
      (h : Gives (paramIndex name) s index s') :
      NodeGives e env key (.parameter name) s (.mk (.param index name)) s'
  | access {source : Smaller e} {path : List (PathStep (Smaller e))}
      {default : Option (Smaller e)} {s s₁ s₂ s' : State} {op : Op} {steps : List (Step Op)}
      {fallback : Option Op} (hsource : Lowers env source s op s₁)
      (hsteps : Sequence (StepGives env) path s₁ steps s₂)
      (hdefault : Optional (LowersContained env) default s₂ fallback s') :
      NodeGives e env key (.access source path default) s (.mk (.access op steps fallback)) s'
  | call {f : Function} {args : List (Smaller e)} {s s₁ s' : State} {name : String}
      {ops : List Op} (hname : Gives (constantName (.function f)) s name s₁)
      (hargs : Sequence (Lowers env) args s₁ ops s') :
      NodeGives e env key (.call f args) s (.mk (.call name f ops)) s'
  | builtin {f : Builtin} {args : List (Smaller e)} {s s' : State} {ops : List Op}
      (hargs : Sequence (Lowers env) args s ops s') :
      NodeGives e env key (.builtin f args) s (.mk (.builtin f ops)) s'
  | binary {f : BinaryOp} {left right : Smaller e} {s s₁ s' : State} {l r : Op}
      (hleft : Lowers env left s l s₁) (hright : Lowers env right s₁ r s') :
      NodeGives e env key (.binary f left right) s (.mk (.binary f l r)) s'
  | unary {f : UnaryOp} {operand : Smaller e} {s s' : State} {op : Op}
      (h : Lowers env operand s op s') :
      NodeGives e env key (.unary f operand) s (.mk (.unary f op)) s'
  | and {items : List (Smaller e)} {s s' : State} {ops : List Op}
      (h : ShortCircuit env items s ops s') :
      NodeGives e env key (.and items) s (.mk (.and ops)) s'
  | or {items : List (Smaller e)} {s s' : State} {ops : List Op}
      (h : ShortCircuit env items s ops s') :
      NodeGives e env key (.or items) s (.mk (.or ops)) s'
  | collection {kind : CollectionKind} {items : List (Smaller e)} {s s' : State} {ops : List Op}
      (h : Sequence (Lowers env) items s ops s') :
      NodeGives e env key (.collection kind items) s (.mk (.collection kind ops)) s'
  | dict {pairs : List (Smaller e × Smaller e)} {s s' : State} {ops : List (Op × Op)}
      (h : Sequence (PairGives env) pairs s ops s') :
      NodeGives e env key (.dict pairs) s (.mk (.dict ops)) s'
  | comprehension {kind : ComprehensionKind} {keyed filter : Option (Smaller e)}
      {element source : Smaller e} {s s₁ s₂ s₃ s₄ s₅ : State} {op elementOp : Op} {var : String}
      {filterOp keyedOp : Option Op} (hsource : Lowers env source s op s₁)
      (hvar : Gives (freshName "item") s₁ var s₂)
      (hfilter : Optional (Lowers (env.enter (.part env.context key .item) .value)) filter s₂.enter
        filterOp s₃)
      (hkeyed : Optional (Lowers (env.enter (.part env.context key .item) .value)) keyed s₃
        keyedOp s₄)
      (helement : Lowers (env.enter (.part env.context key .item) .value) element s₄ elementOp
        s₅) :
      NodeGives e env key (.comprehension kind keyed element source filter) s
        (.mk (.loop { kind, var, source := op, scope := s₅.scope, filter := filterOp
                      key := keyedOp, element := elementOp })) (s₅.leave s₂)
  | sort {source : Smaller e} {keys : List (SortKey (Smaller e))} {reverse : Bool}
      {s s₁ s₂ s₃ : State} {op : Op} {var : String} {keyOps : List (SortKeyOp Op)}
      (hsource : Lowers env source s op s₁) (hvar : Gives (freshName "item") s₁ var s₂)
      (hkeys : Sequence (SortKeyGives (env.enter (.part env.context key .sortItem) .value)) keys
        s₂.enter keyOps s₃) :
      NodeGives e env key (.sort source keys reverse) s
        (.mk (.sort { var, source := op, scope := s₃.scope, keys := keyOps, reverse }))
        (s₃.leave s₂)
  | unguarded {body : Smaller e} {s s' : State} {op : Op} (h : Lowers env body s op s') :
      NodeGives e env key (.guarded body []) s op s'
  | guarded {body : Smaller e} {handlers : List (Handler (Smaller e))} {s s₁ s₂ s₃ : State}
      {op : Op} {caught : Binding} {lowered : List (HandlerOp Op × NameSet)}
      (hne : handlers ≠ []) (hbody : Lowers env body s op s₁)
      (hcaught : Gives (freshSlot "exc") s₁ caught s₂)
      (hhandlers : Sequence (HandlerGives { env with caught := some caught } s.assigned) handlers
        s₂ lowered s₃) :
      NodeGives e env key (.guarded body handlers) s
        (.mk (.guarded { body := op, handlers := lowered.map (·.1), caught }))
        { s₃ with
          assigned := lowered.foldl (fun names h => NameSet.inter names h.2) s₁.assigned }
  | caught {binding : Binding} {s : State} (h : env.caught = some binding) :
      NodeGives e env key .caught s (.mk (.caught binding)) s
  | conditional {condition yes no : Smaller e} {s s₁ s₂ s₃ : State} {c y n : Op}
      (hcondition : Lowers env condition s c s₁) (hyes : Lowers env yes s₁ y s₂)
      (hno : Lowers env no { s₂ with assigned := s₁.assigned } n s₃) :
      NodeGives e env key (.conditional condition yes no) s (.mk (.cond c y n))
        { s₃ with assigned := NameSet.inter s₃.assigned s₂.assigned }
  | inlined {producer consumer : Smaller e} {s s₁ s' : State} {p op : Op}
      (hmode : inlines env.threshold producer.1 consumer.1 = true)
      (hproducer : Lowers env producer s p s₁)
      (hconsumer : Lowers (env.consumer producer.1 (.inline p)) consumer s₁ op s') :
      NodeGives e env key (.pipe producer consumer) s op s'
  | piped {producer consumer : Smaller e} {s s₁ s' : State} {p op : Op}
      (hmode : inlines env.threshold producer.1 consumer.1 = false)
      (hproducer : Lowers env producer s p s₁)
      (hconsumer : Lowers (env.consumer producer.1 .value) consumer s₁ op s') :
      NodeGives e env key (.pipe producer consumer) s (.mk (.pipe p op)) s'
  | label {name : String} {c : Smaller e} {s s₁ s' : State} {op : Op} {b : Binding}
      (hvalue : Lowers env c s op s₁)
      (hslot : Gives (labelSlot name)
        { s₁ with assigned := NameSet.insert name s₁.assigned } b s') :
      NodeGives e env key (.label name c) s (.mk (.setLabel b op)) s'
  | labelRef {name : String} {s s' : State} {b : Binding} (hset : name ∈ s.assigned)
      (hslot : Gives (labelSlot name) s b s') :
      NodeGives e env key (.labelRef name) s (.mk (.getLabel b)) s'
  | reducer {r : Reducer (Smaller e)} {aggregate : AggregateEnv} {index : Nat} {s s' : State}
      {op : Op} (haggregate : env.aggregate = some aggregate)
      (hindex : (aggregate.slots.findIdx? fun slot => slot.sameSlot (Smaller.plain r)) =
        some index)
      (hfallback : FallbackGives env r s op s') :
      NodeGives e env key (.reducer r) s (.mk (.slotValue aggregate.group index op)) s'
  | aggregate {keys : List (Smaller e)} {output : Smaller e}
      {reducers : List (Reducer (Smaller e))} {s s₁ s₂ s₃ s₄ s₅ : State} {source outputOp : Op}
      {group : Nat} {row : String} {keyOps : List Op} {slots : List (SlotOp Op)}
      (hsource : InputGives env source) (hreducers : output.slots = .ok reducers)
      (hgroup : Gives freshGroup s group s₁) (hrow : Gives (freshName "row") s₁ row s₂)
      (hkeys : Sequence (Lowers (env.row key)) keys s₂.enter keyOps s₃)
      (hslots : Sequence (SlotGives (env.row key)) reducers s₃ slots s₄)
      (houtput : Lowers (env.output (.of env key group keys reducers)) output
        (s₄.leave s₂).enter outputOp s₅) :
      NodeGives e env key (.aggregate keys output) s
        (.mk (.aggregate { group, row, source, rowScope := s₄.scope, keys := keyOps, slots
                           outputScope := s₅.scope, output := outputOp }))
        (s₅.leave (s₄.leave s₂))
  | join {left right : Smaller e} {condition : Option (Smaller e)} {kind : JoinKind}
      {plan : JoinPlan (Smaller e)} {s s₁ s₂ s₃ s₄ s₅ s₆ s₇ s₈ : State} {l r : Op}
      {leftRow rightRow : Binding} {preFilter residual : Option Op}
      {leftSide rightSide : JoinSideOp Op}
      (hleft : Lowers env left s l s₁) (hright : Lowers env right s₁ r s₂)
      (hleftRow : Gives (freshSlot "left") s₂ leftRow s₃)
      (hrightRow : Gives (freshSlot "right") s₃ rightRow s₄)
      (hplan : plan = JoinPlan.ofCondition condition kind)
      (hpreFilter : ConjunctionGives env plan.preFilter s₄ preFilter s₅)
      (hleftSide : SideGives (.part env.context key .leftRow) ⟨leftRow, rightRow⟩
        (plan.keys.map (·.1)) plan.leftFilter env s₅ leftSide s₆)
      (hrightSide : SideGives (.part env.context key .rightRow) ⟨leftRow, rightRow⟩
        (plan.keys.map (·.2)) plan.rightFilter env s₆ rightSide s₇)
      (hresidual : ConjunctionGives (env.pair key ⟨leftRow, rightRow⟩) plan.residual s₇.enter
        residual s₈) :
      NodeGives e env key (.join left right condition kind) s
        (.mk (.join { kind, left := l, right := r, leftRow, rightRow, preFilter, leftSide
                      rightSide, pairScope := s₈.scope, residual }))
        (s₈.leave s₇)
  | leftRow {join : JoinEnv} {s : State} (h : env.join = some join) :
      NodeGives e env key (.joinRow .left) s (.mk (.register join.left)) s
  | rightRow {join : JoinEnv} {s : State} (h : env.join = some join) :
      NodeGives e env key (.joinRow .right) s (.mk (.register join.right)) s

/-! ### Every emission is one of the cases -/

/-- How lowering goes on below an expression. -/
abbrev below (root : Expr) : LowerSmaller root := fun c env => lower c.1 env

theorem gives_contained_below {root : Expr} (env : Env) :
    (fun c => Gives (contained (below root c env))) = LowersContained env := by
  funext c s op s'
  exact propext gives_contained

theorem gives_lowerInput {e : Expr} {env : Env} {s s' : State} {op : Op}
    (h : Gives (lowerInput e env) s op s') : InputGives env op ∧ s' = s := by
  unfold lowerInput at h
  cases hi : env.input with
  | value =>
    rw [hi] at h
    obtain ⟨rfl, rfl⟩ := gives_pure.mp h
    exact ⟨.value hi, rfl⟩
  | inline p =>
    rw [hi] at h
    obtain ⟨rfl, rfl⟩ := gives_pure.mp h
    exact ⟨.inline hi, rfl⟩
  | unavailable =>
    rw [hi] at h
    exact absurd h not_gives_throw

theorem gives_lowerShortCircuit {items : List (Smaller root)} {env : Env} {s s' : State}
    {ops : List Op} (h : Gives (lowerShortCircuit (below root) items env) s ops s') :
    ShortCircuit env items s ops s' := by
  cases items with
  | nil =>
    obtain ⟨rfl, rfl⟩ := gives_pure.mp h
    exact .nil
  | cons c cs =>
    simp only [lowerShortCircuit, gives_bind, gives_contained, gives_mapM, gives_pure] at h
    obtain ⟨op, s₁, hop, ops, _, ⟨s₂, hops, rfl⟩, rfl, rfl⟩ := h
    exact .cons hop hops

theorem gives_lowerStep {step : PathStep (Smaller root)} {env : Env} {s s' : State} {op : Step Op}
    (h : Gives (lowerStep (below root) env step) s op s') : StepGives env step s op s' := by
  cases step with
  | key c =>
    simp only [lowerStep, gives_bind, gives_pure] at h
    obtain ⟨o, s₁, ho, rfl, rfl⟩ := h
    exact .key ho
  | attr name =>
    obtain ⟨rfl, rfl⟩ := gives_pure.mp h
    exact .attr

theorem gives_lowerGuarded {e : Expr} {env : Env} {key : NodeKey} {body : Smaller e}
    {handlers : List (Handler (Smaller e))} {s s' : State} {op : Op}
    (h : Gives (lowerGuarded (below e) body handlers env) s op s') :
    NodeGives e env key (.guarded body handlers) s op s' := by
  unfold lowerGuarded at h
  split at h
  · rename_i hempty
    obtain rfl := List.isEmpty_iff.mp hempty
    exact .unguarded h
  · rename_i hne
    simp only [gives_bind, gives_assigned, gives_mapM, gives_setAssigned, gives_pure] at h
    obtain ⟨_, s, ⟨rfl, rfl⟩, bodyOp, _, hbody, _, s₁, ⟨rfl, rfl⟩, caught, s₂, hcaught, lowered,
      s₃, hlowered, _, _, rfl, rfl, rfl⟩ := h
    refine .guarded (fun h => hne (List.isEmpty_iff.mpr h)) hbody hcaught ?_
    have steps := hlowered.imp (R := HandlerGives { env with caught := some caught } s.assigned)
      (f := fun r => r) fun c _ t r t' h => ?_
    · simpa only [List.map_id'] using steps
    · simp only [lowerHandler, gives_bind, gives_mapM_option, gives_setAssigned, gives_assigned,
        gives_pure] at h
      obtain ⟨_, _, rfl, o, _, ⟨re, t₁, hre, v, t₂, hv, rfl, rfl⟩, _, _, ⟨rfl, rfl⟩, rfl, rfl⟩ := h
      exact ⟨rfl, rfl, t₁, hre, hv⟩

theorem gives_lowerPipe {e : Expr} {env : Env} {key : NodeKey} {producer consumer : Smaller e}
    {s s' : State} {op : Op} (h : Gives (lowerPipe (below e) producer consumer env) s op s') :
    NodeGives e env key (.pipe producer consumer) s op s' := by
  unfold lowerPipe at h
  simp only [gives_bind] at h
  obtain ⟨p, s₁, hp, h⟩ := h
  split at h
  · rename_i hmode
    exact .inlined hmode hp h
  · rename_i hmode
    simp only [gives_bind, gives_pure] at h
    obtain ⟨o, s₂, ho, rfl, rfl⟩ := h
    exact .piped (Bool.not_eq_true _ ▸ hmode) hp ho

theorem gives_lowerFallback {r : Reducer (Smaller root)} {env : Env} {s s' : State} {op : Op}
    (h : Gives (lowerFallback (below root) r env) s op s') : FallbackGives env r s op s' := by
  unfold lowerFallback at h
  split at h
  · rename_i d hd
    obtain ⟨s₁, ho, rfl⟩ := gives_contained.mp h
    exact .default hd ⟨s₁, ho, rfl⟩
  · rename_i c hd hc
    obtain ⟨s₁, ho, rfl⟩ := gives_contained.mp h
    obtain ⟨hinitial, huses⟩ := Option.filter_eq_some_iff.mp hc
    exact .initial hd hinitial (by simpa using huses) ⟨s₁, ho, rfl⟩
  · rename_i hd hc
    simp only [gives_bind, gives_pure] at h
    obtain ⟨name, s₁, hname, rfl, rfl⟩ := h
    refine .static hd (fun c hinitial huses => ?_) hname
    rw [hinitial, Option.filter_some, if_pos (by simp [huses])] at hc
    cases hc

theorem gives_lowerReducer {e : Expr} {env : Env} {key : NodeKey} {r : Reducer (Smaller e)}
    {s s' : State} {op : Op} (h : Gives (lowerReducer (below e) r env) s op s') :
    NodeGives e env key (.reducer r) s op s' := by
  unfold lowerReducer at h
  cases ha : env.aggregate with
  | none =>
    rw [ha] at h
    exact absurd h not_gives_throw
  | some aggregate =>
    rw [ha] at h
    dsimp only at h
    cases hi : aggregate.slots.findIdx? fun slot => slot.sameSlot (Smaller.plain r) with
    | none =>
      rw [hi] at h
      exact absurd h not_gives_throw
    | some index =>
      rw [hi] at h
      simp only [gives_bind, gives_pure] at h
      obtain ⟨o, s₁, ho, rfl, rfl⟩ := h
      exact .reducer ha hi (gives_lowerFallback ho)

theorem gives_lowerSlot {r : Reducer (Smaller root)} {env : Env} {s s' : State} {op : SlotOp Op}
    (h : Gives (lowerSlot (below root) env r) s op s') : SlotGives env r s op s' := by
  simp only [lowerSlot, gives_bind, gives_mapM, gives_mapM_option, gives_pure,
    gives_contained_below] at h
  obtain ⟨filter, s₁, hfilter, args, s₂, hargs, initial, s₃, hinitial, rfl, rfl⟩ := h
  exact ⟨rfl, rfl, s₁, s₂, hfilter, hargs, hinitial⟩

theorem gives_lowerAggregate {e : Expr} {env : Env} {key : NodeKey} {keys : List (Smaller e)}
    {output : Smaller e} {s s' : State} {op : Op}
    (h : Gives (lowerAggregate (below e) e key keys output env) s op s') :
    NodeGives e env key (.aggregate keys output) s op s' := by
  simp only [lowerAggregate, gives_bind, gives_lift, gives_inScope, gives_mapM, gives_pure] at h
  obtain ⟨source, _, hinput, reducers, _, ⟨hreducers, rfl⟩, group, s₁, hgroup, row, s₂, hrow,
    ⟨rowScope, parts⟩, _, ⟨s₄, ⟨keyOps, s₃, hkeys, slots, _, hslots, hparts, rfl⟩, hscope, rfl⟩,
    ⟨outputScope, outputOp⟩, _, ⟨s₅, houtput, hscope', rfl⟩, rfl, rfl⟩ := h
  obtain ⟨hsource, rfl⟩ := gives_lowerInput hinput
  dsimp only at hparts hscope hscope'
  subst hparts hscope hscope'
  refine .aggregate hsource hreducers hgroup hrow hkeys ?_ houtput
  have steps := hslots.imp (R := SlotGives (env.row key)) (f := fun r => r)
    fun c _ t r t' h => gives_lowerSlot h
  simpa only [List.map_id'] using steps

theorem gives_lowerConjunction {cs : List (Smaller root)} {env : Env} {s s' : State}
    {op : Option Op} (h : Gives (lowerConjunction (below root) cs env) s op s') :
    ConjunctionGives env cs s op s' := by
  simp only [lowerConjunction, gives_bind, gives_contained, gives_mapM] at h
  obtain ⟨ops, _, ⟨s₁, hops, rfl⟩, h⟩ := h
  refine ⟨ops, s₁, hops, ?_⟩
  match ops, h with
  | [], h => exact gives_pure.mp h
  | [o], h => exact gives_pure.mp h
  | o :: o' :: os, h => exact gives_pure.mp h

theorem gives_lowerJoinSide {context : Context} {join : JoinEnv}
    {keys filter : List (Smaller root)} {env : Env} {s s' : State} {op : JoinSideOp Op}
    (h : Gives (lowerJoinSide (below root) context join keys filter env) s op s') :
    SideGives context join keys filter env s op s' := by
  simp only [lowerJoinSide, gives_bind, gives_inScope, gives_mapM, gives_pure] at h
  obtain ⟨⟨scope, parts⟩, _, ⟨s₂, ⟨keyOps, s₁, hkeys, filterOp, _, hfilter, hparts, rfl⟩, hscope,
    rfl⟩, rfl, rfl⟩ := h
  dsimp only at hparts
  subst hparts
  exact ⟨s₁, s₂, hkeys, gives_lowerConjunction hfilter, hscope, rfl⟩

theorem gives_lowerJoin {e : Expr} {env : Env} {key : NodeKey} {left right : Smaller e}
    {condition : Option (Smaller e)} {kind : JoinKind} {s s' : State} {op : Op}
    (h : Gives (lowerJoin (below e) key left right condition kind env) s op s') :
    NodeGives e env key (.join left right condition kind) s op s' := by
  simp only [lowerJoin, gives_bind, gives_inScope, gives_pure] at h
  obtain ⟨l, s₁, hl, r, s₂, hr, leftRow, s₃, hleftRow, rightRow, s₄, hrightRow, preFilter, s₅,
    hpre, leftSide, s₆, hleft, rightSide, s₇, hright, ⟨scope, residual⟩, _,
    ⟨s₈, hresidual, hscope, rfl⟩, rfl, rfl⟩ := h
  dsimp only at hscope
  subst hscope
  exact .join hl hr hleftRow hrightRow rfl (gives_lowerConjunction hpre)
    (gives_lowerJoinSide hleft) (gives_lowerJoinSide hright) (gives_lowerConjunction hresidual)

section Rules

variable {e : Expr} {env : Env} {key : NodeKey} {s s' : State} {op : Op}

theorem gives_lowerAccess {source : Smaller e} {path : List (PathStep (Smaller e))}
    {default : Option (Smaller e)}
    (h : Gives (lowerNode (below e) e env key (.access source path default)) s op s') :
    NodeGives e env key (.access source path default) s op s' := by
  simp only [lowerNode, gives_bind, gives_mapM, gives_mapM_option, gives_contained_below,
    gives_pure] at h
  obtain ⟨so, s₁, hsource, steps, s₂, hsteps, d, s₃, hd, rfl, rfl⟩ := h
  refine .access hsource ?_ hd
  have taken := hsteps.imp (R := StepGives env) (f := fun r => r)
    fun c _ t r t' h => gives_lowerStep h
  simpa only [List.map_id'] using taken

theorem gives_lowerDict {pairs : List (Smaller e × Smaller e)}
    (h : Gives (lowerNode (below e) e env key (.dict pairs)) s op s') :
    NodeGives e env key (.dict pairs) s op s' := by
  simp only [lowerNode, gives_bind, gives_mapM, gives_pure] at h
  obtain ⟨ops, s₁, hops, rfl, rfl⟩ := h
  refine .dict ?_
  have taken := hops.imp (R := PairGives env) (f := fun r => r) fun c _ t r t' h => ?_
  · simpa only [List.map_id'] using taken
  · simp only [gives_bind, gives_pure] at h
    obtain ⟨k, t₁, hk, v, t₂, hv, rfl, rfl⟩ := h
    exact ⟨t₁, hk, hv⟩

theorem gives_lowerComprehension {kind : ComprehensionKind} {keyed filter : Option (Smaller e)}
    {element source : Smaller e}
    (h : Gives (lowerNode (below e) e env key (.comprehension kind keyed element source filter)) s
      op s') :
    NodeGives e env key (.comprehension kind keyed element source filter) s op s' := by
  simp only [lowerNode, gives_bind, gives_inScope, gives_mapM_option, gives_pure] at h
  obtain ⟨so, s₁, hsource, var, s₂, hvar, ⟨scope, parts⟩, _, ⟨s₅, ⟨filterOp, s₃, hfilter,
    keyedOp, s₄, hkeyed, elementOp, _, helement, hparts, rfl⟩, hscope, rfl⟩, rfl, rfl⟩ := h
  dsimp only at hparts hscope
  subst hparts hscope
  exact .comprehension hsource hvar hfilter hkeyed helement

theorem gives_lowerSort {source : Smaller e} {keys : List (SortKey (Smaller e))} {reverse : Bool}
    (h : Gives (lowerNode (below e) e env key (.sort source keys reverse)) s op s') :
    NodeGives e env key (.sort source keys reverse) s op s' := by
  simp only [lowerNode, gives_bind, gives_inScope, gives_mapM, gives_pure] at h
  obtain ⟨so, s₁, hsource, var, s₂, hvar, ⟨scope, keyOps⟩, _, ⟨s₃, hkeys, hscope, rfl⟩, rfl,
    rfl⟩ := h
  dsimp only at hscope
  subst hscope
  refine .sort hsource hvar ?_
  have taken := hkeys.imp (R := SortKeyGives (env.enter (.part env.context key .sortItem) .value))
    (f := fun r => r) fun c _ t r t' h => ?_
  · simpa only [List.map_id'] using taken
  · simp only [gives_bind, gives_pure] at h
    obtain ⟨o, t₁, ho, rfl, rfl⟩ := h
    exact ⟨ho, rfl⟩

theorem gives_lowerConditional {condition yes no : Smaller e}
    (h : Gives (lowerNode (below e) e env key (.conditional condition yes no)) s op s') :
    NodeGives e env key (.conditional condition yes no) s op s' := by
  simp only [lowerNode, lowerBranches, gives_bind, gives_assigned, gives_setAssigned,
    gives_pure] at h
  obtain ⟨c, _, hc, ⟨y, n⟩, _, ⟨_, s₁, ⟨rfl, rfl⟩, _, _, hy, _, s₂, ⟨rfl, rfl⟩, _, _, rfl, _, _,
    hn, _, s₃, ⟨rfl, rfl⟩, _, _, rfl, hpair, rfl⟩, rfl, rfl⟩ := h
  cases hpair
  exact .conditional hc hy hn

theorem gives_lowerLabelRef {name : String} (hpass : env.pass = .emit)
    (h : Gives (lowerNode (below e) e env key (.labelRef name)) s op s') :
    NodeGives e env key (.labelRef name) s op s' := by
  simp only [lowerNode, gives_bind, gives_assigned] at h
  obtain ⟨_, s₁, ⟨rfl, rfl⟩, h⟩ := h
  by_cases hset : name ∈ s₁.assigned
  · rw [if_neg (by simp [hset])] at h
    simp only [gives_bind, gives_pure] at h
    obtain ⟨b, s₂, hb, rfl, rfl⟩ := h
    exact .labelRef hset hb
  · rw [if_pos (by simp [hpass, hset])] at h
    obtain ⟨_, _, h, -⟩ := gives_bind.mp h
    exact absurd h not_gives_throw

theorem gives_lowerJoinRow {side : JoinSide}
    (h : Gives (lowerNode (below e) e env key (.joinRow side)) s op s') :
    NodeGives e env key (.joinRow side) s op s' := by
  simp only [lowerNode] at h
  cases hj : env.join with
  | none =>
    rw [hj] at h
    exact absurd h not_gives_throw
  | some join =>
    rw [hj] at h
    cases side with
    | left =>
      obtain ⟨rfl, rfl⟩ := gives_pure.mp h
      exact .leftRow hj
    | right =>
      obtain ⟨rfl, rfl⟩ := gives_pure.mp h
      exact .rightRow hj

end Rules

/-- Lowering a node in place is one of the cases. -/
theorem gives_lowerNode {e : Expr} {env : Env} {key : NodeKey} {node : Node (Smaller e)}
    {s s' : State} {op : Op} (hpass : env.pass = .emit)
    (h : Gives (lowerNode (below e) e env key node) s op s') :
    NodeGives e env key node s op s' := by
  cases node with
  | input =>
    obtain ⟨hop, rfl⟩ := gives_lowerInput h
    exact .input hop
  | constant value =>
    simp only [lowerNode, gives_bind, gives_pure] at h
    obtain ⟨name, s₁, hname, rfl, rfl⟩ := h
    exact .constant hname
  | parameter name =>
    simp only [lowerNode, gives_bind, gives_pure] at h
    obtain ⟨index, s₁, hindex, rfl, rfl⟩ := h
    exact .parameter hindex
  | access source path default => exact gives_lowerAccess h
  | call f args =>
    simp only [lowerNode, gives_bind, gives_mapM, gives_pure] at h
    obtain ⟨name, s₁, hname, ops, s₂, hops, rfl, rfl⟩ := h
    exact .call hname hops
  | builtin f args =>
    simp only [lowerNode, gives_bind, gives_mapM, gives_pure] at h
    obtain ⟨ops, s₁, hops, rfl, rfl⟩ := h
    exact .builtin hops
  | binary f left right =>
    simp only [lowerNode, gives_bind, gives_pure] at h
    obtain ⟨l, s₁, hl, r, s₂, hr, rfl, rfl⟩ := h
    exact .binary hl hr
  | unary f operand =>
    simp only [lowerNode, gives_bind, gives_pure] at h
    obtain ⟨o, s₁, ho, rfl, rfl⟩ := h
    exact .unary ho
  | and items =>
    simp only [lowerNode, gives_bind, gives_pure] at h
    obtain ⟨ops, s₁, hops, rfl, rfl⟩ := h
    exact .and (gives_lowerShortCircuit hops)
  | or items =>
    simp only [lowerNode, gives_bind, gives_pure] at h
    obtain ⟨ops, s₁, hops, rfl, rfl⟩ := h
    exact .or (gives_lowerShortCircuit hops)
  | collection kind items =>
    simp only [lowerNode, gives_bind, gives_mapM, gives_pure] at h
    obtain ⟨ops, s₁, hops, rfl, rfl⟩ := h
    exact .collection hops
  | dict pairs => exact gives_lowerDict h
  | comprehension kind keyed element source filter => exact gives_lowerComprehension h
  | sort source keys reverse => exact gives_lowerSort h
  | guarded body handlers => exact gives_lowerGuarded h
  | caught =>
    simp only [lowerNode] at h
    cases hc : env.caught with
    | none =>
      rw [hc] at h
      exact absurd h not_gives_throw
    | some b =>
      rw [hc] at h
      obtain ⟨rfl, rfl⟩ := gives_pure.mp h
      exact .caught hc
  | conditional condition yes no => exact gives_lowerConditional h
  | pipe producer consumer => exact gives_lowerPipe h
  | label name value =>
    simp only [lowerNode, gives_bind, gives_assigned, gives_setAssigned, gives_pure] at h
    obtain ⟨o, _, ho, _, s₁, ⟨rfl, rfl⟩, _, _, rfl, b, s₂, hb, rfl, rfl⟩ := h
    exact .label ho hb
  | labelRef name => exact gives_lowerLabelRef hpass h
  | reducer r => exact gives_lowerReducer h
  | aggregate keys output => exact gives_lowerAggregate h
  | join left right condition kind => exact gives_lowerJoin h
  | joinRow side => exact gives_lowerJoinRow h

theorem mem_keyPositions {aggregate : AggregateEnv} {e : Expr} {index : Nat} :
    index ∈ aggregate.keyPositions e ↔
      ∃ k, aggregate.keys[index]? = some k ∧ (k == e) = true := by
  simp only [AggregateEnv.keyPositions, List.mem_filterMap, Prod.exists,
    List.mk_mem_zipIdx_iff_getElem?]
  constructor
  · rintro ⟨k, i, hk, hi⟩
    split at hi
    · rename_i hsame
      cases hi
      exact ⟨k, hk, hsame⟩
    · cases hi
  · rintro ⟨k, hk, hsame⟩
    exact ⟨k, index, hk, if_pos hsame⟩

/-- A key of a group is read from the group that is emitted. -/
theorem groupKey_eq {e : Expr} {env : Env} {op : Op} (h : groupKey? e env = .ok (some op)) :
    ∃ aggregate index, env.aggregate = some aggregate ∧
      aggregate.context.same env.context = true ∧ aggregate.keyPositions e = [index] ∧
      op = .mk (.groupKey aggregate.group index) := by
  unfold groupKey? at h
  cases ha : env.aggregate with
  | none =>
    rw [ha] at h
    cases h
  | some aggregate =>
    rw [ha] at h
    dsimp only at h
    split at h
    · rename_i hsame
      split at h
      · cases h
      · rename_i index hpositions
        cases h
        exact ⟨aggregate, index, rfl, hsame, hpositions, rfl⟩
      · cases h
    · cases h

/-- The site of an expression in its surroundings. -/
def siteOf (env : Env) (e : Expr) : Site := ⟨env.context, .of e e.analysis⟩

/-- What emitting an expression can do. -/
inductive Emits (e : Expr) (env : Env) (s : State) : Op → State → Prop
  /-- The expression stands for a key of the group. -/
  | groupKey {op : Op} (h : groupKey? e env = .ok (some op)) : Emits e env s op s
  | inPlace {op : Op} {s' : State} (hkey : groupKey? e env = .ok none)
      (hbound : isBound env e e.analysis (s.counts.count (siteOf env e)) = false)
      (h : NodeGives e env (.of e e.analysis) e.parts s op s') : Emits e env s op s'
  /-- A binding of the scope is read. -/
  | hit {b : Bound} (hkey : groupKey? e env = .ok none)
      (hbound : isBound env e e.analysis (s.counts.count (siteOf env e)) = true)
      (hmem : b ∈ s.bound) (hsame : b.site.same (siteOf env e) = true)
      (hreads : NameSet.diff b.reads s.assigned = []) :
      Emits e env s (.mk (.memo b.binding b.definition))
        { s with assigned := NameSet.union s.assigned b.writes }
  /-- A new binding of the scope is made. -/
  | bind {definition : Op} {s₁ s₂ : State} {binding : Binding}
      (hkey : groupKey? e env = .ok none)
      (hbound : isBound env e e.analysis (s.counts.count (siteOf env e)) = true)
      (hnew : ∀ b ∈ s.bound, b.site.same (siteOf env e) = false)
      (h : NodeGives e env (.of e e.analysis) e.parts s definition s₁)
      (hslot : Gives (freshSlot "v") s₁ binding s₂) :
      Emits e env s (.mk (.memo binding definition))
        { s₂ with bound := s₂.bound ++ [⟨siteOf env e, binding, definition, e.analysis.labelsRead,
            NameSet.diff s₁.assigned s.assigned⟩] }

theorem gives_groupKey {e : Expr} {env : Env} {s s' : State} {op : Option Op} :
    Gives (liftM (groupKey? e env) : M (Option Op)) s op s' ↔
      groupKey? e env = .ok op ∧ s' = s := gives_lift

/-- **What lowering can do.**  A successful emission is one of four cases. -/
theorem lower_cases {e : Expr} {env : Env} {s s' : State} {op : Op} (hpass : env.pass = .emit)
    (h : Gives (lower e env) s op s') : Emits e env s op s' := by
  rw [lower] at h
  obtain ⟨found, s₀, hfound, h⟩ := gives_bind.mp h
  obtain ⟨hkey, rfl⟩ := gives_groupKey.mp hfound
  cases found with
  | some o =>
    obtain ⟨rfl, rfl⟩ := gives_pure.mp h
    exact .groupKey hkey
  | none =>
    simp only [shared, hpass] at h
    replace h := gives_get_bind.mp h
    split at h
    · rename_i hbound
      exact .inPlace hkey (by simpa [siteOf] using hbound) (gives_lowerNode hpass h)
    · rename_i hbound
      have hbound : isBound env e e.analysis (s₀.counts.count (siteOf env e)) = true := by
        simpa [siteOf] using hbound
      replace h := gives_get_bind.mp h
      -- A place that is shared is bound already, and then its labels are checked, or is bound now.
      cases hfind : s₀.bound.find? fun b => b.site.same (siteOf env e) with
      | some b =>
        have hsame : b.site.same (siteOf env e) = true := by
          simpa using List.find?_some hfind
        simp only [siteOf] at hfind
        rw [hfind] at h
        replace h := gives_assigned_bind.mp h
        cases hreads : NameSet.diff b.reads s₀.assigned with
        | cons name rest =>
          rw [hreads] at h
          exact absurd h not_gives_throw
        | nil =>
          rw [hreads] at h
          simp only [gives_bind, gives_assigned, gives_setAssigned, gives_pure] at h
          obtain ⟨_, _, ⟨rfl, rfl⟩, _, _, rfl, rfl, rfl⟩ := h
          exact .hit hkey hbound (List.mem_of_find?_eq_some hfind) hsame hreads
      | none =>
        have hnew : ∀ b ∈ s₀.bound, b.site.same (siteOf env e) = false := by
          intro b hb
          simpa using List.find?_eq_none.mp hfind b hb
        simp only [siteOf] at hfind
        rw [hfind] at h
        simp only [gives_bind, gives_assigned, gives_modify, gives_pure] at h
        obtain ⟨_, _, ⟨rfl, rfl⟩, definition, s₁, hdefinition, _, _, ⟨rfl, rfl⟩, binding, s₂,
          hslot, _, _, rfl, rfl, rfl⟩ := h
        exact .bind hkey hbound hnew (gives_lowerNode hpass hdefinition) hslot

end Cases

/-- The program of an expression that was lowered to an operation. -/
def State.program (s : State) (body : Op) : Program :=
  { params := s.supply.signature, constants := s.supply.constants, scope := s.scope, body
    layout := ⟨s.supply.slots, s.supply.groups⟩ }

/-- **What compiling can do.**  An expression that compiles can be analyzed, and its program
    is what the second pass has emitted. -/
theorem ofExpr_cases {e : Expr} {signature : Signature} {threshold : Weight.Threshold}
    {program : Program} (h : Program.ofExpr e signature threshold = .ok program) :
    (∃ a, e.analyze = .ok a) ∧ ∃ counts body s,
      countOccurrences e signature threshold = .ok counts ∧
      Gives (lower e (.start .emit threshold)) (.start signature counts) body s ∧
      program = s.program body := by
  unfold Program.ofExpr at h
  cases hanalyze : e.analyze with
  | error err =>
    rw [hanalyze] at h
    cases h
  | ok analysis =>
    rw [hanalyze] at h
    cases hcounts : countOccurrences e signature threshold with
    | error err =>
      rw [hcounts] at h
      cases h
    | ok counts =>
      rw [hcounts] at h
      change (do
        let r ← (lower e (.start .emit threshold)).run (.start signature counts)
        return r.2.program r.1) = .ok program at h
      cases hlower : (lower e (.start .emit threshold)).run (.start signature counts) with
      | error err =>
        rw [hlower] at h
        cases h
      | ok result =>
        rw [hlower] at h
        cases h
        exact ⟨⟨analysis, rfl⟩, counts, result.1, result.2, rfl, hlower, rfl⟩

end DataExpr.Lowering
