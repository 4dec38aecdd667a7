import DataExpr.Proofs.LoweringCases
import DataExpr.Proofs.SettledParameters

/-!
# Lowering with settled parameters

A variant of lowering puts a value in the place of each reference to a parameter, wherever the
reference is lowered: in a scope of any depth, inlined into a consumer, in a lazy binding or as a
key of a group (`Lowering.lowerSettled`).  Both go through the same steps and give operations of
which the second is the first one settled, so the two programs run alike
(`Program.ofSettled_runs`).
-/

namespace DataExpr

/-- The name of the parameter that an expression refers to. -/
def Expr.parameter? (e : Expr) : Option String :=
  match e.node with
  | .parameter name => some name
  | _ => none

/-- The operation of an expression, or the value of the parameter that the expression refers to. -/
def Expr.settle (value : String → Value) (e : Expr) (op : Op) : Op :=
  match e.parameter? with
  | some name => .mk (.const name (value name))
  | none => op

namespace Lowering

/-- Lowering with a value in the place of each reference to a parameter. -/
def lowerSettled (value : String → Value) (e : Expr) (env : Env) : M Op := do
  match ← groupKey? e env with
  | some op => return e.settle value op
  | none =>
    let op ← shared env e e.analysis fun key =>
      lowerNode (fun c inner => lowerSettled value c.1 inner) e env key e.parts
    return e.settle value op
termination_by sizeOf e
decreasing_by exact c.2

end Lowering

open Lowering

/-- The program of an expression, with a value in the place of each reference to a parameter. -/
def Program.ofSettled (value : String → Value) (e : Expr) (signature : Signature)
    (threshold : Weight.Threshold) : Except CompileError Program := do
  let counts ← countOccurrences e signature threshold
  let (body, state) ← (lowerSettled value e (.start .emit threshold)).run (.start signature counts)
  return state.program body

namespace Settling

variable {σ α β γ δ ι : Type} (X : Settling σ) {known inner : KnownKeys}

/-! ### Steps of both lowerings -/

/-- Bindings of which the second has a settled definition. -/
structure SameBound (known : KnownKeys) (b c : Bound) : Prop where
  site : c.site = b.site
  binding : c.binding = b.binding
  reads : c.reads = b.reads
  writes : c.writes = b.writes
  definition : X.Settled known b.definition c.definition

/-- States that differ in the definitions of bindings only. -/
structure Beside (known : KnownKeys) (s t : State) : Prop where
  supply : t.supply = s.supply
  counts : t.counts = s.counts
  assigned : t.assigned = s.assigned
  bound : List.Forall₂ (X.SameBound known) s.bound t.bound

/-- Related results in states that differ in definitions only, or the same error. -/
inductive BothGive (known : KnownKeys) (R : α → β → Prop) :
    Except CompileError (α × State) → Except CompileError (β × State) → Prop
  | ok {a : α} {b : β} {s t : State} (hab : R a b) (hst : X.Beside known s t) :
      BothGive known R (.ok (a, s)) (.ok (b, t))
  | error (e : CompileError) : BothGive known R (.error e) (.error e)

/-- Computations that go through the same steps and give related results. -/
def Alongside (known : KnownKeys) (R : α → β → Prop) (m : M α) (n : M β) : Prop :=
  ∀ s t, X.Beside known s t → X.BothGive known R (m.run s) (n.run t)

namespace Alongside

variable {X} {R : α → β → Prop} {Q : γ → δ → Prop} {m : M α} {n : M β}

protected theorem pure {a : α} {b : β} (h : R a b) : X.Alongside known R (pure a) (pure b) :=
  fun _ _ hst => .ok h hst

protected theorem throw (e : CompileError) : X.Alongside known R (throw e) (throw e) :=
  fun _ _ _ => .error e

protected theorem bind {k : α → M γ} {l : β → M δ} (h : X.Alongside known R m n)
    (hk : ∀ a b, R a b → X.Alongside known Q (k a) (l b)) :
    X.Alongside known Q (m >>= k) (n >>= l) := by
  intro s t hst
  rw [StateT.run_bind, StateT.run_bind]
  have first := h s t hst
  generalize m.run s = r at first ⊢
  generalize n.run t = r' at first ⊢
  cases first with
  | ok hab hst => exact hk _ _ hab _ _ hst
  | error e => exact .error e

/-- What follows a step with the same result in both. -/
theorem bind_eq {m n : M α} {k : α → M γ} {l : α → M δ} (h : X.Alongside known Eq m n)
    (hk : ∀ a, X.Alongside known Q (k a) (l a)) : X.Alongside known Q (m >>= k) (n >>= l) :=
  h.bind fun a _ hab => hab ▸ hk a

/-- What the second computation gives on its own account may be used as well. -/
theorem ensuring {P : β → Prop} (h : X.Alongside known R m n)
    (hP : ∀ {t t' : State} {b : β}, Gives n t b t' → P b) :
    X.Alongside known (fun a b => R a b ∧ P b) m n := by
  intro s t hst
  have first := h s t hst
  have own := @hP t
  unfold Gives at own
  generalize m.run s = r at first ⊢
  generalize n.run t = r' at first own ⊢
  cases first with
  | ok hab hst => exact .ok ⟨hab, own rfl⟩ hst
  | error e => exact .error e

theorem ok_bind {a : ι} {k : ι → M α} {l : ι → M β} (h : X.Alongside known R (k a) (l a)) :
    X.Alongside known R ((liftM (.ok a : Except CompileError ι) : M ι) >>= k)
      ((liftM (.ok a : Except CompileError ι) : M ι) >>= l) := h

/-- A computation that goes on with the states it finds. -/
theorem get_bind {k : State → M α} {l : State → M β}
    (h : ∀ s t, X.Beside known s t → X.BothGive known R ((k s).run s) ((l t).run t)) :
    X.Alongside known R (get >>= k) (get >>= l) := h

theorem modify {f g : State → State} (h : ∀ s t, X.Beside known s t → X.Beside known (f s) (g t)) :
    X.Alongside known Eq (modify f : M Unit) (modify g) := fun s t hst => .ok rfl (h s t hst)

theorem assigned : X.Alongside known Eq assigned assigned := by
  intro s t hst
  change X.BothGive known Eq (.ok (s.assigned, s)) (.ok (t.assigned, t))
  exact .ok hst.assigned.symm hst

theorem setAssigned (names : NameSet) :
    X.Alongside known Eq (setAssigned names) (setAssigned names) :=
  modify fun _ _ h => ⟨h.supply, h.counts, rfl, h.bound⟩

theorem ite {m' : M α} {n' : M β} (c : Prop) [Decidable c] (h : X.Alongside known R m n)
    (h' : X.Alongside known R m' n') :
    X.Alongside known R (if c then m else m') (if c then n else n') := by
  by_cases hc : c
  · simpa only [if_pos hc] using h
  · simpa only [if_neg hc] using h'

theorem mapM {is : List ι} {k : ι → M α} {l : ι → M β}
    (h : ∀ i ∈ is, X.Alongside known R (k i) (l i)) :
    X.Alongside known (List.Forall₂ R) (is.mapM k) (is.mapM l) := by
  induction is with
  | nil => exact .pure .nil
  | cons i is ih =>
    rw [List.mapM_cons, List.mapM_cons]
    refine (h i List.mem_cons_self).bind fun a b hab => ?_
    exact (ih fun i hi => h i (List.mem_cons_of_mem _ hi)).bind fun as bs habs =>
      .pure (.cons hab habs)

theorem mapM_option {o : Option ι} {k : ι → M α} {l : ι → M β}
    (h : ∀ i ∈ o, X.Alongside known R (k i) (l i)) :
    X.Alongside known (Option.Rel R) (o.mapM k) (o.mapM l) := by
  cases o with
  | none => exact .pure .none
  | some i => exact (h i rfl).bind fun a b hab => .pure (.some hab)

theorem contained (h : X.Alongside known R m n) :
    X.Alongside known R (contained m) (contained n) :=
  assigned.bind_eq fun before => h.bind fun _ _ hab => (setAssigned before).bind_eq fun _ =>
    .pure hab

/-- A computation that uses nothing but the supply. -/
theorem ofSupply {m : M α} (g : Supply → Except CompileError (α × Supply))
    (hm : ∀ s, m.run s = (g s.supply).map fun r => (r.1, { s with supply := r.2 })) :
    X.Alongside known Eq m m := by
  intro s t hst
  rw [hm, hm, hst.supply]
  cases g s.supply with
  | error e => exact .error e
  | ok r => exact .ok rfl ⟨rfl, hst.counts, hst.assigned, hst.bound⟩

theorem freshName (stem : String) : X.Alongside known Eq (freshName stem) (freshName stem) :=
  ofSupply (fun p => .ok (stem ++ "_" ++ toString (p.counter + 1),
    { p with counter := p.counter + 1 })) fun _ => rfl

theorem freshSlot (stem : String) : X.Alongside known Eq (freshSlot stem) (freshSlot stem) :=
  ofSupply (fun p => .ok (⟨p.slots, stem ++ "_" ++ toString (p.counter + 1)⟩,
    { p with slots := p.slots + 1, counter := p.counter + 1 })) fun _ => rfl

theorem freshGroup : X.Alongside known Eq freshGroup freshGroup :=
  ofSupply (fun p => .ok (p.groups, { p with groups := p.groups + 1 })) fun _ => rfl

theorem updateSupply (g : Supply → Supply) :
    X.Alongside known Eq (updateSupply g) (updateSupply g) :=
  modify fun _ _ h => ⟨congrArg g h.supply, h.counts, h.assigned, h.bound⟩

theorem constantName (value : Value) :
    X.Alongside known Eq (constantName value) (constantName value) := by
  refine get_bind fun s t hst => ?_
  rw [hst.supply]
  cases s.supply.constants.find? fun c => c.2 == value with
  | some c => exact .ok rfl hst
  | none =>
    refine (freshName "const").bind_eq (fun name => ?_) s t hst
    exact (updateSupply _).bind_eq fun _ => .pure rfl

theorem labelSlot (name : String) :
    X.Alongside known Eq (labelSlot name) (labelSlot name) := by
  refine get_bind fun s t hst => ?_
  rw [hst.supply]
  dsimp only
  cases s.supply.labels.find? fun l => l.1 == name with
  | some l => exact .ok rfl hst
  | none => exact (updateSupply _).bind_eq (fun _ => .pure rfl) s t hst

theorem paramIndex (name : String) :
    X.Alongside known Eq (paramIndex name) (paramIndex name) := by
  refine get_bind fun s t hst => ?_
  rw [hst.supply]
  dsimp only
  cases s.supply.signature.indexOf? name with
  | some index => exact .ok rfl hst
  | none => exact (updateSupply _).bind_eq (fun _ => .pure rfl) s t hst

/-- A scope with an input of its own, in which other keys may be known. -/
theorem inScope {env env' : Env} {context : Context} {input input' : Input} {part : Env → M α}
    {part' : Env → M β}
    (h : X.Alongside inner R (part { env with context, input, mayBind := true })
      (part' { env' with context, input := input', mayBind := true })) :
    X.Alongside known (fun a b => a.1.resets = b.1.resets ∧ R a.2 b.2)
      (inScope env context input part) (inScope env' context input' part') := by
  intro s t hst
  have entered : X.Beside inner { s with bound := [] } { t with bound := [] } :=
    ⟨hst.supply, hst.counts, hst.assigned, .nil⟩
  have result := h _ _ entered
  have run {γ : Type} (env : Env) (context : Context) (input : Input) (part : Env → M γ)
      (s : State) : (Lowering.inScope env context input part).run s =
        ((part { env with context, input, mayBind := true }).run { s with bound := [] }).map
          fun r => ((⟨r.2.bound.map fun b => ⟨b.binding, b.definition⟩⟩, r.1),
            { r.2 with bound := s.bound, assigned := s.assigned }) := by
    unfold Lowering.inScope
    rw [StateT.run_bind]
    change ((part { env with context, input, mayBind := true }).run { s with bound := [] } >>=
      fun r => _) = _
    cases (part { env with context, input, mayBind := true }).run { s with bound := [] } <;> rfl
  rw [run, run]
  generalize (part { env with context, input, mayBind := true }).run { s with bound := [] } = r
    at result ⊢
  generalize (part' { env' with context, input := input', mayBind := true }).run
    { t with bound := [] } = r' at result ⊢
  cases result with
  | error e => exact .error e
  | @ok a b u v hab huv =>
    refine .ok ⟨?_, hab⟩ ⟨huv.supply, huv.counts, hst.assigned, hst.bound⟩
    have bindings := huv.bound
    simp only [Scope.resets, List.map_map, Function.comp_def]
    generalize u.bound = bs at bindings ⊢
    generalize v.bound = cs at bindings ⊢
    induction bindings with
    | nil => rfl
    | cons head _ ih => rw [List.map_cons, List.map_cons, ih, head.binding]

end Alongside

/-! ### Surroundings -/

/-- Inputs that are settled. -/
inductive InputSettled (known : KnownKeys) : Input → Input → Prop
  | value : InputSettled known .value .value
  | inline {p q : Op} (h : X.Settled known p q) : InputSettled known (.inline p) (.inline q)
  | unavailable : InputSettled known .unavailable .unavailable

/-- Surroundings with an input for the second lowering, where the keys that are parameters are
    known. -/
structure Around (known : KnownKeys) (env : Env) (input : Input) : Prop where
  pass : env.pass = .emit
  input : X.InputSettled known env.input input
  keys : ∀ aggregate, env.aggregate = some aggregate → ∀ (i : Nat) (e : Expr) (n : String),
    aggregate.keys[i]? = some e → e.parameter? = some n → known aggregate.group i = some n

namespace Around

variable {X} {env : Env} {input : Input}

theorem enter (h : X.Around known env input) (context : Context) :
    X.Around known { env with context, input := .value, mayBind := true } .value :=
  ⟨h.pass, .value, h.keys⟩

/-- In a part that is evaluated on the input of the whole. -/
theorem enterSame (h : X.Around known env input) (context : Context) (join : JoinEnv) :
    X.Around known { env with context, mayBind := true, join := some join } input :=
  ⟨h.pass, h.input, h.keys⟩

theorem handler (h : X.Around known env input) (caught : Binding) :
    X.Around known { env with caught := some caught } input :=
  ⟨h.pass, h.input, h.keys⟩

theorem row (h : X.Around known env input) (context : Context) :
    X.Around known { env with context, input := .value, mayBind := true, aggregate := none }
      .value :=
  ⟨h.pass, .value, fun _ h => by cases h⟩

theorem output {root : Expr} (h : X.Around known env input) (group : Nat)
    (keys : List (Smaller root)) (context : Context) (slots : List (Reducer Expr)) :
    X.Around (known.enter group (keys.map (·.1.parameter?)))
      { env with
        context, input := .unavailable, mayBind := true
        aggregate := some ⟨group, keys.map (·.1), context, slots⟩ } .unavailable := by
  refine ⟨h.pass, .unavailable, fun aggregate haggregate i e n he hn => ?_⟩
  cases haggregate
  rw [List.getElem?_map] at he
  obtain ⟨c, hc, rfl⟩ := Option.map_eq_some_iff.mp he
  rw [KnownKeys.enter, if_pos rfl, List.getElem?_map, hc]
  exact hn

theorem consumer (h : X.Around known env input) (context : Context) (mayBind : Bool) {i i' : Input}
    (hi : X.InputSettled known i i') :
    X.Around known { env with context, mayBind, input := i } i' :=
  ⟨h.pass, hi, h.keys⟩

end Around

/-! ### Rules with settled parts -/

variable {root : Expr}

/-- Two ways to lower smaller expressions, of which the second gives values for parameters. -/
structure GoesAlong (go go' : LowerSmaller root) : Prop where
  along : ∀ (c : Smaller root) {known : KnownKeys} {env : Env} {input : Input},
    X.Around known env input →
      X.Alongside known (X.Settled known) (go c env) (go' c { env with input })
  settles : ∀ (c : Smaller root) (env : Env) {s s' : State} {op : Op} {n : String},
    Gives (go' c env) s op s' → c.1.parameter? = some n → op = .mk (.const n (X.value n))

variable {X}

theorem lowerInput_along {e : Expr} {env : Env} {input : Input} (h : X.Around known env input) :
    X.Alongside known (X.Settled known) (lowerInput e env) (lowerInput e { env with input }) := by
  have settled := h.input
  unfold lowerInput
  dsimp only
  generalize env.input = i at settled ⊢
  cases settled with
  | value => exact .pure (.ofAlike (.input fun _ _ h => h))
  | inline hp => exact .pure hp
  | unavailable => exact .throw _

section Rules

variable {go go' : LowerSmaller root} (hgo : X.GoesAlong go go') {env : Env} {input : Input}
  (h : X.Around known env input)
include hgo h

theorem lowerItems_along (items : List (Smaller root)) :
    X.Alongside known (List.Forall₂ (X.Settled known)) (items.mapM (go · env))
      (items.mapM (go' · { env with input })) :=
  .mapM fun c _ => hgo.along c h

theorem lowerOption_along (item : Option (Smaller root)) :
    X.Alongside known (Option.Rel (X.Settled known)) (item.mapM (go · env))
      (item.mapM (go' · { env with input })) :=
  .mapM_option fun c _ => hgo.along c h

theorem lowerShortCircuit_along (items : List (Smaller root)) :
    X.Alongside known (List.Forall₂ (X.Settled known)) (lowerShortCircuit go items env)
      (lowerShortCircuit go' items { env with input }) := by
  cases items with
  | nil => exact .pure .nil
  | cons first rest =>
    refine (hgo.along first h).bind fun op op' hop => ?_
    exact (lowerItems_along hgo h rest).contained.bind fun ops ops' hops => .pure (.cons hop hops)

theorem lowerStep_along (step : PathStep (Smaller root)) :
    X.Alongside known (Setting.StepAlike (X.Settled known)) (lowerStep go env step)
      (lowerStep go' { env with input } step) := by
  cases step with
  | key c => exact (hgo.along c h).bind fun op op' hop => .pure (.key hop)
  | attr name => exact .pure (.attr name)

theorem lowerHandler_along (handler : Handler (Smaller root)) :
    X.Alongside known (Setting.HandlerAlike (X.Settled known)) (lowerHandler go env handler)
      (lowerHandler go' { env with input } handler) := by
  refine (lowerOption_along hgo h handler.reraiseIf).bind fun r r' hr => ?_
  exact (hgo.along handler.value h).bind fun v v' hv => .pure ⟨rfl, hv, hr⟩

theorem lowerGuarded_along (body : Smaller root) (handlers : List (Handler (Smaller root))) :
    X.Alongside known (X.Settled known) (lowerGuarded go body handlers env)
      (lowerGuarded go' body handlers { env with input }) := by
  unfold lowerGuarded
  refine .ite _ (hgo.along body h) (.bind_eq .assigned fun before => ?_)
  refine (hgo.along body h).bind fun bodyOp bodyOp' hbody => .bind_eq .assigned fun after => ?_
  refine .bind_eq (.freshSlot "exc") fun caught => ?_
  have lowered : X.Alongside known
      (List.Forall₂ fun a b => Setting.HandlerAlike (X.Settled known) a.1 b.1 ∧ a.2 = b.2)
      (handlers.mapM fun handler => do
        setAssigned before
        let op ← lowerHandler go { env with caught := some caught } handler
        return (op, ← assigned))
      (handlers.mapM fun handler => do
        setAssigned before
        let op ← lowerHandler go' { env with input, caught := some caught } handler
        return (op, ← assigned)) := by
    refine .mapM fun handler _ => .bind_eq (.setAssigned before) fun _ => ?_
    refine (lowerHandler_along hgo (h.handler caught) handler).bind fun op op' hop => ?_
    exact .bind_eq .assigned fun names => .pure ⟨hop, rfl⟩
  refine lowered.bind fun ops ops' hops => ?_
  have names : ops.foldl (fun names h => NameSet.inter names h.2) after =
      ops'.foldl (fun names h => NameSet.inter names h.2) after := by
    clear lowered
    induction hops generalizing after with
    | nil => rfl
    | cons head _ ih => rw [List.foldl_cons, List.foldl_cons, head.2, ih]
  rw [names]
  refine .bind_eq (.setAssigned _) fun _ => .pure (.ofAlike (.guarded ⟨hbody, ?_⟩))
  refine fun err => ⟨known, ⟨keeps_setSlot _ _, .refl _⟩, fun _ _ h => h, ?_⟩
  exact List.forall₂_map_left_iff.mpr (List.forall₂_map_right_iff.mpr (hops.imp fun _ _ h => h.1))

theorem lowerBranches_along (yes no : Smaller root) :
    X.Alongside known (fun a b => X.Settled known a.1 b.1 ∧ X.Settled known a.2 b.2)
      (lowerBranches go yes no env) (lowerBranches go' yes no { env with input }) := by
  refine .bind_eq .assigned fun before => (hgo.along yes h).bind fun y y' hy => ?_
  refine .bind_eq .assigned fun after => .bind_eq (.setAssigned before) fun _ => ?_
  refine (hgo.along no h).bind fun n n' hn => .bind_eq .assigned fun names => ?_
  exact .bind_eq (.setAssigned _) fun _ => .pure ⟨hy, hn⟩

theorem lowerPipe_along (producer consumer : Smaller root) :
    X.Alongside known (X.Settled known) (lowerPipe go producer consumer env)
      (lowerPipe go' producer consumer { env with input }) := by
  unfold lowerPipe
  refine (hgo.along producer h).bind fun p q hpq => ?_
  refine .ite _ (hgo.along consumer (h.consumer _ _ (.inline hpq))) ?_
  refine (hgo.along consumer (h.consumer _ _ .value)).bind fun c d hcd => ?_
  exact .pure (.ofAlike (.pipe hpq (.refl _) (.refl _) (fun _ => rfl) hcd))

theorem lowerFallback_along (r : Reducer (Smaller root)) :
    X.Alongside known (X.Settled known) (lowerFallback go r env)
      (lowerFallback go' r { env with input }) := by
  unfold lowerFallback
  generalize r.initial.filter (·.1.analysis.inputUses == 0) = initial
  cases r.default with
  | some d => exact (hgo.along d h).contained
  | none =>
    cases initial with
    | some c => exact (hgo.along c h).contained
    | none => exact .bind_eq (.constantName _) fun name => .pure (.ofAlike (.const _ _ _))

theorem lowerReducer_along (r : Reducer (Smaller root)) :
    X.Alongside known (X.Settled known) (lowerReducer go r env)
      (lowerReducer go' r { env with input }) := by
  obtain ⟨pass, threshold, context, i, mayBind, aggregate, join, caught⟩ := env
  unfold lowerReducer
  cases aggregate with
  | none => exact .throw _
  | some aggregate =>
    dsimp only
    cases aggregate.slots.findIdx? fun slot => slot.sameSlot (Smaller.plain r) with
    | none => exact .throw _
    | some index =>
      refine (lowerFallback_along hgo h r).bind fun d d' hd => .pure (.ofAlike ?_)
      exact .slotValue (keeps_currentGroup _) hd

theorem lowerSlot_along (r : Reducer (Smaller root)) :
    X.Alongside known (Setting.SlotAlike (X.Settled known)) (lowerSlot go env r)
      (lowerSlot go' { env with input } r) := by
  unfold lowerSlot
  have part (c : Smaller root) := (hgo.along c h).contained
  refine .bind (.mapM_option fun c _ => part c) fun filter filter' hfilter => ?_
  refine .bind (.mapM fun c _ => part c) fun args args' hargs => ?_
  refine .bind (.mapM_option fun c _ => part c) fun initial initial' hinitial => ?_
  exact .pure ⟨rfl, rfl, hfilter, hargs, hinitial⟩

theorem lowerConjunction_along (cs : List (Smaller root)) :
    X.Alongside known (Option.Rel (X.Settled known)) (lowerConjunction go cs env)
      (lowerConjunction go' cs { env with input }) := by
  refine .bind (lowerItems_along hgo h cs).contained fun ops ops' hops => ?_
  cases hops with
  | nil => exact .pure .none
  | cons head tail =>
    cases tail with
    | nil => exact .pure (.some head)
    | cons next rest => exact .pure (.some (.ofAlike (.and (.cons head (.cons next rest)))))

theorem lowerJoinSide_along (context : Context) (join : JoinEnv)
    (keys filter : List (Smaller root)) :
    X.Alongside known (fun a b => a.scope.resets = b.scope.resets ∧
        Setting.SideAlike (X.Settled known) a b)
      (lowerJoinSide go context join keys filter env)
      (lowerJoinSide go' context join keys filter { env with input }) := by
  have inside : X.Alongside known (fun a b : List Op × Option Op =>
        List.Forall₂ (X.Settled known) a.1 b.1 ∧ Option.Rel (X.Settled known) a.2 b.2)
      (do
        let keys ← keys.mapM
          (go · { env with context, mayBind := true, join := some join })
        let filter ← lowerConjunction go filter
          { env with context, mayBind := true, join := some join }
        return (keys, filter))
      (do
        let keys ← keys.mapM
          (go' · { env with context, input, mayBind := true, join := some join })
        let filter ← lowerConjunction go' filter
          { env with context, input, mayBind := true, join := some join }
        return (keys, filter)) := by
    refine (lowerItems_along hgo (h.enterSame context join) keys).bind fun ks ks' hks => ?_
    refine (lowerConjunction_along hgo (h.enterSame context join) filter).bind fun f f' hf => ?_
    exact .pure ⟨hks, hf⟩
  refine .bind (.inScope inside) fun side side' hside => ?_
  exact .pure ⟨hside.1, hside.2.1, hside.2.2⟩

omit h in
/-- Keys that are parameters are lowered to values. -/
theorem settles_keys {keys : List (Smaller root)} {s s' : State} {ops : List Op}
    (hops : Gives (keys.mapM (go' · env)) s ops s') (i : Nat) (n : String)
    (hn : (keys.map (·.1.parameter?))[i]? = some (some n)) :
    ops[i]? = some (.mk (.const n (X.value n))) := by
  have steps := gives_mapM.mp hops
  clear hops
  induction steps generalizing i with
  | nil => cases hn
  | cons head _ ih =>
    cases i with
    | zero => exact congrArg some (hgo.settles _ env head (Option.some.inj hn))
    | succ i => exact ih i hn

theorem lowerAggregate_along (e : Expr) (key : NodeKey) (keys : List (Smaller root))
    (output : Smaller root) :
    X.Alongside known (X.Settled known) (lowerAggregate go e key keys output env)
      (lowerAggregate go' e key keys output { env with input }) := by
  unfold lowerAggregate
  refine (lowerInput_along h).bind fun source source' hsource => ?_
  cases output.slots with
  | error err => exact .throw _
  | ok reducers =>
    refine .ok_bind (.bind_eq .freshGroup fun group => .bind_eq (.freshName "row") fun row => ?_)
    have rows : X.Alongside known (fun a b : List Op × List (SlotOp Op) =>
          (List.Forall₂ (X.Settled known) a.1 b.1 ∧
            ∀ (i : Nat) (n : String), (keys.map (·.1.parameter?))[i]? = some (some n) →
              b.1[i]? = some (.mk (.const n (X.value n)))) ∧
            List.Forall₂ (Setting.SlotAlike (X.Settled known)) a.2 b.2)
        (do
          let keyOps ← keys.mapM (go · { env with
            context := .part env.context key .row, input := .value, mayBind := true
            aggregate := none })
          let slots ← reducers.mapM (lowerSlot go { env with
            context := .part env.context key .row, input := .value, mayBind := true
            aggregate := none })
          return (keyOps, slots))
        (do
          let keyOps ← keys.mapM (go' · { env with
            context := .part env.context key .row, input := .value, mayBind := true
            aggregate := none })
          let slots ← reducers.mapM (lowerSlot go' { env with
            context := .part env.context key .row, input := .value, mayBind := true
            aggregate := none })
          return (keyOps, slots)) := by
      refine ((lowerItems_along hgo (h.row _) keys).ensuring (settles_keys hgo)).bind
        fun ops ops' hops => ?_
      refine .bind (.mapM fun r _ => lowerSlot_along hgo (h.row _) r) fun slots slots' hslots => ?_
      exact .pure ⟨hops, hslots⟩
    refine .bind (.inScope rows) fun a b hrows => ?_
    refine .bind (.inScope (hgo.along output (h.output group keys _ _))) fun c d houtput => ?_
    obtain ⟨rowScope, ⟨hkeys, constant⟩, hslots⟩ := hrows
    exact .pure (.aggregate rfl rowScope houtput.1 hsource hkeys hslots constant houtput.2)

theorem lowerJoin_along (key : NodeKey) (left right : Smaller root)
    (condition : Option (Smaller root)) (kind : JoinKind) :
    X.Alongside known (X.Settled known) (lowerJoin go key left right condition kind env)
      (lowerJoin go' key left right condition kind { env with input }) := by
  unfold lowerJoin
  refine (hgo.along left h).bind fun l l' hl => (hgo.along right h).bind fun r r' hr => ?_
  refine .bind_eq (.freshSlot "left") fun leftRow => ?_
  refine .bind_eq (.freshSlot "right") fun rightRow => ?_
  refine (lowerConjunction_along hgo h _).bind fun pre pre' hpre => ?_
  refine (lowerJoinSide_along hgo h _ _ _ _).bind fun ls ls' hls => ?_
  refine (lowerJoinSide_along hgo h _ _ _ _).bind fun rs rs' hrs => ?_
  refine .bind (.inScope (lowerConjunction_along hgo (h.enterSame _ _) _))
    fun pair pair' hpair => ?_
  exact .pure (.join rfl rfl rfl hls.1 hrs.1 hpair.1 hl hr hpre hls.2 hrs.2 hpair.2)

end Rules

/-! ### Nodes and expressions -/

theorem lowerNode_along {go go' : LowerSmaller root} (hgo : X.GoesAlong go go') {env : Env}
    {input : Input} (h : X.Around known env input) (e : Expr) (key : NodeKey)
    (node : Node (Smaller root)) :
    X.Alongside known (X.Settled known) (lowerNode go e env key node)
      (lowerNode go' e { env with input } key node) := by
  have items := lowerItems_along hgo h
  have optional := lowerOption_along hgo h
  -- Both sides lower the same parts in the same order, and what they give is related.
  cases node with
  | input => exact lowerInput_along h
  | constant v =>
    exact .bind_eq (.constantName _) fun name => .pure (.ofAlike (.const _ _ _))
  | parameter name =>
    refine .bind_eq (.paramIndex _) fun index => .pure (.ofAlike (.param (keeps fun _ hw => hw)))
  | access source path default =>
    refine (hgo.along source h).bind fun op op' hop => ?_
    refine .bind (.mapM fun step _ => lowerStep_along hgo h step) fun steps steps' hsteps => ?_
    refine .bind (.mapM_option fun d _ => (hgo.along d h).contained) fun d d' hd => ?_
    exact .pure (.ofAlike (.access hop hsteps hd))
  | call f args =>
    refine .bind_eq (.constantName _) fun name => (items args).bind fun ops ops' hops => ?_
    exact .pure (.ofAlike (.call (keeps_call f) hops))
  | builtin op args =>
    exact (items args).bind fun ops ops' hops => .pure (.ofAlike (.builtin hops))
  | binary op left right =>
    refine (hgo.along left h).bind fun l l' hl => (hgo.along right h).bind fun r r' hr => ?_
    exact .pure (.ofAlike (.binary hl hr))
  | unary op operand =>
    exact (hgo.along operand h).bind fun o o' ho => .pure (.ofAlike (.unary ho))
  | and operands =>
    exact (lowerShortCircuit_along hgo h operands).bind fun ops ops' hops =>
      .pure (.ofAlike (.and hops))
  | or operands =>
    exact (lowerShortCircuit_along hgo h operands).bind fun ops ops' hops =>
      .pure (.ofAlike (.or hops))
  | collection kind operands =>
    exact (items operands).bind fun ops ops' hops => .pure (.ofAlike (.collection hops))
  | dict pairs =>
    refine .bind (.mapM fun pair _ => ?_) fun ops ops' hops => .pure (.ofAlike (.dict hops))
    refine (hgo.along pair.1 h).bind fun k k' hk => (hgo.along pair.2 h).bind fun v v' hv => ?_
    exact .pure ⟨hk, hv⟩
  | comprehension kind keyed element source filter =>
    refine (hgo.along source h).bind fun op op' hop => .bind_eq (.freshName "item") fun var => ?_
    have entered := h.enter (.part env.context key .item)
    have item : X.Alongside known (fun a b : Option Op × Option Op × Op =>
          Option.Rel (X.Settled known) a.1 b.1 ∧ Option.Rel (X.Settled known) a.2.1 b.2.1 ∧
            X.Settled known a.2.2 b.2.2)
        (do
          let filter ← filter.mapM (go · { env with
            context := .part env.context key .item, input := .value, mayBind := true })
          let keyed ← keyed.mapM (go · { env with
            context := .part env.context key .item, input := .value, mayBind := true })
          let element ← go element { env with
            context := .part env.context key .item, input := .value, mayBind := true }
          return (filter, keyed, element))
        (do
          let filter ← filter.mapM (go' · { env with
            context := .part env.context key .item, input := .value, mayBind := true })
          let keyed ← keyed.mapM (go' · { env with
            context := .part env.context key .item, input := .value, mayBind := true })
          let element ← go' element { env with
            context := .part env.context key .item, input := .value, mayBind := true }
          return (filter, keyed, element)) := by
      refine (lowerOption_along hgo entered filter).bind fun f f' hf => ?_
      refine (lowerOption_along hgo entered keyed).bind fun k k' hk => ?_
      exact (hgo.along element entered).bind fun v v' hv => .pure ⟨hf, hk, hv⟩
    refine .bind (.inScope item) fun a b hab => .pure (.ofAlike (.loop ?_))
    exact ⟨rfl, hop, fun _ => ⟨known, enters hab.1, rfl, hab.2.1, hab.2.2.1, hab.2.2.2⟩⟩
  | sort source keys reverse =>
    refine (hgo.along source h).bind fun op op' hop => .bind_eq (.freshName "item") fun var => ?_
    have item (k : SortKey (Smaller root)) : X.Alongside known
        (fun a b : SortKeyOp Op => a.order = b.order ∧ X.Settled known a.op b.op)
        (do return ⟨← go k.key { env with
          context := .part env.context key .sortItem, input := .value, mayBind := true }, k.order⟩)
        (do return ⟨← go' k.key { env with
          context := .part env.context key .sortItem, input := .value, mayBind := true },
            k.order⟩) :=
      (hgo.along k.key (h.enter _)).bind fun o o' ho => .pure ⟨rfl, ho⟩
    refine .bind (.inScope (.mapM fun k _ => item k)) fun a b hab => .pure (.ofAlike (.sort ?_))
    have orders := List.forall₂_map_left_iff.mpr (List.forall₂_map_right_iff.mpr
      (hab.2.imp fun a b h => h.1))
    exact ⟨rfl, List.forall₂_eq_eq_eq ▸ orders, hop, fun _ => ⟨known, enters hab.1, rfl,
      hab.2.imp fun a b h => h.2⟩⟩
  | guarded body handlers => exact lowerGuarded_along hgo h body handlers
  | caught =>
    unfold lowerNode
    dsimp only
    cases env.caught with
    | none => exact .throw _
    | some binding => exact .pure (.ofAlike (.caught (keeps_slot _)))
  | conditional condition yes no =>
    refine (hgo.along condition h).bind fun c c' hc => ?_
    refine (lowerBranches_along hgo h yes no).bind fun b b' hb => ?_
    exact .pure (.ofAlike (.cond hc hb.1 hb.2))
  | pipe producer consumer => exact lowerPipe_along hgo h producer consumer
  | label name value =>
    refine (hgo.along value h).bind fun op op' hop => .bind_eq .assigned fun names => ?_
    refine .bind_eq (.setAssigned _) fun _ => .bind_eq (.labelSlot _) fun binding => ?_
    exact .pure (.ofAlike (.setLabel (keeps_setSlot _) hop))
  | labelRef name =>
    unfold lowerNode
    have label : X.Alongside known (X.Settled known)
        (do return .mk (.getLabel (← labelSlot name)))
        (do return .mk (.getLabel (← labelSlot name))) :=
      .bind_eq (.labelSlot _) fun binding => .pure (.ofAlike (.getLabel (keeps_readSlot _)))
    refine .bind_eq .assigned fun names => .ite _ ?_ label
    exact .bind_eq (.throw _) fun _ => label
  | reducer r => exact lowerReducer_along hgo h r
  | aggregate keys output => exact lowerAggregate_along hgo h e key keys output
  | join left right condition kind => exact lowerJoin_along hgo h key left right condition kind
  | joinRow side =>
    unfold lowerNode
    dsimp only
    cases env.join with
    | none => exact .throw _
    | some join =>
      cases side with
      | left => exact .pure (.ofAlike (.register (keeps_readSlot _)))
      | right => exact .pure (.ofAlike (.register (keeps_readSlot _)))

/-- A subexpression that is bound in one lowering is bound in the other. -/
theorem shared_along (e : Expr) {env : Env} (hpass : env.pass = .emit) (input : Input)
    {lowered lowered' : NodeKey → M Op}
    (h : ∀ key, X.Alongside known (X.Settled known) (lowered key) (lowered' key)) :
    X.Alongside known (X.Settled known) (shared env e e.analysis lowered)
      (shared { env with input } e e.analysis lowered') := by
  unfold shared
  dsimp only
  rw [hpass]
  refine .get_bind fun s t hst => ?_
  rw [hst.counts]
  refine Alongside.ite _ (h _) (.get_bind fun s t hst => ?_) s t hst
  have found := rel_find? hst.bound (p := fun b => b.site.same ⟨env.context, .of e e.analysis⟩)
    (q := fun b => b.site.same ⟨env.context, .of e e.analysis⟩) fun b c hbc => by rw [hbc.site]
  generalize s.bound.find? (fun b => b.site.same ⟨env.context, .of e e.analysis⟩) = b at found ⊢
  generalize t.bound.find? (fun b => b.site.same ⟨env.context, .of e e.analysis⟩) = c at found ⊢
  cases found with
  | @some b c hbc =>
    refine Alongside.bind_eq .assigned (fun names => ?_) s t hst
    rw [hbc.reads]
    cases NameSet.diff b.reads names with
    | cons name _ => exact .throw _
    | nil =>
      refine .bind_eq .assigned fun names => ?_
      rw [hbc.writes, hbc.binding]
      refine .bind_eq (.setAssigned _) fun _ => .pure (.ofAlike ?_)
      exact .memo (keeps_slot _) (keeps_setSlot _) hbc.definition
  | none =>
    refine Alongside.bind_eq .assigned (fun before => ?_) s t hst
    refine (h _).bind fun definition definition' hdefinition => ?_
    refine .bind_eq .assigned fun after => .bind_eq (.freshSlot "v") fun binding => ?_
    refine .bind_eq (.modify fun u v huv => ⟨huv.supply, huv.counts, huv.assigned, ?_⟩) fun _ =>
      .pure (.ofAlike (.memo (keeps_slot _) (keeps_setSlot _) hdefinition))
    exact List.rel_append huv.bound (.cons ⟨rfl, rfl, rfl, rfl, hdefinition⟩ .nil)

/-- The second lowering gives the value of a parameter. -/
theorem settle_eq {value : String → Value} {e : Expr} {n : String} (h : e.parameter? = some n)
    (op : Op) : e.settle value op = .mk (.const n (value n)) := by
  rw [Expr.settle, h]

theorem settle_of_none {value : String → Value} {e : Expr} (h : e.parameter? = none) (op : Op) :
    e.settle value op = op := by
  rw [Expr.settle, h]

theorem lowerSettled_settles {value : String → Value} {e : Expr} {env : Env} {s s' : State}
    {op : Op} {n : String} (hop : Gives (lowerSettled value e env) s op s')
    (h : e.parameter? = some n) : op = .mk (.const n (value n)) := by
  rw [lowerSettled] at hop
  obtain ⟨found, s₁, -, hop⟩ := gives_bind.mp hop
  cases found with
  | some o =>
    obtain ⟨rfl, -⟩ := gives_pure.mp hop
    exact settle_eq h o
  | none =>
    obtain ⟨o, s₂, -, hop⟩ := gives_bind.mp hop
    obtain ⟨rfl, -⟩ := gives_pure.mp hop
    exact settle_eq h o

/-- Expressions that are equal refer to the same parameter. -/
theorem parameter?_eq_of_beq {d e : Expr} (h : (d == e) = true) : d.parameter? = e.parameter? := by
  change d.sameBy Value.beq e = true at h
  rw [Expr.sameBy_eq] at h
  unfold Expr.parameter?
  generalize d.node = node at h ⊢
  generalize e.node = node' at h ⊢
  cases node <;> cases node' <;> first | rfl | cases h | exact congrArg some (eq_of_beq h)

theorem parts_of_parameter? {e : Expr} {n : String} (h : e.parameter? = some n) :
    e.parts = .parameter n := by
  obtain ⟨i, node⟩ := e
  cases node <;> cases h
  rfl

/-- A reference to a parameter is lowered where it stands. -/
theorem shared_parameter {e : Expr} {n : String} (he : e.parameter? = some n) {env : Env}
    (hpass : env.pass = .emit) (input : Input) {lowered lowered' : NodeKey → M Op}
    {R : Op → Op → Prop} (h : ∀ key, X.Alongside known R (lowered key) (lowered' key)) :
    X.Alongside known R (shared env e e.analysis lowered)
      (shared { env with input } e e.analysis lowered') := by
  have unbound (env : Env) (count : Nat) : isBound env e e.analysis count = false := by
    obtain ⟨i, node⟩ := e
    cases node <;> cases he
    simp [isBound, isAtomic, Expr.node]
  unfold shared
  dsimp only
  rw [hpass]
  simp only [unbound]
  exact .get_bind fun s t hst => h _ s t hst

/-- **Lowering with settled parameters.**  It goes through the same steps and gives the same
    operation with settled parameters. -/
theorem lower_along (e : Expr) {known : KnownKeys} {env : Env} {input : Input}
    (h : X.Around known env input) :
    X.Alongside known (X.Settled known) (lower e env)
      (lowerSettled X.value e { env with input }) := by
  have below : X.GoesAlong (fun (c : Smaller e) env => lower c.1 env)
      (fun c env => lowerSettled X.value c.1 env) :=
    ⟨fun c _ _ _ h => lower_along c.1 h, fun c _ _ _ _ _ h hn => lowerSettled_settles h hn⟩
  have keys : groupKey? e { env with input } = groupKey? e env := rfl
  rw [lower, lowerSettled, keys]
  cases hkey : groupKey? e env with
  | error err => exact .throw _
  | ok found =>
    refine .ok_bind ?_
    -- A key of an open group is read back from it; a parameter among the keys is known there.
    cases found with
    | some op =>
      obtain ⟨aggregate, index, haggregate, -, hindex, rfl⟩ := groupKey_eq hkey
      obtain ⟨k, hk, hsame⟩ := mem_keyPositions.mp (hindex ▸ List.mem_singleton_self index)
      refine .pure ?_
      cases hp : e.parameter? with
      | some n =>
        rw [settle_eq hp]
        refine .groupKey (h.keys aggregate haggregate index k n hk ?_)
        rw [parameter?_eq_of_beq hsame, hp]
      | none =>
        rw [settle_of_none hp]
        exact .ofAlike (.groupKey (keeps_currentGroup _))
    | none =>
      cases hp : e.parameter? with
      | some n =>
        -- A parameter is lowered to a reference before it is settled to its value.
        have reference (key : NodeKey) : X.Alongside known (fun op _ => ∃ i, op = .mk (.param i n))
            (lowerNode (fun c env => lower c.1 env) e env key e.parts)
            (lowerNode (fun c env => lowerSettled X.value c.1 env) e { env with input } key
              e.parts) := by
          rw [parts_of_parameter? hp]
          exact .bind_eq (.paramIndex n) fun index => .pure ⟨index, rfl⟩
        have lowered := shared_parameter hp h.pass input reference
        have settled := lowered.bind (Q := X.Settled known) (k := pure)
          (l := fun op => pure (e.settle X.value op)) fun op op' hop => by
            obtain ⟨index, rfl⟩ := hop
            rw [settle_eq hp]
            exact .pure (.param index n)
        rwa [bind_pure] at settled
      | none =>
        simp only [settle_of_none hp, bind_pure]
        exact shared_along e h.pass input fun key => lowerNode_along below h e key e.parts
termination_by sizeOf e
decreasing_by exact c.2

/-- The program of an expression and the one with settled parameters. -/
theorem Settled.ofLower {e : Expr} {threshold : Weight.Threshold} {signature : Signature}
    {counts : Occurrences} {body : Op} {s : State}
    (h : Gives (lower e (.start .emit threshold)) (.start signature counts) body s) :
    ∃ body' t, Gives (lowerSettled X.value e (.start .emit threshold)) (.start signature counts)
      body' t ∧ t.supply = s.supply ∧ X.Settled .none body body' := by
  have around : X.Around .none (.start .emit threshold) .value :=
    ⟨rfl, .value, fun _ h => by cases h⟩
  have beside : X.Beside .none (.start signature counts) (.start signature counts) :=
    ⟨rfl, rfl, rfl, .nil⟩
  have both := lower_along e around _ _ beside
  unfold Gives at h
  rw [h] at both
  change X.BothGive .none (X.Settled .none) (.ok (body, s))
    ((lowerSettled X.value e (.start .emit threshold)).run (.start signature counts)) at both
  cases hsettled : (lowerSettled X.value e (.start .emit threshold)).run
      (.start signature counts) with
  | error err =>
    rw [hsettled] at both
    cases both
  | ok r =>
    rw [hsettled] at both
    cases both with
    | ok hab hst => exact ⟨_, _, hsettled, hst.supply, hab⟩

end Settling

/-- **Parameters have their values wherever they are lowered.**  A program runs as the one in which
    each reference to a parameter is replaced by the value that the parameter is bound to. -/
theorem Program.ofSettled_runs {e : Expr} {signature : Signature} {threshold : Weight.Threshold}
    {program : Program} (h : Program.ofExpr e signature threshold = .ok program) {params : Params}
    {values : List Value} (hbind : program.params.bind params = .ok values) {σ : Type}
    (host : Host σ) :
    ∃ settled, Program.ofSettled (program.params.valueOf values) e signature threshold =
        .ok settled ∧ ∀ x : Value, program.call host x params = settled.call host x params ∧
      ∀ count, program.takeBy (OpNode.evaluate host) count x params =
        settled.takeBy (OpNode.evaluate host) count x params := by
  obtain ⟨-, counts, body, s, hcounts, hlower, rfl⟩ := ofExpr_cases h
  obtain ⟨body', t, hsettled, hsupply, settled⟩ :=
    Settling.Settled.ofLower (X := ⟨host, (s.program body).room, values⟩) hlower
  refine ⟨t.program body', ?_, fun x => ?_⟩
  · unfold Program.ofSettled
    rw [hcounts]
    change (do
      let r ← (lowerSettled _ e (.start .emit threshold)).run (.start signature counts)
      return r.2.program r.1) = Except.ok (t.program body')
    unfold Gives at hsettled
    rw [show Signature.valueOf (s.program body).params values =
      Settling.value ⟨host, (s.program body).room, values⟩ from rfl, hsettled]
    rfl
  · refine Settling.run_eq (X := ⟨host, (s.program body).room, values⟩) (P := s.program body)
      (Q := t.program body') rfl ?_ ?_ hbind (settled ⟨_, (start_wellScoped hlower).body⟩) x
    · exact congrArg Supply.signature hsupply
    · exact congrArg (fun p : Supply => (⟨p.slots, p.groups⟩ : Layout)) hsupply

end DataExpr
