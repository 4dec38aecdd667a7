import DataExpr.Proofs.RenamedParts

/-!
# Lowering does not see identities

Lowering an expression that has been relabeled goes through the same steps: it fails with the
same error or gives the same operation, in states that differ only in the identities of the sites
that they know.  The relabeling keeps apart the identities by which lowering knows expressions.
The main statement is `ofExpr_relabel`: both expressions have the same program.
-/

namespace DataExpr

open Lowering

namespace Lowering

variable {α β ι κ : Type} {ρ : Relabeling}

/-! ### Surroundings and states with other identities -/

def AggregateEnv.relabel (ρ : Relabeling) (aggregate : AggregateEnv) : AggregateEnv :=
  { aggregate with
    keys := aggregate.keys.map (Expr.relabel ρ.label)
    context := aggregate.context.relabel ρ
    slots := aggregate.slots.map (Reducer.map (Expr.relabel ρ.label)) }

def Env.relabel (ρ : Relabeling) (env : Env) : Env :=
  { env with
    context := env.context.relabel ρ
    aggregate := env.aggregate.map (AggregateEnv.relabel ρ) }

def Bound.relabel (ρ : Relabeling) (b : Bound) : Bound := { b with site := b.site.relabel ρ }

/-- States that differ in identities only. -/
structure Renamed (ρ : Relabeling) (s s' : State) : Prop where
  supply : s'.supply = s.supply
  assigned : s'.assigned = s.assigned
  bound : s'.bound = s.bound.map (Bound.relabel ρ)
  counts : ∃ entries, s.counts.Holds entries ∧
    s'.counts.Holds (Occurrences.relabelAll ρ entries)

/-- The same result in states that differ in identities only. -/
inductive SameOutcome (ρ : Relabeling) :
    Except CompileError (α × State) → Except CompileError (α × State) → Prop
  | ok {a : α} {s s' : State} (h : Renamed ρ s s') : SameOutcome ρ (.ok (a, s)) (.ok (a, s'))
  | error {e : CompileError} : SameOutcome ρ (.error e) (.error e)

/-- Computations with the same results in states that differ in identities only. -/
def Parallel (ρ : Relabeling) (m m' : M α) : Prop :=
  ∀ s s', Renamed ρ s s' → SameOutcome ρ (m.run s) (m'.run s')

namespace Parallel

theorem pure (a : α) : Parallel ρ (pure a : M α) (pure a) := fun _ _ h => .ok h

theorem throw (e : CompileError) : Parallel ρ (throw e : M α) (throw e) := fun _ _ _ => .error

theorem bind {m m' : M α} {k k' : α → M β} (hm : Parallel ρ m m')
    (hk : ∀ a, Parallel ρ (k a) (k' a)) : Parallel ρ (m >>= k) (m' >>= k') := by
  intro s s' h
  rw [StateT.run_bind, StateT.run_bind]
  have first := hm s s' h
  generalize m.run s = r at first ⊢
  generalize m'.run s' = r' at first ⊢
  cases first with
  | ok h => exact hk _ _ _ h
  | error => exact .error

theorem ok_bind {a : α} {b : ι} {k : α → M β} {k' : ι → M β} (h : Parallel ρ (k a) (k' b)) :
    Parallel ρ ((liftM (.ok a : Except CompileError α) : M α) >>= k)
      ((liftM (.ok b : Except CompileError ι) : M ι) >>= k') := h

theorem map {m m' : M α} (hm : Parallel ρ m m') (g : α → β) :
    Parallel ρ (do let a ← m; return g a) (do let a ← m'; return g a) :=
  hm.bind fun a => .pure (g a)

/-- A computation that goes on with the states it finds. -/
theorem get_bind {k k' : State → M α}
    (hk : ∀ s s', Renamed ρ s s' → SameOutcome ρ ((k s).run s) ((k' s').run s')) :
    Parallel ρ (get >>= k) (get >>= k') := fun s s' h => hk s s' h

theorem modify {g g' : State → State} (h : ∀ s s', Renamed ρ s s' → Renamed ρ (g s) (g' s')) :
    Parallel ρ (modify g : M Unit) (modify g') := fun s s' hs => .ok (h s s' hs)

theorem assigned : Parallel ρ assigned assigned := by
  intro s s' h
  change SameOutcome ρ (.ok (s.assigned, s)) (.ok (s'.assigned, s'))
  rw [h.assigned]
  exact .ok h

theorem setAssigned (names : NameSet) : Parallel ρ (setAssigned names) (setAssigned names) :=
  modify fun _ _ h => ⟨h.supply, rfl, h.bound, h.counts⟩

theorem ite {m m' n n' : M α} (c : Prop) [Decidable c] (hm : Parallel ρ m m')
    (hn : Parallel ρ n n') : Parallel ρ (if c then m else n) (if c then m' else n') := by
  by_cases h : c
  · simpa only [if_pos h] using hm
  · simpa only [if_neg h] using hn

/-- Lists that have the same images under `u` and `u'` are gone through in parallel. -/
theorem mapM {is : List ι} {js : List κ} {γ : Type} {u : ι → γ} {v : κ → γ} {k : ι → M β}
    {k' : κ → M β} (h : js.map v = is.map u)
    (step : ∀ i ∈ is, ∀ j, v j = u i → Parallel ρ (k i) (k' j)) :
    Parallel ρ (is.mapM k) (js.mapM k') := by
  induction is generalizing js with
  | nil =>
    obtain rfl := List.map_eq_nil_iff.mp h
    exact .pure []
  | cons i is ih =>
    obtain ⟨j, js, rfl, hj, hjs⟩ := List.map_eq_cons_iff.mp h
    rw [List.mapM_cons, List.mapM_cons]
    refine (step i List.mem_cons_self j hj).bind fun b => ?_
    exact (ih hjs fun i hi => step i (List.mem_cons_of_mem _ hi)).map (b :: ·)

theorem mapM_option {o : Option ι} {o' : Option κ} {γ : Type} {u : ι → γ} {v : κ → γ}
    {k : ι → M β} {k' : κ → M β} (h : o'.map v = o.map u)
    (step : ∀ i ∈ o, ∀ j, v j = u i → Parallel ρ (k i) (k' j)) :
    Parallel ρ (o.mapM k) (o'.mapM k') := by
  cases o with
  | none =>
    obtain rfl := Option.map_eq_none_iff.mp h
    exact .pure none
  | some i =>
    obtain ⟨j, rfl, hj⟩ := Option.map_eq_some_iff.mp h
    exact (step i rfl j hj).map some

theorem contained {m m' : M α} (h : Parallel ρ m m') :
    Parallel ρ (contained m) (contained m') :=
  assigned.bind fun before => h.bind fun a => (setAssigned before).bind fun _ => .pure a

/-- A computation that uses nothing but the supply. -/
theorem ofSupply {m : M α} (g : Supply → Except CompileError (α × Supply))
    (hm : ∀ s, m.run s = (g s.supply).map fun r => (r.1, { s with supply := r.2 })) :
    Parallel ρ m m := by
  intro s s' h
  rw [hm, hm, h.supply]
  cases g s.supply with
  | error e => exact .error
  | ok r => exact .ok ⟨rfl, h.assigned, h.bound, h.counts⟩

theorem freshName (stem : String) : Parallel ρ (freshName stem) (freshName stem) :=
  ofSupply (fun p => .ok (stem ++ "_" ++ toString (p.counter + 1),
    { p with counter := p.counter + 1 })) fun _ => rfl

theorem freshSlot (stem : String) : Parallel ρ (freshSlot stem) (freshSlot stem) :=
  ofSupply (fun p => .ok (⟨p.slots, stem ++ "_" ++ toString (p.counter + 1)⟩,
    { p with slots := p.slots + 1, counter := p.counter + 1 })) fun _ => rfl

theorem freshGroup : Parallel ρ freshGroup freshGroup :=
  ofSupply (fun p => .ok (p.groups, { p with groups := p.groups + 1 })) fun _ => rfl

theorem updateSupply (g : Supply → Supply) : Parallel ρ (updateSupply g) (updateSupply g) :=
  modify fun _ _ h => ⟨congrArg g h.supply, h.assigned, h.bound, h.counts⟩

theorem constantName (value : Value) : Parallel ρ (constantName value) (constantName value) := by
  refine get_bind fun s s' h => ?_
  rw [h.supply]
  cases s.supply.constants.find? fun c => c.2 == value with
  | some c => exact .ok h
  | none =>
    refine (freshName "const").bind (fun name => ?_) s s' h
    exact (updateSupply _).bind fun _ => .pure name

theorem labelSlot (name : String) : Parallel ρ (labelSlot name) (labelSlot name) := by
  refine get_bind fun s s' h => ?_
  rw [h.supply]
  dsimp only
  cases s.supply.labels.find? fun l => l.1 == name with
  | some l => exact .ok h
  | none => exact (updateSupply _).bind (fun _ => .pure _) s s' h

theorem paramIndex (name : String) : Parallel ρ (paramIndex name) (paramIndex name) := by
  refine get_bind fun s s' h => ?_
  rw [h.supply]
  dsimp only
  cases s.supply.signature.indexOf? name with
  | some index => exact .ok h
  | none => exact (updateSupply _).bind (fun _ => .pure _) s s' h

theorem inScope {env : Env} {context : Context} {input : Input} {part part' : Env → M α}
    (h : Parallel ρ (part { env with context, input, mayBind := true })
      (part' { env.relabel ρ with context := context.relabel ρ, input, mayBind := true })) :
    Parallel ρ (inScope env context input part)
      (inScope (env.relabel ρ) (context.relabel ρ) input part') := by
  intro s s' hs
  have entered : Renamed ρ { s with bound := [] } { s' with bound := [] } :=
    ⟨hs.supply, hs.assigned, rfl, hs.counts⟩
  have inner := h _ _ entered
  have run (env : Env) (context : Context) (part : Env → M α) (s : State) :
      (Lowering.inScope env context input part).run s =
        ((part { env with context, input, mayBind := true }).run { s with bound := [] }).map
          fun r => ((⟨r.2.bound.map fun b => ⟨b.binding, b.definition⟩⟩, r.1),
            { r.2 with bound := s.bound, assigned := s.assigned }) := by
    unfold Lowering.inScope
    rw [StateT.run_bind]
    change ((part { env with context, input, mayBind := true }).run { s with bound := [] } >>=
      fun r => _) = _
    cases (part { env with context, input, mayBind := true }).run { s with bound := [] } <;> rfl
  rw [run, run]
  generalize (part { env with context, input, mayBind := true }).run { s with bound := [] } = r
    at inner ⊢
  generalize (part' { env.relabel ρ with context := context.relabel ρ, input, mayBind := true }).run
    { s' with bound := [] } = r' at inner ⊢
  cases inner with
  | error => exact .error
  | @ok a t t' ht =>
    have scopes : (t'.bound.map fun b => (⟨b.binding, b.definition⟩ : Memo Op)) =
        t.bound.map fun b => ⟨b.binding, b.definition⟩ := by
      rw [ht.bound, List.map_map]
      rfl
    simp only [Except.map, scopes]
    exact .ok ⟨ht.supply, hs.assigned, hs.bound, ht.counts⟩

end Parallel

/-! ### Rules on parts with other identities -/

variable {root root' : Expr}

/-- Two ways to lower smaller expressions that go through the same steps. -/
def GoesAlong (ρ : Relabeling) (go : LowerSmaller root) (go' : LowerSmaller root') : Prop :=
  ∀ (c : Smaller root) (c' : Smaller root'), c'.1 = image ρ.label c → ∀ env,
    Parallel ρ (go c env) (go' c' (env.relabel ρ))

theorem lowerInput_parallel (e : Expr) (env : Env) :
    Parallel ρ (lowerInput e env) (lowerInput (e.relabel ρ.label) (env.relabel ρ)) := by
  unfold lowerInput
  rw [Expr.kindName_relabel, show (env.relabel ρ).input = env.input from rfl]
  cases env.input with
  | value => exact .pure _
  | inline producer => exact .pure _
  | unavailable => exact .throw _

section Rules

variable {go : LowerSmaller root} {go' : LowerSmaller root'} (hgo : GoesAlong ρ go go')
include hgo

theorem lowerItems_parallel {items : List (Smaller root)} {items' : List (Smaller root')}
    (h : (items'.map fun c => c.1) = items.map (image ρ.label)) (env : Env) :
    Parallel ρ (items.mapM (go · env)) (items'.mapM (go' · (env.relabel ρ))) :=
  .mapM h fun c _ c' hc => hgo c c' hc env

theorem lowerOption_parallel {item : Option (Smaller root)} {item' : Option (Smaller root')}
    (h : (item'.map fun c => c.1) = item.map (image ρ.label)) (env : Env) :
    Parallel ρ (item.mapM (go · env)) (item'.mapM (go' · (env.relabel ρ))) :=
  .mapM_option h fun c _ c' hc => hgo c c' hc env

theorem lowerShortCircuit_parallel {items : List (Smaller root)}
    {items' : List (Smaller root')} (h : (items'.map fun c => c.1) = items.map (image ρ.label))
    (env : Env) :
    Parallel ρ (lowerShortCircuit go items env) (lowerShortCircuit go' items' (env.relabel ρ)) := by
  cases items with
  | nil =>
    obtain rfl := List.map_eq_nil_iff.mp h
    exact .pure []
  | cons first rest =>
    obtain ⟨first', rest', rfl, hfirst, hrest⟩ := List.map_eq_cons_iff.mp h
    exact (hgo first first' hfirst env).bind fun op =>
      (lowerItems_parallel hgo hrest env).contained.map (op :: ·)

theorem lowerStep_parallel {step : PathStep (Smaller root)} {step' : PathStep (Smaller root')}
    (h : (step'.map fun c => c.1) = step.map (image ρ.label)) (env : Env) :
    Parallel ρ (lowerStep go env step) (lowerStep go' (env.relabel ρ) step') := by
  cases step <;> cases step'
  case key.key c c' => exact .bind (hgo c c' (PathStep.key.inj h) env) fun _ => .pure _
  case attr.attr =>
    obtain rfl := PathStep.attr.inj h
    exact .pure _
  all_goals cases h

theorem lowerHandler_parallel {h : Handler (Smaller root)} {h' : Handler (Smaller root')}
    (hh : (h'.map fun c => c.1) = h.map (image ρ.label)) (env : Env) :
    Parallel ρ (lowerHandler go env h) (lowerHandler go' (env.relabel ρ) h') := by
  obtain ⟨kinds, value, reraiseIf⟩ := h
  obtain ⟨kinds', value', reraiseIf'⟩ := h'
  simp only [Handler.map, Handler.mk.injEq] at hh
  obtain ⟨rfl, hvalue, hreraise⟩ := hh
  refine .bind (lowerOption_parallel hgo hreraise env) fun reraiseOp => ?_
  exact .bind (hgo value value' hvalue env) fun valueOp => .pure _

theorem lowerGuarded_parallel {body : Smaller root} {body' : Smaller root'}
    {handlers : List (Handler (Smaller root))} {handlers' : List (Handler (Smaller root'))}
    (hbody : body'.1 = image ρ.label body)
    (hhandlers : handlers'.map (Handler.map fun c => c.1) =
      handlers.map (Handler.map (image ρ.label)))
    (env : Env) :
    Parallel ρ (lowerGuarded go body handlers env)
      (lowerGuarded go' body' handlers' (env.relabel ρ)) := by
  have hempty : handlers'.isEmpty = handlers.isEmpty := by
    rw [← List.isEmpty_map, hhandlers, List.isEmpty_map]
  unfold lowerGuarded
  rw [hempty]
  refine .ite _ (hgo body body' hbody env) ?_
  refine .bind .assigned fun before => .bind (hgo body body' hbody env) fun bodyOp => ?_
  refine .bind .assigned fun after => .bind (.freshSlot "exc") fun caught => ?_
  refine .bind (.mapM hhandlers fun h _ h' hh => ?_) fun lowered => ?_
  · refine .bind (.setAssigned before) fun _ => ?_
    refine .bind (lowerHandler_parallel hgo hh { env with caught := some caught }) fun op => ?_
    exact .map .assigned (op, ·)
  · exact .bind (.setAssigned _) fun _ => .pure _

theorem lowerBranches_parallel {yes no : Smaller root} {yes' no' : Smaller root'}
    (hyes : yes'.1 = image ρ.label yes) (hno : no'.1 = image ρ.label no) (env : Env) :
    Parallel ρ (lowerBranches go yes no env) (lowerBranches go' yes' no' (env.relabel ρ)) := by
  refine .bind .assigned fun before => .bind (hgo yes yes' hyes env) fun yesOp => ?_
  refine .bind .assigned fun afterYes => .bind (.setAssigned before) fun _ => ?_
  refine .bind (hgo no no' hno env) fun noOp => .bind .assigned fun afterNo => ?_
  exact .bind (.setAssigned _) fun _ => .pure _

theorem lowerPipe_parallel {producer consumer : Smaller root} {producer' consumer' : Smaller root'}
    (hproducer : producer'.1 = image ρ.label producer)
    (hconsumer : consumer'.1 = image ρ.label consumer)
    (env : Env) :
    Parallel ρ (lowerPipe go producer consumer env)
      (lowerPipe go' producer' consumer' (env.relabel ρ)) := by
  unfold lowerPipe
  rw [hproducer, hconsumer]
  simp only [image, Expr.analysis_relabel, NodeKey.of_relabel]
  refine .bind (hgo producer producer' hproducer env) fun producerOp => ?_
  refine .ite _ (hgo consumer consumer' hconsumer _) ?_
  exact .bind (hgo consumer consumer' hconsumer _) fun consumerOp => .pure _

theorem lowerFallback_parallel {r : Reducer (Smaller root)} {r' : Reducer (Smaller root')}
    (hr : (r'.map fun c => c.1) = r.map (image ρ.label)) (env : Env) :
    Parallel ρ (lowerFallback go r env) (lowerFallback go' r' (env.relabel ρ)) := by
  have hkind : r'.kind = r.kind := congrArg Reducer.kind hr
  have hdefault : (r'.default.map fun c => c.1) = r.default.map (image ρ.label) :=
    congrArg Reducer.default hr
  have hinitial : (r'.initial.map fun c => c.1) = r.initial.map (image ρ.label) :=
    congrArg Reducer.initial hr
  -- Whether an initial stands in for a default depends on its analysis, which keeps no handle.
  have hfree : ((r'.initial.filter (·.1.analysis.inputUses == 0)).map fun c => c.1) =
      (r.initial.filter (·.1.analysis.inputUses == 0)).map (image ρ.label) := by
    cases hi : r.initial with
    | none =>
      rw [hi] at hinitial
      rw [Option.map_eq_none_iff.mp hinitial]
      rfl
    | some c =>
      rw [hi] at hinitial
      obtain ⟨c', hi', hc⟩ := Option.map_eq_some_iff.mp hinitial
      rw [hi', Option.filter_some, Option.filter_some, hc, Expr.analysis_relabel]
      split
      · exact congrArg some hc
      · rfl
  unfold lowerFallback
  rw [hkind]
  generalize r.initial.filter (·.1.analysis.inputUses == 0) = initial at hfree ⊢
  generalize r'.initial.filter (·.1.analysis.inputUses == 0) = initial' at hfree ⊢
  generalize r.default = default at hdefault ⊢
  generalize r'.default = default' at hdefault ⊢
  cases default with
  | some d =>
    obtain ⟨d', rfl, hd⟩ := Option.map_eq_some_iff.mp hdefault
    exact (hgo d d' hd env).contained
  | none =>
    obtain rfl := Option.map_eq_none_iff.mp hdefault
    cases initial with
    | some c =>
      obtain ⟨c', rfl, hc⟩ := Option.map_eq_some_iff.mp hfree
      exact (hgo c c' hc env).contained
    | none =>
      obtain rfl := Option.map_eq_none_iff.mp hfree
      exact .bind (.constantName _) fun name => .pure _

theorem lowerReducer_parallel {r : Reducer (Smaller root)} {r' : Reducer (Smaller root')}
    (hr : (r'.map fun c => c.1) = r.map (image ρ.label)) (env : Env) :
    Parallel ρ (lowerReducer go r env) (lowerReducer go' r' (env.relabel ρ)) := by
  have hkind : r'.kind = r.kind := congrArg Reducer.kind hr
  have hplain := plain_image hr
  unfold lowerReducer
  rw [hkind, hplain,
    show (env.relabel ρ).aggregate = env.aggregate.map (AggregateEnv.relabel ρ) from rfl]
  cases env.aggregate with
  | none => exact .throw _
  | some aggregate =>
    dsimp only [Option.map_some]
    have hindex : (aggregate.relabel ρ).slots.findIdx? (fun slot => slot.sameSlot
        ((Smaller.plain r).map (Expr.relabel ρ.label))) =
          aggregate.slots.findIdx? fun slot => slot.sameSlot (Smaller.plain r) := by
      simp only [AggregateEnv.relabel, List.findIdx?_map, Function.comp_def,
        Reducer.sameSlot_relabel]
    rw [hindex]
    cases aggregate.slots.findIdx? fun slot => slot.sameSlot (Smaller.plain r) with
    | none => exact .throw _
    | some index =>
      exact .bind (lowerFallback_parallel hgo hr env) fun default => .pure _

theorem lowerSlot_parallel {r : Reducer (Smaller root)} {r' : Reducer (Smaller root')}
    (hr : (r'.map fun c => c.1) = r.map (image ρ.label)) (env : Env) :
    Parallel ρ (lowerSlot go env r) (lowerSlot go' (env.relabel ρ) r') := by
  obtain ⟨kind, args, filter, default, initial⟩ := r
  obtain ⟨kind', args', filter', default', initial'⟩ := r'
  simp only [Reducer.map, Reducer.mk.injEq] at hr
  obtain ⟨rfl, hargs, hfilter, -, hinitial⟩ := hr
  have hseed : initial'.any (·.1.analysis.inputUses == 0) =
      initial.any (·.1.analysis.inputUses == 0) := by
    cases initial with
    | none =>
      obtain rfl := Option.map_eq_none_iff.mp hinitial
      rfl
    | some c =>
      obtain ⟨c', rfl, hc⟩ := Option.map_eq_some_iff.mp hinitial
      simp only [Option.any_some, hc, image, Expr.analysis_relabel]
  unfold lowerSlot
  refine .bind (.mapM_option hfilter fun c _ c' hc => (hgo c c' hc env).contained)
    fun filterOp => ?_
  refine .bind (.mapM hargs fun c _ c' hc => (hgo c c' hc env).contained) fun argOps => ?_
  refine .bind (.mapM_option hinitial fun c _ c' hc => (hgo c c' hc env).contained)
    fun initialOp => ?_
  dsimp only
  rw [hseed]
  exact .pure _

theorem lowerAggregate_parallel (e : Expr) (key : NodeKey) {keys : List (Smaller root)}
    {keys' : List (Smaller root')} {output : Smaller root} {output' : Smaller root'}
    (hkeys : (keys'.map fun c => c.1) = keys.map (image ρ.label))
    (houtput : output'.1 = image ρ.label output)
    (env : Env) :
    Parallel ρ (lowerAggregate go e key keys output env)
      (lowerAggregate go' (e.relabel ρ.label) (key.relabel ρ) keys' output' (env.relabel ρ)) := by
  unfold lowerAggregate
  refine .bind (lowerInput_parallel e env) fun source => ?_
  have hslots := slots_relabel houtput
  cases hs : output.slots <;> cases hs' : output'.slots <;> rw [hs, hs'] at hslots
  case error.error =>
    obtain rfl := Except.error.inj hslots
    exact .throw _
  case ok.ok reducers reducers' =>
    have hreducers := Except.ok.inj hslots
    refine .ok_bind ?_
    refine .bind .freshGroup fun group => .bind (.freshName "row") fun row => ?_
    refine .bind (.inScope ?_) fun rows => ?_
    · refine .bind (lowerItems_parallel hgo hkeys _) fun keyOps => ?_
      refine .bind (.mapM hreducers fun r _ r' hr => ?_) fun slots => .pure _
      exact lowerSlot_parallel hgo hr _
    have hplain : reducers'.map Smaller.plain =
        (reducers.map Smaller.plain).map (Reducer.map (Expr.relabel ρ.label)) := by
      rw [List.map_map]
      exact hreducers.trans (List.map_congr_left fun r _ =>
        (Reducer.map_map (fun c => c.1) (Expr.relabel ρ.label) r).symm)
    have hvalues : (keys'.map fun c => c.1) =
        (keys.map fun c => c.1).map (Expr.relabel ρ.label) := by
      rw [hkeys, List.map_map]
      rfl
    rw [hplain, hvalues]
    exact .bind (.inScope (hgo output output' houtput _)) fun scope => .pure _
  all_goals cases hslots

theorem lowerConjunction_parallel {cs : List (Smaller root)} {cs' : List (Smaller root')}
    (h : (cs'.map fun c => c.1) = cs.map (image ρ.label)) (env : Env) :
    Parallel ρ (lowerConjunction go cs env) (lowerConjunction go' cs' (env.relabel ρ)) := by
  refine .bind (lowerItems_parallel hgo h env).contained fun ops => ?_
  rcases ops with _ | ⟨op, _ | ⟨op', ops⟩⟩ <;> exact .pure _

theorem lowerJoinSide_parallel (context : Context) (join : JoinEnv)
    {keys filter : List (Smaller root)} {keys' filter' : List (Smaller root')}
    (hkeys : (keys'.map fun c => c.1) = keys.map (image ρ.label))
    (hfilter : (filter'.map fun c => c.1) = filter.map (image ρ.label)) (env : Env) :
    Parallel ρ (lowerJoinSide go context join keys filter env)
      (lowerJoinSide go' (context.relabel ρ) join keys' filter' (env.relabel ρ)) := by
  refine .bind (.inScope ?_) fun side => .pure _
  refine .bind (lowerItems_parallel hgo hkeys _) fun keyOps => ?_
  exact .bind (lowerConjunction_parallel hgo hfilter _) fun filterOp => .pure _

theorem lowerJoin_parallel (key : NodeKey) {left right : Smaller root}
    {left' right' : Smaller root'} {condition : Option (Smaller root)}
    {condition' : Option (Smaller root')} (hleft : left'.1 = image ρ.label left)
    (hright : right'.1 = image ρ.label right)
    (hcondition : (condition'.map fun c => c.1) = condition.map (image ρ.label)) (kind : JoinKind)
    (env : Env) :
    Parallel ρ (lowerJoin go key left right condition kind env)
      (lowerJoin go' (key.relabel ρ) left' right' condition' kind (env.relabel ρ)) := by
  have hplan := plan_relabel hcondition kind
  unfold lowerJoin
  generalize JoinPlan.ofCondition condition kind = plan at hplan ⊢
  generalize JoinPlan.ofCondition condition' kind = plan' at hplan ⊢
  obtain ⟨keys, leftFilter, rightFilter, preFilter, residual⟩ := plan
  obtain ⟨keys', leftFilter', rightFilter', preFilter', residual'⟩ := plan'
  simp only [JoinPlan.map, JoinPlan.mk.injEq] at hplan
  obtain ⟨hkeys, hleftFilter, hrightFilter, hpreFilter, hresidual⟩ := hplan
  have leftKeys : ((keys'.map (·.1)).map fun c => c.1) = (keys.map (·.1)).map (image ρ.label) := by
    have h := congrArg (List.map Prod.fst) hkeys
    rw [List.map_map, List.map_map] at h ⊢
    exact h
  have rightKeys : ((keys'.map (·.2)).map fun c => c.1) = (keys.map (·.2)).map (image ρ.label) := by
    have h := congrArg (List.map Prod.snd) hkeys
    rw [List.map_map, List.map_map] at h ⊢
    exact h
  refine .bind (hgo left left' hleft env) fun leftOp => ?_
  refine .bind (hgo right right' hright env) fun rightOp => ?_
  refine .bind (.freshSlot "left") fun leftRow => .bind (.freshSlot "right") fun rightRow => ?_
  refine .bind (lowerConjunction_parallel hgo hpreFilter env) fun preFilter => ?_
  refine .bind (lowerJoinSide_parallel hgo _ _ leftKeys hleftFilter env) fun leftSide => ?_
  refine .bind (lowerJoinSide_parallel hgo _ _ rightKeys hrightFilter env) fun rightSide => ?_
  refine .bind (.inScope ?_) fun pair => .pure _
  exact lowerConjunction_parallel hgo hresidual _

end Rules

/-! ### Nodes and expressions with other identities -/

theorem groupKey_relabel (e : Expr) (env : Env) :
    groupKey? (e.relabel ρ.label) (env.relabel ρ) = groupKey? e env := by
  unfold groupKey?
  rw [show (env.relabel ρ).aggregate = env.aggregate.map (AggregateEnv.relabel ρ) from rfl]
  cases env.aggregate with
  | none => rfl
  | some aggregate =>
    have positions : (aggregate.relabel ρ).keyPositions (e.relabel ρ.label) =
        aggregate.keyPositions e := by
      unfold AggregateEnv.keyPositions
      simp only [AggregateEnv.relabel, List.zipIdx_map, List.filterMap_map]
      simp only [Function.comp_def, Prod.map, id, Expr.beq_relabel]
    dsimp only [Option.map_some]
    rw [positions, show (aggregate.relabel ρ).context = aggregate.context.relabel ρ from rfl,
      show (env.relabel ρ).context = env.context.relabel ρ from rfl, Context.same_relabel]
    rfl

theorem lowerNode_parallel {go : LowerSmaller root} {go' : LowerSmaller root'}
    (hgo : GoesAlong ρ go go') (e : Expr) (env : Env) (key : NodeKey)
    {node : Node (Smaller root)} {node' : Node (Smaller root')}
    (h : (node'.map fun c => c.1) = node.map (image ρ.label)) :
    Parallel ρ (lowerNode go e env key node)
      (lowerNode go' (e.relabel ρ.label) (env.relabel ρ) (key.relabel ρ) node') := by
  -- Both sides take the same steps on the parts; only the diagonal cases remain.
  cases node <;> cases node'
  case input.input => exact lowerInput_parallel e env
  case constant.constant v v' =>
    obtain rfl := Node.constant.inj h
    exact .bind (.constantName _) fun name => .pure _
  case parameter.parameter name name' =>
    obtain rfl := Node.parameter.inj h
    exact .bind (.paramIndex _) fun index => .pure _
  case access.access source path default source' path' default' =>
    obtain ⟨hsource, hpath, hdefault⟩ := Node.access.inj h
    refine .bind (hgo source source' hsource env) fun sourceOp => ?_
    refine .bind (.mapM hpath fun step _ step' hs => lowerStep_parallel hgo hs env) fun steps => ?_
    refine .bind (.mapM_option hdefault fun d _ d' hd => ?_) fun defaultOp => .pure _
    exact (hgo d d' hd env).contained
  case call.call fn args fn' args' =>
    obtain ⟨rfl, hargs⟩ := Node.call.inj h
    refine .bind (.constantName _) fun name => ?_
    exact .bind (lowerItems_parallel hgo hargs env) fun argOps => .pure _
  case builtin.builtin op args op' args' =>
    obtain ⟨rfl, hargs⟩ := Node.builtin.inj h
    exact .bind (lowerItems_parallel hgo hargs env) fun argOps => .pure _
  case binary.binary op left right op' left' right' =>
    obtain ⟨rfl, hleft, hright⟩ := Node.binary.inj h
    refine .bind (hgo left left' hleft env) fun leftOp => ?_
    exact .bind (hgo right right' hright env) fun rightOp => .pure _
  case unary.unary op operand op' operand' =>
    obtain ⟨rfl, hoperand⟩ := Node.unary.inj h
    exact .bind (hgo operand operand' hoperand env) fun op => .pure _
  case and.and items items' =>
    exact .bind (lowerShortCircuit_parallel hgo (Node.and.inj h) env) fun ops => .pure _
  case or.or items items' =>
    exact .bind (lowerShortCircuit_parallel hgo (Node.or.inj h) env) fun ops => .pure _
  case collection.collection kind items kind' items' =>
    obtain ⟨rfl, hitems⟩ := Node.collection.inj h
    exact .bind (lowerItems_parallel hgo hitems env) fun ops => .pure _
  case dict.dict pairs pairs' =>
    refine .bind (.mapM (Node.dict.inj h) fun pair _ pair' hp => ?_) fun ops => .pure _
    refine .bind (hgo pair.1 pair'.1 (congrArg Prod.fst hp) env) fun name => ?_
    exact .bind (hgo pair.2 pair'.2 (congrArg Prod.snd hp) env) fun value => .pure _
  case comprehension.comprehension kind keyed element source filter kind' keyed' element' source'
      filter' =>
    obtain ⟨rfl, hkeyed, helement, hsource, hfilter⟩ := Node.comprehension.inj h
    refine .bind (hgo source source' hsource env) fun sourceOp => ?_
    refine .bind (.freshName "item") fun var => .bind (.inScope ?_) fun scope => .pure _
    refine .bind (lowerOption_parallel hgo hfilter _) fun filterOp => ?_
    refine .bind (lowerOption_parallel hgo hkeyed _) fun keyedOp => ?_
    exact .bind (hgo element element' helement _) fun elementOp => .pure _
  case sort.sort source keys reverse source' keys' reverse' =>
    obtain ⟨hsource, hkeys, rfl⟩ := Node.sort.inj h
    refine .bind (hgo source source' hsource env) fun sourceOp => ?_
    refine .bind (.freshName "item") fun var => .bind (.inScope ?_) fun scope => .pure _
    refine .mapM hkeys fun k _ k' hk => ?_
    obtain ⟨hkey, horder⟩ := SortKey.mk.inj hk
    refine .bind (hgo k.key k'.key hkey _) fun op => ?_
    rw [horder]
    exact .pure _
  case guarded.guarded body handlers body' handlers' =>
    obtain ⟨hbody, hhandlers⟩ := Node.guarded.inj h
    exact lowerGuarded_parallel hgo hbody hhandlers env
  case caught.caught =>
    unfold lowerNode
    rw [show (env.relabel ρ).caught = env.caught from rfl]
    cases env.caught with
    | none => exact .throw _
    | some binding => exact .pure _
  case conditional.conditional condition yes no condition' yes' no' =>
    obtain ⟨hcondition, hyes, hno⟩ := Node.conditional.inj h
    refine .bind (hgo condition condition' hcondition env) fun conditionOp => ?_
    exact .bind (lowerBranches_parallel hgo hyes hno env) fun branches => .pure _
  case pipe.pipe producer consumer producer' consumer' =>
    obtain ⟨hproducer, hconsumer⟩ := Node.pipe.inj h
    exact lowerPipe_parallel hgo hproducer hconsumer env
  case label.label name value name' value' =>
    obtain ⟨rfl, hvalue⟩ := Node.label.inj h
    refine .bind (hgo value value' hvalue env) fun valueOp => .bind .assigned fun names => ?_
    exact .bind (.setAssigned _) fun _ => .bind (.labelSlot _) fun binding => .pure _
  case labelRef.labelRef name name' =>
    obtain rfl := Node.labelRef.inj h
    unfold lowerNode
    rw [show (env.relabel ρ).pass = env.pass from rfl]
    refine .bind .assigned fun names => .ite _ ?_ (.bind (.labelSlot _) fun binding => .pure _)
    exact .bind (.throw _) fun _ => .bind (.labelSlot _) fun binding => .pure _
  case reducer.reducer r r' => exact lowerReducer_parallel hgo (Node.reducer.inj h) env
  case aggregate.aggregate keys output keys' output' =>
    obtain ⟨hkeys, houtput⟩ := Node.aggregate.inj h
    exact lowerAggregate_parallel hgo e key hkeys houtput env
  case join.join left right condition kind left' right' condition' kind' =>
    obtain ⟨hleft, hright, hcondition, rfl⟩ := Node.join.inj h
    exact lowerJoin_parallel hgo key hleft hright hcondition _ env
  case joinRow.joinRow side side' =>
    obtain rfl := Node.joinRow.inj h
    unfold lowerNode
    rw [show (env.relabel ρ).join = env.join from rfl]
    cases env.join with
    | none => exact .throw _
    | some join => cases side' <;> exact .pure _
  all_goals cases h

theorem isBound_relabel (env : Env) (e : Expr) (a : Analysis) (count : Nat) :
    isBound (env.relabel ρ) (e.relabel ρ.label) a count = isBound env e a count := by
  unfold isBound
  rw [Expr.isAtomic_relabel]
  rfl

/-- The bindings that are found again under other identities. -/
theorem find_bound_relabel (bound : List Bound) (site : Site) :
    ((bound.map (Bound.relabel ρ)).find? fun b => b.site.same (site.relabel ρ)) =
      (bound.find? fun b => b.site.same site).map (Bound.relabel ρ) := by
  rw [List.find?_map]
  congr 2
  funext b
  exact Site.same_relabel ρ b.site site

theorem Renamed.add {s s' : State} (hs : Renamed ρ s s') (site : Site) :
    ∃ entries, (s.counts.add site).Holds entries ∧
      (s'.counts.add (site.relabel ρ)).Holds (Occurrences.relabelAll ρ entries) := by
  obtain ⟨entries, h, h'⟩ := hs.counts
  have added := Occurrences.holds_add h' (site.relabel ρ)
  rw [Occurrences.addTo_relabel] at added
  exact ⟨_, Occurrences.holds_add h site, added⟩

theorem count_relabel {counts counts' : Occurrences}
    (h : ∃ entries, counts.Holds entries ∧ counts'.Holds (Occurrences.relabelAll ρ entries))
    (site : Site) : counts'.count (site.relabel ρ) = counts.count site := by
  obtain ⟨entries, h, h'⟩ := h
  rw [Occurrences.count_eq h, Occurrences.count_eq h', Occurrences.countIn_relabel]

/-- Sharing the operation of an expression with other identities. -/
theorem shared_parallel (e : Expr) (env : Env)
    {lowered lowered' : NodeKey → M Op}
    (h : ∀ key, Parallel ρ (lowered key) (lowered' (key.relabel ρ))) :
    Parallel ρ (shared env e e.analysis lowered)
      (shared (env.relabel ρ) (e.relabel ρ.label) e.analysis lowered') := by
  unfold shared
  simp only [NodeKey.of_relabel, isBound_relabel]
  generalize NodeKey.of e e.analysis = key
  have hsite : (⟨(env.relabel ρ).context, key.relabel ρ⟩ : Site) =
      (⟨env.context, key⟩ : Site).relabel ρ := rfl
  rw [hsite, show (env.relabel ρ).pass = env.pass from rfl]
  generalize (⟨env.context, key⟩ : Site) = site
  cases env.pass with
  | count =>
    refine .get_bind fun s s' hs => ?_
    have counted := hs.add site
    rw [count_relabel counted]
    refine Parallel.bind (.modify fun t t' ht => ?_) (fun _ => .ite _ (.pure _) (h key)) s s' hs
    exact ⟨ht.supply, ht.assigned, ht.bound, counted⟩
  | emit =>
    refine .get_bind fun s s' hs => ?_
    rw [count_relabel hs.counts]
    refine Parallel.ite _ (h key) (.get_bind fun t t' ht => ?_) s s' hs
    rw [ht.bound, find_bound_relabel]
    cases t.bound.find? fun b => b.site.same site with
    | some b =>
      refine Parallel.bind .assigned (fun names => ?_) t t' ht
      rw [show (b.relabel ρ).reads = b.reads from rfl]
      cases NameSet.diff b.reads names with
      | cons name _ => exact .throw _
      | nil =>
        exact .bind .assigned fun names => .bind (.setAssigned _) fun _ => .pure _
    | none =>
      refine Parallel.bind .assigned (fun before => .bind (h key) fun definition => ?_) t t' ht
      refine .bind .assigned fun after => .bind (.freshSlot "v") fun binding => ?_
      refine .bind (.modify fun u u' hu => ?_) fun _ => .pure _
      refine ⟨hu.supply, hu.assigned, ?_, hu.counts⟩
      simp [hu.bound, Bound.relabel]

/-- **Lowering does not see identities.** -/
theorem lower_relabel (e : Expr) (env : Env) :
    Parallel ρ (lower e env) (lower (e.relabel ρ.label) (env.relabel ρ)) := by
  rw [lower, lower, groupKey_relabel, Expr.analysis_relabel]
  cases groupKey? e env with
  | error err => exact .throw _
  | ok found =>
    refine .ok_bind ?_
    cases found with
    | some op => exact .pure _
    | none =>
      refine shared_parallel e env fun key =>
        lowerNode_parallel ?_ e env key (parts_relabel ρ.label e)
      intro c c' hc inner
      dsimp only
      rw [hc]
      exact lower_relabel c.1 inner
termination_by sizeOf e
decreasing_by exact c.2

theorem Renamed.start (signature : Signature) {counts counts' : Occurrences}
    (h : ∃ entries, counts.Holds entries ∧ counts'.Holds (Occurrences.relabelAll ρ entries)) :
    Renamed ρ (.start signature counts) (.start signature counts') := ⟨rfl, rfl, rfl, h⟩

end Lowering

/-- **Programs do not depend on identities.**  A relabeled expression has the same program or fails
with the same error. -/
theorem Program.ofExpr_relabel (ρ : Relabeling) (e : Expr) (signature : Signature)
    (threshold : Weight.Threshold) :
    Program.ofExpr (e.relabel ρ.label) signature threshold =
      Program.ofExpr e signature threshold := by
  have start : ∃ entries, (∅ : Occurrences).Holds entries ∧
      (∅ : Occurrences).Holds (Occurrences.relabelAll ρ entries) :=
    ⟨[], Occurrences.holds_empty, Occurrences.holds_empty⟩
  have surroundings (pass : Pass) :
      (Env.start pass threshold).relabel ρ = .start pass threshold := rfl
  have counted := lower_relabel e (.start .count threshold) _ _ (Renamed.start signature start)
  unfold Program.ofExpr countOccurrences
  rw [surroundings] at counted
  rw [Expr.analyze_relabel]
  cases e.analyze.mapError CompileError.overflow with
  | error err => rfl
  | ok a =>
    generalize (lower e (.start .count threshold)).run (.start signature ∅) = r at counted ⊢
    generalize (lower (e.relabel ρ.label) (.start .count threshold)).run (.start signature ∅) = r'
      at counted ⊢
    cases counted with
    | error => rfl
    | @ok op s s' hs =>
      have emitted := lower_relabel e (.start .emit threshold) _ _
        (Renamed.start signature hs.counts)
      rw [surroundings] at emitted
      dsimp only [bind, Except.bind, pure, Except.pure]
      generalize (lower e (.start .emit threshold)).run (.start signature s.counts) = r
        at emitted ⊢
      generalize (lower (e.relabel ρ.label) (.start .emit threshold)).run
        (.start signature s'.counts) = r' at emitted ⊢
      cases emitted with
      | error => rfl
      | @ok op t t' ht =>
        have scope : t'.bound.map (fun b => (⟨b.binding, b.definition⟩ : Memo Op)) =
            t.bound.map fun b => ⟨b.binding, b.definition⟩ := by
          rw [ht.bound, List.map_map]
          rfl
        dsimp only
        rw [ht.supply, scope]

/-- An expression whose identities are renamed, each to one of its own, has the same program or
fails with the same error. -/
theorem Program.ofExpr_rename {f : Nat → Nat} (hf : f.Injective) (e : Expr)
    (signature : Signature) (threshold : Weight.Threshold) :
    Program.ofExpr (e.rename f) signature threshold = Program.ofExpr e signature threshold := by
  rw [Expr.rename_apply]
  exact ofExpr_relabel (.ofInjective hf) e signature threshold

end DataExpr
