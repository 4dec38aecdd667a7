import DataExpr.Proofs.Extension
import DataExpr.Proofs.ParameterMentions
import DataExpr.Proofs.WellScoped

/-!
# Every parameter has a place

Lowering gives a place to each parameter when it first comes to a reference to it.  It does not
come to every reference: an expression that is bound is read from its slot, one that equals a key
of the group is read from the group, and reducers that share a slot are fed once.  What stands
instead mentions the same parameters and was lowered before.  So lowering an expression adds the
parameters that it mentions, and no others (`lower_adds`), each one once and as a required one
(`lower_appends`).
-/

namespace DataExpr.Lowering

open DataExpr.Expr (Among)

variable {α β : Type} {root : Expr} {env env' : Env} {s s₁ s₂ s' : State} {es es' : List Expr}

/-! ### Required parameters are appended -/

/-- Required parameters with new and distinct names are added to a signature. -/
def Appends (s s' : State) : Prop :=
  ∃ added : List String, added.Nodup ∧ (∀ n ∈ added, n ∉ s.supply.signature.names) ∧
    s'.supply.signature = s.supply.signature ++ added.map (⟨·, none⟩)

namespace Appends

theorem of_eq (h : s'.supply.signature = s.supply.signature) : Appends s s' :=
  ⟨[], List.nodup_nil, fun _ hn => absurd hn List.not_mem_nil, by simp [h]⟩

theorem names_eq {added : List String}
    (h : s'.supply.signature = s.supply.signature ++ added.map (⟨·, none⟩)) :
    s'.supply.signature.names = s.supply.signature.names ++ added := by
  simp [h, Signature.names, Function.comp_def]

theorem trans (h : Appends s s₁) (h' : Appends s₁ s₂) : Appends s s₂ := by
  obtain ⟨added, nodup, fresh, hsignature⟩ := h
  obtain ⟨added', nodup', fresh', hsignature'⟩ := h'
  rw [names_eq hsignature] at fresh'
  refine ⟨added ++ added', ?_, fun n hn => ?_, by simp [hsignature', hsignature]⟩
  · refine List.nodup_append'.2 ⟨nodup, nodup', fun n hn hn' => ?_⟩
    exact fresh' n hn' (List.mem_append_right _ hn)
  · rcases List.mem_append.1 hn with hn | hn
    · exact fresh n hn
    · exact fun known => fresh' n hn (List.mem_append_left _ known)

theorem closed : Closed Appends where
  refl _ := of_eq rfl
  trans := trans
  name h := by
    obtain ⟨n, rfl⟩ := gives_freshName h
    exact of_eq rfl
  slot h := by
    obtain ⟨-, n, rfl⟩ := gives_freshSlot h
    exact of_eq rfl
  constant h := by
    obtain ⟨n, cs, rfl⟩ := gives_constantName h
    exact of_eq rfl
  label h := by
    rcases gives_labelSlot h with ⟨-, rfl⟩ | ⟨-, -, rfl⟩ <;> exact of_eq rfl
  group h := by
    obtain ⟨-, rfl⟩ := gives_freshGroup h
    exact of_eq rfl
  parameter {name _ _ _} h := by
    rcases gives_paramIndex h with ⟨-, rfl⟩ | ⟨hnew, -, rfl⟩
    · exact of_eq rfl
    · refine ⟨[name], List.nodup_singleton _, fun n hn => ?_, rfl⟩
      obtain rfl := List.mem_singleton.1 hn
      exact List.idxOf?_eq_none_iff.1 hnew
  assign _ _ := of_eq rfl
  bind _ _ := of_eq rfl
  scope h := h

end Appends

/-- **Lowering appends required parameters.** -/
theorem lower_appends {e : Expr} {op : Op} (hpass : env.pass = .emit)
    (h : Gives (lower e env) s op s') : Appends s s' := lower_keeps Appends.closed hpass h

/-! ### What is known -/

/-- The names of the parameters that have places. -/
def State.names (s : State) : List String := s.supply.signature.names

theorem Extends.names (h : Extends s s') {n : String} (hn : n ∈ s.names) : n ∈ s'.names :=
  (h.signature.map ParamSpec.name).subset hn

/-- All parameters that these expressions mention have places. -/
def State.Places (s : State) (es : List Expr) : Prop := ∀ n, Among es n → n ∈ s.names

theorem State.Places.mono (h : s.Places es) (grown : Extends s s') : s'.Places es :=
  fun n hn => grown.names (h n hn)

/-- Each binding is that of a subexpression whose parameters have places. -/
def State.Noted (root : Expr) (s : State) : Prop :=
  ∀ b ∈ s.bound, ∃ c, Expr.Within c root ∧ b.site.node = .of c c.analysis ∧ s.Places [c]

/-- The parameters of the keys and of the slots of the aggregate around have places. -/
def Env.Covered (env : Env) (s : State) : Prop :=
  ∀ aggregate, env.aggregate = some aggregate →
    s.Places aggregate.keys ∧ ∀ slot ∈ aggregate.slots, s.Places slot.fed

theorem Env.Covered.mono (h : env.Covered s) (grown : Extends s s') : env.Covered s' :=
  fun aggregate ha => ⟨(h aggregate ha).1.mono grown,
    fun slot hslot => ((h aggregate ha).2 slot hslot).mono grown⟩

/-- Steps between two states that give places to the parameters of these expressions. -/
structure Adds (root : Expr) (env : Env) (s : State) (es : List Expr) (s' : State) : Prop where
  grown : Extends s s'
  exact : s.Noted root → env.Covered s →
    s'.Noted root ∧ ∀ n, n ∈ s'.names ↔ n ∈ s.names ∨ Among es n

namespace Adds

theorem idle (grown : Extends s s') (hbound : s'.bound = s.bound)
    (hsignature : s'.supply.signature = s.supply.signature) : Adds root env s [] s' where
  grown := grown
  exact noted _ := by
    have same : s'.names = s.names := by rw [State.names, hsignature, State.names]
    refine ⟨fun b hb => ?_, fun n => by simp [same]⟩
    obtain ⟨c, hc, hnode, hplaces⟩ := noted b (hbound ▸ hb)
    exact ⟨c, hc, hnode, hplaces.mono grown⟩

theorem refl (s : State) : Adds root env s [] s := idle (.refl s) rfl rfl

theorem assigned (s : State) (names : NameSet) :
    Adds root env s [] { s with assigned := names } := idle (Extends.closed.assign _ _) rfl rfl

theorem freshName {stem name : String} (h : Gives (freshName stem) s name s') :
    Adds root env s [] s' := by
  have grown : Extends s s' := Extends.closed.name h
  obtain ⟨n, rfl⟩ := gives_freshName h
  exact idle grown rfl rfl

theorem freshSlot {stem : String} {b : Binding} (h : Gives (freshSlot stem) s b s') :
    Adds root env s [] s' := by
  have grown : Extends s s' := Extends.closed.slot h
  obtain ⟨-, n, rfl⟩ := gives_freshSlot h
  exact idle grown rfl rfl

theorem freshGroup {g : Nat} (h : Gives freshGroup s g s') : Adds root env s [] s' := by
  have grown : Extends s s' := Extends.closed.group h
  obtain ⟨-, rfl⟩ := gives_freshGroup h
  exact idle grown rfl rfl

theorem constantName {value : Value} {name : String} (h : Gives (constantName value) s name s') :
    Adds root env s [] s' := by
  have grown : Extends s s' := Extends.closed.constant h
  obtain ⟨n, cs, rfl⟩ := gives_constantName h
  exact idle grown rfl rfl

theorem labelSlot {name : String} {b : Binding} (h : Gives (labelSlot name) s b s') :
    Adds root env s [] s' := by
  have grown : Extends s s' := Extends.closed.label h
  rcases gives_labelSlot h with ⟨-, rfl⟩ | ⟨-, -, rfl⟩ <;> exact idle grown rfl rfl

theorem trans (h : Adds root env s es s₁) (h' : Adds root env s₁ es' s₂) :
    Adds root env s (es ++ es') s₂ where
  grown := h.grown.trans h'.grown
  exact noted covered := by
    obtain ⟨noted₁, names₁⟩ := h.exact noted covered
    obtain ⟨noted₂, names₂⟩ := h'.exact noted₁ (covered.mono h.grown)
    refine ⟨noted₂, fun n => ?_⟩
    rw [names₂, names₁, Expr.among_append, or_assoc]

/-- What the aggregate around mentions makes no difference. -/
theorem replace (h : Adds root env s es s')
    (same : env.Covered s → ∀ n, n ∈ s.names ∨ Among es n ↔ n ∈ s.names ∨ Among es' n) :
    Adds root env s es' s' where
  grown := h.grown
  exact noted covered := by
    obtain ⟨noted', names⟩ := h.exact noted covered
    exact ⟨noted', fun n => (names n).trans (same covered n)⟩

theorem congr (h : Adds root env s es s') (same : ∀ n, Among es n ↔ Among es' n) :
    Adds root env s es' s' := h.replace fun _ n => or_congr_right (same n)

/-- Steps before and after which the signature stays add nothing. -/
theorem before (h : Adds root env s [] s₁) (h' : Adds root env s₁ es s₂) : Adds root env s es s₂ :=
  h.trans h'

theorem after (h : Adds root env s es s₁) (h' : Adds root env s₁ [] s₂) : Adds root env s es s₂ :=
  (h.trans h').congr fun n => by simp

/-- Other surroundings of the same aggregate. -/
theorem within (h : Adds root env' s es s') (haggregate : env'.aggregate = env.aggregate) :
    Adds root env s es s' where
  grown := h.grown
  exact noted covered := h.exact noted fun aggregate ha => covered aggregate (haggregate ▸ ha)

/-- Steps in a scope of their own, which come after others. -/
theorem thenScope (h : Adds root env s es s₁) (h' : Adds root env' s₁.enter es' s₂)
    (hcovered : env.Covered s₁ → s₁.Places es → env'.Covered s₁.enter) :
    Adds root env s (es ++ es') (s₂.leave s₁) where
  grown := h.grown.trans (Extends.closed.scope h'.grown)
  exact noted covered := by
    obtain ⟨noted₁, names₁⟩ := h.exact noted covered
    have empty : s₁.enter.Noted root := fun _ hb => absurd hb List.not_mem_nil
    obtain ⟨-, names₂⟩ := h'.exact empty
      (hcovered (covered.mono h.grown) fun n hn => (names₁ n).2 (.inr hn))
    constructor
    · intro b hb
      obtain ⟨c, hc, hnode, hplaces⟩ := noted₁ b hb
      exact ⟨c, hc, hnode, hplaces.mono (Extends.closed.scope h'.grown)⟩
    · intro n
      have inside : n ∈ (s₂.leave s₁).names ↔ n ∈ s₁.names ∨ Among es' n := names₂ n
      rw [inside, names₁, Expr.among_append, or_assoc]

/-- Steps in a scope of their own, in surroundings of the same aggregate. -/
theorem scope (h : Adds root env' s.enter es s₁) (haggregate : env'.aggregate = env.aggregate) :
    Adds root env s es (s₁.leave s) :=
  (refl s).thenScope h fun covered _ aggregate ha => covered aggregate (haggregate ▸ ha)

end Adds

/-! ### Every subexpression is lowered, or what stands for it -/

/-- All that is below an expression is lowered completely. -/
def AddsBelow (root e : Expr) : Prop :=
  ∀ (c : Smaller e) {env : Env} {s s' : State} {op : Op}, Expr.Within c.1 e → env.pass = .emit →
    Lowers env c s op s' → Adds root env s [c.1] s'

section Node

open Smaller (exprs)

variable {e : Expr} {key : NodeKey} {op : Op} {ops : List Op} {cs : List (Smaller e)}
  (ih : AddsBelow root e) (hpass : env.pass = .emit)
include ih hpass

theorem AddsBelow.steps : NodeSteps env fun s (cs : List (Smaller e)) _ s' =>
    (∀ c ∈ cs, Expr.Within c.1 e) → Adds root env s (exprs cs) s' where
  lowers h hcs := ih _ (hcs _ List.mem_cons_self) hpass h
  refl s _ := .refl s
  trans h h' hcs := by
    rw [Smaller.exprs_append]
    obtain ⟨hleft, hright⟩ := List.forall_mem_append.1 hcs
    exact (h hleft).trans (h' hright)
  assign _ _ h hcs := (h hcs).after (.assigned _ _)
  constant h _ := .constantName h
  node _ h := h

theorem AddsBelow.side {context : Context} {join : JoinEnv} {keys filter : List (Smaller e)}
    {side : JoinSideOp Op} (hkeys : ∀ c ∈ keys, Expr.Within c.1 e)
    (hfilter : ∀ c ∈ filter, Expr.Within c.1 e)
    (h : SideGives context join keys filter env s side s') :
    Adds root env s (exprs keys ++ exprs filter) s' := by
  obtain ⟨s₁, s₂, hkeysOps, hfilterOps, -, rfl⟩ := h
  have keyOps := (ih.steps (Env.pass_side hpass)).all hkeysOps hkeys
  have filterOp := (ih.steps (Env.pass_side hpass)).conjunction hfilterOps hfilter
  exact (keyOps.trans filterOp).scope rfl

/-- A reducer feeds a slot of the aggregate around, which was lowered before. -/
theorem AddsBelow.reducer {r : Reducer (Smaller e)} {aggregate : AggregateEnv} {index : Nat}
    (hr : ∀ c ∈ r.children, Expr.Within c.1 e) (haggregate : env.aggregate = some aggregate)
    (hindex : (aggregate.slots.findIdx? fun slot => slot.sameSlot (Smaller.plain r)) = some index)
    (h : FallbackGives env r s op s') : Adds root env s (exprs r.children) s' := by
  obtain ⟨inside, hsame, -⟩ := List.findIdx?_eq_some_iff_getElem.1 hindex
  have known (covered : env.Covered s) (n : String) (hn : Among (exprs r.fed) n) : n ∈ s.names := by
    rw [Smaller.exprs_fed, ← Reducer.among_fed hsame] at hn
    exact (covered aggregate haggregate).2 _ (List.getElem_mem inside) n hn
  have children : exprs r.children = exprs r.fed ++ exprs r.default.toList := by
    rw [← Smaller.exprs_append]
    rfl
  rw [children]
  cases h with
  | @default d _ _ _ hdefault h =>
    have hd : Expr.Within d.1 e := hr d (by simp [Reducer.children, hdefault])
    refine ((ih.steps hpass).contained h (by simpa using hd)).replace fun covered n => ?_
    rw [Expr.among_append, ← or_assoc, or_iff_left_of_imp (known covered n), hdefault]
    rfl
  | @initial c _ _ _ hdefault hinitial _ h =>
    have hc : Expr.Within c.1 e := hr c (by simp [Reducer.children, hinitial])
    refine ((ih.steps hpass).contained h (by simpa using hc)).replace fun covered n => ?_
    have fed : c.1.Mentions n → n ∈ s.names := fun hn =>
      known covered n (Smaller.among_exprs.2 ⟨c, by simp [Reducer.fed, hinitial], hn⟩)
    rw [hdefault]
    simp [or_iff_left_of_imp fed, or_iff_left_of_imp (known covered n)]
  | static hdefault _ h =>
    refine (Adds.constantName h).replace fun covered n => ?_
    rw [hdefault]
    simp [or_iff_left_of_imp (known covered n)]

/-- The parameters of the keys and of the slots have places when the output is lowered. -/
theorem AddsBelow.aggregate {keys : List (Smaller e)} {output : Smaller e}
    {reducers : List (Reducer (Smaller e))} {s₃ s₄ s₅ : State} {outputOp : Op} {group : Nat}
    {row : String} {keyOps : List Op} {slots : List (SlotOp Op)}
    (hkeys : ∀ c ∈ keys, Expr.Within c.1 e) (houtput : Expr.Within output.1 e)
    (hreducers : output.slots = .ok reducers) (hgroup : Gives freshGroup s group s₁)
    (hrow : Gives (freshName "row") s₁ row s₂)
    (hkeyOps : Sequence (Lowers (env.row key)) keys s₂.enter keyOps s₃)
    (hslots : Sequence (SlotGives (env.row key)) reducers s₃ slots s₄)
    (houtputOp : Lowers (env.output (.of env key group keys reducers)) output
      (s₄.leave s₂).enter outputOp s₅) :
    Adds root env s (exprs keys ++ [output.1]) (s₅.leave (s₄.leave s₂)) := by
  have hfed : ∀ r ∈ reducers, ∀ c ∈ r.fed, Expr.Within c.1 output.1 := fun r hr c hc =>
    output.within_of_mem_reducers r (Smaller.mem_reducers_of_mem_slots hreducers r hr) c
      (List.mem_append_left _ hc)
  have keysAdded := (ih.steps (Env.pass_row hpass)).all hkeyOps hkeys
  have slotsAdded := (ih.steps (Env.pass_row hpass)).slots hslots fun c hc => by
    obtain ⟨r, hr, hc⟩ := List.mem_flatMap.1 hc
    exact (hfed r hr c hc).trans houtput
  rw [Smaller.exprs_flatMap] at slotsAdded
  have begun : Adds root env s [] s₂ := (Adds.freshGroup hgroup).before (Adds.freshName hrow)
  have rows := begun.thenScope (keysAdded.trans slotsAdded) fun _ _ _ ha => by cases ha
  have outputAdded := ih output houtput (Env.pass_output hpass) houtputOp
  refine (rows.thenScope outputAdded fun _ places aggregate ha => ?_).congr fun n => ?_
  · obtain rfl := Option.some.inj ha
    refine ⟨fun n hn => places n ?_, fun slot hslot n hn => places n ?_⟩
    · simp only [List.nil_append, Expr.among_append]
      exact .inl hn
    · obtain ⟨r, hr, rfl⟩ := List.mem_map.1 hslot
      rw [← Smaller.exprs_fed] at hn
      obtain ⟨c, hc, hn⟩ := hn
      simp only [List.nil_append, Expr.among_append]
      exact .inr ⟨c, List.mem_flatMap.2 ⟨r, hr, hc⟩, hn⟩
  · -- what the slots mention, the output mentions
    have fed (hn : Among (reducers.flatMap fun r => exprs r.fed) n) : output.1.Mentions n := by
      obtain ⟨_, hmem, hn⟩ := hn
      obtain ⟨r, hr, hmem⟩ := List.mem_flatMap.1 hmem
      obtain ⟨c, hc, rfl⟩ := List.mem_map.1 hmem
      exact hn.within (hfed r hr c hc)
    simp [or_iff_right_of_imp fed]

theorem AddsBelow.join {left right : Smaller e} {condition : Option (Smaller e)} {kind : JoinKind}
    {s₃ s₄ s₅ s₆ s₇ s₈ : State} {l r : Op} {leftRow rightRow : Binding}
    {preFilter residual : Option Op} {leftSide rightSide : JoinSideOp Op}
    (hparts : ∀ c ∈ left :: right :: condition.toList, Expr.Within c.1 e)
    (hleft : Lowers env left s l s₁) (hright : Lowers env right s₁ r s₂)
    (hleftRow : Gives (freshSlot "left") s₂ leftRow s₃)
    (hrightRow : Gives (freshSlot "right") s₃ rightRow s₄)
    (hpreFilter : ConjunctionGives env (JoinPlan.ofCondition condition kind).preFilter s₄
      preFilter s₅)
    (hleftSide : SideGives (.part env.context key .leftRow) ⟨leftRow, rightRow⟩
      ((JoinPlan.ofCondition condition kind).keys.map (·.1))
      (JoinPlan.ofCondition condition kind).leftFilter env s₅ leftSide s₆)
    (hrightSide : SideGives (.part env.context key .rightRow) ⟨leftRow, rightRow⟩
      ((JoinPlan.ofCondition condition kind).keys.map (·.2))
      (JoinPlan.ofCondition condition kind).rightFilter env s₆ rightSide s₇)
    (hresidual : ConjunctionGives (env.pair key ⟨leftRow, rightRow⟩)
      (JoinPlan.ofCondition condition kind).residual s₇.enter residual s₈) :
    Adds root env s (exprs (left :: right :: condition.toList)) (s₈.leave s₇) := by
  have hpart : ∀ c ∈ (JoinPlan.ofCondition condition kind).parts, Expr.Within c.1 e := by
    intro c hc
    obtain ⟨d, hd, hbeside, -⟩ := JoinPlan.partOf_of_mem_parts hc
    exact hbeside.within.trans (hparts d (by simp_all))
  simp only [JoinPlan.parts, JoinPlan.onRows, List.forall_mem_append] at hpart
  obtain ⟨hpre, ⟨⟨⟨hleftKeys, hrightKeys⟩, hleftFilter⟩, hrightFilter⟩, hpair⟩ := hpart
  have sources := (ih left (hparts _ (by simp)) hpass hleft).trans
    (ih right (hparts _ (by simp)) hpass hright)
  have rows := (sources.after (Adds.freshSlot hleftRow)).after (Adds.freshSlot hrightRow)
  have sides := (((ih.steps hpass).conjunction hpreFilter hpre).trans
    (ih.side hpass hleftKeys hleftFilter hleftSide)).trans
    (ih.side hpass hrightKeys hrightFilter hrightSide)
  have pairs : Adds root env s₇ _ (s₈.leave s₇) :=
    ((ih.steps (Env.pass_pair hpass)).conjunction hresidual hpair).scope rfl
  refine (rows.trans (sides.trans pairs)).congr fun n => ?_
  have plan := JoinPlan.among_parts condition kind n
  simp only [JoinPlan.parts, JoinPlan.onRows, Smaller.exprs_append, Expr.among_append,
    or_assoc] at plan
  simp only [Smaller.exprs_cons, Expr.among_append, Expr.among_cons, Expr.not_among_nil, false_or,
    or_assoc, ← plan]
  -- the filter of the left side is lowered before the keys of the right one
  exact or_congr_right (or_congr_right (or_congr_right (or_congr_right or_left_comm)))

theorem AddsBelow.comprehension {kind : ComprehensionKind} {element source : Smaller e}
    {keyed filter : Option (Smaller e)} {var : String} {sourceOp elementOp : Op}
    {filterOp keyedOp : Option Op} {s₃ s₄ s₅ : State}
    (hmem : ∀ c ∈ (Node.comprehension kind keyed element source filter).children,
      Expr.Within c.1 e)
    (hsource : Lowers env source s sourceOp s₁) (hvar : Gives (freshName "item") s₁ var s₂)
    (hfilter : Optional (Lowers (env.enter (.part env.context key .item) .value)) filter s₂.enter
      filterOp s₃)
    (hkeyed : Optional (Lowers (env.enter (.part env.context key .item) .value)) keyed s₃
      keyedOp s₄)
    (helement : Lowers (env.enter (.part env.context key .item) .value) element s₄ elementOp s₅) :
    Adds root env s (exprs (Node.comprehension kind keyed element source filter).children)
      (s₅.leave s₂) := by
  obtain ⟨hsourceIn, hrest⟩ := List.forall_mem_cons.1 hmem
  obtain ⟨hoptions, helementIn⟩ := List.forall_mem_append.1 hrest
  obtain ⟨hfilterIn, hkeyedIn⟩ := List.forall_mem_append.1 hoptions
  have filterOp := (ih.steps (Env.pass_enter hpass)).option hfilter hfilterIn
  have keyOp := (ih.steps (Env.pass_enter hpass)).option hkeyed hkeyedIn
  have elementOp := ih _ (helementIn _ List.mem_cons_self) (Env.pass_enter hpass) helement
  have items := (filterOp.trans keyOp).trans elementOp
  have begun := (ih _ hsourceIn hpass hsource).after (.freshName hvar)
  simpa [Node.children] using begun.trans (items.scope rfl)

theorem AddsBelow.guarded {body : Smaller e} {handlers : List (Handler (Smaller e))} {bodyOp : Op}
    {caught : Binding} {s₃ : State} {rs : List (HandlerOp Op × NameSet)}
    (hmem : ∀ c ∈ (Node.guarded body handlers).children, Expr.Within c.1 e)
    (hbody : Lowers env body s bodyOp s₁) (hcaught : Gives (freshSlot "exc") s₁ caught s₂)
    (hhandlers : Sequence (HandlerGives { env with caught := some caught } s.assigned) handlers s₂
      rs s₃) :
    Adds root env s (exprs (Node.guarded body handlers).children) s₃ := by
  obtain ⟨hbodyIn, hhandlersIn⟩ := List.forall_mem_cons.1 hmem
  have handled := (ih.steps (Env.pass_handler hpass)).handlers
    (fun h hcs => (Adds.assigned _ _).before (h hcs)) hhandlers hhandlersIn
  have begun := (ih _ hbodyIn hpass hbody).after (.freshSlot hcaught)
  exact begun.trans (handled.within rfl)

/-- Lowering a node that is no reference gives places to the parameters of its parts. -/
theorem AddsBelow.children {node : Node (Smaller e)} (hnode : ∀ n, node ≠ .parameter n)
    (hmem : ∀ c ∈ node.children, Expr.Within c.1 e) (h : NodeGives e env key node s op s') :
    Adds root env s (exprs node.children) s' := by
  by_cases hplain : node.plain = true
  · exact (ih.steps hpass).plain hplain h hmem
  have part {c : Smaller e} (hc : c ∈ node.children) : Expr.Within c.1 e := hmem c hc
  cases h with
  | input | caught | leftRow | rightRow => exact .refl s
  | parameter => exact absurd rfl (hnode _)
  | labelRef _ hslot => exact .labelSlot hslot
  | unguarded h => exact ih _ (hmem _ List.mem_cons_self) hpass h
  | comprehension hsource hvar hfilter hkeyed helement =>
    exact ih.comprehension hpass hmem hsource hvar hfilter hkeyed helement
  | sort hsource hvar hkeys =>
    obtain ⟨hsourceIn, hkeysIn⟩ := List.forall_mem_cons.1 hmem
    have items := (ih.steps (Env.pass_enter hpass)).sortKeys hkeys hkeysIn
    exact ((ih _ hsourceIn hpass hsource).after (.freshName hvar)).trans (items.scope rfl)
  | guarded _ hbody hcaught hhandlers =>
    exact (ih.guarded hpass hmem hbody hcaught hhandlers).after (.assigned _ _)
  | inlined _ hproducer hconsumer | piped _ hproducer hconsumer =>
    have consumed := ih _ (hmem _ (by simp [Node.children])) (Env.pass_consumer hpass) hconsumer
    exact (ih _ (hmem _ List.mem_cons_self) hpass hproducer).trans (consumed.within rfl)
  | label hvalue hslot =>
    have value := ih _ (hmem _ List.mem_cons_self) hpass hvalue
    exact value.after ((Adds.assigned _ _).before (.labelSlot hslot))
  | reducer haggregate hindex hfallback => exact ih.reducer hpass hmem haggregate hindex hfallback
  | aggregate _ hreducers hgroup hrow hkeys hslots houtput =>
    obtain ⟨hkeysIn, houtputIn⟩ := List.forall_mem_append.1 hmem
    have added := ih.aggregate hpass hkeysIn (houtputIn _ List.mem_cons_self) hreducers hgroup hrow
      hkeys hslots houtput
    simpa [Node.children] using added
  | join hleft hright hleftRow hrightRow hplan hpreFilter hleftSide hrightSide hresidual =>
    subst hplan
    exact ih.join hpass hmem hleft hright hleftRow hrightRow hpreFilter hleftSide hrightSide
      hresidual
  | _ => exact absurd rfl hplain

omit ih hpass in
/-- A parameter gets the place it has already or the next one. -/
theorem Adds.parameter {name : String} {index : Nat} (hnode : ∀ n, e.Mentions n ↔ n = name)
    (h : Gives (paramIndex name) s index s') : Adds root env s [e] s' := by
  have named (n : String) : Among [e] n ↔ n = name := by simp [hnode]
  have grown : Extends s s' := Extends.closed.parameter h
  refine ⟨grown, fun noted _ => ?_⟩
  rcases gives_paramIndex h with ⟨hindex, rfl⟩ | ⟨-, -, rfl⟩
  · have known : name ∈ s'.names := by
      by_contra hnew
      cases hindex.symm.trans (List.idxOf?_eq_none_iff.2 hnew)
    refine ⟨noted, fun n => ?_⟩
    rw [named, or_iff_left_of_imp]
    rintro rfl
    exact known
  · refine ⟨fun b hb => ?_, fun n => ?_⟩
    · obtain ⟨c, hc, hnode, hplaces⟩ := noted b hb
      exact ⟨c, hc, hnode, hplaces.mono grown⟩
    · rw [named]
      simp [State.names, Signature.names]

/-- Lowering a node in place gives places to the parameters of the whole. -/
theorem AddsBelow.node (h : NodeGives e env key e.parts s op s') : Adds root env s [e] s' := by
  have hmem : ∀ c ∈ e.parts.children, Expr.Within c.1 e := fun c hc => .child (Expr.mem_parts hc)
  have mentions (n : String) : e.Mentions n ↔
      e.parts = .parameter n ∨ Among (exprs e.parts.children) n := by
    have own : e.node = .parameter n ↔ e.parts = .parameter n := by
      rw [← e.map_parts]
      cases e.parts <;> simp [Node.map]
    have children : e.children = exprs e.parts.children := by
      rw [Expr.children, ← e.map_parts, Node.children_map]
      rfl
    rw [Expr.mentions_iff, own, children]
  by_cases hparam : ∃ name, e.parts = .parameter name
  · obtain ⟨name, hname⟩ := hparam
    rw [hname] at h
    cases h with
    | parameter h =>
      refine Adds.parameter (fun n => ?_) h
      rw [mentions, hname]
      simp [Node.children, eq_comm]
  · have other (n : String) : e.parts ≠ .parameter n := fun hn => hparam ⟨n, hn⟩
    refine (ih.children hpass other hmem h).congr fun n => ?_
    rw [Expr.among_cons, or_iff_left Expr.not_among_nil, mentions, or_iff_right (other n)]

end Node

/-- Expressions that are known by equal keys mention the same parameters. -/
theorem mentions_of_key {c e : Expr} (coherent : root.Coherent) (hc : Expr.Within c root)
    (he : Expr.Within e root) (h : (NodeKey.of c c.analysis == NodeKey.of e e.analysis) = true)
    {n : String} : c.Mentions n ↔ e.Mentions n := by
  unfold NodeKey.of at h
  split at h
  · split at h
    · obtain rfl := coherent c e hc he (eq_of_beq (show (c.id == e.id) = true from h))
      exact Iff.rfl
    · cases h
  · split at h
    · cases h
    · exact Expr.mentions_of_beq h

/-- **Lowering gives a place to each parameter that is mentioned**, and to no other one. -/
theorem lower_adds (coherent : root.Coherent) {e : Expr} {env : Env} {s s' : State} {op : Op}
    (he : Expr.Within e root) (hpass : env.pass = .emit) (h : Gives (lower e env) s op s') :
    Adds root env s [e] s' := by
  have ih : AddsBelow root e := fun c _ _ _ _ hc hpass h =>
    lower_adds coherent (hc.trans he) hpass h
  cases lower_cases hpass h with
  | groupKey hkey =>
    obtain ⟨aggregate, index, ha, -, hpositions, -⟩ := groupKey_eq hkey
    obtain ⟨k, hk, hsame⟩ := mem_keyPositions.1 (hpositions ▸ List.mem_singleton_self index)
    refine (Adds.refl s).replace fun covered n => ?_
    have known : e.Mentions n → n ∈ s.names := fun hn =>
      (covered aggregate ha).1 n ⟨k, List.mem_of_getElem? hk, (Expr.mentions_of_beq hsame).2 hn⟩
    simp [or_iff_left_of_imp known]
  | inPlace _ _ hnode => exact ih.node hpass hnode
  | @hit b _ _ hmem hsame _ =>
    refine ⟨Extends.closed.assign _ _, fun noted _ => ⟨noted, fun n => ?_⟩⟩
    obtain ⟨c, hc, hnode, places⟩ := noted b hmem
    have keys : (NodeKey.of c c.analysis == NodeKey.of e e.analysis) = true := by
      rw [← hnode]
      simp only [Site.same, Bool.and_eq_true] at hsame
      exact hsame.2
    have known : e.Mentions n → n ∈ s.names := fun hn =>
      places n ⟨c, List.mem_cons_self, (mentions_of_key coherent hc he keys).2 hn⟩
    rw [Expr.among_cons, or_iff_left Expr.not_among_nil, or_iff_left_of_imp known]
    rfl
  | @bind definition s₁ s₂ binding _ _ _ hnode hslot =>
    have made := (ih.node hpass hnode).after (.freshSlot hslot)
    refine ⟨made.grown.trans (Extends.closed.bind _ _), fun noted covered => ?_⟩
    obtain ⟨noted₂, names₂⟩ := made.exact noted covered
    refine ⟨fun b hb => ?_, names₂⟩
    rcases List.mem_append.1 hb with hb | hb
    · exact noted₂ b hb
    · rw [List.mem_singleton.1 hb]
      exact ⟨e, he, rfl, fun n hn => (names₂ n).2 (.inr hn)⟩
termination_by sizeOf e
decreasing_by exact c.2

end DataExpr.Lowering
