import DataExpr.Proofs.LoweringSteps

/-!
# Lowering only extends its state

Lowering hands out slots, names, labels, parameters and groups and appends bindings to the
scope; it takes nothing back.  `lower_keeps` is the general form: a relation between states
that holds for every single step and is closed under scopes holds for whole lowerings.
-/

namespace DataExpr.Lowering

/-- A relation between states that holds for each step of an emission. -/
structure Closed (P : State → State → Prop) : Prop where
  refl : ∀ s, P s s
  trans : ∀ {s t u}, P s t → P t u → P s u
  name : ∀ {stem name s s'}, Gives (freshName stem) s name s' → P s s'
  slot : ∀ {stem b s s'}, Gives (freshSlot stem) s b s' → P s s'
  constant : ∀ {value name s s'}, Gives (constantName value) s name s' → P s s'
  label : ∀ {name b s s'}, Gives (labelSlot name) s b s' → P s s'
  group : ∀ {g s s'}, Gives freshGroup s g s' → P s s'
  parameter : ∀ {name index s s'}, Gives (paramIndex name) s index s' → P s s'
  assign : ∀ s names, P s { s with assigned := names }
  bind : ∀ s b, P s { s with bound := s.bound ++ [b] }
  scope : ∀ {s s₁}, P s.enter s₁ → P s (s₁.leave s)

/-- The relation holds for the lowering of everything below a root. -/
def KeptBelow (P : State → State → Prop) (root : Expr) : Prop :=
  ∀ (c : Smaller root) {env : Env} {s s' : State} {op : Op}, env.pass = .emit →
    Lowers env c s op s' → P s s'

section Node

variable {P : State → State → Prop} {e : Expr} {env : Env} {key : NodeKey} {op : Op}
  {s s' : State} (hP : Closed P) (ih : KeptBelow P e) (hpass : env.pass = .emit)
include hP

/-- Labels that are known before have no part in this. -/
theorem Closed.assignBefore {names : NameSet} (h : P { s with assigned := names } s') : P s s' :=
  hP.trans (hP.assign s names) h

include ih hpass

theorem KeptBelow.steps : NodeSteps env fun s (_ : List (Smaller e)) _ s' => P s s' where
  lowers h := ih _ hpass h
  refl := hP.refl
  trans := hP.trans
  assign names _ h := hP.trans h (hP.assign _ names)
  constant := hP.constant
  node _ h := h

theorem KeptBelow.side {context : Context} {join : JoinEnv} {keys filter : List (Smaller e)}
    {side : JoinSideOp Op} (h : SideGives context join keys filter env s side s') : P s s' := by
  obtain ⟨s₁, s₂, hkeys, hfilter, -, rfl⟩ := h
  have keyOps := (ih.steps hP (Env.pass_side hpass)).all hkeys
  exact hP.scope (hP.trans keyOps ((ih.steps hP (Env.pass_side hpass)).conjunction hfilter))

theorem KeptBelow.node {node : Node (Smaller e)} (h : NodeGives e env key node s op s') :
    P s s' := by
  have here := ih.steps hP hpass
  -- A plain node only lowers its parts; the others name places, open scopes or assign labels.
  by_cases hplain : node.plain = true
  · exact here.plain hplain h
  cases h with
  | input | caught | leftRow | rightRow => exact hP.refl _
  | parameter h => exact hP.parameter h
  | comprehension hsource hvar hfilter hkeyed helement =>
    have inside := ih.steps hP (@Env.pass_enter _ hpass (.part env.context key .item) .value)
    refine hP.trans (hP.trans (ih _ hpass hsource) (hP.name hvar)) (hP.scope ?_)
    exact hP.trans (hP.trans (inside.option hfilter) (inside.option hkeyed))
      (inside.lowers helement)
  | sort hsource hvar hkeys =>
    have keys := (ih.steps hP (Env.pass_enter hpass)).sortKeys hkeys
    exact hP.trans (hP.trans (ih _ hpass hsource) (hP.name hvar)) (hP.scope keys)
  | unguarded h => exact ih _ hpass h
  | guarded _ hbody hcaught hhandlers =>
    have body := hP.trans (ih _ hpass hbody) (hP.slot hcaught)
    have handlers := (ih.steps hP (Env.pass_handler hpass)).handlers hP.assignBefore hhandlers
    exact hP.trans (hP.trans body handlers) (hP.assign _ _)
  | inlined _ hproducer hconsumer | piped _ hproducer hconsumer =>
    exact hP.trans (ih _ hpass hproducer) (ih _ (Env.pass_consumer hpass) hconsumer)
  | label hvalue hslot => exact hP.trans (ih _ hpass hvalue) (hP.assignBefore (hP.label hslot))
  | labelRef _ hslot => exact hP.label hslot
  | reducer _ _ hfallback =>
    obtain ⟨_, fallback⟩ := here.fallback hfallback
    exact fallback
  | aggregate _ _ hgroup hrow hkeys hslots houtput =>
    have inside := ih.steps hP (@Env.pass_row _ hpass key)
    have rows := hP.scope (hP.trans (inside.all hkeys) (inside.slots hslots))
    exact hP.trans (hP.trans (hP.trans (hP.group hgroup) (hP.name hrow)) rows)
      (hP.scope (ih _ (Env.pass_output hpass) houtput))
  | join hleft hright hleftRow hrightRow _ hpreFilter hleftSide hrightSide hresidual =>
    have rows := hP.trans (hP.trans (ih _ hpass hleft) (ih _ hpass hright))
      (hP.trans (hP.slot hleftRow) (hP.slot hrightRow))
    have sides := hP.trans (hP.trans (here.conjunction hpreFilter)
      (ih.side hP hpass hleftSide)) (ih.side hP hpass hrightSide)
    have pairs := (ih.steps hP (Env.pass_pair hpass)).conjunction hresidual
    exact hP.trans (hP.trans rows sides) (hP.scope pairs)
  | _ => exact absurd rfl hplain

end Node

/-- **What every step keeps, lowering keeps.** -/
theorem lower_keeps {P : State → State → Prop} (hP : Closed P) {e : Expr} {env : Env}
    {s s' : State} {op : Op} (hpass : env.pass = .emit) (h : Gives (lower e env) s op s') :
    P s s' := by
  have ih : KeptBelow P e := fun c _ _ _ _ hpass h => lower_keeps hP hpass h
  cases lower_cases hpass h with
  | groupKey => exact hP.refl _
  | inPlace _ _ hnode => exact ih.node hP hpass hnode
  | hit => exact hP.assign _ _
  | bind _ _ _ hnode hslot =>
    exact hP.trans (hP.trans (ih.node hP hpass hnode) (hP.slot hslot)) (hP.bind _ _)
termination_by sizeOf e
decreasing_by exact c.2

/-- A state that has all that another one has, and maybe more. -/
structure Extends (s s' : State) : Prop where
  bound : s.bound <+: s'.bound
  labels : s.supply.labels <+: s'.supply.labels
  signature : s.supply.signature <+: s'.supply.signature
  slots : s.supply.slots ≤ s'.supply.slots
  groups : s.supply.groups ≤ s'.supply.groups
  counts : s'.counts = s.counts

namespace Extends

variable {s s₁ s₂ s' : State}

theorem refl (s : State) : Extends s s :=
  ⟨List.prefix_rfl, List.prefix_rfl, List.prefix_rfl, Nat.le_refl _, Nat.le_refl _, rfl⟩

/-- Neither the names handed out nor the labels that are set count. -/
theorem renamed (s : State) (n : Nat) (cs : List (String × Value)) (names : NameSet) :
    Extends s { s with supply := { s.supply with counter := n, constants := cs }
                       assigned := names } :=
  ⟨List.prefix_rfl, List.prefix_rfl, List.prefix_rfl, Nat.le_refl _, Nat.le_refl _, rfl⟩

theorem trans (h : Extends s s₁) (h' : Extends s₁ s₂) : Extends s s₂ :=
  ⟨h.bound.trans h'.bound, h.labels.trans h'.labels, h.signature.trans h'.signature,
    Nat.le_trans h.slots h'.slots, Nat.le_trans h.groups h'.groups, h'.counts.trans h.counts⟩

theorem mem_bound (h : Extends s s') {b : Bound} (hb : b ∈ s.bound) : b ∈ s'.bound :=
  h.bound.subset hb

theorem mem_labels (h : Extends s s') {l : String × Binding} (hl : l ∈ s.supply.labels) :
    l ∈ s'.supply.labels := h.labels.subset hl

theorem closed : Closed Extends where
  refl := refl
  trans := trans
  name h := by
    obtain ⟨n, rfl⟩ := gives_freshName h
    exact renamed _ _ _ _
  slot h := by
    obtain ⟨-, n, rfl⟩ := gives_freshSlot h
    exact { refl _ with slots := Nat.le_succ _ }
  constant h := by
    obtain ⟨n, cs, rfl⟩ := gives_constantName h
    exact renamed _ _ _ _
  label h := by
    rcases gives_labelSlot h with ⟨-, rfl⟩ | ⟨-, -, rfl⟩
    · exact refl _
    · exact { refl _ with labels := List.prefix_append _ _, slots := Nat.le_succ _ }
  group h := by
    obtain ⟨-, rfl⟩ := gives_freshGroup h
    exact { refl _ with groups := Nat.le_succ _ }
  parameter h := by
    rcases gives_paramIndex h with ⟨-, rfl⟩ | ⟨-, -, rfl⟩
    · exact refl _
    · exact { refl _ with signature := List.prefix_append _ _ }
  assign s names := renamed s _ _ names
  bind s b := { refl s with bound := List.prefix_append _ _ }
  scope h := { h with bound := List.prefix_rfl }

end Extends

/-- **Lowering only extends its state.** -/
theorem lower_extends {e : Expr} {env : Env} {s s' : State} {op : Op} (hpass : env.pass = .emit)
    (h : Gives (lower e env) s op s') : Extends s s' := lower_keeps Extends.closed hpass h

end DataExpr.Lowering
