import DataExpr.Proofs.Draining
import DataExpr.Proofs.WellScoped

/-!
# What does not use its input does not depend on it

The analysis of a node counts a use of the input if the node reads it or a part with the same input
counts one.  So an expression without pipes that counts none has no part that reads the input where
the input is its own, and it is lowered to an operation with the same property
(`Lowering.lower_blind`).  Such an operation does the same on all inputs (`Op.Blind.eval_eq`), be it
that other parts of it read items and rows.
-/

namespace DataExpr

/-! ### Uses of the input -/

theorem Node.sameInput_of_plain {ε : Type} {node : Node ε} (h : node.plain = true) :
    node.sameInput = node.children := by
  cases node with
  | comprehension | sort | pipe | reducer | aggregate => cases h
  | _ => rfl

namespace Expr

/-- An expression without pipes that counts no use of its input. -/
structure Unread (e : Expr) : Prop where
  analyzed : e.Analyzed
  uses : e.analysis.inputUses = 0
  pipeless : ∀ d, Within d e → ∀ p c, d.node ≠ .pipe p c

namespace Unread

variable {e c : Expr}

/-- Such an expression does not read the input itself. -/
theorem not_reads (h : e.Unread) : e.node.readsInput = false :=
  Bool.eq_false_iff.mpr fun own => h.analyzed.own (m := .used) own h.uses

theorem child (h : e.Unread) (hc : c ∈ e.node.sameInput) : c.Unread := by
  have hmem : c ∈ e.children := Node.mem_children_of_mem_sameInput hc
  refine ⟨h.analyzed.of_child hmem, ?_, fun d hd => h.pipeless d (hd.trans (.child hmem))⟩
  by_contra used
  exact h.analyzed.part .used hc used h.uses

/-- The parts of a node that have its input. -/
theorem parts (h : e.Unread) : ∀ c ∈ e.parts.sameInput, c.1.Unread := by
  intro c hc
  apply h.child
  rw [← map_parts, Node.sameInput_map]
  exact List.mem_map_of_mem hc

end Unread
end Expr

/-! ### Join conditions -/

/-- The conjuncts of a condition have its input. -/
theorem Smaller.unread_conjuncts {root : Expr} (e : Smaller root) (h : e.1.Unread) :
    ∀ c ∈ e.conjuncts, c.1.Unread := by
  intro c hc
  rw [conjuncts] at hc
  split at hc
  · rename_i items hparts
    obtain ⟨d, hd, hc⟩ := List.mem_flatMap.mp hc
    refine unread_conjuncts d.1 (h.child ?_) c hc
    rw [← map_parts, hparts]
    exact List.mem_map_of_mem (f := fun c => c.1.1) hd
  · obtain rfl := List.mem_singleton.mp hc
    exact h
termination_by sizeOf e.1
decreasing_by exact d.2

/-- So have the parts of the plan of a join. -/
theorem JoinPlan.unread {root : Expr} {condition : Option (Smaller root)}
    (h : ∀ e ∈ condition, e.1.Unread) (kind : JoinKind) {plan : JoinPlan (Smaller root)}
    (hplan : plan = ofCondition condition kind) :
    (∀ c ∈ plan.preFilter, c.1.Unread) ∧
      ((∀ c ∈ plan.keys.map (·.1), c.1.Unread) ∧ ∀ c ∈ plan.keys.map (·.2), c.1.Unread) ∧
      (∀ c ∈ plan.leftFilter, c.1.Unread) ∧ (∀ c ∈ plan.rightFilter, c.1.Unread) ∧
        ∀ c ∈ plan.residual, c.1.Unread := by
  have conjunct : ∀ c ∈ condition.toList.flatMap Smaller.conjuncts, c.1.Unread := by
    intro c hc
    obtain ⟨e, he, hc⟩ := List.mem_flatMap.mp hc
    exact e.unread_conjuncts (h e (Option.mem_toList.mp he)) c hc
  have selected {wanted : ConjunctRole (Smaller root) → Bool} :
      ∀ c ∈ select (condition.toList.flatMap Smaller.conjuncts) wanted, c.1.Unread :=
    fun c hc => conjunct c (of_mem_select hc).1
  have chosen {b : Prop} [Decidable b] {cs ds : List (Smaller root)}
      (hcs : ∀ c ∈ cs, c.1.Unread) (hds : ∀ c ∈ ds, c.1.Unread) :
      ∀ c ∈ (if b then cs else ds), c.1.Unread :=
    fun c hc => (of_mem_ite hc).elim (hcs c) (hds c)
  have nothing : ∀ c ∈ ([] : List (Smaller root)), c.1.Unread :=
    fun c hc => absurd hc List.not_mem_nil
  -- The keys of an equality are its operands, which read the input of the conjunct.
  have operands : ∀ k ∈ plan.keys, ∀ d ∈ [k.1.1, k.2.1], d.Unread := by
    intro k hk d hd
    subst hplan
    delta ofCondition at hk
    obtain ⟨c, hc, hrole⟩ := List.mem_filterMap.mp hk
    have hkey : c.role = .key k.1 k.2 := by
      cases hcr : c.role <;> rw [hcr] at hrole <;> cases hrole
      rfl
    apply (conjunct c hc).child
    rcases (Smaller.operands_of_role hkey).1 with hnode | hnode <;>
      simpa [hnode, Node.sameInput, Node.children, or_comm] using hd
  have keys : (∀ c ∈ plan.keys.map (·.1), c.1.Unread) ∧ ∀ c ∈ plan.keys.map (·.2), c.1.Unread := by
    refine ⟨fun c hc => ?_, fun c hc => ?_⟩
    · obtain ⟨k, hk, rfl⟩ := List.mem_map.mp hc
      exact operands k hk _ List.mem_cons_self
    · obtain ⟨k, hk, rfl⟩ := List.mem_map.mp hc
      exact operands k hk _ (List.mem_cons_of_mem _ List.mem_cons_self)
  refine ⟨?_, keys, ?_⟩
  all_goals
    subst hplan
    delta ofCondition
    dsimp only
  · exact selected
  refine ⟨chosen nothing selected, chosen nothing selected, fun c hc => ?_⟩
  rcases List.mem_append.mp hc with hc | hc
  · rcases List.mem_append.mp hc with hc | hc
    · exact selected c hc
    · exact chosen selected nothing c hc
  · exact chosen selected nothing c hc

/-! ### Operations that do not read the input -/

namespace OpNode

/-- Whether a node reads its input itself. -/
def readsInput {ω : Type} : OpNode ω → Bool
  | input | aggregate _ => true
  | _ => false

/-- The parts that have the input of the whole, unless it is an aggregate. -/
def sameInput {ω : Type} : OpNode ω → List ω
  | loop op => [op.source]
  | sort op => [op.source]
  | pipe producer _ => [producer]
  | node => node.parts

variable {ω : Type} {node : OpNode ω}

theorem readsInput_of_plain (h : node.plain = true) : node.readsInput = false := by
  cases node with
  | input | aggregate => cases h
  | _ => rfl

theorem sameInput_of_plain (h : node.plain = true) : node.sameInput = node.parts := by
  cases node with
  | loop | sort | pipe => cases h
  | _ => rfl

end OpNode

namespace Op

/-- Nothing in the operation reads the input that it is evaluated on. -/
inductive Blind : Op → Prop
  | mk {node : OpNode Op} (here : node.readsInput = false) (parts : ∀ p ∈ node.sameInput, Blind p) :
      Blind (.mk node)

namespace Blind

variable {node : OpNode Op} {p : Op}

theorem here (h : (Op.mk node).Blind) : node.readsInput = false := by
  cases h with
  | mk here _ => exact here

theorem part (h : (Op.mk node).Blind) (hp : p ∈ node.sameInput) : p.Blind := by
  cases h with
  | mk _ parts => exact parts p hp

end Blind
end Op

namespace Setting

open Eval

variable {σ : Type} {host : Host σ}

/-- The same program runs twice from the same world.  At a place of one kind the inputs are the
    same, at a place of the other kind they may differ. -/
def ofInputs : Setting Bool σ σ where
  link _ w v := w = v
  inputs same x y := same = true → x = y

/-- Operations that are the same, and do not read the input where it may differ. -/
def SameBlind (same : Bool) (o o' : Op) : Prop := o' = o ∧ (same = false → o.Blind)

variable {same : Bool}

theorem ofInputs_keeps {α : Type} (m : Eval σ α) : (ofInputs (σ := σ)).Keeps same m m := by
  rintro w _ rfl
  refine ⟨rfl, ?_⟩
  cases (m.run w).1 <;> rfl

theorem ofInputs_enters (there : Bool) (m : Eval σ Unit) :
    (ofInputs (σ := σ)).Enters same there m m := ⟨ofInputs_keeps m, .refl _⟩

theorem ofInputs_emits (there : Bool) (group : Nat) (view : Group) :
    (ofInputs (σ := σ)).Emits same there group group view where
  enter _ _ := fun h => by cases h; rfl
  leave _ _ _ _ := fun h h' => by cases h; cases h'; rfl

theorem ofInputs_common : (ofInputs (σ := σ)).Common same := fun _ _ => rfl

theorem ofInputs_inputs (x y : Value) (h : (ofInputs (σ := σ)).inputs same x y) :
    (ofInputs (σ := σ)).inputs same x y := h

/-- What does not read the input where it may differ is alike itself. -/
theorem ofInputs_alike (node : OpNode Op) (h : same = false → (Op.mk node).Blind) :
    (ofInputs (σ := σ)).Alike host host SameBlind same node node := by
  -- parts with the input of the whole, and parts with an input that both runs have
  have part {p : Op} (hp : p ∈ node.sameInput) : SameBlind same p p :=
    ⟨rfl, fun hs => (h hs).part hp⟩
  have common (p : Op) : SameBlind true p p := ⟨rfl, nofun⟩
  have all {as : List Op} (has : as ⊆ node.sameInput) : List.Forall₂ (SameBlind same) as as :=
    List.forall₂_same.mpr fun p hp => part (has hp)
  have optional {o : Option Op} (ho : o.toList ⊆ node.sameInput) :
      Option.Rel (SameBlind same) o o := by
    cases o with
    | none => exact .none
    | some p => exact .some (part (ho List.mem_cons_self))
  have commonAll (as : List Op) : List.Forall₂ (SameBlind true) as as :=
    forall₂_self common as
  have commonOptional (o : Option Op) : Option.Rel (SameBlind true) o o :=
    ofHosts_rel_self common o
  have reads (hreads : node.readsInput = true) : same = true := by
    cases same with
    | true => rfl
    | false => exact Bool.noConfusion (hreads.symm.trans (h rfl).here)
  cases node with
  | input => exact .input fun x y hxy => hxy (reads rfl)
  | const name value => exact .const name name value
  | param i name => exact .param (ofInputs_keeps _)
  | access source steps default =>
    refine .access (part List.mem_cons_self) (List.forall₂_same.mpr fun step hstep => ?_)
      (optional fun p hp => List.mem_cons_of_mem _ (List.mem_append_right _ hp))
    cases step with
    | key p =>
      refine .key (part (List.mem_cons_of_mem _ (List.mem_append_left _ ?_)))
      exact List.mem_flatMap.mpr ⟨_, hstep, List.mem_cons_self⟩
    | attr name => exact .attr name
  | call name f args => exact .call (fun _ => ofInputs_keeps _) (all (List.Subset.refl _))
  | builtin op args => exact .builtin (all (List.Subset.refl _))
  | binary op left right =>
    exact .binary (part List.mem_cons_self) (part (List.mem_cons_of_mem _ List.mem_cons_self))
  | unary op operand => exact .unary (part List.mem_cons_self)
  | and items => exact .and (all (List.Subset.refl _))
  | or items => exact .or (all (List.Subset.refl _))
  | collection kind items => exact .collection (all (List.Subset.refl _))
  | dict pairs =>
    refine .dict (List.forall₂_same.mpr fun p hp => ⟨part ?_, part ?_⟩)
    · exact List.mem_flatMap.mpr ⟨p, hp, List.mem_cons_self⟩
    · exact List.mem_flatMap.mpr ⟨p, hp, List.mem_cons_of_mem _ List.mem_cons_self⟩
  | loop op =>
    exact .loop ⟨rfl, part List.mem_cons_self, fun item => ⟨true, ofInputs_enters _ _,
      ofInputs_common item, commonOptional _, commonOptional _, common _⟩⟩
  | sort op =>
    exact .sort ⟨rfl, rfl, part List.mem_cons_self, fun item => ⟨true, ofInputs_enters _ _,
      ofInputs_common item, List.forall₂_same.mpr fun k _ => common k.op⟩⟩
  | guarded op =>
    refine .guarded ⟨part List.mem_cons_self, fun err => ⟨same, ofInputs_enters _ _,
      ofInputs_inputs, List.forall₂_same.mpr fun k hk => ?_⟩⟩
    have mem {p : Op} (hp : p ∈ k.parts) : p ∈ (OpNode.guarded op).sameInput :=
      List.mem_cons_of_mem _ (List.mem_flatMap.mpr ⟨k, hk, hp⟩)
    exact ⟨rfl, part (mem (List.mem_append_right _ List.mem_cons_self)),
      optional fun p hp => mem (List.mem_append_left _ hp)⟩
  | caught b => exact .caught (ofInputs_keeps _)
  | cond condition yes no =>
    exact .cond (part List.mem_cons_self) (part (List.mem_cons_of_mem _ List.mem_cons_self))
      (part (List.mem_cons_of_mem _ (List.mem_cons_of_mem _ List.mem_cons_self)))
  | pipe producer consumer =>
    exact .pipe (d := true) (part List.mem_cons_self) (.refl _) (.refl _) ofInputs_common
      (common consumer)
  | memo b definition =>
    exact .memo (ofInputs_keeps _) (fun v => ofInputs_keeps _) (part List.mem_cons_self)
  | setLabel b value => exact .setLabel (fun v => ofInputs_keeps _) (part List.mem_cons_self)
  | getLabel b => exact .getLabel (ofInputs_keeps _)
  | register b => exact .register (ofInputs_keeps _)
  | aggregate op =>
    obtain rfl := reads rfl
    exact .aggregate ⟨common _, rfl, List.forall₂_same.mpr fun _ _ => rfl,
      fun x y hxy => ⟨true, ofInputs_enters _ _, fun _ => hxy.elim id fun h => h rfl,
        fun _ _ => ofInputs_keeps _, commonAll _,
        forall₂_self (fun s => ⟨rfl, rfl, commonOptional _, commonAll _, commonOptional _⟩) _⟩,
      fun group => ⟨true, true, ofInputs_emits _ _ group, ofInputs_enters _ _, ofInputs_inputs,
        common _⟩⟩
  | join op =>
    have alike (s : JoinSideOp Op) (hs : s.parts ⊆ (OpNode.join op).sameInput) :
        SideAlike (SameBlind same) s s :=
      ⟨all fun p hp => hs (List.mem_append_left _ hp),
        optional fun p hp => hs (List.mem_append_right _ hp)⟩
    exact .join ⟨rfl, part List.mem_cons_self, part (List.mem_cons_of_mem _ List.mem_cons_self),
      optional fun p hp => List.mem_cons_of_mem _ (List.mem_cons_of_mem _ (List.mem_append_left _
        (List.mem_append_left _ (List.mem_append_left _ hp)))),
      fun _ => ⟨same, ofInputs_enters _ _, ofInputs_inputs,
        alike _ fun p hp => parts_secondarySide hp⟩,
      fun _ => ⟨same, ofInputs_enters _ _, ofInputs_inputs,
        alike _ fun p hp => parts_primarySide hp,
        fun _ => ⟨same, ofInputs_enters _ _, ofInputs_inputs,
          optional fun p hp => List.mem_cons_of_mem _ (List.mem_cons_of_mem _
            (List.mem_append_right _ hp))⟩⟩⟩
  | groupKey group i => exact .groupKey (ofInputs_keeps _)
  | slotValue group i default =>
    exact .slotValue (ofInputs_keeps _) (part List.mem_cons_self)

end Setting

/-- **What does not read its input does the same on all inputs.** -/
theorem Op.Blind.eval_eq {σ : Type} {op : Op} (h : op.Blind) (host : Host σ) (x y : Value) :
    op.eval host x = op.eval host y := by
  have closed (same : Bool) (o o' : Op) (h : Setting.SameBlind same o o') :
      (Setting.ofInputs (σ := σ)).Alike host host Setting.SameBlind same o.node o'.node := by
    obtain ⟨rfl, blind⟩ := h
    obtain ⟨node⟩ := o'
    exact Setting.ofInputs_alike node blind
  have run := Setting.Alike.same closed (c := false) ⟨rfl, fun _ => h⟩ x y nofun
  funext w
  obtain ⟨result, after⟩ := run w w rfl
  have world : ((op.eval host x).run w).2 = ((op.eval host y).run w).2 := by
    cases hr : ((op.eval host x).run w).1 <;> rw [hr] at after <;> exact after
  exact Prod.ext result world

/-! ### Lowered operations -/

namespace Lowering

variable {α β : Type} {env : Env} {s s₁ s₂ s' : State} {ops ops' : List Op} {op : Op}

/-- The bindings of the scope do not read the input. -/
def State.Blind (s : State) : Prop := ∀ b ∈ s.bound, b.definition.Blind

/-- A step that gives operations which do not read the input and keeps the bindings so. -/
def GivesBlind (s : State) (ops : List Op) (s' : State) : Prop :=
  s.Blind → s'.Blind ∧ ∀ op ∈ ops, op.Blind

namespace GivesBlind

theorem refl (s : State) : GivesBlind s [] s := fun hs => ⟨hs, nofun⟩

theorem trans (h : GivesBlind s ops s₁) (h' : GivesBlind s₁ ops' s₂) :
    GivesBlind s (ops ++ ops') s₂ := by
  intro hs
  obtain ⟨hs₁, hops⟩ := h hs
  obtain ⟨hs₂, hops'⟩ := h' hs₁
  exact ⟨hs₂, List.forall_mem_append.mpr ⟨hops, hops'⟩⟩

/-- Only the bindings of the scope count. -/
theorem after (h : GivesBlind s ops s₁) (same : s₂.bound = s₁.bound) : GivesBlind s ops s₂ := by
  intro hs
  obtain ⟨hs₁, hops⟩ := h hs
  exact ⟨fun b hb => hs₁ b (same ▸ hb), hops⟩

theorem before (h : GivesBlind s₁ ops s') (same : s₁.bound = s.bound) : GivesBlind s ops s' :=
  fun hs => h fun b hb => hs b (same ▸ hb)

/-- What is lowered in a scope of its own has no bindings to begin with and leaves none behind. -/
theorem scope (h : GivesBlind s.enter ops s₁) : GivesBlind s ops (s₁.leave s) :=
  fun hs => ⟨hs, (h fun _ hb => absurd hb List.not_mem_nil).2⟩

theorem node {node : OpNode Op} (h : GivesBlind s ops s') (here : node.readsInput = false)
    (parts : node.sameInput ⊆ ops) : GivesBlind s [.mk node] s' := by
  intro hs
  obtain ⟨hs', hops⟩ := h hs
  refine ⟨hs', List.forall_mem_singleton.mpr ?_⟩
  exact .mk here fun p hp => hops p (parts hp)

/-- A binding of the scope is read. -/
theorem hit {b : Bound} (hb : b ∈ s.bound) :
    GivesBlind s [.mk (.memo b.binding b.definition)] s := by
  intro hs
  refine ⟨hs, List.forall_mem_singleton.mpr (.mk rfl fun p hp => ?_)⟩
  obtain rfl := List.mem_singleton.mp hp
  exact hs b hb

/-- A new binding of the scope. -/
theorem bind {definition : Op} {binding : Binding} {site : Site} {reads writes : NameSet}
    (h : GivesBlind s [definition] s₁) (hslot : Gives (freshSlot "v") s₁ binding s₂) :
    GivesBlind s [.mk (.memo binding definition)]
      { s₂ with bound := s₂.bound ++ [⟨site, binding, definition, reads, writes⟩] } := by
  intro hs
  obtain ⟨hs₁, hops⟩ := h hs
  have blind : definition.Blind := hops definition List.mem_cons_self
  obtain ⟨-, n, rfl⟩ := gives_freshSlot hslot
  constructor
  · exact List.forall_mem_append.mpr ⟨hs₁, List.forall_mem_singleton.mpr blind⟩
  · exact List.forall_mem_singleton.mpr (.mk rfl (List.forall_mem_singleton.mpr blind))

end GivesBlind

theorem bound_labelSlot {name : String} {b : Binding} (h : Gives (labelSlot name) s b s') :
    s'.bound = s.bound := by
  rcases gives_labelSlot h with ⟨-, rfl⟩ | ⟨-, -, rfl⟩ <;> rfl

theorem bound_paramIndex {name : String} {index : Nat} (h : Gives (paramIndex name) s index s') :
    s'.bound = s.bound := by
  rcases gives_paramIndex h with ⟨-, rfl⟩ | ⟨-, -, rfl⟩ <;> rfl

/-- What is lowered below a root outside of aggregates gives operations that do not read the input,
    if the analysis counts no use. -/
def BlindBelow (root : Expr) : Prop :=
  ∀ (c : Smaller root) {env : Env} {s s' : State} {op : Op}, env.pass = .emit →
    env.aggregate = none → c.1.Unread → Lowers env c s op s' → GivesBlind s [op] s'

section Node

variable {e : Expr} {key : NodeKey} (ih : BlindBelow e) (hpass : env.pass = .emit)
  (outside : env.aggregate = none)
include ih hpass outside

/-- The steps that lower parts which do not read the input. -/
theorem BlindBelow.steps : NodeSteps env fun s (cs : List (Smaller e)) ops s' =>
    (∀ c ∈ cs, c.1.Unread) → GivesBlind s ops s' where
  lowers h hcs := ih _ hpass outside (hcs _ List.mem_cons_self) h
  refl s _ := .refl s
  trans h h' hcs := by
    obtain ⟨hleft, hright⟩ := List.forall_mem_append.mp hcs
    exact (h hleft).trans (h' hright)
  assign _ _ h hcs := (h hcs).after rfl
  constant h _ := by
    obtain ⟨n, cs, rfl⟩ := gives_constantName h
    exact (GivesBlind.refl _).after rfl
  node hplain h hcs := by
    refine (h hcs).node (OpNode.readsInput_of_plain hplain) ?_
    rw [OpNode.sameInput_of_plain hplain]
    exact List.Subset.refl _

theorem BlindBelow.side {context : Context} {join : JoinEnv} {keys filter : List (Smaller e)}
    {side : JoinSideOp Op} (hkeys : ∀ c ∈ keys, c.1.Unread) (hfilter : ∀ c ∈ filter, c.1.Unread)
    (h : SideGives context join keys filter env s side s') : GivesBlind s side.parts s' := by
  obtain ⟨s₁, s₂, keyOps, filterOps, -, rfl⟩ := h
  have keys := (ih.steps (Env.pass_side hpass) outside).all keyOps hkeys
  have filter := (ih.steps (Env.pass_side hpass) outside).conjunction filterOps hfilter
  exact .scope (keys.trans filter)

theorem BlindBelow.guarded {body : Smaller e} {handlers : List (Handler (Smaller e))}
    {bodyOp : Op} {caught : Binding} {rs : List (HandlerOp Op × NameSet)}
    (parts : ∀ c ∈ (Node.guarded body handlers).sameInput, c.1.Unread)
    (hbody : Lowers env body s bodyOp s₁) (hcaught : Gives (freshSlot "exc") s₁ caught s₂)
    (hhandlers : Sequence (HandlerGives { env with caught := some caught } s.assigned) handlers s₂
      rs s') :
    GivesBlind s [.mk (.guarded { body := bodyOp, handlers := rs.map (·.1), caught })] s' := by
  obtain ⟨bodyUnread, handlersUnread⟩ := List.forall_mem_cons.mp parts
  obtain ⟨-, n, rfl⟩ := gives_freshSlot hcaught
  have body := ih _ hpass outside bodyUnread hbody
  have handlers :=
    (ih.steps (Env.pass_handler hpass) outside).handlers (fun h hcs => (h hcs).before rfl) hhandlers
      handlersUnread
  refine (body.trans (handlers.before rfl)).node rfl fun p hp => ?_
  simpa [OpNode.sameInput, OpNode.parts, List.flatMap_map] using hp

theorem BlindBelow.join {left right : Smaller e} {condition : Option (Smaller e)} {kind : JoinKind}
    (parts : ∀ c ∈ (Node.join left right condition kind).sameInput, c.1.Unread)
    (h : NodeGives e env key (.join left right condition kind) s op s') :
    GivesBlind s [op] s' := by
  cases h with
  | join hleft hright hleftRow hrightRow hplan hpreFilter hleftSide hrightSide hresidual =>
    obtain ⟨-, n, rfl⟩ := gives_freshSlot hleftRow
    obtain ⟨-, m, rfl⟩ := gives_freshSlot hrightRow
    obtain ⟨leftUnread, rest⟩ := List.forall_mem_cons.mp parts
    obtain ⟨rightUnread, unread⟩ := List.forall_mem_cons.mp rest
    obtain ⟨pre, ⟨first, second⟩, left, right, residual⟩ :=
      JoinPlan.unread (fun d hd => unread d (Option.mem_toList.mpr hd)) _ hplan
    have sources :=
      (ih _ hpass outside leftUnread hleft).trans (ih _ hpass outside rightUnread hright)
    have filtered := ((ih.steps hpass outside).conjunction hpreFilter pre).before rfl
    have sides := (ih.side hpass outside first left hleftSide).trans
      (ih.side hpass outside second right hrightSide)
    have pairs := GivesBlind.scope
      ((ih.steps (Env.pass_pair hpass) outside).conjunction hresidual residual)
    refine (((sources.trans filtered).trans sides).trans pairs).node rfl fun p hp => ?_
    simpa [OpNode.sameInput, OpNode.parts] using hp

/-- Lowering a node in place gives an operation that does not read the input. -/
theorem BlindBelow.node (he : e.Unread) (h : NodeGives e env key e.parts s op s') :
    GivesBlind s [op] s' := by
  have reads := he.not_reads
  have plain := he.pipeless e (.refl e)
  have parts := he.parts
  rw [← e.map_parts] at reads plain
  generalize e.parts = node at h reads plain parts
  by_cases hplain : node.plain = true
  · rw [Node.sameInput_of_plain hplain] at parts
    exact (ih.steps hpass outside).plain hplain h parts
  cases h with
  | input | aggregate => cases reads
  | inlined | piped => exact absurd rfl (plain _ _)
  | reducer haggregate => cases outside.symm.trans haggregate
  | parameter h =>
    exact ((GivesBlind.refl s).after (bound_paramIndex h)).node rfl (List.Subset.refl _)
  | labelRef _ hslot =>
    exact ((GivesBlind.refl s).after (bound_labelSlot hslot)).node rfl (List.Subset.refl _)
  | caught | leftRow | rightRow =>
    exact (GivesBlind.refl s).node rfl (List.Subset.refl _)
  | label hvalue hslot =>
    have value := ih _ hpass outside (parts _ List.mem_cons_self) hvalue
    exact (value.after ((bound_labelSlot hslot).trans rfl)).node rfl (List.Subset.refl _)
  | comprehension hsource hvar _ _ _ | sort hsource hvar _ =>
    -- what is evaluated for an item has the item as its input
    obtain ⟨n, rfl⟩ := gives_freshName hvar
    have source := ih _ hpass outside (parts _ List.mem_cons_self) hsource
    exact (source.after rfl).node rfl (List.Subset.refl _)
  | unguarded h => exact ih _ hpass outside (parts _ List.mem_cons_self) h
  | guarded _ hbody hcaught hhandlers =>
    exact (ih.guarded hpass outside parts hbody hcaught hhandlers).after rfl
  | join hleft hright hleftRow hrightRow hplan hpreFilter hleftSide hrightSide hresidual =>
    exact ih.join hpass outside parts (.join hleft hright hleftRow hrightRow hplan hpreFilter
      hleftSide hrightSide hresidual)
  | _ => exact absurd rfl hplain

end Node

/-- **What counts no use of its input is lowered to an operation that does not read it.** -/
theorem lower_blind {e : Expr} {env : Env} {s s' : State} {op : Op} (hpass : env.pass = .emit)
    (outside : env.aggregate = none) (he : e.Unread) (h : Gives (lower e env) s op s') :
    GivesBlind s [op] s' := by
  have ih : BlindBelow e := fun c _ _ _ _ hpass outside hc h => lower_blind hpass outside hc h
  cases lower_cases hpass h with
  | groupKey hkey =>
    rw [groupKey?, outside] at hkey
    cases hkey
  | inPlace _ _ hnode => exact ih.node hpass outside he hnode
  | hit _ _ hmem _ _ => exact (GivesBlind.hit hmem).after rfl
  | bind _ _ _ hnode hslot => exact (ih.node hpass outside he hnode).bind hslot
termination_by sizeOf e
decreasing_by exact c.2

end Lowering

namespace Program

variable {σ : Type} {e : Expr} {signature : Signature} {threshold : Weight.Threshold}
  {program : Program}

/-- **No use of the input, no influence of the input.**  The program of an expression without pipes
    whose analysis counts no use of the input gives the same result on all inputs, leaves the
    functions in the same state and makes the same calls. -/
theorem call_of_unused (pipeless : ∀ d, Expr.Within d e → ∀ p c, d.node ≠ .pipe p c)
    (h : Program.ofExpr e signature threshold = .ok program) (uses : e.analysis.inputUses = 0)
    (host : Host σ) (v w : Value) (params : Params) (state : σ) :
    program.call host v params state = program.call host w params state ∧
      program.call host.logged v params (state, []) =
        program.call host.logged w params (state, []) := by
  obtain ⟨⟨a, ha⟩, counts, body, s, -, hlower, rfl⟩ := Lowering.ofExpr_cases h
  have unread : e.Unread := ⟨⟨a, ha⟩, uses, pipeless⟩
  have blind : body.Blind :=
    (Lowering.lower_blind rfl rfl unread hlower fun _ hb => absurd hb List.not_mem_nil).2 body
      List.mem_cons_self
  have same {τ : Type} (host : Host τ) (state : τ) :
      (s.program body).call host v params state = (s.program body).call host w params state := by
    have body : (s.program body).body.eval host v = (s.program body).body.eval host w :=
      blind.eval_eq host v w
    rw [call, call, body]
  exact ⟨same host state, same host.logged (state, [])⟩

/-- A function, called for each of two items. -/
def calledTwice : Expr :=
  .mk 0 (.comprehension .list none (.mk 1 (.call ⟨7, "f", false⟩ [.mk 2 .input]))
    (.mk 3 (.constant (.list [.int 1, .int 2]))) none)

/-- Functions that answer with the number of earlier calls. -/
def counting : Host Nat := ⟨fun _ _ n => (.ok (.int (.ofNat n)), n + 1)⟩

theorem call_of_unused_calledTwice : ∃ program,
    Program.ofExpr calledTwice [] Weight.bindingThreshold = .ok program ∧
      program.call counting (.int 1) .none 0 = program.call counting .null .none 0 ∧
      program.call counting.logged (.int 1) .none (0, []) =
        program.call counting.logged .null .none (0, []) := by
  obtain ⟨program, h⟩ := exists_of_isSome
    (r := Program.ofExpr calledTwice [] Weight.bindingThreshold) (by decide +kernel)
  have pipeless : ∀ d, Expr.Within d calledTwice → ∀ p c, d.node ≠ .pipe p c := by
    simp [calledTwice, Expr.forall_within_mk, Node.children, Expr.node]
  exact ⟨program, h, call_of_unused pipeless h (by decide +kernel) counting (.int 1) .null .none 0⟩

end Program
end DataExpr
