import DataExpr.Proofs.LoweringCases
import DataExpr.Proofs.OpParts
import DataExpr.Proofs.Subexpressions

/-!
# Steps of a lowering

What is shown of lowered programs is shown along the steps that lower them, and mostly it is of one
form: it holds where nothing is lowered, it holds of two steps if it holds of each of them, and it
still holds when labels cease to count as set (`Steps`).  Whatever has this form and holds of each
expression that is lowered holds of lists of them, of paths and slots, and of all nodes that only
combine the values of their parts (`NodeSteps.plain`).
-/

namespace DataExpr

/-! ### Nodes that combine the values of their parts -/

/-- Whether the parts of a node are evaluated where it stands and the node adds nothing that a scope
    knows of: no binding, no label, no row and no group. -/
def Node.plain {ε : Type} : Node ε → Bool
  | constant _ | access .. | call .. | builtin .. | binary .. | unary .. | and _ | or _
  | collection .. | dict _ | conditional .. => true
  | _ => false

/-- The same for an operation. -/
def OpNode.plain {ω : Type} : OpNode ω → Bool
  | const .. | access .. | call .. | builtin .. | binary .. | unary .. | and _ | or _
  | collection .. | dict _ | cond .. => true
  | _ => false

namespace Lowering

variable {α β : Type} {root : Expr} {env : Env} {s s₁ s' : State} {op : Op} {ops : List Op}
  {c : Smaller root} {cs : List (Smaller root)}

/-- What holds of steps that lower some expressions to some operations, if it holds of each step.
    Labels may cease to count as set after a step. -/
structure Steps (env : Env) (T : State → List (Smaller root) → List Op → State → Prop) : Prop where
  lowers : ∀ {c s op s'}, Lowers env c s op s' → T s [c] [op] s'
  refl : ∀ s, T s [] [] s
  trans : ∀ {s cs ops s₁ cs' ops' s'}, T s cs ops s₁ → T s₁ cs' ops' s' →
    T s (cs ++ cs') (ops ++ ops') s'
  assign : ∀ {s cs ops s'} (names : NameSet), (∀ n ∈ names, n ∈ s.assigned ∨ n ∈ s'.assigned) →
    T s cs ops s' → T s cs ops { s' with assigned := names }

namespace Steps

variable {T : State → List (Smaller root) → List Op → State → Prop} (hT : Steps env T)
include hT

theorem sequence {R : α → State → β → State → Prop} {f : α → List (Smaller root)}
    {g : β → List Op} {as : List α} {bs : List β} (h : Sequence R as s bs s')
    (hR : ∀ a s b s', R a s b s' → T s (f a) (g b) s') :
    T s (as.flatMap f) (bs.flatMap g) s' := by
  induction h with
  | nil => exact hT.refl _
  | cons head _ ih =>
    rw [List.flatMap_cons, List.flatMap_cons]
    exact hT.trans (hR _ _ _ _ head) ih

theorem restore {ops : List Op} (h : T s cs ops s') :
    T s cs ops { s' with assigned := s.assigned } := hT.assign _ (fun _ hn => .inl hn) h

theorem contained (h : LowersContained env c s op s') : T s [c] [op] s' := by
  obtain ⟨s₁, h, rfl⟩ := h
  exact hT.restore (hT.lowers h)

theorem all (h : Sequence (Lowers env) cs s ops s') : T s cs ops s' := by
  have each := hT.sequence (f := fun c => [c]) (g := fun op => [op]) h fun _ _ _ _ h => hT.lowers h
  simpa using each

theorem allContained (h : Sequence (LowersContained env) cs s ops s') : T s cs ops s' := by
  have each := hT.sequence (f := fun c => [c]) (g := fun op => [op]) h
    fun _ _ _ _ h => hT.contained h
  simpa using each

theorem option {c : Option (Smaller root)} {op : Option Op}
    (h : Optional (Lowers env) c s op s') : T s c.toList op.toList s' := by
  cases h with
  | none => exact hT.refl _
  | some h => exact hT.lowers h

theorem optionContained {c : Option (Smaller root)} {op : Option Op}
    (h : Optional (LowersContained env) c s op s') : T s c.toList op.toList s' := by
  cases h with
  | none => exact hT.refl _
  | some h => exact hT.contained h

theorem shortCircuit (h : ShortCircuit env cs s ops s') : T s cs ops s' := by
  cases h with
  | nil => exact hT.refl _
  | cons head tail => exact hT.trans (hT.lowers head) (hT.restore (hT.all tail))

theorem step {step : PathStep (Smaller root)} {op : Step Op} (h : StepGives env step s op s') :
    T s step.children op.parts s' := by
  cases h with
  | key h => exact hT.lowers h
  | attr => exact hT.refl _

theorem pair {p : Smaller root × Smaller root} {ops : Op × Op} (h : PairGives env p s ops s') :
    T s [p.1, p.2] [ops.1, ops.2] s' := by
  obtain ⟨s₁, hk, hv⟩ := h
  exact hT.trans (hT.lowers hk) (hT.lowers hv)

theorem sortKeys {keys : List (SortKey (Smaller root))} {ops : List (SortKeyOp Op)}
    (h : Sequence (SortKeyGives env) keys s ops s') :
    T s (keys.map SortKey.key) (ops.map SortKeyOp.op) s' := by
  rw [List.map_eq_flatMap, List.map_eq_flatMap]
  exact hT.sequence h fun _ _ _ _ h => hT.lowers h.1

/-- A handler, from the labels that are set where it starts. -/
theorem handler {before : NameSet} {h : Handler (Smaller root)} {r : HandlerOp Op × NameSet}
    (hgives : HandlerGives env before h s r s') :
    T { s with assigned := before } h.children r.1.parts s' := by
  obtain ⟨-, -, s₁, hreraise, hvalue⟩ := hgives
  exact hT.trans (hT.option hreraise) (hT.lowers hvalue)

/-- Handlers, for what does not depend on the labels that are set before. -/
theorem handlers (assignBefore : ∀ {s cs ops s'} {names : NameSet},
      T { s with assigned := names } cs ops s' → T s cs ops s')
    {before : NameSet} {hs : List (Handler (Smaller root))} {rs : List (HandlerOp Op × NameSet)}
    (h : Sequence (HandlerGives env before) hs s rs s') :
    T s (hs.flatMap Handler.children) (rs.flatMap fun r => r.1.parts) s' :=
  hT.sequence h fun _ _ _ _ h => assignBefore (hT.handler h)

theorem slot {r : Reducer (Smaller root)} {slot : SlotOp Op} (h : SlotGives env r s slot s') :
    T s r.fed slot.parts s' := by
  obtain ⟨-, -, s₁, s₂, hfilter, hargs, hinitial⟩ := h
  have fed := hT.trans (hT.optionContained hfilter) (hT.allContained hargs)
  exact hT.trans fed (hT.optionContained hinitial)

theorem slots {rs : List (Reducer (Smaller root))} {slots : List (SlotOp Op)}
    (h : Sequence (SlotGives env) rs s slots s') :
    T s (rs.flatMap Reducer.fed) (slots.flatMap SlotOp.parts) s' :=
  hT.sequence h fun _ _ _ _ h => hT.slot h

end Steps

/-- What holds besides of the operations of nodes that only combine the values of their parts. -/
structure NodeSteps (env : Env) (T : State → List (Smaller root) → List Op → State → Prop) : Prop
    extends Steps env T where
  constant : ∀ {value name s s'}, Gives (constantName value) s name s' → T s [] [] s'
  node : ∀ {s cs n s'}, OpNode.plain n = true → T s cs n.parts s' → T s cs [.mk n] s'

namespace NodeSteps

variable {T : State → List (Smaller root) → List Op → State → Prop} (hT : NodeSteps env T)
include hT

theorem conjunction {op : Option Op} (h : ConjunctionGives env cs s op s') :
    T s cs op.toList s' := by
  obtain ⟨ops, s₁, hops, rfl, rfl⟩ := h
  have all := hT.restore (hT.all hops)
  rcases ops with - | ⟨o, - | ⟨o', os⟩⟩
  · exact all
  · exact all
  · exact hT.node rfl all

/-- What a reducer falls back to is its default, its initial value or a constant. -/
theorem fallback {r : Reducer (Smaller root)} (h : FallbackGives env r s op s') :
    ∃ cs, T s cs [op] s' := by
  cases h with
  | default _ h => exact ⟨_, hT.contained h⟩
  | initial _ _ _ h => exact ⟨_, hT.contained h⟩
  | static _ _ h => exact ⟨[], hT.node rfl (hT.constant h)⟩

end NodeSteps

/-- **Nodes that combine the values of their parts.**  What holds of the lowering of the parts holds
    of the node. -/
theorem NodeSteps.plain {e : Expr} {key : NodeKey} {node : Node (Smaller e)}
    {T : State → List (Smaller e) → List Op → State → Prop} (hT : NodeSteps env T)
    (hplain : node.plain = true) (h : NodeGives e env key node s op s') :
    T s node.children [op] s' := by
  cases h with
  | constant h => exact hT.node rfl (hT.constant h)
  | access hsource hsteps hdefault =>
    have path := hT.sequence hsteps fun _ _ _ _ h => hT.step h
    have all := hT.trans (hT.trans (hT.lowers hsource) path) (hT.optionContained hdefault)
    exact hT.node rfl all
  | call hname hargs => exact hT.node rfl (hT.trans (hT.constant hname) (hT.all hargs))
  | builtin h | collection h => exact hT.node rfl (hT.all h)
  | binary hleft hright => exact hT.node rfl (hT.trans (hT.lowers hleft) (hT.lowers hright))
  | unary h => exact hT.node rfl (hT.lowers h)
  | and h | or h => exact hT.node rfl (hT.shortCircuit h)
  | dict h => exact hT.node rfl (hT.sequence h fun _ _ _ _ h => hT.pair h)
  | conditional hcondition hyes hno =>
    have branches := hT.trans (hT.lowers hcondition) (hT.restore (hT.lowers hyes))
    have both := hT.trans branches (hT.lowers hno)
    exact hT.node rfl (hT.assign _ (fun _ hn => .inr (NameSet.mem_inter.mp hn).1) both)
  | _ => cases hplain

end Lowering
end DataExpr
