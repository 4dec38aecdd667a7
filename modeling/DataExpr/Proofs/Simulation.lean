import DataExpr.Proofs.OpAgreement
import DataExpr.Proofs.OpParts

/-!
# Programs that run alike

Two programs run side by side, each with functions of its own.  A `Setting` says for each
place in them how the worlds of the two runs are linked there and which inputs they can have.
Places are what a program goes through as it enters scopes, handlers, rows and groups.

If every node keeps the link of its place, the two runs have the same results; this is
`Setting.Alike.same`.
-/

namespace DataExpr

open Eval Op

variable {κ σ τ α β γ δ : Type}

/-- Elements that are related are related in any way that follows for members of the lists. -/
theorem forall₂_imp_both {R S : γ → δ → Prop} {cs : List γ} {ds : List δ}
    (h : List.Forall₂ R cs ds) (himp : ∀ c ∈ cs, ∀ d ∈ ds, R c d → S c d) :
    List.Forall₂ S cs ds := by
  induction h with
  | nil => exact .nil
  | cons head _ ih =>
    exact .cons (himp _ List.mem_cons_self _ List.mem_cons_self head)
      (ih fun c hc d hd => himp c (List.mem_cons_of_mem _ hc) d (List.mem_cons_of_mem _ hd))

theorem forall₂_imp_mem {R S : γ → δ → Prop} {cs : List γ} {ds : List δ}
    (h : List.Forall₂ R cs ds) (himp : ∀ c ∈ cs, ∀ d, R c d → S c d) : List.Forall₂ S cs ds :=
  forall₂_imp_both h fun c hc d _ => himp c hc d

theorem rel_imp_both {R S : γ → δ → Prop} {c : Option γ} {d : Option δ} (h : Option.Rel R c d)
    (himp : ∀ a ∈ c.toList, ∀ b ∈ d.toList, R a b → S a b) : Option.Rel S c d := by
  cases h with
  | some head => exact .some (himp _ List.mem_cons_self _ List.mem_cons_self head)
  | none => exact .none

theorem rel_imp_mem {R S : γ → δ → Prop} {c : Option γ} {d : Option δ} (h : Option.Rel R c d)
    (himp : ∀ a ∈ c.toList, ∀ b, R a b → S a b) : Option.Rel S c d :=
  rel_imp_both h fun a ha b _ => himp a ha b

/-- After evaluations one by one, a weaker link may do. -/
theorem Eval.AgreeAll.leave {fail pre mid post : Link σ τ} {f : γ → Eval σ α} {g : δ → Eval τ α}
    {cs : List γ} {ds : List δ} (h : AgreeAll fail f g pre cs ds mid) (hpost : mid.Within post) :
    AgreeAll fail f g pre cs ds post := by
  induction h with
  | nil hpre => exact .nil (hpre.trans hpost)
  | cons head _ ih => exact .cons head (ih hpost)

/-- Takes a row into a register and enters the scope of what is evaluated for it. -/
def Eval.takeRow {ω : Type} (register : Binding) (scope : Scope ω) (row : Value) : Eval σ Unit := do
  setSlot register.slot row
  reset scope.resets

/-- How two runs are linked, and which inputs they can have, at each place. -/
structure Setting (κ σ τ : Type) where
  link : κ → Link σ τ
  inputs : κ → Value → Value → Prop

namespace Setting

variable (S : Setting κ σ τ)

/-- Evaluations with the same results that keep the worlds linked. -/
def Keeps (c : κ) (m : Eval σ α) (n : Eval τ α) : Prop :=
  Agree (S.link c) (S.link c) (S.link c) m n

/-- Evaluators that do so on the inputs of their place. -/
def Same (c : κ) (f : Evaluator σ) (g : Evaluator τ) : Prop :=
  ∀ x y, S.inputs c x y → S.Keeps c (f x) (g y)

/-- Evaluations that go from one place to another, from where both runs may go back. -/
structure Enters (c d : κ) (m : Eval σ Unit) (n : Eval τ Unit) : Prop where
  enter : Agree (S.link c) (S.link d) (S.link c) m n
  leave : (S.link d).Within (S.link c)

/-- Both runs have the same input, whatever it is. -/
def Common (c : κ) : Prop := ∀ x, S.inputs c x x

/-- The place can be entered with this group in place, after which the previous one is back. -/
structure Emits (c d : κ) (g k : Nat) (view : Group) : Prop where
  enter : ∀ w v, S.link c w v → S.link d
    { w with frame := w.frame.setGroup g (some view) }
    { v with frame := v.frame.setGroup k (some view) }
  leave : ∀ w v w' v', S.link c w v → S.link d w' v' → S.link c
    { w' with frame := w'.frame.setGroup g (w.frame.group? g) }
    { v' with frame := v'.frame.setGroup k (v.frame.group? k) }

/-- What stands for the operations of two steps is related. -/
inductive StepAlike (R : γ → δ → Prop) : Step γ → Step δ → Prop
  | key {p : γ} {q : δ} (h : R p q) : StepAlike R (.key p) (.key q)
  | attr (name : String) : StepAlike R (.attr name) (.attr name)

structure HandlerAlike (R : γ → δ → Prop) (h : HandlerOp γ) (k : HandlerOp δ) : Prop where
  kinds : h.kinds = k.kinds
  value : R h.value k.value
  reraiseIf : Option.Rel R h.reraiseIf k.reraiseIf

structure SlotAlike (R : γ → δ → Prop) (s : SlotOp γ) (t : SlotOp δ) : Prop where
  kind : s.kind = t.kind
  seedEmpty : s.seedEmpty = t.seedEmpty
  filter : Option.Rel R s.filter t.filter
  args : List.Forall₂ R s.args t.args
  initial : Option.Rel R s.initial t.initial

structure SideAlike (R : γ → δ → Prop) (s : JoinSideOp γ) (t : JoinSideOp δ) : Prop where
  keys : List.Forall₂ R s.keys t.keys
  filter : Option.Rel R s.filter t.filter

variable (host : Host σ) (host' : Host τ) (R : κ → Op → Op → Prop)

/-! Which place a scope, a handler or a group is, may depend on what it is entered for. -/

structure LoopAlike (c : κ) (p q : LoopOp Op) : Prop where
  kind : p.kind = q.kind
  source : R c p.source q.source
  item : ∀ item, ∃ d, S.Enters c d (reset p.scope.resets) (reset q.scope.resets) ∧
    S.inputs d item item ∧ Option.Rel (R d) p.filter q.filter ∧ Option.Rel (R d) p.key q.key ∧
    R d p.element q.element

structure SortAlike (c : κ) (p q : SortOp Op) : Prop where
  reverse : p.reverse = q.reverse
  orders : p.keys.map (·.order) = q.keys.map (·.order)
  source : R c p.source q.source
  item : ∀ item, ∃ d, S.Enters c d (reset p.scope.resets) (reset q.scope.resets) ∧
    S.inputs d item item ∧ List.Forall₂ (fun k l => R d k.op l.op) p.keys q.keys

structure GuardAlike (c : κ) (p q : GuardOp Op) : Prop where
  body : R c p.body q.body
  handlers : ∀ err : Error, ∃ d,
    S.Enters c d (setSlot p.caught.slot (.str err.message))
      (setSlot q.caught.slot (.str err.message)) ∧
    (∀ x y, S.inputs c x y → S.inputs d x y) ∧
    List.Forall₂ (HandlerAlike (R d)) p.handlers q.handlers

structure AggregateAlike (c : κ) (p q : AggregateOp Op) : Prop where
  source : R c p.source q.source
  keys : p.keys.length = q.keys.length
  kinds : List.Forall₂ (fun s t : SlotOp Op => s.kind = t.kind) p.slots q.slots
  /-- What is evaluated for each row, and on the input of the whole if there is no row. -/
  row : ∀ x y, x = y ∨ S.inputs c x y → ∃ d,
    S.Enters c d (reset p.rowScope.resets) (reset q.rowScope.resets) ∧ S.inputs d x y ∧
    (∀ f args, S.Keeps d (call host f args) (call host' f args)) ∧
    List.Forall₂ (R d) p.keys q.keys ∧ List.Forall₂ (SlotAlike (R d)) p.slots q.slots
  output : ∀ group, ∃ d e, S.Emits c d p.group q.group group ∧
    S.Enters d e (reset p.outputScope.resets) (reset q.outputScope.resets) ∧
    (∀ x y, S.inputs c x y → S.inputs e x y) ∧ R e p.output q.output

structure JoinAlike (c : κ) (p q : JoinOp Op) : Prop where
  kind : p.kind = q.kind
  left : R c p.left q.left
  right : R c p.right q.right
  preFilter : Option.Rel (R c) p.preFilter q.preFilter
  secondary : ∀ row, ∃ d,
    S.Enters c d (takeRow p.secondarySide.2 p.secondarySide.1.scope row)
      (takeRow q.secondarySide.2 q.secondarySide.1.scope row) ∧
    (∀ x y, S.inputs c x y → S.inputs d x y) ∧
    SideAlike (R d) p.secondarySide.1 q.secondarySide.1
  primary : ∀ row, ∃ d,
    S.Enters c d (takeRow p.primarySide.2 p.primarySide.1.scope row)
      (takeRow q.primarySide.2 q.primarySide.1.scope row) ∧
    (∀ x y, S.inputs c x y → S.inputs d x y) ∧
    SideAlike (R d) p.primarySide.1 q.primarySide.1 ∧
    ∀ other, ∃ e, S.Enters d e (takeRow p.secondarySide.2 p.pairScope other)
      (takeRow q.secondarySide.2 q.pairScope other) ∧
    (∀ x y, S.inputs c x y → S.inputs e x y) ∧ Option.Rel (R e) p.residual q.residual

/-- Nodes that do the same with the world and whose parts are related by `R` at the places where
    they are evaluated. -/
inductive Alike (c : κ) : OpNode Op → OpNode Op → Prop
  | input (h : ∀ x y, S.inputs c x y → x = y) : Alike c .input .input
  | const (name name' : String) (value : Value) : Alike c (.const name value) (.const name' value)
  | param {i : Nat} {name name' : String}
      (h : S.Keeps c (do return (← frame).param i) (do return (← frame).param i)) :
      Alike c (.param i name) (.param i name')
  | access {source source' : Op} {steps steps' : List (Step Op)} {default default' : Option Op}
      (hsource : R c source source') (hsteps : List.Forall₂ (StepAlike (R c)) steps steps')
      (hdefault : Option.Rel (R c) default default') :
      Alike c (.access source steps default) (.access source' steps' default')
  | call {name name' : String} {f : Function} {args args' : List Op}
      (h : ∀ values, S.Keeps c (Eval.call host f values) (Eval.call host' f values))
      (hargs : List.Forall₂ (R c) args args') : Alike c (.call name f args) (.call name' f args')
  | builtin {op : Builtin} {args args' : List Op} (hargs : List.Forall₂ (R c) args args') :
      Alike c (.builtin op args) (.builtin op args')
  | binary {op : BinaryOp} {l r l' r' : Op} (hl : R c l l') (hr : R c r r') :
      Alike c (.binary op l r) (.binary op l' r')
  | unary {op : UnaryOp} {o o' : Op} (h : R c o o') : Alike c (.unary op o) (.unary op o')
  | and {items items' : List Op} (h : List.Forall₂ (R c) items items') :
      Alike c (.and items) (.and items')
  | or {items items' : List Op} (h : List.Forall₂ (R c) items items') :
      Alike c (.or items) (.or items')
  | collection {kind : CollectionKind} {items items' : List Op}
      (h : List.Forall₂ (R c) items items') :
      Alike c (.collection kind items) (.collection kind items')
  | dict {pairs pairs' : List (Op × Op)}
      (h : List.Forall₂ (fun p q => R c p.1 q.1 ∧ R c p.2 q.2) pairs pairs') :
      Alike c (.dict pairs) (.dict pairs')
  | loop {p q : LoopOp Op} (h : S.LoopAlike R c p q) : Alike c (.loop p) (.loop q)
  | sort {p q : SortOp Op} (h : S.SortAlike R c p q) : Alike c (.sort p) (.sort q)
  | guarded {p q : GuardOp Op} (h : S.GuardAlike R c p q) : Alike c (.guarded p) (.guarded q)
  | caught {b b' : Binding} (h : S.Keeps c (slot? b.slot) (slot? b'.slot)) :
      Alike c (.caught b) (.caught b')
  | cond {a y n a' y' n' : Op} (ha : R c a a') (hy : R c y y') (hn : R c n n') :
      Alike c (.cond a y n) (.cond a' y' n')
  | pipe {p q p' q' : Op} {d : κ} (hp : R c p p') (there : (S.link c).Within (S.link d))
      (back : (S.link d).Within (S.link c)) (common : S.Common d) (hq : R d q q') :
      Alike c (.pipe p q) (.pipe p' q')
  | memo {b b' : Binding} {o o' : Op} (read : S.Keeps c (slot? b.slot) (slot? b'.slot))
      (write : ∀ v, S.Keeps c (setSlot b.slot v) (setSlot b'.slot v)) (h : R c o o') :
      Alike c (.memo b o) (.memo b' o')
  | setLabel {b b' : Binding} {o o' : Op}
      (write : ∀ v, S.Keeps c (setSlot b.slot v) (setSlot b'.slot v)) (h : R c o o') :
      Alike c (.setLabel b o) (.setLabel b' o')
  | getLabel {b b' : Binding} (h : S.Keeps c (readSlot b) (readSlot b')) :
      Alike c (.getLabel b) (.getLabel b')
  | register {b b' : Binding} (h : S.Keeps c (readSlot b) (readSlot b')) :
      Alike c (.register b) (.register b')
  | aggregate {p q : AggregateOp Op} (h : S.AggregateAlike host host' R c p q) :
      Alike c (.aggregate p) (.aggregate q)
  | join {p q : JoinOp Op} (h : S.JoinAlike R c p q) : Alike c (.join p) (.join q)
  | groupKey {g g' i : Nat} (h : S.Keeps c (currentGroup g) (currentGroup g')) :
      Alike c (.groupKey g i) (.groupKey g' i)
  | slotValue {g g' i : Nat} {o o' : Op} (h : S.Keeps c (currentGroup g) (currentGroup g'))
      (hdefault : R c o o') : Alike c (.slotValue g i o) (.slotValue g' i o')

section Parts

variable {S host host' R} {R' : κ → Op → Op → Prop} {c : κ}

theorem StepAlike.imp {P Q : γ → δ → Prop} {step : Step γ} {step' : Step δ}
    (h : StepAlike P step step') (himp : ∀ p ∈ step.parts, ∀ q, P p q → Q p q) :
    StepAlike Q step step' := by
  cases h with
  | key h => exact .key (himp _ List.mem_cons_self _ h)
  | attr name => exact .attr name

theorem HandlerAlike.imp {P Q : γ → δ → Prop} {h : HandlerOp γ} {k : HandlerOp δ}
    (hk : HandlerAlike P h k) (himp : ∀ p ∈ h.parts, ∀ q, P p q → Q p q) : HandlerAlike Q h k where
  kinds := hk.kinds
  value := himp _ (List.mem_append_right _ List.mem_cons_self) _ hk.value
  reraiseIf := rel_imp_mem hk.reraiseIf fun p hp => himp p (List.mem_append_left _ hp)

theorem SlotAlike.imp {P Q : γ → δ → Prop} {s : SlotOp γ} {t : SlotOp δ} (h : SlotAlike P s t)
    (himp : ∀ p ∈ s.parts, ∀ q, P p q → Q p q) : SlotAlike Q s t where
  kind := h.kind
  seedEmpty := h.seedEmpty
  filter := rel_imp_mem h.filter fun p hp =>
    himp p (List.mem_append_left _ (List.mem_append_left _ hp))
  args := forall₂_imp_mem h.args fun p hp =>
    himp p (List.mem_append_left _ (List.mem_append_right _ hp))
  initial := rel_imp_mem h.initial fun p hp => himp p (List.mem_append_right _ hp)

theorem SideAlike.imp {P Q : γ → δ → Prop} {s : JoinSideOp γ} {t : JoinSideOp δ}
    (h : SideAlike P s t) (himp : ∀ p ∈ s.parts, ∀ q, P p q → Q p q) : SideAlike Q s t where
  keys := forall₂_imp_mem h.keys fun p hp => himp p (List.mem_append_left _ hp)
  filter := rel_imp_mem h.filter fun p hp => himp p (List.mem_append_right _ hp)

/-- The parts of the side that is the primary one are parts of the join. -/
theorem parts_primarySide {op : JoinOp γ} {p : γ} (h : p ∈ op.primarySide.1.parts) :
    p ∈ (OpNode.join op).parts := by
  simp only [OpNode.parts, List.mem_cons, List.mem_append]
  unfold JoinOp.primarySide at h
  split at h
  · exact .inr (.inr (.inl (.inr h)))
  · exact .inr (.inr (.inl (.inl (.inr h))))

theorem parts_secondarySide {op : JoinOp γ} {p : γ} (h : p ∈ op.secondarySide.1.parts) :
    p ∈ (OpNode.join op).parts := by
  simp only [OpNode.parts, List.mem_cons, List.mem_append]
  unfold JoinOp.secondarySide at h
  split at h
  · exact .inr (.inr (.inl (.inl (.inr h))))
  · exact .inr (.inr (.inl (.inr h)))

/-- What is related of the parts may be replaced by what follows from it. -/
theorem Alike.imp {node node' : OpNode Op} (h : S.Alike host host' R c node node')
    (himp : ∀ d, ∀ o ∈ node.parts, ∀ o', R d o o' → R' d o o') :
    S.Alike host host' R' c node node' := by
  -- Each rule keeps its own shape: only the relation between the parts is weakened.
  cases h with
  | input h => exact .input h
  | const name name' value => exact .const name name' value
  | param h => exact .param h
  | access hsource hsteps hdefault =>
    refine .access (himp c _ List.mem_cons_self _ hsource)
      (forall₂_imp_mem hsteps fun step hstep step' h => h.imp fun p hp => himp c p ?_)
      (rel_imp_mem hdefault fun p hp => himp c p ?_)
    · exact List.mem_cons_of_mem _
        (List.mem_append_left _ (List.mem_flatMap.mpr ⟨step, hstep, hp⟩))
    · exact List.mem_cons_of_mem _ (List.mem_append_right _ hp)
  | call h hargs => exact .call h (forall₂_imp_mem hargs (himp c))
  | builtin hargs => exact .builtin (forall₂_imp_mem hargs (himp c))
  | binary hl hr =>
    exact .binary (himp c _ (by simp [OpNode.parts]) _ hl) (himp c _ (by simp [OpNode.parts]) _ hr)
  | unary h => exact .unary (himp c _ List.mem_cons_self _ h)
  | and h => exact .and (forall₂_imp_mem h (himp c))
  | or h => exact .or (forall₂_imp_mem h (himp c))
  | collection h => exact .collection (forall₂_imp_mem h (himp c))
  | dict h =>
    refine .dict (forall₂_imp_mem h fun p hp q h => ⟨himp c _ ?_ _ h.1, himp c _ ?_ _ h.2⟩)
    · exact List.mem_flatMap.mpr ⟨p, hp, List.mem_cons_self⟩
    · exact List.mem_flatMap.mpr ⟨p, hp, List.mem_cons_of_mem _ List.mem_cons_self⟩
  | @loop p q h =>
    obtain ⟨kind, source, item⟩ := h
    have mem : ∀ o, o ∈ p.filter.toList ++ p.key.toList ++ [p.element] →
        o ∈ (OpNode.loop p).parts := fun o ho => List.mem_cons_of_mem _ ho
    refine .loop ⟨kind, himp c _ List.mem_cons_self _ source, fun x => ?_⟩
    obtain ⟨d, enter, inputs, filter, key, element⟩ := item x
    refine ⟨d, enter, inputs, rel_imp_mem filter fun o ho => himp d o (mem o ?_),
      rel_imp_mem key fun o ho => himp d o (mem o ?_), himp d _ (mem _ ?_) _ element⟩
    · exact List.mem_append_left _ (List.mem_append_left _ ho)
    · exact List.mem_append_left _ (List.mem_append_right _ ho)
    · exact List.mem_append_right _ List.mem_cons_self
  | @sort p q h =>
    obtain ⟨reverse, orders, source, item⟩ := h
    refine .sort ⟨reverse, orders, himp c _ List.mem_cons_self _ source, fun x => ?_⟩
    obtain ⟨d, enter, inputs, keys⟩ := item x
    exact ⟨d, enter, inputs, forall₂_imp_mem keys fun k hk l =>
      himp d _ (List.mem_cons_of_mem _ (List.mem_map_of_mem hk)) _⟩
  | @guarded p q h =>
    obtain ⟨body, handled⟩ := h
    refine .guarded ⟨himp c _ List.mem_cons_self _ body, fun err => ?_⟩
    obtain ⟨d, enter, inputs, handlers⟩ := handled err
    exact ⟨d, enter, inputs, forall₂_imp_mem handlers fun k hk l h => h.imp fun o ho =>
      himp d o (List.mem_cons_of_mem _ (List.mem_flatMap.mpr ⟨k, hk, ho⟩))⟩
  | caught h => exact .caught h
  | cond ha hy hn =>
    exact .cond (himp c _ (by simp [OpNode.parts]) _ ha)
      (himp c _ (by simp [OpNode.parts]) _ hy) (himp c _ (by simp [OpNode.parts]) _ hn)
  | pipe hp there back common hq =>
    exact .pipe (himp c _ (by simp [OpNode.parts]) _ hp) there back common
      (himp _ _ (by simp [OpNode.parts]) _ hq)
  | memo read write h => exact .memo read write (himp c _ List.mem_cons_self _ h)
  | setLabel write h => exact .setLabel write (himp c _ List.mem_cons_self _ h)
  | getLabel h => exact .getLabel h
  | register h => exact .register h
  | @aggregate p q h =>
    obtain ⟨source, length, kinds, row, emission⟩ := h
    refine .aggregate ⟨himp c _ List.mem_cons_self _ source, length, kinds, fun x y hxy => ?_,
      fun group => ?_⟩
    · obtain ⟨d, enter, inputs, calls, keys, slots⟩ := row x y hxy
      refine ⟨d, enter, inputs, calls, forall₂_imp_mem keys fun o ho => himp d o ?_,
        forall₂_imp_mem slots fun s hs t h => h.imp fun o ho => himp d o ?_⟩
      · exact List.mem_cons_of_mem _ (List.mem_append_left _ (List.mem_append_left _ ho))
      · exact List.mem_cons_of_mem _ (List.mem_append_left _
          (List.mem_append_right _ (List.mem_flatMap.mpr ⟨s, hs, ho⟩)))
    · obtain ⟨d, e, emits, enters, inputs, output⟩ := emission group
      refine ⟨d, e, emits, enters, inputs, himp e _ ?_ _ output⟩
      exact List.mem_cons_of_mem _ (List.mem_append_right _ List.mem_cons_self)
  | @join p q h =>
    obtain ⟨kind, left, right, preFilter, secondary, primary⟩ := h
    refine .join ⟨kind, himp c _ (by simp [OpNode.parts]) _ left,
      himp c _ (by simp [OpNode.parts]) _ right, rel_imp_mem preFilter fun o ho => himp c o ?_,
      fun row => ?_, fun row => ?_⟩
    · simp only [OpNode.parts, List.mem_cons, List.mem_append]
      exact .inr (.inr (.inl (.inl (.inl ho))))
    · obtain ⟨d, enter, inputs, side⟩ := secondary row
      exact ⟨d, enter, inputs, side.imp fun o ho => himp d o (parts_secondarySide ho)⟩
    · obtain ⟨d, enter, inputs, side, pair⟩ := primary row
      refine ⟨d, enter, inputs, side.imp fun o ho => himp d o (parts_primarySide ho),
        fun other => ?_⟩
      obtain ⟨e, enter', inputs', residual⟩ := pair other
      refine ⟨e, enter', inputs', rel_imp_mem residual fun o ho => himp e o ?_⟩
      simp only [OpNode.parts, List.mem_cons, List.mem_append]
      exact .inr (.inr (.inr ho))
  | groupKey h => exact .groupKey h
  | slotValue h hdefault => exact .slotValue h (himp c _ List.mem_cons_self _ hdefault)

end Parts

section Nodes

variable {S host host' R}

/-- The operations of two places have the same results when they are evaluated. -/
abbrev Runs (S : Setting κ σ τ) (host : Host σ) (host' : Host τ) (c : κ) (o o' : Op) : Prop :=
  S.Same c (o.eval host) (o'.eval host')

variable {c d : κ} {x y : Value} {fail : Link σ τ}

/-! Parts that are evaluated at a place `d`; after a failure the worlds are linked by `fail`. -/

theorem runs_one {o o' : Op} (h : S.Runs host host' d o o') (hxy : S.inputs d x y)
    (leave : (S.link d).Within fail) :
    Agree (S.link d) (S.link d) fail (o.eval host x) (o'.eval host' y) :=
  (h x y hxy).weaken (.refl _) (.refl _) leave

theorem runs_all {ops ops' : List Op} (h : List.Forall₂ (S.Runs host host' d) ops ops')
    (hxy : S.inputs d x y) (leave : (S.link d).Within fail) :
    List.Forall₂ (fun f g => Agree (S.link d) (S.link d) fail (f x) (g y))
      (foldAll (OpNode.evaluate host) ops) (foldAll (OpNode.evaluate host') ops') := by
  rw [foldAll_eq, foldAll_eq]
  exact List.forall₂_map_left_iff.mpr
    (List.forall₂_map_right_iff.mpr (h.imp fun o o' ho => runs_one ho hxy leave))

theorem runs_option {o o' : Option Op} (h : Option.Rel (S.Runs host host' d) o o')
    (hxy : S.inputs d x y) (leave : (S.link d).Within fail) :
    Option.Rel (fun f g => Agree (S.link d) (S.link d) fail (f x) (g y))
      (foldOption (OpNode.evaluate host) o) (foldOption (OpNode.evaluate host') o') := by
  cases h with
  | none => exact .none
  | some h => exact .some (runs_one h hxy leave)

theorem exits_of_forall₂ {fs : List (Evaluator σ)} {gs : List (Evaluator τ)}
    (h : List.Forall₂ (fun f g => S.Keeps c (f x) (g y)) fs gs) :
    Exits (S.link c) (S.link c) x y (S.link c) fs gs := by
  induction h with
  | nil => exact .nil (.refl _)
  | cons head _ ih => exact .cons head (.refl _) ih

theorem follow_of_forall₂ {steps steps' : List (Step Op)}
    (h : List.Forall₂ (StepAlike (S.Runs host host' c)) steps steps') (hxy : S.inputs c x y) :
    FollowAgree (S.link c) (S.link c) (S.link c) x y (S.link c)
      (foldSteps (OpNode.evaluate host) steps) (foldSteps (OpNode.evaluate host') steps') := by
  induction h with
  | nil => exact .nil (.refl _)
  | cons head _ ih =>
    cases head with
    | key h => exact .key (h x y hxy) (.refl _) (.refl _) ih
    | attr name => exact .attr (.refl _) (.refl _) ih

theorem LoopAlike.step {p q : LoopOp Op} (h : S.LoopAlike (S.Runs host host') c p q)
    (item : Value) :
    S.Keeps c ((foldLoop (OpNode.evaluate host) p).step item)
      ((foldLoop (OpNode.evaluate host') q).step item) := by
  obtain ⟨d, enter, inputs, filter, key, element⟩ := h.item item
  have leave := enter.leave
  rw [foldLoop_eq, foldLoop_eq]
  refine LoopOp.step_agree ?_ (runs_option filter inputs leave) (.refl _)
    (runs_option key inputs leave) (.refl _)
    ((runs_one element inputs leave).weaken (.refl _) leave (.refl _)) leave
  simpa only [resets_foldScope] using enter.enter

theorem LoopAlike.items {p q : LoopOp Op} (h : S.LoopAlike (S.Runs host host') c p q)
    (hxy : S.inputs c x y) :
    S.Keeps c ((foldLoop (OpNode.evaluate host) p).items x)
      ((foldLoop (OpNode.evaluate host') q).items y) := by
  rw [foldLoop_eq, foldLoop_eq]
  exact LoopOp.items_agree (h.source x y hxy) (.refl _)

theorem LoopAlike.collect {p q : LoopOp Op} (h : S.LoopAlike (S.Runs host host') c p q)
    (hxy : S.inputs c x y) :
    S.Keeps c ((foldLoop (OpNode.evaluate host) p).collect x)
      ((foldLoop (OpNode.evaluate host') q).collect y) := by
  have step := h.step
  rw [foldLoop_eq, foldLoop_eq] at step ⊢
  exact LoopOp.collect_agree h.kind (h.source x y hxy) (.refl _) step

theorem SortAlike.collect {p q : SortOp Op} (h : S.SortAlike (S.Runs host host') c p q)
    (hxy : S.inputs c x y) :
    S.Keeps c ((foldSort (OpNode.evaluate host) p).collect x)
      ((foldSort (OpNode.evaluate host') q).collect y) := by
  obtain ⟨reverse, orders, source, keyed⟩ := h
  rw [foldSort_eq, foldSort_eq]
  refine SortOp.collect_agree reverse ?_ (source x y hxy) (.refl _) fun item => ?_
  · simpa only [List.map_map, Function.comp_def] using orders
  obtain ⟨d, enter, inputs, keys⟩ := keyed item
  have entered : Agree (S.link c) (S.link d) (S.link c)
      (reset (foldScope (OpNode.evaluate host) p.scope).resets)
      (reset (foldScope (OpNode.evaluate host') q.scope).resets) := by
    simpa only [resets_foldScope] using enter.enter
  refine SortOp.key_agree entered (AgreeAll.leave (.of_forall₂ ?_) enter.leave)
  exact List.forall₂_map_left_iff.mpr (List.forall₂_map_right_iff.mpr
    (keys.imp fun k l h => runs_one h inputs enter.leave))

theorem GuardAlike.run {p q : GuardOp Op} (h : S.GuardAlike (S.Runs host host') c p q)
    (hxy : S.inputs c x y) :
    S.Keeps c ((foldGuard (OpNode.evaluate host) p).run x)
      ((foldGuard (OpNode.evaluate host') q).run y) := by
  obtain ⟨body, handled⟩ := h
  choose d enter inputs handlers using handled
  rw [foldGuard_eq, foldGuard_eq]
  refine GuardOp.run_agree (body x y hxy) (.refl _) (fun err => (enter err).enter) fun err => ?_
  refine List.forall₂_map_left_iff.mpr (List.forall₂_map_right_iff.mpr
    ((handlers err).imp fun h k hk => ?_))
  have leave := (enter err).leave
  replace inputs := inputs err
  rw [foldHandler_eq, foldHandler_eq]
  exact ⟨hk.kinds, HandlerOp.handle_agree leave (.refl _)
    (runs_option hk.reraiseIf (inputs x y hxy) leave)
    ((runs_one hk.value (inputs x y hxy) leave).weaken (.refl _) leave (.refl _))⟩

theorem SlotAlike.agree {s t : SlotOp Op} (h : SlotAlike (S.Runs host host' d) s t)
    (hxy : S.inputs d x y) (leave : (S.link d).Within fail) :
    SlotAgree (S.link d) fail x y (foldSlot (OpNode.evaluate host) s)
      (foldSlot (OpNode.evaluate host') t) := by
  rw [foldSlot_eq, foldSlot_eq]
  exact ⟨h.kind, h.seedEmpty, runs_option h.filter hxy leave, runs_all h.args hxy leave,
    runs_option h.initial hxy leave⟩

theorem AggregateAlike.collect {p q : AggregateOp Op}
    (h : S.AggregateAlike host host' (S.Runs host host') c p q) (hxy : S.inputs c x y) :
    S.Keeps c ((foldAggregate (OpNode.evaluate host) p).collect host x)
      ((foldAggregate (OpNode.evaluate host') q).collect host' y) := by
  obtain ⟨source, length, kinds, row, emission⟩ := h
  have entered {d : κ}
      (enter : S.Enters c d (reset p.rowScope.resets) (reset q.rowScope.resets)) :
      Agree (S.link c) (S.link d) (S.link c)
        (reset (foldScope (OpNode.evaluate host) p.rowScope).resets)
        (reset (foldScope (OpNode.evaluate host') q.rowScope).resets) := by
    simpa only [resets_foldScope] using enter.enter
  rw [foldAggregate_eq, foldAggregate_eq]
  -- The four parts of a run: the source, the rows, the record of no rows, the output.
  refine AggregateOp.collect_agree ?_ (source x y hxy) (.refl _) (fun groups item => ?_)
    (fun _ => ?_) fun record => ?_
  · rw [foldAll_eq, foldAll_eq, List.isEmpty_map, List.isEmpty_map, Bool.eq_iff_iff,
      List.isEmpty_iff_length_eq_zero, List.isEmpty_iff_length_eq_zero, length]
  · obtain ⟨d, enter, inputs, calls, keys, slots⟩ := row item item (.inl rfl)
    refine @AggregateOp.feed_agree _ _ _ _ _ _ _ _ item (S.link d) (S.link d) (entered enter) ?_ ?_
      (fun s _ k _ args => ?_) enter.leave enter.leave groups
    · exact (AgreeAll.of_forall₂ (runs_all keys inputs enter.leave)).mapM
    · exact List.forall₂_map_left_iff.mpr (List.forall₂_map_right_iff.mpr
        (slots.imp fun s t h => h.agree inputs enter.leave))
    · exact (calls k args).weaken (.refl _) (.refl _) enter.leave
  · obtain ⟨d, enter, inputs, -, -, slots⟩ := row x y (.inr hxy)
    refine AggregateOp.emptyRecord_agree (entered enter) ?_ enter.leave
    refine List.forall₂_map_left_iff.mpr (List.forall₂_map_right_iff.mpr
      (slots.imp fun s t h => ?_))
    have fed := h.agree inputs enter.leave
    exact SlotOp.empty_agree fed.seedEmpty fun _ => fed.initial
  · refine AggregateOp.emit_agree ?_ (.refl _) fun values => ?_
    · refine List.forall₂_map_left_iff.mpr (List.forall₂_map_right_iff.mpr
        (kinds.imp fun s t h => ?_))
      rw [foldSlot_eq, foldSlot_eq]
      exact h
    · obtain ⟨d, e, emits, enters, inputs, output⟩ := emission ⟨record.key, values⟩
      have entered : Agree (S.link d) (S.link e) (S.link d)
          (reset (foldScope (OpNode.evaluate host) p.outputScope).resets)
          (reset (foldScope (OpNode.evaluate host') q.outputScope).resets) := by
        simpa only [resets_foldScope] using enters.enter
      have body := entered.bind fun _ =>
        (runs_one output (inputs x y hxy) enters.leave).weaken (.refl _) enters.leave (.refl _)
      exact Eval.Agree.withGroup emits.enter body emits.leave emits.leave

/-- The key and the filter of a side, for a row that has been taken. -/
theorem SideAlike.acceptedKey {s t : JoinSideOp Op} (h : SideAlike (S.Runs host host' d) s t)
    (hxy : S.inputs d x y) (leave : (S.link d).Within fail) :
    Agree (S.link d) (S.link d) fail ((foldSide (OpNode.evaluate host) s).acceptedKey x)
      ((foldSide (OpNode.evaluate host') t).acceptedKey y) := by
  rw [foldSide_eq, foldSide_eq]
  exact JoinSideOp.acceptedKey_agree (runs_option h.filter hxy leave) (.refl _)
    (JoinSideOp.key_agree (.of_forall₂ (runs_all h.keys hxy leave))) (.refl _)

theorem Enters.takeRow {side side' : JoinSideOp Op × Binding} {row : Value}
    (h : S.Enters c d (takeRow side.2 side.1.scope row) (takeRow side'.2 side'.1.scope row)) :
    Agree (S.link c) (S.link d) (S.link c)
      ((foldSide (OpNode.evaluate host) side.1).place side.2 row)
      ((foldSide (OpNode.evaluate host') side'.1).place side'.2 row) := by
  rw [foldSide_eq, foldSide_eq]
  simp only [JoinSideOp.place, resets_foldScope]
  exact h.enter

/-- What a join does with its rows. -/
theorem JoinAlike.rows {p q : JoinOp Op} (h : S.JoinAlike (S.Runs host host') c p q)
    (hxy : S.inputs c x y) :
    ∃ (d e : Value → κ) (f : Value → Value → κ),
      JoinAgree (S.link c) (S.link c) (fun row => S.link (d row)) (fun row => S.link (e row))
        (fun row => S.link (e row)) (fun row other => S.link (f row other)) x y
        (foldJoin (OpNode.evaluate host) p) (foldJoin (OpNode.evaluate host') q) := by
  obtain ⟨kind, left, right, preFilter, secondary, primary⟩ := h
  choose d enter inputs side using secondary
  choose e enter' inputs' side' pairs using primary
  choose f enter'' inputs'' residual using pairs
  refine ⟨d, e, f, ?_, fun row => ?_, fun row => ?_, fun row => ?_, fun row => ?_,
    fun _ => .refl _, fun row other => ?_, fun row other => ?_, fun row => (enter' row).leave⟩
  · rw [foldJoin_eq, foldJoin_eq]
    exact kind
  · rw [foldJoin_secondarySide, foldJoin_secondarySide]
    exact (enter row).takeRow
  · rw [foldJoin_secondarySide, foldJoin_secondarySide]
    have leave := (enter row).leave
    exact ((side row).acceptedKey (inputs row x y hxy) leave).weaken (.refl _) leave (.refl _)
  · rw [foldJoin_primarySide, foldJoin_primarySide]
    exact (enter' row).takeRow
  · rw [foldJoin_primarySide, foldJoin_primarySide]
    exact (side' row).acceptedKey (inputs' row x y hxy) (enter' row).leave
  · rw [foldJoin_secondarySide, foldJoin_secondarySide, foldJoin_eq, foldJoin_eq]
    simp only [resets_foldScope]
    exact (enter'' row other).enter.weaken (.refl _) (.refl _) (enter' row).leave
  · rw [foldJoin_eq, foldJoin_eq]
    have back := (enter'' row other).leave
    have leave := back.trans (enter' row).leave
    exact (Agree.holds (runs_option (residual row other) (inputs'' row other x y hxy) leave)
      (.refl _)).weaken (.refl _) back (.refl _)

theorem JoinAlike.start {p q : JoinOp Op} (h : S.JoinAlike (S.Runs host host') c p q)
    (hxy : S.inputs c x y) :
    S.Keeps c ((foldJoin (OpNode.evaluate host) p).start x)
      ((foldJoin (OpNode.evaluate host') q).start y) := by
  obtain ⟨d, e, f, rows⟩ := h.rows hxy
  rw [foldJoin_eq, foldJoin_eq] at rows ⊢
  exact rows.start (h.left x y hxy) (h.right x y hxy)
    (Agree.holds (runs_option h.preFilter hxy (.refl _)) (.refl _)) (.refl _) (.refl _)

/-- Nodes that are alike run alike if their parts do. -/
theorem Alike.runs {node node' : OpNode Op}
    (h : S.Alike host host' (S.Runs host host') c node node') :
    S.Runs host host' c (.mk node) (.mk node') := by
  intro x y hxy
  -- Related operations take related parts through the same steps.
  cases h with
  | input h =>
    obtain rfl := h x y hxy
    exact .pure x (.refl _)
  | const name name' value => exact .pure value (.refl _)
  | param h => exact h
  | access hsource hsteps hdefault =>
    refine (hsource x y hxy).bind fun v => ?_
    exact (follow_of_forall₂ hsteps hxy).agree (runs_option hdefault hxy (.refl _)) v
  | call h hargs =>
    exact (AgreeAll.of_forall₂ (runs_all hargs hxy (.refl _))).mapM.bind fun values => h values
  | builtin hargs =>
    refine (AgreeAll.of_forall₂ (runs_all hargs hxy (.refl _))).mapM.bind fun values => ?_
    exact .lift _ (.refl _) (.refl _)
  | binary hl hr =>
    refine (hl x y hxy).bind fun l => (hr x y hxy).bind fun r => ?_
    exact .lift _ (.refl _) (.refl _)
  | unary h => exact (h x y hxy).bind fun v => .lift _ (.refl _) (.refl _)
  | and h => exact (exits_of_forall₂ (runs_all h hxy (.refl _))).agree _ _
  | or h => exact (exits_of_forall₂ (runs_all h hxy (.refl _))).agree _ _
  | collection h =>
    refine (AgreeAll.of_forall₂ (runs_all h hxy (.refl _))).mapM.bind fun values => ?_
    exact .pure _ (.refl _)
  | @dict pairs pairs' h =>
    have entries : List.Forall₂ (fun p q => Agree (S.link c) (S.link c) (S.link c)
        (do let k ← p.1 x; let v ← p.2 x; return (k, v))
        (do let k ← q.1 y; let v ← q.2 y; return (k, v)))
        (foldPairs (OpNode.evaluate host) pairs) (foldPairs (OpNode.evaluate host') pairs') := by
      rw [foldPairs_eq, foldPairs_eq]
      refine List.forall₂_map_left_iff.mpr (List.forall₂_map_right_iff.mpr (h.imp fun p q h => ?_))
      refine (h.1 x y hxy).bind fun k => (h.2 x y hxy).bind fun v => ?_
      exact .pure (k, v) (.refl _)
    exact (AgreeAll.of_forall₂ entries).mapM.bind fun values => .pure _ (.refl _)
  | loop h => exact h.collect hxy
  | sort h => exact h.collect hxy
  | guarded h => exact h.run hxy
  | caught h => exact h.bind fun v => .pure _ (.refl _)
  | cond ha hy hn =>
    refine (ha x y hxy).bind fun v => ?_
    exact .ite _ (hy x y hxy) (hn x y hxy)
  | pipe hp there back common hq =>
    refine (hp x y hxy).bind fun v => ?_
    exact (hq v v (common v)).weaken there back back
  | memo read write h =>
    refine read.bind fun v => ?_
    cases v with
    | some v => exact .pure v (.refl _)
    | none => exact (h x y hxy).bind fun v => (write v).bind fun _ => .pure v (.refl _)
  | setLabel write h =>
    exact (h x y hxy).bind fun v => (write v).bind fun _ => .pure v (.refl _)
  | getLabel h => exact h
  | register h => exact h
  | aggregate h => exact h.collect hxy
  | join h =>
    obtain ⟨d, e, f, rows⟩ := h.rows hxy
    exact rows.collect (h.start hxy)
  | groupKey h => exact h.bind fun view => .pure _ (.refl _)
  | @slotValue g g' i o o' h hdefault =>
    refine h.bind fun view => ?_
    cases view.values[i]?.join with
    | some v => exact .pure v (.refl _)
    | none => exact hdefault x y hxy

/-- **Programs whose nodes are alike run alike.**  If whatever `R` relates has nodes that are alike
    in parts that `R` relates again, then operations related by `R` at a place have the same
    results there. -/
theorem Alike.same (closed : ∀ c o o', R c o o' → S.Alike host host' R c o.node o'.node)
    {c : κ} {o o' : Op} (h : R c o o') : S.Same c (o.eval host) (o'.eval host') := by
  induction hn : sizeOf o using Nat.strongRecOn generalizing c o o' with
  | _ n ih =>
    obtain ⟨node⟩ := o
    obtain ⟨node'⟩ := o'
    refine Alike.runs ((closed c _ _ h).imp fun d p hp q hpq => ?_)
    exact ih _ (hn ▸ Op.sizeOf_lt_of_mem hp) hpq rfl

end Nodes
end Setting
end DataExpr
