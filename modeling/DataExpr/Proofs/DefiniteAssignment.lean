import DataExpr.Proofs.LabelChecks
import DataExpr.Proofs.LabelWatch

/-!
# Labels are set before they are read

A lowered operation whose slots have the roles that it expects follows its flow: watched, it
gives the same results, and its record stays clean if the labels that it needs have been set
(`Op.runs`).  A program of an orderly expression needs no label, so none of its runs reads a
label that it has not set before.
-/

namespace DataExpr

open Eval DataExpr.Flow Op

variable {σ : Type}

/-- The slots of the bindings of a scope with the labels that their definitions set. -/
def Scope.sets (scope : Scope Op) : List (Nat × List Nat) :=
  scope.memos.map fun m => (m.binding.slot, m.definition.flow.sets)

theorem Scope.sets_fst (scope : Scope Op) : scope.sets.map Prod.fst = scope.resets := by
  simp [sets, resets, Function.comp_def]

/-! ### Slots and their roles -/

/-- An operation whose slots have the roles that it expects. -/
structure Fits (a : Ambient) (room : Nat) (roles : LabelRoles) (op : Op) : Prop where
  placed : op.Placed a
  label : ∀ n ∈ a.labels, roles n = .kept () ∧ n < room
  memo : ∀ m ∈ a.memos, roles m.binding.slot = .memo m.definition.flow.sets
  free : ∀ n ∈ op.scratch, roles n = .free

namespace Fits

variable {a : Ambient} {room : Nat} {roles : LabelRoles} {node : OpNode Op}
  {p : Scope Op × Op}

theorem free_place (h : Fits a room roles (.mk node)) {n : Nat} (hn : n ∈ node.places) :
    roles n = .free := h.free n (Op.mem_scratch.mpr (.inl hn))

theorem known (h : Fits a room roles (.mk node)) : node.Known a := by
  cases h.placed with
  | mk _ known _ => exact known

/-- The slots of a scope are free before it is entered. -/
theorem free_scope (h : Fits a room roles (.mk node)) (hp : p ∈ node.scopedParts) :
    ∀ n ∈ p.1.sets.map Prod.fst, roles n = .free := by
  intro n hn
  rw [Scope.sets_fst] at hn
  exact h.free_place ((OpNode.resets_sublist hp).mem hn)

theorem part (h : Fits a room roles (.mk node)) (hp : p ∈ node.scopedParts) :
    Fits (a.enter p.1) room (roles.enter p.1.sets) p.2 := by
  have hfree := h.free_scope hp
  have other : ∀ n, roles n ≠ .free → roles.enter p.1.sets n = roles n :=
    fun n hn => Roles.enter_of_not_mem _ fun hmem => hn (hfree n hmem)
  obtain ⟨⟨nodup, apart⟩, -, parts⟩ := h.placed
  refine ⟨parts p hp, fun n hn => ?_, fun m hm => ?_, fun n hn => ?_⟩
  · obtain ⟨hrole, hlt⟩ := h.label n hn
    rw [other n (by rw [hrole]; nofun)]
    exact ⟨hrole, hlt⟩
  · rcases List.mem_append.mp hm with hm | hm
    · rw [other _ (by rw [h.memo m hm]; nofun)]
      exact h.memo m hm
    · refine Roles.enter_of_mem _ ?_ (List.mem_map_of_mem (f := fun m => (_, _)) hm)
      rw [Scope.sets_fst]
      exact nodup.sublist (OpNode.resets_sublist hp)
  · have hmem := OpNode.mem_parts_of_scopedParts hp
    rw [Roles.enter_of_not_mem]
    · exact h.free n (Op.mem_scratch.mpr (.inr ⟨p.2, hmem, hn⟩))
    · rw [Scope.sets_fst]
      exact fun hr => apart n ((OpNode.resets_sublist hp).mem hr) p.2 hmem hn

end Fits

/-! ### Nodes -/

/-- An operation follows its flow on every input. -/
def Op.Follows (host : Host σ) (room : Nat) (roles : LabelRoles) (op : Op) : Prop :=
  ∀ x, Runs room roles op.flow (op.eval host x) (op.watch host x)

section Node

variable {host : Host σ} {room : Nat} {roles : LabelRoles} {x : Value}

theorem Runs.all {ops : List Op} (h : ∀ o ∈ ops, o.Follows host room roles) :
    Runs room roles (Flow.all (ops.map Op.flow)) ((ops.map (Op.eval host)).mapM (· x))
      ((ops.map (Op.watch host)).mapM (· x)) :=
  Runs.mapM ops fun o ho => h o ho x

theorem Runs.operands {ops : List Op} (h : ∀ o ∈ ops, o.Follows host room roles) :
    Runs room roles (Flow.all (foldAll OpNode.flow ops))
      ((foldAll (OpNode.evaluate host) ops).mapM (· x))
      ((foldAll (OpNode.watch host) ops).mapM (· x)) := by
  rw [foldAll_eq, foldAll_eq, foldAll_eq]
  exact Runs.all h

theorem Runs.holds {o : Option Op} (h : ∀ c ∈ o, c.Follows host room roles) :
    Runs room roles (perhaps (o.map Op.flow)) (Eval.holds (o.map (Op.eval host)) x)
      (Eval.holds (o.map (Op.watch host)) x) := by
  cases o with
  | none => exact .pure true
  | some c => exact (h c rfl x).map Value.isTruthy

/-- What an evaluation that sets nothing does however often it is repeated. -/
theorem Runs.ofKeeps {α : Type} {f : Flow} {m : Eval σ α} {n : Eval (σ × Trace) α}
    (h : ∀ A, (∀ k ∈ f.needs, k ∈ A) →
      Agree (Tracks room roles A) (Tracks room roles A) (Tracks room roles A) m n) :
    Runs room roles f.contained m n :=
  fun A hA => (h A hA).weaken (.refl _) (Runs.within_nil A) (.refl _)

/-- Operands of which none has to be evaluated. -/
theorem Runs.someOperands (deciding : Bool) {ops : List Op}
    (h : ∀ o ∈ ops, o.Follows host room roles) (last : Value) :
    Runs room roles (Flow.all (foldAll OpNode.flow ops)).contained
      (shortCircuit deciding x last (foldAll (OpNode.evaluate host) ops))
      (shortCircuit deciding x last (foldAll (OpNode.watch host) ops)) := by
  induction ops generalizing last with
  | nil => exact (Runs.pure last).weaken (.nothing_contained _)
  | cons o ops ih =>
    have rest := ih fun c hc => h c (List.mem_cons_of_mem _ hc)
    have both := (h o List.mem_cons_self x).bind fun v =>
      Runs.ite (v.isTruthy == deciding) ((Runs.pure v).weaken (.nothing_contained _)) (rest v)
    exact both.weaken (.trans (.self_contained _) (.contained fun n hn => hn))

/-- Operands of which the first one is evaluated. -/
theorem Runs.shortCircuit (deciding : Bool) {ops : List Op}
    (h : ∀ o ∈ ops, o.Follows host room roles) (last : Value) :
    Runs room roles (Flow.first (foldAll OpNode.flow ops))
      (shortCircuit deciding x last (foldAll (OpNode.evaluate host) ops))
      (shortCircuit deciding x last (foldAll (OpNode.watch host) ops)) := by
  cases ops with
  | nil => exact .pure last
  | cons o ops =>
    have rest := Runs.someOperands (x := x) deciding fun c hc => h c (List.mem_cons_of_mem _ hc)
    exact (h o List.mem_cons_self x).bind fun v =>
      Runs.ite (v.isTruthy == deciding) ((Runs.pure v).weaken (.nothing_contained _)) (rest v)

/-- A path that may be left for a default. -/
theorem Runs.follow {steps : List (Step Op)} {default : Option Op}
    (hkeys : ∀ o ∈ steps.flatMap Step.parts, o.Follows host room roles)
    (hdefault : ∀ o ∈ default, o.Follows host room roles) (v : Value) :
    Runs room roles (path (default.map Op.flow) (steps.map (foldStep OpNode.flow)))
      (follow (default.map (Op.eval host)) x v (steps.map (foldStep (OpNode.evaluate host))))
      (follow (default.map (Op.watch host)) x v (steps.map (foldStep (OpNode.watch host)))) := by
  induction steps generalizing v with
  | nil => exact .pure v
  | cons step rest ih =>
    have tail := ih fun o ho => hkeys o (List.mem_flatMap.mpr
      ((List.mem_flatMap.mp ho).imp fun _ h => ⟨List.mem_cons_of_mem _ h.1, h.2⟩))
    -- Whatever a step gives, the path goes on, is left for the default or fails.
    have next (r : Except Error Value) : Runs room roles
        ((path (default.map Op.flow) (rest.map (foldStep OpNode.flow))).orDefault
          (default.map Op.flow))
        (afterStep (default.map (Op.eval host)) x v (rest.map (foldStep (OpNode.evaluate host))) r)
        (afterStep (default.map (Op.watch host)) x v
        (rest.map (foldStep (OpNode.watch host))) r) := by
      cases default with
      | none =>
        cases r with
        | ok v => exact tail v
        | error e => exact .throw e
      | some d =>
        cases r with
        | ok v => exact (tail v).weaken (.either_left _ _)
        | error e =>
          exact .ite (e.isAbsent v) ((hdefault d rfl x).weaken (.either_right _ _)) (.throw e)
    rw [List.map_cons, List.map_cons, List.map_cons, follow_cons, follow_cons]
    cases step with
    | key o =>
      have taken := (hkeys o List.mem_cons_self x).map fun k => v.getItem k
      exact taken.bind next
    | attr name =>
      have taken : Runs room roles .nothing (pure (v.getAttr name) : Eval σ (Except Error Value))
          (pure (v.getAttr name)) := .pure _
      exact (taken.bind next).weaken (.after_nothing _)

theorem Runs.handle {h : HandlerOp Op} (hparts : ∀ o ∈ h.parts, o.Follows host room roles)
    (e : Error) :
    Runs room roles (handler (foldHandler OpNode.flow h))
      ((foldHandler (OpNode.evaluate host) h).handle e x)
      ((foldHandler (OpNode.watch host) h).handle e x) := by
  obtain ⟨kinds, value, reraiseIf⟩ := h
  have hvalue := hparts value (List.mem_append_right _ List.mem_cons_self) x
  cases reraiseIf with
  | none => exact hvalue.weaken (.nothing_andThen _)
  | some c =>
    have hc := hparts c List.mem_cons_self x
    exact hc.bind fun v => .ite v.isTruthy (.throw e) hvalue

/-- Every handler, and the body, sets what the whole sets. -/
theorem Flow.refines_handlers (body : Flow) (handlers : List (HandlerOp Flow)) :
    body.Refines (handlers.foldl (fun f h => f.either (handler h)) body) ∧
      ∀ h ∈ handlers, (handler h).Refines
      (handlers.foldl (fun f h => f.either (handler h)) body) := by
  induction handlers generalizing body with
  | nil => exact ⟨.refl body, fun _ h => absurd h List.not_mem_nil⟩
  | cons h rest ih =>
    obtain ⟨first, others⟩ := ih (body.either (handler h))
    refine ⟨.trans (.either_left _ _) first, fun k hk => ?_⟩
    rcases List.mem_cons.mp hk with rfl | hk
    · exact .trans (.either_right _ _) first
    · exact others k hk

theorem Runs.guarded {g : GuardOp Op} (hcaught : roles g.caught.slot = .free)
    (hbody : g.body.Follows host room roles)
    (hhandlers : ∀ h ∈ g.handlers, ∀ o ∈ h.parts, o.Follows host room roles) :
    Runs room roles (OpNode.flow (.guarded (foldGuard OpNode.flow g)))
      ((foldGuard (OpNode.evaluate host) g).run x) ((foldGuard (OpNode.watch host) g).run x) := by
  obtain ⟨body, handlers, caught⟩ := g
  obtain ⟨first, others⟩ := refines_handlers body.flow (foldHandlers OpNode.flow handlers)
  intro A hA
  refine GuardOp.run_agree ((hbody x).weaken first A hA) (.refl _)
    (fun e => (Runs.setFree hcaught _).keeps fun _ h => absurd h List.not_mem_nil) fun _ => ?_
  simp only [foldGuard, foldHandlers_eq] at others ⊢
  refine List.forall₂_map_left_iff.mpr (List.forall₂_map_right_iff.mpr ?_)
  refine List.forall₂_same.mpr fun h hh => ⟨by cases h; rfl, fun e => ?_⟩
  refine (Runs.handle (hhandlers h hh) e).weaken ?_ A ?_
  · exact others _ (List.mem_map_of_mem hh)
  · simpa only [foldGuard, foldHandlers_eq] using hA

/-! ### Comprehensions and sorts -/

/-- One item of a comprehension. -/
theorem Runs.loopStep {l : LoopOp Op} (hfree : ∀ n ∈ l.scope.sets.map Prod.fst, roles n = .free)
    (hparts : ∀ o ∈ l.filter.toList ++ l.key.toList ++ [l.element],
      o.Follows host room (roles.enter l.scope.sets)) (item : Value) :
    Runs room roles ((perhaps (l.filter.map Op.flow)).andThen
        ((perhaps (l.key.map Op.flow)).andThen l.element.flow)).contained
      ((foldLoop (OpNode.evaluate host) l).step item)
      ((foldLoop (OpNode.watch host) l).step item) := by
  obtain ⟨kind, var, source, scope, filter, key, element⟩ := l
  simp only [List.mem_append, List.mem_singleton, Option.mem_toList] at hparts
  have hfilter := Runs.holds (x := item) fun o ho => hparts o (.inl (.inl ho))
  have hkey := Runs.mapM_option (c := fun k : Evaluator σ => k item)
    (d := fun k : Evaluator (σ × Trace) => k item) key fun o ho => hparts o (.inl (.inr ho)) item
  have accepted := hkey.bind fun k => (hparts element (.inr rfl) item).map fun v => some (k, v)
  have body := hfilter.bind fun ok => Runs.ite (ok = true) (accepted.weaken (.self_contained _))
    ((Runs.pure none).weaken (.nothing_contained _))
  have whole := Runs.inScope hfree body
  simp only [LoopOp.step, foldLoop, resets_foldScope, foldOption_eq, ← Scope.sets_fst]
  exact whole.weaken (.contained fun n hn => hn)

theorem Runs.loopItems {l : LoopOp Op} (hsource : l.source.Follows host room roles) :
    Runs room roles l.source.flow ((foldLoop (OpNode.evaluate host) l).items x)
      ((foldLoop (OpNode.watch host) l).items x) := by
  obtain ⟨kind, var, source, scope, filter, key, element⟩ := l
  exact (hsource x).bindLift Value.elements

theorem Runs.loop {l : LoopOp Op} (hfree : ∀ n ∈ l.scope.sets.map Prod.fst, roles n = .free)
    (hsource : l.source.Follows host room roles)
    (hparts : ∀ o ∈ l.filter.toList ++ l.key.toList ++ [l.element],
      o.Follows host room (roles.enter l.scope.sets)) :
    Runs room roles (OpNode.flow (.loop (foldLoop OpNode.flow l)))
      ((foldLoop (OpNode.evaluate host) l).collect x)
      ((foldLoop (OpNode.watch host) l).collect x) := by
  have steps (items : List Value) : Runs room roles _ _ _ := Runs.ofKeeps fun A hA =>
    LoopOp.steps_agree (fun item => (Runs.loopStep hfree hparts item).keeps hA) items
  have whole := (Runs.loopItems (x := x) hsource).bind fun items =>
    (steps items).map (LoopOp.build l.kind)
  obtain ⟨kind, var, source, scope, filter, key, element⟩ := l
  rw [OpNode.flow, foldLoop, foldOption_eq, foldOption_eq]
  exact whole

theorem Runs.sort {o : SortOp Op} (hfree : ∀ n ∈ o.scope.sets.map Prod.fst, roles n = .free)
    (hsource : o.source.Follows host room roles)
    (hkeys : ∀ k ∈ o.keys, k.op.Follows host room (roles.enter o.scope.sets)) :
    Runs room roles (OpNode.flow (.sort (foldSort OpNode.flow o)))
      ((foldSort (OpNode.evaluate host) o).collect x)
      ((foldSort (OpNode.watch host) o).collect x) := by
  obtain ⟨var, source, scope, keys, reverse⟩ := o
  have key (item : Value) := Runs.inScope hfree (Runs.mapM (F := fun k => k.op.flow)
    (c := fun k : SortKeyOp (Evaluator σ) => k.op item)
    (d := fun k : SortKeyOp (Evaluator (σ × Trace)) => k.op item)
    (p := fun k => ⟨k.op.eval host, k.order⟩) (q := fun k => ⟨k.op.watch host, k.order⟩) keys
    fun k hk => hkeys k hk item)
  intro A hA
  have hneeds : ∀ n ∈ (Flow.all (keys.map fun k => k.op.flow)).needs,
    n ∈ A ++ source.flow.sets := by
    intro n hn
    refine mem_append_of_needs hA ?_
    rw [foldSort, foldSortKeys_eq, List.map_map]
    exact hn
  have whole : Agree _ (Tracks room roles (A ++ source.flow.sets)) (Tracks room roles A) _ _ :=
    SortOp.collect_agree (p := foldSort (OpNode.evaluate host)
      ⟨var, source, scope, keys, reverse⟩)
    (q := foldSort (OpNode.watch host) ⟨var, source, scope, keys, reverse⟩) rfl ?_
    (hsource x A fun k hk => hA k (Flow.mem_needs_andThen.mpr (.inl hk)))
    (Runs.within_append A _) fun item => ?_
  · refine whole.weaken (.refl _) (Tracks.mono fun n hn => ?_) (.refl _)
    refine List.mem_append.mpr ((List.mem_append.mp hn).imp id fun hn => ?_)
    exact (Flow.mem_sets_andThen.mp hn).resolve_right List.not_mem_nil
  · simp [foldSort, foldSortKeys_eq, Function.comp_def]
  · refine Agree.weaken ?_ (.refl _) (.refl _) (Runs.within_append A source.flow.sets)
    have kept := (key item).keeps hneeds
    simp only [SortOp.key, foldSort, foldSortKeys_eq, resets_foldScope, ← Scope.sets_fst]
    exact kept

/-! ### Aggregates -/

/-- An operation in a scope, seen from outside after a failure. -/
theorem Runs.within {memos : List (Nat × List Nat)} {f : Flow} {α : Type} {m : Eval σ α}
    {n : Eval (σ × Trace) α} {A B : List Nat} (h : Runs room (roles.enter memos) f m n)
    (hfree : ∀ k ∈ memos.map Prod.fst, roles k = .free) (hB : ∀ k ∈ f.needs, k ∈ B)
    (hA : ∀ k ∈ A, k ∈ B) :
    Agree (Tracks room (roles.enter memos) B) (Tracks room (roles.enter memos) (B ++ f.sets))
      (Tracks room roles A) m n :=
  (h B hB).weaken (.refl _) (.refl _) ((Tracks.leave hfree).trans (Tracks.mono hA))

theorem Tracks.entering {scope : Scope Op} {A B : List Nat}
    (hfree : ∀ n ∈ scope.sets.map Prod.fst, roles n = .free) :
    Agree (Tracks (σ := σ) room roles B) (Tracks room (roles.enter scope.sets) B)
      (Tracks room roles A) (reset (foldScope (OpNode.evaluate host) scope).resets)
      (reset (foldScope (OpNode.watch host) scope).resets) := by
  rw [resets_foldScope, resets_foldScope, ← Scope.sets_fst]
  exact .updateFrame fun _ _ t => t.enter hfree

theorem Runs.slot {s : SlotOp Op} {memos : List (Nat × List Nat)} {A B : List Nat}
    (hfree : ∀ k ∈ memos.map Prod.fst, roles k = .free) (hA : ∀ k ∈ A, k ∈ B)
    (hparts : ∀ o ∈ s.parts, o.Follows host room (roles.enter memos))
    (hneeds : ∀ o ∈ s.parts, ∀ k ∈ o.flow.needs, k ∈ B) :
    SlotAgree (Tracks room (roles.enter memos) B) (Tracks room roles A) x x
      (foldSlot (OpNode.evaluate host) s) (foldSlot (OpNode.watch host) s) := by
  obtain ⟨kind, args, filter, initial, seedEmpty⟩ := s
  have part : ∀ o ∈ filter.toList ++ args ++ initial.toList,
      Agree (Tracks room (roles.enter memos) B) (Tracks room (roles.enter memos) B)
        (Tracks room roles A) (o.eval host x) (o.watch host x) := fun o ho =>
    ((hparts o ho x).within hfree (hneeds o ho) hA).weaken (.refl _) (within_append B _) (.refl _)
  simp only [List.mem_append, Option.mem_toList] at part
  refine ⟨rfl, rfl, ?_, ?_, ?_⟩
  · cases filter with
    | none => exact .none
    | some o => exact .some (part o (.inl (.inl rfl)))
  · simp only [foldSlot, foldAll_eq]
    refine List.forall₂_map_left_iff.mpr (List.forall₂_map_right_iff.mpr ?_)
    exact List.forall₂_same.mpr fun o ho => part o (.inl (.inr ho))
  · cases initial with
    | none => exact .none
    | some o => exact .some (part o (.inr rfl))

theorem Runs.aggregate {o : AggregateOp Op}
    (hrow : ∀ n ∈ o.rowScope.sets.map Prod.fst, roles n = .free)
    (hout : ∀ n ∈ o.outputScope.sets.map Prod.fst, roles n = .free)
    (hsource : o.source.Follows host room roles)
    (hkeys : ∀ k ∈ o.keys, k.Follows host room (roles.enter o.rowScope.sets))
    (hslots : ∀ s ∈ o.slots, ∀ c ∈ s.parts, c.Follows host room (roles.enter o.rowScope.sets))
    (houtput : o.output.Follows host room (roles.enter o.outputScope.sets)) :
    Runs room roles (OpNode.flow (.aggregate (foldAggregate OpNode.flow o)))
      ((foldAggregate (OpNode.evaluate host) o).collect host x)
      ((foldAggregate (OpNode.watch host) o).collect host.traced x) := by
  obtain ⟨group, row, source, rowScope, keys, slots, outputScope, output⟩ := o
  intro A hA
  have hsub : ∀ k ∈ A, k ∈ A ++ source.flow.sets := fun k hk => List.mem_append_left _ hk
  -- Keys, slots and output run after the source: what they need is known before or set by it.
  have needs : ∀ f ∈ [(Flow.all (keys.map Op.flow)).andThen (apart ((slots.flatMap SlotOp.parts).map
      Op.flow)), output.flow], ∀ k ∈ f.needs, k ∈ A ++ source.flow.sets := by
    intro f hf k hk
    refine mem_append_of_needs hA (mem_needs_apart.mpr ⟨f, ?_, hk⟩)
    have hparts : (slots.map (foldSlot OpNode.flow)).flatMap SlotOp.parts =
        (slots.flatMap SlotOp.parts).map Op.flow := by
      rw [List.flatMap_map, List.map_flatMap]
      refine List.flatMap_congr fun s _ => ?_
      obtain ⟨kind, args, filter, initial, seedEmpty⟩ := s
      simp only [foldSlot, SlotOp.parts, foldAll_eq, foldOption_eq, List.map_append,
        Option.toList_map]
      rfl
    simp only [foldAggregate, foldAll_eq, foldSlots_eq, hparts]
    exact hf
  have hrows := needs _ List.mem_cons_self
  -- A slot also runs after the keys of its row.
  have hafter (s : SlotOp Op) (hs : s ∈ slots) (c : Op) (hc : c ∈ s.parts) :
      ∀ k ∈ c.flow.needs, k ∈ A ++ source.flow.sets ++ (Flow.all (keys.map Op.flow)).sets := by
    intro k hk
    refine mem_append_of_needs hrows (mem_needs_apart.mpr ⟨c.flow, ?_, hk⟩)
    exact List.mem_map_of_mem (List.mem_flatMap.mpr ⟨s, hs, hc⟩)
  have whole : Agree _ (Tracks room roles (A ++ source.flow.sets)) (Tracks room roles A)
      (AggregateOp.collect host (foldAggregate (OpNode.evaluate host)
        ⟨group, row, source, rowScope, keys, slots, outputScope, output⟩) x)
      (AggregateOp.collect host.traced (foldAggregate (OpNode.watch host)
        ⟨group, row, source, rowScope, keys, slots, outputScope, output⟩) x) :=
    AggregateOp.collect_agree ?_
    (hsource x A fun k hk => hA k (mem_needs_andThen.mpr (.inl hk))) (within_append A _)
    (fun groups row => ?_) (fun hempty => ?_) fun record => ?_
  · refine whole.weaken (.refl _) (Tracks.mono fun n hn => ?_) (.refl _)
    refine List.mem_append.mpr ((List.mem_append.mp hn).imp id fun hn => ?_)
    refine (mem_sets_andThen.mp hn).resolve_right fun hn => ?_
    rw [sets_apart] at hn
    exact absurd hn List.not_mem_nil
  · simp [foldAggregate, foldAll_eq]
  · have keysAgree : Agree (Tracks room (roles.enter rowScope.sets) (A ++ source.flow.sets))
        (Tracks room (roles.enter rowScope.sets)
          (A ++ source.flow.sets ++ (Flow.all (keys.map Op.flow)).sets)) (Tracks room roles A)
        ((foldAll (OpNode.evaluate host) keys).mapM (· row))
        ((foldAll (OpNode.watch host) keys).mapM (· row)) := by
      rw [foldAll_eq, foldAll_eq]
      exact (Runs.all (x := row) hkeys).within hrow
        (fun k hk => hrows k (mem_needs_andThen.mpr (.inl hk))) hsub
    refine AggregateOp.feed_agree ?_ keysAgree ?_ ?_ ?_ ?_ groups
    · exact Tracks.entering hrow
    · simp only [foldAggregate, foldSlots_eq]
      refine List.forall₂_map_left_iff.mpr (List.forall₂_map_right_iff.mpr ?_)
      refine List.forall₂_same.mpr fun s hs => ?_
      exact Runs.slot hrow (fun k hk => List.mem_append_left _ (hsub k hk)) (hslots s hs)
        (hafter s hs)
    · intro _ _ f _ args
      refine ((Runs.call host f args).within hrow (fun _ h => absurd h List.not_mem_nil)
        fun k hk => List.mem_append_left _ (hsub k hk)).weaken (.refl _) (within_append _ _)
          (.refl _)
    · exact (Tracks.leave hrow).trans
        (Tracks.mono fun k hk => List.mem_append_left _ (hsub k hk))
    · exact (Tracks.leave hrow).trans (within_append _ _)
  · obtain rfl : keys = [] := by simpa [foldAggregate, foldAll_eq] using hempty
    refine AggregateOp.emptyRecord_agree (Tracks.entering hrow) ?_ (Tracks.leave hrow)
    simp only [foldAggregate, foldSlots_eq]
    refine List.forall₂_map_left_iff.mpr (List.forall₂_map_right_iff.mpr ?_)
    refine List.forall₂_same.mpr fun s hs => ?_
    have slot := Runs.slot (x := x) hrow hsub (hslots s hs) fun c hc k hk => by
      simpa [Flow.all, nothing] using hafter s hs c hc k hk
    exact SlotOp.empty_agree slot.seedEmpty fun _ => slot.initial
  · refine AggregateOp.emit_agree ?_ (within_append A _) fun values => ?_
    · simp only [foldAggregate, foldSlots_eq]
      refine List.forall₂_map_left_iff.mpr (List.forall₂_map_right_iff.mpr ?_)
      exact List.forall₂_same.mpr fun s _ => by cases s; rfl
    · have body := (Runs.inScope hout (houtput x)).keeps
        (needs output.flow (List.mem_cons_of_mem _ List.mem_cons_self))
      simp only [foldAggregate, resets_foldScope, ← Scope.sets_fst]
      refine Eval.Agree.withGroup (fun w v t => t.setGroup _) body (fun w v w' v' t t' => ?_)
        fun w v w' v' t t' => ?_
      · rw [t.frame]
        exact t'.setGroup _
      · rw [t.frame]
        exact within_append A _ _ _ (t'.setGroup _)

/-! ### Joins -/

/-- What is evaluated for each row of one side of a join. -/
theorem Runs.acceptedKey {side : JoinSideOp Op} (roles : LabelRoles)
    (hparts : ∀ o ∈ side.parts, o.Follows host room roles) :
    Runs room roles (Flow.side (foldSide OpNode.flow side)).contained
      ((foldSide (OpNode.evaluate host) side).acceptedKey x)
      ((foldSide (OpNode.watch host) side).acceptedKey x) := by
  obtain ⟨scope, keys, filter⟩ := side
  simp only [JoinSideOp.parts, List.mem_append, Option.mem_toList] at hparts
  have hfilter := Runs.holds (x := x) fun o ho => hparts o (.inr ho)
  have hkey := (Runs.mapM (F := Op.flow) (p := Op.eval host) (q := Op.watch host)
    (c := fun k : Evaluator σ => do return (← k x).hashKey)
    (d := fun k : Evaluator (σ × Trace) => do return (← k x).hashKey) keys
    fun o ho => (hparts o (.inl ho) x).map Value.hashKey).map Value.tuple
  have body := hfilter.bind fun ok => Runs.ite (ok = true)
    ((hkey.map some).weaken (.self_contained _)) ((Runs.pure none).weaken (.nothing_contained _))
  have flow : (Flow.side (foldSide OpNode.flow ⟨scope, keys, filter⟩)).contained =
      ((perhaps (filter.map Op.flow)).andThen (Flow.all (keys.map Op.flow))).contained := by
    rw [foldSide, foldAll_eq, foldOption_eq]
    rfl
  rw [flow]
  simp only [JoinSideOp.acceptedKey, JoinSideOp.key, foldSide, foldAll_eq, foldOption_eq]
  exact body.weaken (.trans (.self_contained _) (.contained fun n hn => hn))

/-- What is known about a side of a join. -/
structure Side (host : Host σ) (room : Nat) (roles : LabelRoles) (B : List Nat)
    (side : JoinSideOp Op × Binding) : Prop where
  row : roles side.2.slot = .free
  scope : ∀ n ∈ side.1.scope.sets.map Prod.fst, roles n = .free
  parts : ∀ o ∈ side.1.parts, o.Follows host room (roles.enter side.1.scope.sets)
  needs : ∀ k ∈ (Flow.side (foldSide OpNode.flow side.1)).needs, k ∈ B

namespace Side

variable {A B : List Nat} {side : JoinSideOp Op × Binding}

theorem place (h : Side host room roles B side) (row : Value) :
    Agree (Tracks room roles B) (Tracks room (roles.enter side.1.scope.sets) B)
      (Tracks room roles A) ((foldSide (OpNode.evaluate host) side.1).place side.2 row)
      ((foldSide (OpNode.watch host) side.1).place side.2 row) := by
  have placed : Agree (Tracks (σ := σ) room roles B) (Tracks room roles B) (Tracks room roles A)
      (setSlot side.2.slot row) (setSlot side.2.slot row) :=
    .updateFrame fun _ _ t => t.setFree h.row row
  have entered : Agree (Tracks room roles B) (Tracks room _ B) (Tracks room roles A)
      ((reset (foldScope (OpNode.evaluate host) side.1.scope).resets : Eval σ Unit))
      (reset (foldScope (OpNode.watch host) side.1.scope).resets) := Tracks.entering h.scope
  obtain ⟨⟨scope, keys, filter⟩, register⟩ := side
  exact placed.bind fun _ => entered

theorem accept (h : Side host room roles B side) (hA : ∀ k ∈ A, k ∈ B) :
    Agree (Tracks room (roles.enter side.1.scope.sets) B) (Tracks room roles B)
      (Tracks room roles A) ((foldSide (OpNode.evaluate host) side.1).acceptedKey x)
      ((foldSide (OpNode.watch host) side.1).acceptedKey x) :=
  ((Runs.acceptedKey _ h.parts).within h.scope h.needs hA).weaken (.refl _)
    ((Runs.within_append B _).trans (Tracks.leave h.scope)) (.refl _)

end Side

/-- The parts of a join that run once its sides have been evaluated. -/
theorem Runs.joinParts {o : JoinOp Op} {A B : List Nat} (hA : ∀ k ∈ A, k ∈ B)
    (hleft : Side host room roles B (o.leftSide, o.leftRow))
    (hright : Side host room roles B (o.rightSide, o.rightRow))
    (hpair : ∀ n ∈ o.pairScope.sets.map Prod.fst, roles n = .free)
    (hresidual : ∀ c ∈ o.residual, c.Follows host room (roles.enter o.pairScope.sets))
    (hneeds : ∀ k ∈ (perhaps (o.residual.map Op.flow)).needs, k ∈ B) :
    JoinAgree (Tracks room roles B) (Tracks room roles A)
      (fun _ => Tracks room (roles.enter o.secondarySide.1.scope.sets) B)
      (fun _ => Tracks room (roles.enter o.primarySide.1.scope.sets) B)
      (fun _ => Tracks room roles B) (fun _ _ => Tracks room (roles.enter o.pairScope.sets) B) x x
      (foldJoin (OpNode.evaluate host) o) (foldJoin (OpNode.watch host) o) := by
  -- The kind of the join says which side is walked, so both sides are shown for either role.
  have hprimary : Side host room roles B o.primarySide := by
    unfold JoinOp.primarySide
    split
    · exact hright
    · exact hleft
  have hsecondary : Side host room roles B o.secondarySide := by
    unfold JoinOp.secondarySide
    split
    · exact hleft
    · exact hright
  refine ⟨by cases o; rfl, fun row => ?_, fun _ => ?_, fun row => ?_, fun _ => ?_, fun _ => ?_,
    fun _ other => ?_, fun _ _ => ?_, fun _ => .refl _⟩
  · rw [foldJoin_secondarySide, foldJoin_secondarySide]
    exact hsecondary.place row
  · rw [foldJoin_secondarySide, foldJoin_secondarySide]
    exact hsecondary.accept hA
  · rw [foldJoin_primarySide, foldJoin_primarySide]
    exact hprimary.place row
  · rw [foldJoin_primarySide, foldJoin_primarySide]
    exact hprimary.accept hA
  · exact Tracks.leave hprimary.scope
  · rw [foldJoin_secondarySide, foldJoin_secondarySide]
    have placed : Agree (Tracks (σ := σ) room roles B) (Tracks room roles B) (Tracks room roles A)
        (setSlot o.secondarySide.2.slot other) (setSlot o.secondarySide.2.slot other) :=
      .updateFrame fun _ _ t => t.setFree hsecondary.row other
    obtain ⟨kind, left, right, leftRow, rightRow, preFilter, leftSide, rightSide, pairScope,
      residual⟩ := o
    exact placed.bind fun _ => Tracks.entering hpair
  · have checked := ((Runs.holds (x := x) hresidual).within hpair hneeds hA).weaken (.refl _)
      ((Runs.within_append B _).trans (Tracks.leave hpair)) (.refl _)
    obtain ⟨kind, left, right, leftRow, rightRow, preFilter, leftSide, rightSide, pairScope,
      residual⟩ := o
    simp only [foldJoin, foldOption_eq]
    exact checked

/-- The parts of a node follow their flows in the scopes that are entered for them. -/
def OpNode.PartsFollow (host : Host σ) (room : Nat) (roles : LabelRoles)
    (node : OpNode Op) : Prop :=
  ∀ p ∈ node.scopedParts, p.2.Follows host room (roles.enter p.1.sets)

/-- What a join does before its first row, and what it does with its rows afterwards. -/
theorem Fits.join {a : Ambient} {o : JoinOp Op} (h : Fits a room roles (.mk (.join o)))
    (ih : (OpNode.join o).PartsFollow host room roles) {A : List Nat}
    (hA : ∀ k ∈ (Op.mk (.join o)).flow.needs, k ∈ A) :
    ∃ B, (∀ k ∈ A, k ∈ B) ∧ (∀ k ∈ (Op.mk (.join o)).flow.sets, k ∈ B) ∧
      Agree (Tracks room roles A) (Tracks room roles B) (Tracks room roles A)
        ((foldJoin (OpNode.evaluate host) o).start x) ((foldJoin (OpNode.watch host) o).start x) ∧
      JoinAgree (Tracks room roles B) (Tracks room roles A)
        (fun _ => Tracks room (roles.enter o.secondarySide.1.scope.sets) B)
        (fun _ => Tracks room (roles.enter o.primarySide.1.scope.sets) B)
        (fun _ => Tracks room roles B) (fun _ _ => Tracks room (roles.enter o.pairScope.sets) B) x x
        (foldJoin (OpNode.evaluate host) o) (foldJoin (OpNode.watch host) o) := by
  have mem : ∀ {p}, _ → p ∈ (OpNode.join o).scopedParts := fun {p} hp => by
    rw [OpNode.scopedParts, List.mem_cons, List.mem_cons, List.mem_append, List.mem_append,
      List.mem_append]
    exact hp
  have free : ∀ n ∈ (OpNode.join o).places, roles n = .free := fun n hn => h.free_place hn
  simp only [OpNode.places, List.mem_cons, List.mem_append] at free
  have freeScope (scope : Scope Op) (hscope : ∀ n ∈ scope.resets, roles n = .free) :
      ∀ n ∈ scope.sets.map Prod.fst, roles n = .free := fun n hn =>
    hscope n (Scope.sets_fst scope ▸ hn)
  -- Filters, sides and residual run after both inputs, apart from one another.
  have hflow : (Op.mk (.join o)).flow = o.left.flow.andThen (o.right.flow.andThen (apart
      [perhaps (o.preFilter.map Op.flow), Flow.side (foldSide OpNode.flow o.leftSide),
        Flow.side (foldSide OpNode.flow o.rightSide), perhaps (o.residual.map Op.flow)])) := by
    obtain ⟨kind, left, right, leftRow, rightRow, preFilter, leftSide, rightSide, pairScope,
      residual⟩ := o
    rw [Lowering.Op.flow_mk, foldNode, OpNode.flow, foldJoin, foldOption_eq, foldOption_eq]
    rfl
  rw [hflow] at hA ⊢
  have hafter : ∀ f ∈ [perhaps (o.preFilter.map Op.flow),
      Flow.side (foldSide OpNode.flow o.leftSide), Flow.side (foldSide OpNode.flow o.rightSide),
      perhaps (o.residual.map Op.flow)], ∀ k ∈ f.needs,
      k ∈ A ++ o.left.flow.sets ++ o.right.flow.sets := by
    intro f hf k hk
    exact mem_append_of_needs (fun k hk => mem_append_of_needs hA hk)
      (mem_needs_apart.mpr ⟨f, hf, hk⟩)
  simp only [List.forall_mem_cons] at hafter
  obtain ⟨hpre, hleftNeeds, hrightNeeds, hresidualNeeds, -⟩ := hafter
  have hsub : ∀ k ∈ A, k ∈ A ++ o.left.flow.sets ++ o.right.flow.sets :=
    fun k hk => List.mem_append_left _ (List.mem_append_left _ hk)
  have parts : JoinAgree _ (Tracks room roles A) _ _ _ _ x x
      (foldJoin (OpNode.evaluate host) o) (foldJoin (OpNode.watch host) o) :=
    Runs.joinParts hsub
      ⟨free _ (.inl rfl), freeScope _ fun n hn => free n (.inr (.inr (.inl (.inl hn)))),
        fun c hc => ih (o.leftSide.scope, c)
          (mem (.inr (.inr (.inl (.inl (.inr (List.mem_map_of_mem hc))))))), hleftNeeds⟩
      ⟨free _ (.inr (.inl rfl)), freeScope _ fun n hn => free n (.inr (.inr (.inl (.inr hn)))),
        fun c hc => ih (o.rightSide.scope, c)
          (mem (.inr (.inr (.inl (.inr (List.mem_map_of_mem hc)))))), hrightNeeds⟩
      (freeScope _ fun n hn => free n (.inr (.inr (.inr hn))))
      (fun c hc => ih (o.pairScope, c)
        (mem (.inr (.inr (.inr (List.mem_map_of_mem (Option.mem_toList.mpr hc)))))))
      hresidualNeeds
  -- `B` is what is set once both inputs have been read.
  refine ⟨_, hsub, fun k hk => ?_, ?_, parts⟩
  · rcases mem_sets_andThen.mp hk with hk | hk
    · exact List.mem_append_left _ (List.mem_append_right _ hk)
    · refine List.mem_append_right _ ((mem_sets_andThen.mp hk).resolve_right fun hk => ?_)
      rw [sets_apart] at hk
      exact absurd hk List.not_mem_nil
  · have hleft := ih (.empty, o.left) (mem (.inl rfl)) x A
      fun k hk => hA k (mem_needs_andThen.mpr (.inl hk))
    have hright := ih (.empty, o.right) (mem (.inr (.inl rfl))) x (A ++ o.left.flow.sets)
      fun k hk => mem_append_of_needs hA (mem_needs_andThen.mpr (.inl hk))
    have follows : ∀ c ∈ o.preFilter, c.Follows host room roles := fun c hc =>
      ih (.empty, c) (mem (.inr (.inr (.inl (.inl (.inl
        (List.mem_map_of_mem (Option.mem_toList.mpr hc))))))))
    have hfilter := (Runs.holds (x := x) follows).keeps hpre
    obtain ⟨kind, left, right, leftRow, rightRow, preFilter, _⟩ := o
    refine parts.start hleft (hright.weaken (.refl _) (.refl _) (Runs.within_append A _)) ?_
      (Runs.within_append A _) (Tracks.mono hsub)
    simp only [foldJoin, foldOption_eq]
    exact hfilter.weaken (.refl _) (.refl _) (Tracks.mono hsub)

theorem Runs.register (b : Binding) :
    Runs room roles .nothing (readSlot b : Eval σ Value) (readSlot b) := by
  rw [readSlot_eq, readSlot_eq]
  refine Runs.ofFrame fun fr => ?_
  cases fr.slot? b.slot with
  | some v => exact .pure v
  | none => exact .throw _

/-- The group that is emitted. -/
theorem Runs.withCurrentGroup {group : Nat} {f : Flow} {k : Group → Eval σ Value}
    {l : Group → Eval (σ × Trace) Value} (h : ∀ view, Runs room roles f (k view) (l view)) :
    Runs room roles f (currentGroup group >>= k) (currentGroup group >>= l) := by
  have current : Runs room roles .nothing (currentGroup group : Eval σ Group)
      (currentGroup group) := by
    rw [currentGroup_eq, currentGroup_eq]
    refine Runs.ofFrame fun fr => ?_
    cases fr.group? group with
    | some view => exact .pure view
    | none => exact .throw _
  exact (current.bind h).weaken (.after_nothing f)

/-- A label that has been set before is read. -/
theorem Runs.getLabel {label : Binding} :
    Runs room roles ⟨[label.slot], []⟩ (readSlot label : Eval σ Value)
      (do updateTrace fun fr trace => trace.read label.slot fr
          readSlot label) := by
  intro A hA w v t
  have hwritten := t.recorded _ (hA _ List.mem_cons_self)
  obtain ⟨-, hset⟩ := t.written _ hwritten
  obtain ⟨x, hx⟩ := Option.isSome_iff_exists.mp hset
  have clean : v.host.2.read label.slot v.frame = v.host.2 := by
    have kept : v.host.2.missed = (v.host.2.missed ||
        !(v.host.2.written.contains label.slot && (v.frame.slot? label.slot).isSome)) := by
      simp [hwritten, t.frame, hset]
    rw [Trace.read, ← kept]
  have hn : (do updateTrace fun fr trace => trace.read label.slot fr
                readSlot label : Eval (σ × Trace) Value).run v =
      (readSlot label).run { v with host := (v.host.1, v.host.2.read label.slot v.frame) } := rfl
  rw [run_readSlot hx, hn, clean, run_readSlot (by rw [t.frame]; exact hx)]
  exact ⟨rfl, Runs.within_nil A _ _ t⟩

theorem Runs.setLabel {label : Binding} (hrole : roles label.slot = .kept ())
    (hroom : label.slot < room) (v : Value) :
    Runs room roles ⟨[], [label.slot]⟩ (do setSlot label.slot v; return v : Eval σ Value)
      (do setSlot label.slot v
          updateTrace fun _ trace => trace.write label.slot
          return v) :=
  fun _ _ _ _ t => ⟨rfl, t.setLabel hrole hroom v⟩

/-- A node whose parts follow their flows follows its own. -/
theorem Fits.node {a : Ambient} {node : OpNode Op} (h : Fits a room roles (.mk node))
    (ih : node.PartsFollow host room roles) : (Op.mk node).Follows host room roles := by
  intro x
  -- Nodes without a scope of their own: all parts run where the node does.
  have all (ops : List Op) (hops : node.scopedParts = ops.map (.empty, ·)) :
      ∀ o ∈ ops, o.Follows host room roles := fun o ho =>
    ih (.empty, o) (by rw [hops]; exact List.mem_map_of_mem ho)
  have free (scope : Scope Op) (hscope : ∀ n ∈ scope.resets, n ∈ node.places) :
      ∀ n ∈ scope.sets.map Prod.fst, roles n = .free := fun n hn =>
    h.free_place (hscope n (Scope.sets_fst scope ▸ hn))
  cases node with
  | input => exact .pure x
  | const name value => exact .pure value
  | param index name => exact Runs.ofFrame fun fr => .pure (fr.param index)
  | caught binding =>
    exact Runs.ofFrame (k := fun fr => pure ((fr.slot? binding.slot).getD .null))
      (l := fun fr => pure ((fr.slot? binding.slot).getD .null)) fun fr => .pure _
  | register row => exact .register row
  | groupKey group index => exact .withCurrentGroup fun view => .pure _
  | slotValue group index default =>
    have hdefault := (all [default] rfl default List.mem_cons_self x).weaken (.self_contained _)
    refine .withCurrentGroup fun view => ?_
    cases view.values[index]?.join with
    | some v => exact (Runs.pure v).weaken (.nothing_contained _)
    | none => exact hdefault
  | access source steps default =>
    have hparts := all (source :: (steps.flatMap Step.parts ++ default.toList)) rfl
    have hsource := hparts source List.mem_cons_self x
    have hpath := Runs.follow (x := x)
      (fun o ho => hparts o (List.mem_cons_of_mem _ (List.mem_append_left _ ho)))
      fun o ho => hparts o
        (List.mem_cons_of_mem _ (List.mem_append_right _ (Option.mem_toList.mpr ho)))
    have whole := hsource.bind hpath
    rw [← foldSteps_eq, ← foldSteps_eq, ← foldSteps_eq] at whole
    cases default <;> exact whole
  | call name f args =>
    have hargs := Runs.operands (x := x) (all args rfl)
    exact (hargs.bind fun vs => Runs.call host f vs).weaken (.before_nothing _)
  | builtin op args => exact (Runs.operands (x := x) (all args rfl)).bindLift op.apply
  | collection kind items =>
    exact (Runs.operands (x := x) (all items rfl)).map kind.build
  | binary op left right =>
    have hleft := all [left, right] rfl left List.mem_cons_self x
    have hright := all [left, right] rfl right (List.mem_cons_of_mem _ List.mem_cons_self) x
    exact hleft.bind fun l => hright.bindLift fun r => op.apply l r
  | unary op operand =>
    exact (all [operand] rfl operand List.mem_cons_self x).bindLift op.apply
  | and items => exact .shortCircuit false (all items rfl) _
  | or items => exact .shortCircuit true (all items rfl) _
  | dict pairs =>
    have hparts := all (pairs.flatMap fun p => [p.1, p.2]) rfl
    have entry : ∀ p ∈ pairs, Runs room roles (p.1.flow.andThen p.2.flow)
        (do let k ← p.1.eval host x; let v ← p.2.eval host x; return (k, v))
        (do let k ← p.1.watch host x; let v ← p.2.watch host x; return (k, v)) := by
      intro p hp
      have hkey := hparts p.1 (List.mem_flatMap.mpr ⟨p, hp, List.mem_cons_self⟩) x
      have hvalue := hparts p.2
        (List.mem_flatMap.mpr ⟨p, hp, List.mem_cons_of_mem _ List.mem_cons_self⟩) x
      exact hkey.bind fun k => hvalue.map fun v => (k, v)
    have entries := Runs.mapM (F := fun p : Op × Op => p.1.flow.andThen p.2.flow)
      (p := fun p => (p.1.eval host, p.2.eval host))
      (q := fun p => (p.1.watch host, p.2.watch host))
      (c := fun p : Evaluator σ × Evaluator σ => do let k ← p.1 x; let v ← p.2 x; return (k, v))
      (d := fun p : Evaluator (σ × Trace) × Evaluator (σ × Trace) => do
        let k ← p.1 x; let v ← p.2 x; return (k, v)) pairs entry
    have whole := entries.map Value.ofDict
    rw [Lowering.Op.flow_mk, foldNode, OpNode.flow, foldPairs_eq, List.map_map]
    rw [Op.eval, fold, foldNode, foldPairs_eq, Op.watch, fold, foldNode, foldPairs_eq]
    exact whole
  | loop op =>
    have hparts : ∀ o ∈ op.filter.toList ++ op.key.toList ++ [op.element],
        o.Follows host room (roles.enter op.scope.sets) := fun o ho =>
      ih (op.scope, o) (List.mem_cons_of_mem _ (List.mem_map_of_mem ho))
    exact Runs.loop (free op.scope fun _ hn => hn)
      (ih (.empty, op.source) List.mem_cons_self) hparts
  | sort op =>
    exact Runs.sort (free op.scope fun _ hn => hn) (ih (.empty, op.source) List.mem_cons_self)
      fun k hk => ih (op.scope, k.op) (List.mem_cons_of_mem _
        (List.mem_map_of_mem (f := fun k => (op.scope, SortKeyOp.op k)) hk))
  | guarded op =>
    have hparts := all (op.body :: op.handlers.flatMap HandlerOp.parts) rfl
    exact Runs.guarded (h.free_place List.mem_cons_self) (hparts op.body List.mem_cons_self)
      fun k hk o ho => hparts o (List.mem_cons_of_mem _ (List.mem_flatMap.mpr ⟨k, hk, ho⟩))
  | cond condition yes no =>
    have hparts := all [condition, yes, no] rfl
    have hcondition := hparts condition (by simp) x
    have hyes := hparts yes (by simp) x
    have hno := hparts no (by simp) x
    exact hcondition.bind fun v => .ite v.isTruthy (hyes.weaken (.either_left _ _))
      (hno.weaken (.either_right _ _))
  | pipe producer consumer =>
    have hparts := all [producer, consumer] rfl
    exact (hparts producer (by simp) x).bind fun v => hparts consumer (by simp) v
  | memo binding definition =>
    exact .memo (h.memo _ h.known) (all [definition] rfl definition List.mem_cons_self x)
  | setLabel label value =>
    obtain ⟨hrole, hroom⟩ := h.label _ h.known
    exact (all [value] rfl value List.mem_cons_self x).bind fun v =>
      .setLabel hrole hroom v
  | getLabel label => exact .getLabel
  | aggregate op =>
    have row : ∀ o ∈ op.keys ++ op.slots.flatMap SlotOp.parts,
        o.Follows host room (roles.enter op.rowScope.sets) := fun o ho =>
      ih (op.rowScope, o) (List.mem_cons_of_mem _ (List.mem_append_left _ (List.mem_map_of_mem ho)))
    exact Runs.aggregate (free op.rowScope fun _ hn => List.mem_append_left _ hn)
      (free op.outputScope fun _ hn => List.mem_append_right _ hn)
      (ih (.empty, op.source) List.mem_cons_self) (fun k hk => row k (List.mem_append_left _ hk))
      (fun s hs c hc => row c (List.mem_append_right _ (List.mem_flatMap.mpr ⟨s, hs, hc⟩)))
      (ih (op.outputScope, op.output)
        (List.mem_cons_of_mem _ (List.mem_append_right _ List.mem_cons_self)))
  | join op =>
    intro A hA
    obtain ⟨B, hsub, hsets, hstart, parts⟩ := h.join (x := x) ih hA
    refine (parts.collect hstart).weaken (.refl _) (Tracks.mono fun k hk => ?_) (.refl _)
    exact (List.mem_append.mp hk).elim (hsub k) (hsets k)

end Node

/-- **Operations follow their flows.**  An operation whose slots have the roles that it expects
    reads no label that it has not set, apart from those that it needs. -/
theorem Op.follows (host : Host σ) {a : Ambient} {room : Nat} {roles : LabelRoles} {op : Op}
    (h : Fits a room roles op) : op.Follows host room roles := by
  cases op with
  | mk node =>
    refine h.node fun p hp => ?_
    have : sizeOf p.2 < sizeOf (Op.mk node) :=
      Op.sizeOf_lt_of_mem (OpNode.mem_parts_of_scopedParts hp)
    exact Op.follows host (h.part hp)
termination_by sizeOf op

end DataExpr
