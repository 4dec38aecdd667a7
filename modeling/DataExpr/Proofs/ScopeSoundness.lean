import DataExpr.Proofs.NodeSoundness
import DataExpr.Proofs.OutputViews

/-!
# Sound nodes with parts in other surroundings

Comprehensions, sorts and aggregates enter scopes for their items and rows, handlers have an error
in place and joins have rows.  The slots for that are free outside, so whatever is found there
afterwards means nothing.
-/

namespace DataExpr

open Eval Lowering Op

variable {σ α β : Type}

/-! ### Rows of joins -/

namespace JoinPlan

variable {root : Expr} {condition : Option (Smaller root)} {kind : JoinKind} {c : Smaller root}

/-- What is evaluated for the left row reads only that. -/
theorem mem_left (h : c ∈ (ofCondition condition kind).keys.map (·.1) ++
    (ofCondition condition kind).leftFilter) :
    c ∈ (ofCondition condition kind).onRows ∧ c.1.analysis.sides = ⟨true, false⟩ := by
  simp only [onRows, List.mem_append] at h ⊢
  refine ⟨h.elim (fun h => .inl (.inl (.inl (.inl h)))) fun h => .inl (.inl (.inr h)), ?_⟩
  rcases h with h | h
  · obtain ⟨⟨l, r⟩, hk, rfl⟩ := List.mem_map.mp h
    exact (mem_keys hk).1.2
  · exact (mem_leftFilter h).2

/-- What is evaluated for the right row reads only that. -/
theorem mem_right (h : c ∈ (ofCondition condition kind).keys.map (·.2) ++
    (ofCondition condition kind).rightFilter) :
    c ∈ (ofCondition condition kind).onRows ∧ c.1.analysis.sides = ⟨false, true⟩ := by
  simp only [onRows, List.mem_append] at h ⊢
  refine ⟨h.elim (fun h => .inl (.inl (.inl (.inr h)))) fun h => .inl (.inr h), ?_⟩
  rcases h with h | h
  · obtain ⟨⟨l, r⟩, hk, rfl⟩ := List.mem_map.mp h
    exact (mem_keys hk).2.2
  · exact (mem_rightFilter h).2

end JoinPlan

namespace Execution

variable {X : Execution σ} {e : Expr} {env : Env} {t t₁ : State}
  {whole : Node (Smaller e)} {key : NodeKey}

/-! ### Scopes -/

variable (X) in
/-- The roles while a scope is entered on a scene. -/
abbrev entered (roles : ValueRoles) (t : State) (s : Scene) : ValueRoles :=
  roles.enter (t.results X.semantics s)

section Entered

variable {roles : ValueRoles} {views : Views} {s : Scene}

theorem entered_apart {n : Nat} (h : n ∉ t.scope.resets) : X.entered roles t s n = roles n := by
  refine Roles.enter_of_not_mem _ ?_
  rw [State.results_fst]
  exact h

/-- A scope is entered, whatever stands for the definitions of its bindings. -/
theorem enter_scope {scope : Scope β} (h : scope.resets = t.scope.resets) :
    Yields (X.Holds roles views) (X.Holds (X.entered roles t s) views) (reset scope.resets)
      (.ok ()) := by
  rw [h, ← State.results_fst X.semantics t s]
  exact enter _

theorem leave_scope (hfree : ∀ n ∈ t.scope.resets, roles n = .free) :
    Worlds.Within (X.Holds (X.entered roles t s) views) (X.Holds roles views) := by
  refine leave ?_
  rw [State.results_fst]
  exact hfree

/-- What is evaluated in a scope of its own. -/
theorem in_scope {scope : Scope β} {m : Eval σ α} {result : Except Error α} (s : Scene)
    (h : scope.resets = t.scope.resets) (hfree : ∀ n ∈ t.scope.resets, roles n = .free)
    (hm : X.Within (X.entered roles t s) views m result) :
    X.Within roles views (do reset scope.resets; m) result :=
  (enter_scope h).after (hm.weaken (.refl _) (leave_scope hfree))

/-- What is evaluated while a slot that was free holds a value. -/
theorem in_slot {n : Nat} {v : Value} {m : Eval σ α} {result : Except Error α}
    (hn : n < X.room.slots) (hfree : roles n = .free)
    (hm : X.Within (roles.keep n v) views m result) :
    X.Within roles views (do setSlot n v; m) result :=
  (keep hn).after (hm.weaken (.refl _) (drop hfree))

end Entered

/-! ### Comprehensions and sorts -/

section Items

variable (he : X.Orderly e)
include he

theorem sound_loop {p : LoopOp Op} {keyed filter : Option (Smaller e)}
    {element source : Smaller e} (hscope : p.scope = t₁.scope)
    (opens : X.Opens (env.enter (.part env.context key .item) .value) t₁)
    (hnode : e.parts = .comprehension p.kind keyed element source filter)
    (hsource : X.Sound env t p.source source.1)
    (hfilter : X.OptionSound (env.enter (.part env.context key .item) .value) t₁ p.filter filter)
    (hkeyed : X.OptionSound (env.enter (.part env.context key .item) .value) t₁ p.key keyed)
    (helement : X.Sound (env.enter (.part env.context key .item) .value) t₁ p.element element.1) :
    X.NodeSound env t (.mk (.loop p)) e := by
  refine .of he hnode fun {roles views x s} st => ?_
  have places : (OpNode.loop p).places = t₁.scope.resets := congrArg Scope.resets hscope
  have above (item : Value) (n : Nat) (hn : n ∉ (OpNode.loop p).places) :
      X.entered roles t₁ (s.within (.ok item)) n = roles n := entered_apart (places ▸ hn)
  -- Filter, key and element all run in the scope of the item.
  have part (item : Value) {op : Op} {c : Smaller e}
      (h : X.Sound (env.enter (.part env.context key .item) .value) t₁ op c.1)
      (hc : c ∈ filter.toList ++ keyed.toList ++ [element])
      (hop : op ∈ p.filter.toList ++ p.key.toList ++ [p.element]) :
      X.Within (X.entered roles t₁ (s.within (.ok item))) views (op.eval X.host item)
        (c.1.meaning X.semantics (s.within (.ok item))) :=
    h.yields (st.sees.within (st.clear.below (above item)) (st.covers (.item hc)) key (by decide))
      (st.clear.part (above item) (List.mem_cons_of_mem _ hop))
      (opens (assigns_enter (places ▸ st.clear.here.nodup)) (st.sees.finds.within key (by decide)))
  have filterPart (item : Value) := rel_imp_both hfilter fun o ho c hc h => part item h
    (List.mem_append_left _ (List.mem_append_left _ hc))
    (List.mem_append_left _ (List.mem_append_left _ ho))
  have keyPart (item : Value) := rel_imp_both hkeyed fun o ho c hc h => part item h
    (List.mem_append_left _ (List.mem_append_right _ hc))
    (List.mem_append_left _ (List.mem_append_right _ ho))
  have elementPart (item : Value) := part item helement
    (List.mem_append_right _ List.mem_cons_self) (List.mem_append_right _ List.mem_cons_self)
  have step (item : Value) : X.Within roles views
      ((foldLoop (OpNode.evaluate X.host) p).step item)
      (itemResult (filter.toList.map fun c => c.1.meaning X.semantics (s.within (.ok item)))
        (keyed.map fun c => c.1.meaning X.semantics (s.within (.ok item)))
        (element.1.meaning X.semantics (s.within (.ok item)))) := by
    rw [foldLoop_eq, ← Option.toList_map]
    refine Yields.loopStep (enter_scope ?_) (rel_foldOption (filterPart item))
      (rel_foldOption (keyPart item)) (elementPart item)
      (leave_scope (places ▸ st.clear.freePlaces))
    rw [resets_foldScope, hscope]
  change X.Within roles views ((foldLoop (OpNode.evaluate X.host) p).collect x) _
  rw [foldLoop_eq] at step ⊢
  exact Yields.loop (st.here hsource List.mem_cons_self List.mem_cons_self) step

theorem sound_sort {p : SortOp Op} {source : Smaller e} {keys : List (SortKey (Smaller e))}
    (hscope : p.scope = t₁.scope)
    (opens : X.Opens (env.enter (.part env.context key .sortItem) .value) t₁)
    (hnode : e.parts = .sort source keys p.reverse)
    (hsource : X.Sound env t p.source source.1)
    (hkeys : List.Forall₂
      (X.SortKeySound (env.enter (.part env.context key .sortItem) .value) t₁) p.keys keys) :
    X.NodeSound env t (.mk (.sort p)) e := by
  refine .of he hnode fun {roles views x s} st => ?_
  have places : (OpNode.sort p).places = t₁.scope.resets := congrArg Scope.resets hscope
  have above (item : Value) (n : Nat) (hn : n ∉ (OpNode.sort p).places) :
      X.entered roles t₁ (s.within (.ok item)) n = roles n := entered_apart (places ▸ hn)
  have keyParts (item : Value) : List.Forall₂ (fun (o : SortKeyOp Op) (k : SortKey (Smaller e)) =>
      X.Within (X.entered roles t₁ (s.within (.ok item))) views (o.op.eval X.host item)
        (k.key.1.meaning X.semantics (s.within (.ok item)))) p.keys keys :=
    forall₂_imp_both hkeys fun o ho k hk h => h.key.yields
      (st.sees.within (st.clear.below (above item)) (st.covers (.sortItem hk)) key (by decide))
      (st.clear.part (above item) (List.mem_cons_of_mem _ (List.mem_map_of_mem ho)))
      (opens (assigns_enter (places ▸ st.clear.here.nodup)) (st.sees.finds.within key (by decide)))
  have itemKey (item : Value) : X.Within roles views
      ((foldSort (OpNode.evaluate X.host) p).key item)
      (keys.mapM fun k => k.key.1.meaning X.semantics (s.within (.ok item))) := by
    rw [foldSort_eq]
    refine in_scope (s.within (.ok item)) ?_ (places ▸ st.clear.freePlaces) (Yields.mapM ?_)
    · rw [resets_foldScope, hscope]
    · rw [List.forall₂_map_left_iff]
      exact keyParts item
  have orders : p.keys.map (·.order) = keys.map (·.order) := by
    refine List.forall₂_eq_eq_eq ▸ ?_
    rw [List.forall₂_map_left_iff, List.forall₂_map_right_iff]
    exact hkeys.imp fun _ _ h => h.order
  have empty : p.keys.isEmpty = keys.isEmpty := by
    have := congrArg List.isEmpty orders
    rwa [List.isEmpty_map, List.isEmpty_map] at this
  change X.Within roles views ((foldSort (OpNode.evaluate X.host) p).collect x) _
  rw [foldSort_eq] at itemKey ⊢
  have whole := Yields.sort (st.here hsource List.mem_cons_self List.mem_cons_self) itemKey
  simp only [List.isEmpty_map, List.map_map, Function.comp_def, empty, orders] at whole
  exact whole

end Items

/-! ### Guarded expressions -/

/-- The bindings of a scope stand for expressions that mean the same while an error is handled. -/
def Steady (S : Semantics) (t : State) : Prop :=
  ∀ b ∈ t.bound, ∀ e size hsize, b.site.node = .shape e size hsize → e.Steady S

/-- The bindings of a scope stay ready when a slot that was free keeps an error. -/
theorem Binds.catching {roles : ValueRoles} {views : Views} {x : Value} {s : Scene} {n : Nat}
    {v : Value} {err : Error} (h : X.Binds env t roles views x s) (steady : Steady X.semantics t)
    (hfree : roles n = .free) : X.Binds env t (roles.keep n v) views x (s.catching err) := by
  intro b hb e size hsize hnode roles' ps y u hle hleads hsite
  obtain ⟨u', rfl, hleads'⟩ := hleads.ofCatching
  have ready := h b hb e size hsize hnode roles' ps y u' ((Roles.below_keep hfree v).trans hle)
    hleads' hsite
  have meaning : e.meaning X.semantics (u'.catching err) = e.meaning X.semantics u' :=
    steady b hb e size hsize hnode u' err
  constructor
  · rw [meaning]
    exact ready.role
  · intro rows clear
    rw [meaning]
    exact ready.yields ⟨rows.left, rows.right⟩ clear

theorem sound_guarded {p : GuardOp Op} {body : Smaller e} {handlers : List (Handler (Smaller e))}
    (he : X.Orderly e) (steady : Steady X.semantics t) (hnode : e.parts = .guarded body handlers)
    (hbody : X.Sound env t p.body body.1)
    (hhandlers : List.Forall₂ (X.HandlerSound { env with caught := some p.caught } t) p.handlers
      handlers) :
    X.NodeSound env t (.mk (.guarded p)) e := by
  refine .of he hnode fun {roles views x s} st => ?_
  obtain ⟨a, hslot⟩ := st.clear.reach
  have hfree : roles p.caught.slot = .free := st.clear.freePlaces _ List.mem_cons_self
  have above (v : Value) (n : Nat) (hn : n ∉ (OpNode.guarded p).places) :
      roles.keep p.caught.slot v n = roles n :=
    Roles.keep_ne _ fun h => hn (h ▸ List.mem_cons_self)
  -- The caught slot is free until a handler runs, and holds the message while it does.
  have part (err : Error) {op : Op} {c : Smaller e} {o : HandlerOp Op} {h : Handler (Smaller e)}
      (sound : X.Sound { env with caught := some p.caught } t op c.1) (ho : o ∈ p.handlers)
      (hop : op ∈ o.parts) (hh : h ∈ handlers) (hc : c ∈ h.children) :
      X.Within (roles.keep p.caught.slot (.str err.message)) views (op.eval X.host x)
        (c.1.meaning X.semantics (s.catching err)) :=
    sound.yields
      (st.sees.catching (st.clear.below (above _)) (st.covers (.handler hh hc))
        (Roles.keep_self _ _ _))
      (st.clear.part (above _) (List.mem_cons_of_mem _ (List.mem_flatMap.mpr ⟨o, ho, hop⟩)))
      (st.binds.catching steady hfree)
  have handled (err : Error) : List.Forall₂ (fun (o : HandlerOp Op) (h : Handler (Smaller e)) =>
      o.kinds = h.kinds ∧ X.Within roles views
        (do
          setSlot p.caught.slot (.str err.message)
          (foldHandler (OpNode.evaluate X.host) o).handle err x)
        (handled err (h.reraiseIf.map fun c => c.1.meaning X.semantics (s.catching err))
          (h.value.1.meaning X.semantics (s.catching err)))) p.handlers handlers := by
    refine forall₂_imp_both hhandlers fun o ho h hh sound => ⟨sound.kinds, ?_⟩
    rw [foldHandler_eq]
    refine in_slot hslot hfree <|
      Yields.handle (rel_foldOption (rel_imp_both sound.reraiseIf fun c hc d hd hcd => ?_))
      (part err sound.value ho ?_ hh ?_) err
    · exact part err hcd ho (List.mem_append_left _ hc) hh (List.mem_append_left _ hd)
    · exact List.mem_append_right _ List.mem_cons_self
    · exact List.mem_append_right _ List.mem_cons_self
  change X.Within roles views ((foldGuard (OpNode.evaluate X.host) p).run x) _
  rw [foldGuard_eq]
  refine Yields.guarded (st.here hbody List.mem_cons_self List.mem_cons_self) fun err _ => ?_
  have found := rel_find? (handled err) (p := (·.catches err)) (q := (·.catches err))
    fun o h hoh => by simp only [HandlerOp.catches, Handler.catches, hoh.1]
  simp only [GuardOp.handler, List.find?_map]
  -- Both sides look for the first handler that catches the error's kind.
  have same : (fun h : HandlerOp (Evaluator σ) => h.catches err) ∘
      foldHandler (OpNode.evaluate X.host) = fun o => o.catches err := by
    funext o
    rw [Function.comp, foldHandler_eq]
    rfl
  rw [same]
  generalize p.handlers.find? _ = o at found ⊢
  generalize handlers.find? _ = h at found ⊢
  cases found with
  | none => exact .none
  | some hoh => exact .some hoh.2

/-! ### Aggregates -/

/-- A slot that is fed with what its reducer reads of a row. -/
theorem SlotSound.ofSlot {root : Expr} {row : Value} {roles : ValueRoles} {views : Views}
    {s : Scene} {o : SlotOp Op} {red : Reducer (Smaller root)}
    (sound : X.SlotSound env t o red)
    (part : ∀ op ∈ o.parts, ∀ c ∈ red.fed, X.Sound env t op c.1 →
      X.Within roles views (op.eval X.host row) (c.1.meaning X.semantics (s.onRow (.ok row)))) :
    Yields.OfSlot (X.Holds roles views) row (foldSlot (OpNode.evaluate X.host) o)
      (red.slotMeaning (fun c => c.1.meaning X.semantics) s) := by
  have filterPart := rel_imp_both sound.filter fun op hop c hc h => part op
    (List.mem_append_left _ (List.mem_append_left _ hop)) c
    (List.mem_append_left _ (List.mem_append_left _ hc)) h
  have argParts := forall₂_imp_both sound.args fun op hop c hc h => part op
    (List.mem_append_left _ (List.mem_append_right _ hop)) c
    (List.mem_append_left _ (List.mem_append_right _ hc)) h
  have initialPart := rel_imp_both sound.initial fun op hop c hc h => part op
    (List.mem_append_right _ hop) c (List.mem_append_right _ hc) h
  rw [foldSlot_eq]
  refine ⟨sound.kind, ?_, mapM_foldAll argParts, ?_⟩
  · change Yields _ _ _ (allHold (red.filter.toList.map fun c =>
      c.1.meaning X.semantics (s.onRow (.ok row))))
    rw [← Option.toList_map]
    exact Yields.holds (rel_foldOption filterPart)
  · dsimp only [Reducer.slotMeaning]
    rw [foldOption_eq _ o.initial]
    generalize o.initial = op at initialPart ⊢
    generalize red.initial = c at initialPart ⊢
    cases initialPart with
    | none => exact .none
    | some h => exact .some h

/-- A slot that has seen no row, where the row scope is entered on the input. -/
theorem SlotSound.empty {root : Expr} {x : Value} {roles : ValueRoles} {views : Views} {s : Scene}
    {o : SlotOp Op} {red : Reducer (Smaller root)} (sound : X.SlotSound env t o red)
    (seeds : ∀ c ∈ red.initial, c.1.analysis.inputUses = 0 →
      c.1.meaning X.semantics (s.onRow s.input) = c.1.meaning X.semantics (s.onRow (.ok x)))
    (part : ∀ op ∈ o.parts, ∀ c ∈ red.fed, X.Sound env t op c.1 →
      X.Within roles views (op.eval X.host x) (c.1.meaning X.semantics (s.onRow (.ok x)))) :
    X.Within roles views ((foldSlot (OpNode.evaluate X.host) o).empty x)
      (red.slotMeaning (fun c => c.1.meaning X.semantics) s).empty := by
  have initialPart := rel_imp_both sound.initial fun op hop c hc h => part op
    (List.mem_append_right _ hop) c (List.mem_append_right _ hc) h
  rw [foldSlot_eq]
  refine Yields.emptySlot ?_
  rw [Reducer.slotMeaning, sound.seedEmpty, foldOption_eq _ o.initial]
  dsimp only
  generalize o.initial = op at initialPart ⊢
  generalize red.initial = c at initialPart seeds ⊢
  cases initialPart with
  | none => exact .none
  | @some op c h =>
    rw [Option.any_some, Option.map_some, Option.filter_some, Option.filter_some]
    cases huses : c.1.analysis.inputUses == 0 with
    | true =>
      rw [← seeds c rfl (beq_iff_eq.mp huses)] at h
      exact .some h
    | false => exact .none

variable (X) in
/-- Sound operations of an aggregate. -/
structure AggregateSound (env : Env) (key : NodeKey) (t₁ t₂ : State) (p : AggregateOp Op)
    (keys : List (Smaller e)) (output : Smaller e) (reducers : List (Reducer (Smaller e))) :
    Prop where
  declared : output.slots = .ok reducers
  rowScope : p.rowScope = t₁.scope
  outputScope : p.outputScope = t₂.scope
  rowOpens : X.Opens (env.row key) t₁
  outputOpens : X.Opens (env.output (.of env key p.group keys reducers)) t₂
  source : InputGives env p.source
  emitted : X.Sound (env.output (.of env key p.group keys reducers)) t₂ p.output output.1
  slots : List.Forall₂ (X.SlotSound (env.row key) t₁) p.slots reducers
  keys : X.AllSound (env.row key) t₁ p.keys keys

namespace AggregateSound

variable {t₂ : State} {p : AggregateOp Op} {keys : List (Smaller e)} {output : Smaller e}
  {reducers : List (Reducer (Smaller e))} {roles : ValueRoles}
  (h : X.AggregateSound env key t₁ t₂ p keys output reducers)
include h

theorem places : (OpNode.aggregate p).places = t₁.scope.resets ++ t₂.scope.resets := by
  rw [← h.rowScope, ← h.outputScope]
  rfl

theorem row_above (s : Scene) (n : Nat) (hn : n ∉ (OpNode.aggregate p).places) :
    X.entered roles t₁ s n = roles n :=
  entered_apart fun hmem => hn (h.places ▸ List.mem_append_left _ hmem)

theorem output_above (s : Scene) (n : Nat) (hn : n ∉ (OpNode.aggregate p).places) :
    X.entered roles t₂ s n = roles n :=
  entered_apart fun hmem => hn (h.places ▸ List.mem_append_right _ hmem)

variable (clear : X.Clear roles (.mk (.aggregate p)))
include clear

theorem row_nodup : t₁.scope.resets.Nodup := (List.nodup_append.mp (h.places ▸ clear.here.nodup)).1

theorem output_nodup : t₂.scope.resets.Nodup :=
  (List.nodup_append.mp (h.places ▸ clear.here.nodup)).2.1

theorem row_free : ∀ n ∈ t₁.scope.resets, roles n = .free := fun n hn =>
  clear.freePlaces n (h.places ▸ List.mem_append_left _ hn)

theorem output_free : ∀ n ∈ t₂.scope.resets, roles n = .free := fun n hn =>
  clear.freePlaces n (h.places ▸ List.mem_append_right _ hn)

/-- What is evaluated for a row is clear in the scope of the row. -/
theorem row_clear (s : Scene) {op : Op} (hop : op ∈ p.keys ++ p.slots.flatMap SlotOp.parts) :
    X.Clear (X.entered roles t₁ s) op :=
  clear.part (h.row_above s) (List.mem_cons_of_mem _ (List.mem_append_left _ hop))

theorem output_clear (s : Scene) : X.Clear (X.entered roles t₂ s) p.output :=
  clear.part (h.output_above s)
    (List.mem_cons_of_mem _ (List.mem_append_right _ List.mem_cons_self))

end AggregateSound

theorem sound_aggregate {p : AggregateOp Op} {keys : List (Smaller e)} {output : Smaller e}
    {reducers : List (Reducer (Smaller e))} {t₂ : State} (he : X.Orderly e)
    (hnode : e.parts = .aggregate keys output)
    (h : X.AggregateSound env key t₁ t₂ p keys output reducers) :
    X.NodeSound env t (.mk (.aggregate p)) e := by
  refine .of he hnode fun {roles views x s} st => ?_
  obtain ⟨a, hgroup, -⟩ := st.clear.reach
  have rowPart (row : Value) {op : Op} {c : Smaller e} (hsound : X.Sound (env.row key) t₁ op c.1)
      (hc : (Node.aggregate keys output).Evaluates (.onRow (.ok row)) c)
      (hop : op ∈ p.keys ++ p.slots.flatMap SlotOp.parts) :
      X.Within (X.entered roles t₁ (s.onRow (.ok row))) views (op.eval X.host row)
        (c.1.meaning X.semantics (s.onRow (.ok row))) :=
    hsound.yields (st.sees.onRow (st.clear.below (h.row_above _)) (st.covers hc) key)
      (h.row_clear st.clear _ hop)
      (h.rowOpens (assigns_enter (h.row_nodup st.clear)) (st.sees.finds.onRow key))
  have keyParts (row : Value) := forall₂_imp_both h.keys fun op hop c hc hsound =>
    rowPart row hsound (.key hc) (List.mem_append_left _ hop)
  have slotPart (row : Value) {o : SlotOp Op} {red : Reducer (Smaller e)} (ho : o ∈ p.slots)
      (hred : red ∈ reducers) (op : Op) (hop : op ∈ o.parts) (c : Smaller e) (hc : c ∈ red.fed)
      (hsound : X.Sound (env.row key) t₁ op c.1) :=
    rowPart row hsound (.slot h.declared hred hc)
      (List.mem_append_right _ (List.mem_flatMap.mpr ⟨o, ho, hop⟩))
  have pureReducers : ∀ red ∈ reducers, ∀ f, red.kind = .reduce f → f.isPure = true := by
    intro red hred f hf
    obtain ⟨d, hd, hdnode⟩ :=
      output.exists_of_mem_reducers red (Smaller.mem_reducers_of_mem_slots h.declared red hred)
    refine he.reduces d (hd.trans (.child (Expr.mem_parts ?_))) _ hdnode f hf
    rw [hnode]
    exact List.mem_append_right _ List.mem_cons_self
  have hgrouped : keys.isEmpty = p.keys.isEmpty := by
    rw [Bool.eq_iff_iff, List.isEmpty_iff_length_eq_zero, List.isEmpty_iff_length_eq_zero,
      h.keys.length_eq]
  have source : X.Within roles views (p.source.eval X.host x) s.input := by
    have clear : X.Clear roles p.source := st.clear.part (fun _ _ => rfl) List.mem_cons_self
    exact within_input h.source st.sees clear
  -- An initial value that is taken without rows reads neither the row nor the group.
  have seeds (red : Reducer (Smaller e)) (hred : red ∈ reducers) (c : Smaller e)
      (hc : c ∈ red.initial) (huses : c.1.analysis.inputUses = 0) :
      c.1.meaning X.semantics (s.onRow s.input) = c.1.meaning X.semantics (s.onRow (.ok x)) := by
    have hmem := Smaller.mem_reducers_of_mem_slots h.declared red hred
    have quiet := Reducer.quiet_initial (Smaller.of_mem_reducers h.declared red hmem).1 hc
    have part : e.parts.Evaluates (.onRow s.input) c := by
      rw [hnode]
      exact .slot h.declared hred (List.mem_append_right _ (Option.mem_toList.mpr hc))
    have mild := he.toMild.within (Expr.covers_part he.analyzed he.candid part).1
    exact c.1.meaning_congr mild.analyzed mild.candid
      ⟨rfl, .inl rfl, .inr ⟨huses, quiet⟩, fun _ => rfl, fun _ => rfl, fun _ => rfl⟩
  have meaning : (Node.aggregate keys output).meaning (fun c => c.1.meaning X.semantics) s
      X.semantics = (do
        let rows ← (← s.input).elements
        (aggregateMeaning (fun c => c.1.meaning X.semantics) s keys output reducers).run
          X.semantics rows) := by
    simp only [Node.meaning, h.declared]
  rw [meaning]
  change X.Within roles views ((foldAggregate (OpNode.evaluate X.host) p).collect X.host x) _
  rw [foldAggregate_eq]
  refine Yields.aggregate ?_ source (fun groups row => ?_) ?_ fun record => ?_
  · rw [foldAll_eq, List.isEmpty_map]
    exact congrArg Bool.not hgrouped
  · refine Yields.feedRow (enter_scope ?_) (mapM_foldAll (keyParts row)) ?_
      (leave_scope (h.row_free st.clear)) _
    · rw [resets_foldScope, h.rowScope]
    · change List.Forall₂ _ (p.slots.map _) (reducers.map _)
      rw [List.forall₂_map_left_iff, List.forall₂_map_right_iff]
      refine forall₂_imp_both h.slots fun o ho red hred sound => ?_
      refine Yields.feedSlot (sound.ofSlot (slotPart row ho hred)) fun f hf => call ?_
      rw [foldSlot_eq] at hf
      exact pureReducers red hred f (sound.kind ▸ hf)
  · refine Yields.emptyRecord (enter_scope ?_) ?_
      (leave_scope (s := s.onRow (.ok x)) (h.row_free st.clear))
    · rw [resets_foldScope, h.rowScope]
    · change List.Forall₂ _ (p.slots.map _) (reducers.map _)
      rw [List.forall₂_map_left_iff, List.forall₂_map_right_iff]
      exact forall₂_imp_both h.slots fun o ho red hred sound =>
        sound.empty (seeds red hred) (slotPart x ho hred)
  · refine Yields.emit ?_ fun values => emitting hgroup (in_scope
      (s.emitting (.ofGroup (keys.map (·.1)) (reducers.map Smaller.plain) ⟨record.key, values⟩)) ?_
      (h.output_free st.clear) ?_)
    · change List.Forall₂ _ (p.slots.map _) (reducers.map _)
      rw [List.forall₂_map_left_iff, List.forall₂_map_right_iff]
      refine h.slots.imp fun o red sound => ?_
      rw [foldSlot_eq]
      exact sound.kind
    · rw [resets_foldScope, h.outputScope]
    · exact h.emitted.yields
        (st.sees.emitting (st.clear.below (h.output_above _)) (st.covers .output) key)
        (h.output_clear st.clear _)
        (h.outputOpens (assigns_enter (h.output_nodup st.clear)) (st.sees.finds.emitting key))

/-! ### Joins -/

section Sides

variable {root : Expr} {roles : ValueRoles} {views : Views} {x : Value} {s : Scene}

theorem ConjunctionSound.holds {op : Option Op} {cs : List (Smaller root)}
    (h : X.ConjunctionSound env t op cs) (clear : ∀ o ∈ op.toList, X.Clear roles o)
    (sees : ∀ c ∈ cs, X.Sees env roles views x c.1.analysis s)
    (binds : X.Binds env t roles views x s) :
    X.Within roles views (Eval.holds (foldOption (OpNode.evaluate X.host) op) x)
      (allHold (cs.map fun c => c.1.meaning X.semantics s)) := by
  obtain ⟨ops, rfl, sound⟩ := h
  have parts (clear : ∀ o ∈ ops, X.Clear roles o) := forall₂_imp_both sound fun o ho c hc h =>
    h.yields (sees c hc) (clear o ho) binds
  match ops, sound with
  | [], .nil => exact .pure true (.refl _)
  | [o], .cons _ .nil =>
    cases parts clear with
    | cons head _ => exact Yields.holds (.some head)
  | o :: o' :: os, _ =>
    have both : X.Clear roles (.mk (.and (o :: o' :: os))) := clear _ List.mem_cons_self
    have items := parts fun _ hop => both.part (fun _ _ => rfl) hop
    rw [allHold_eq _ (.bool true) rfl]
    exact (Yields.shortCircuit (forall₂_foldAll items) (.bool true)).bind fun v =>
      .pure v.isTruthy (.refl _)

/-- The key of the row that is in place, if the filter of its side accepts it. -/
theorem SideSound.acceptedKey {side : JoinSideOp Op} {keys filter : List (Smaller root)}
    (h : X.SideSound env t side keys filter) (clear : ∀ o ∈ side.parts, X.Clear roles o)
    (sees : ∀ c ∈ keys ++ filter, X.Sees env roles views x c.1.analysis s)
    (binds : X.Binds env t roles views x s) :
    X.Within roles views ((foldSide (OpNode.evaluate X.host) side).acceptedKey x)
      (sideKey (fun c => c.1.meaning X.semantics) s keys filter) := by
  rw [foldSide_eq]
  refine (h.filter.holds (fun o ho => clear o (List.mem_append_right _ ho))
    (fun c hc => sees c (List.mem_append_right _ hc)) binds).bind fun accepted => ?_
  refine .ite _ ?_ (.pure none (.refl _))
  rw [JoinSideOp.key, bind_assoc]
  simp only [pure_bind]
  refine Yields.bind ?_ fun values => .pure (some (Value.tuple values)) (.refl _)
  rw [foldAll_eq]
  refine Yields.mapM ?_
  rw [List.forall₂_map_left_iff]
  refine forall₂_imp_both h.keys fun o ho c hc h => ?_
  exact (h.yields (sees c (List.mem_append_left _ hc)) (clear o (List.mem_append_left _ ho))
    binds).bind fun v => .pure v.hashKey (.refl _)

end Sides

/-- The slots of a join, those of the primary row and the secondary row first. -/
theorem perm_places (p : JoinOp Op) :
    (p.primarySide.2.slot :: p.secondarySide.2.slot :: (p.primarySide.1.scope.resets ++
      p.secondarySide.1.scope.resets ++ p.pairScope.resets)).Perm (OpNode.join p).places := by
  rw [JoinOp.primarySide, JoinOp.secondarySide]
  cases p.isSwapped with
  | false => exact .refl _
  | true =>
    refine (List.Perm.swap _ _ _).trans ?_
    exact ((List.perm_append_comm.append_right _).cons _).cons _

/-- A join evaluates what it should if its sides and its condition do so with the rows in place. -/
theorem ofJoin {p : JoinOp Op} {m : JoinMeaning} {t₂ t₃ : State}
    {first second : JoinSideOp Op × Binding} {roles : ValueRoles} {views : Views} {x : Value}
    (primary secondary : Value → Scene) (pair : Value → Value → Scene) (hkind : p.kind = m.kind)
    (hfirst : p.primarySide = first)
    (hsecond : p.secondarySide = second) (hscope₁ : first.1.scope = t₁.scope)
    (hscope₂ : second.1.scope = t₂.scope) (hscope₃ : p.pairScope = t₃.scope)
    (clear : X.Clear roles (.mk (.join p)))
    (primaryKey : ∀ row, X.Within (X.entered (roles.keep first.2.slot row) t₁ (primary row)) views
      ((foldSide (OpNode.evaluate X.host) first.1).acceptedKey x) (m.primaryKey row))
    (secondaryKey : ∀ row, X.Within (X.entered (roles.keep second.2.slot row) t₂ (secondary row))
      views ((foldSide (OpNode.evaluate X.host) second.1).acceptedKey x) (m.secondaryKey row))
    (residual : ∀ row other, X.Within
      (X.entered ((roles.keep first.2.slot row).keep second.2.slot other) t₃ (pair row other)) views
      (Eval.holds (foldOption (OpNode.evaluate X.host) p.residual) x) (m.fits row other)) :
    Yields.OfJoin (X.Holds roles views)
      (fun row => X.Holds (X.entered (roles.keep first.2.slot row) t₁ (primary row)) views)
      (fun row => X.Holds (roles.keep first.2.slot row) views) x
      (foldJoin (OpNode.evaluate X.host) p) m := by
  have slots := perm_places p
  rw [hfirst, hsecond, hscope₁, hscope₂, hscope₃] at slots
  have free : ∀ n ∈ (OpNode.join p).places, roles n = .free := clear.freePlaces
  have nodup := slots.nodup_iff.mpr clear.here.nodup
  simp only [← slots.mem_iff, List.mem_cons, List.mem_append] at free
  simp only [List.nodup_cons, List.mem_cons, List.mem_append, not_or] at nodup
  obtain ⟨⟨hne, ⟨hfirst₁, -⟩, hfirst₃⟩, ⟨⟨-, hsecond₂⟩, hsecond₃⟩, -⟩ := nodup
  obtain ⟨a, hslots⟩ := clear.reach
  have hroom : first.2.slot < X.room.slots ∧ second.2.slot < X.room.slots := by
    rw [← hfirst, ← hsecond, JoinOp.primarySide, JoinOp.secondarySide]
    cases p.isSwapped with
    | false => exact hslots
    | true => exact hslots.symm
  have inside {n m : Nat} (v : Value) (hn : roles n = .free) (hnm : n ≠ m) :
      roles.keep m v n = .free := (Roles.keep_ne _ hnm).trans hn
  -- The places of the three scopes and the two row slots are apart, so what is kept in a row's
  -- slot is not lost when a scope is entered.
  have free₁ (row : Value) : ∀ n ∈ t₁.scope.resets, roles.keep first.2.slot row n = .free :=
    fun n hn => inside row (free n (.inr (.inr (.inl (.inl hn))))) fun h => hfirst₁ (h ▸ hn)
  have free₂ (row : Value) : ∀ n ∈ t₂.scope.resets, roles.keep second.2.slot row n = .free :=
    fun n hn => inside row (free n (.inr (.inr (.inl (.inr hn))))) fun h => hsecond₂ (h ▸ hn)
  have free₃ (row other : Value) : ∀ n ∈ t₃.scope.resets,
      (roles.keep first.2.slot row).keep second.2.slot other n = .free := by
    intro n hn
    have hn₂ : n ≠ second.2.slot := fun h => hsecond₃ (h ▸ hn)
    rw [Roles.keep_ne _ hn₂]
    exact inside row (free n (.inr (.inr (.inr hn)))) fun h => hfirst₃ (h ▸ hn)
  have hsecondFree (row : Value) : roles.keep first.2.slot row second.2.slot = .free :=
    inside row (free _ (.inr (.inl rfl))) (Ne.symm hne)
  refine ⟨?_, fun row => ?_, fun row => ?_, fun row => ?_, fun row => leave_scope (free₁ row),
    fun row other => ?_, fun row => drop (free _ (.inl rfl))⟩
  · rw [foldJoin_eq]
    exact hkind
  · rw [foldJoin_secondarySide, hsecond, JoinSideOp.place, bind_assoc]
    refine in_slot hroom.2 (free _ (.inr (.inl rfl))) (in_scope (secondary row) ?_ (free₂ row)
      (secondaryKey row))
    rw [foldSide_eq, resets_foldScope, hscope₂]
  · rw [foldJoin_primarySide, hfirst]
    refine (keep hroom.1).after (enter_scope ?_)
    rw [foldSide_eq, resets_foldScope, hscope₁]
  · rw [foldJoin_primarySide, hfirst]
    exact (primaryKey row).weaken (.refl _) (leave_scope (free₁ row))
  · rw [foldJoin_secondarySide, hsecond, foldJoin_eq]
    refine in_slot hroom.2 (hsecondFree row) (in_scope (pair row other) ?_ (free₃ row other)
      (residual row other))
    rw [resets_foldScope, hscope₃]

/-- The same in terms of left and right. -/
theorem exists_ofJoin {p : JoinOp Op} {m : JoinMeaning} {t₂ t₃ : State}
    {leftScene rightScene : Value → Scene} {pairScene : Value → Value → Scene} {roles : ValueRoles}
    {views : Views} {x : Value} (hkind : p.kind = m.kind) (hscope₁ : p.leftSide.scope = t₁.scope)
    (hscope₂ : p.rightSide.scope = t₂.scope) (hscope₃ : p.pairScope = t₃.scope)
    (clear : X.Clear roles (.mk (.join p)))
    (leftKey : ∀ row, X.Within (X.entered (roles.keep p.leftRow.slot row) t₁ (leftScene row)) views
      ((foldSide (OpNode.evaluate X.host) p.leftSide).acceptedKey x) (m.leftKey row))
    (rightKey : ∀ row, X.Within (X.entered (roles.keep p.rightRow.slot row) t₂ (rightScene row))
      views ((foldSide (OpNode.evaluate X.host) p.rightSide).acceptedKey x) (m.rightKey row))
    (residual : ∀ l r, X.Within
      (X.entered ((roles.keep p.leftRow.slot l).keep p.rightRow.slot r) t₃ (pairScene l r)) views
      (Eval.holds (foldOption (OpNode.evaluate X.host) p.residual) x) (m.residual l r)) :
    ∃ placed accepted, Yields.OfJoin (X.Holds roles views) placed accepted x
      (foldJoin (OpNode.evaluate X.host) p) m := by
  -- A right join walks its right input: the sides are exchanged, and so are the row slots.
  by_cases hright : p.kind = .right
  · have hswapped : m.swapped = true := decide_eq_true (hkind ▸ hright)
    have hfirst : p.primarySide = (p.rightSide, p.rightRow) := if_pos (decide_eq_true hright)
    have hsecond : p.secondarySide = (p.leftSide, p.leftRow) := if_pos (decide_eq_true hright)
    have hne : p.leftRow.slot ≠ p.rightRow.slot := fun h =>
      (List.nodup_cons.mp clear.here.nodup).1 (h ▸ List.mem_cons_self)
    refine ⟨_, _, ofJoin rightScene leftScene (fun r l => pairScene l r) hkind hfirst hsecond
      hscope₂ hscope₁ hscope₃ clear (fun row => ?_) (fun row => ?_) fun r l => ?_⟩
    · rw [JoinMeaning.primaryKey, if_pos hswapped]
      exact rightKey row
    · rw [JoinMeaning.secondaryKey, if_pos hswapped]
      exact leftKey row
    · rw [JoinMeaning.fits, if_pos hswapped, Roles.keep_comm _ hne]
      exact residual l r
  · have hswapped : ¬m.swapped = true := fun h => hright (hkind.trans (of_decide_eq_true h))
    have hfirst : p.primarySide = (p.leftSide, p.leftRow) :=
      if_neg fun h => hright (of_decide_eq_true h)
    have hsecond : p.secondarySide = (p.rightSide, p.rightRow) :=
      if_neg fun h => hright (of_decide_eq_true h)
    refine ⟨_, _, ofJoin leftScene rightScene pairScene hkind hfirst hsecond hscope₁ hscope₂
      hscope₃ clear (fun row => ?_) (fun row => ?_) fun l r => ?_⟩
    · rw [JoinMeaning.primaryKey, if_neg hswapped]
      exact leftKey row
    · rw [JoinMeaning.secondaryKey, if_neg hswapped]
      exact rightKey row
    · rw [JoinMeaning.fits, if_neg hswapped]
      exact residual l r

variable (X) in
/-- Sound operations of a join with this plan. -/
structure JoinSound (env : Env) (key : NodeKey) (t t₁ t₂ t₃ : State) (p : JoinOp Op)
    (left right : Smaller e) (plan : JoinPlan (Smaller e)) : Prop where
  left : X.Sound env t p.left left.1
  right : X.Sound env t p.right right.1
  preFilter : X.ConjunctionSound env t p.preFilter plan.preFilter
  leftOpens : X.Opens { env.enter (.part env.context key .leftRow) env.input with
    join := some ⟨p.leftRow, p.rightRow⟩ } t₁
  rightOpens : X.Opens { env.enter (.part env.context key .rightRow) env.input with
    join := some ⟨p.leftRow, p.rightRow⟩ } t₂
  pairOpens : X.Opens (env.pair key ⟨p.leftRow, p.rightRow⟩) t₃
  leftSide : X.SideSound { env.enter (.part env.context key .leftRow) env.input with
    join := some ⟨p.leftRow, p.rightRow⟩ } t₁ p.leftSide (plan.keys.map (·.1)) plan.leftFilter
  rightSide : X.SideSound { env.enter (.part env.context key .rightRow) env.input with
    join := some ⟨p.leftRow, p.rightRow⟩ } t₂ p.rightSide (plan.keys.map (·.2)) plan.rightFilter
  pairScope : p.pairScope = t₃.scope
  residual : X.ConjunctionSound (env.pair key ⟨p.leftRow, p.rightRow⟩) t₃ p.residual plan.residual

namespace JoinSound

variable {t₂ t₃ : State} {p : JoinOp Op} {left right : Smaller e} {condition : Option (Smaller e)}
  {roles : ValueRoles} {views : Views} {x : Value} {s : Scene}
  (h : X.JoinSound env key t t₁ t₂ t₃ p left right (.ofCondition condition p.kind))
include h

theorem places : (OpNode.join p).places = p.leftRow.slot :: p.rightRow.slot ::
    (t₁.scope.resets ++ t₂.scope.resets ++ t₃.scope.resets) := by
  rw [← h.leftSide.scope, ← h.rightSide.scope, ← h.pairScope]
  rfl

theorem outside {n : Nat} (hn : n ∉ (OpNode.join p).places) : n ≠ p.leftRow.slot ∧
    n ≠ p.rightRow.slot ∧ n ∉ t₁.scope.resets ∧ n ∉ t₂.scope.resets ∧ n ∉ t₃.scope.resets := by
  rw [h.places] at hn
  simpa [not_or] using hn

variable (st : X.Stage e (.join left right condition p.kind) env t (.join p) roles views x s)
include st

theorem nodup : (p.leftRow.slot :: p.rightRow.slot ::
    (t₁.scope.resets ++ t₂.scope.resets ++ t₃.scope.resets)).Nodup := h.places ▸ st.clear.here.nodup

theorem enabled :
    X.Within roles views (Eval.holds (foldOption (OpNode.evaluate X.host) p.preFilter) x)
      (joinMeaning (fun c => c.1.meaning X.semantics) s p.kind
        (.ofCondition condition p.kind)).enabled := by
  refine h.preFilter.holds (fun op hop => st.clear.part (fun _ _ => rfl) ?_) (fun c hc => ?_)
    st.binds
  · simp only [OpNode.parts, List.mem_cons, List.mem_append]
    exact .inr (.inr (.inl (.inl (.inl hop))))
  · refine st.sees.same (.refl _) (st.covers (.here ?_))
    exact List.mem_cons_of_mem _ (List.mem_cons_of_mem _ hc)

theorem leftKey (row : Value) :
    X.Within (X.entered (roles.keep p.leftRow.slot row) t₁ (s.withRows (some row) none)) views
      ((foldSide (OpNode.evaluate X.host) p.leftSide).acceptedKey x)
      ((joinMeaning (fun c => c.1.meaning X.semantics) s p.kind
        (.ofCondition condition p.kind)).leftKey row) := by
  have above : ∀ n, n ∉ (OpNode.join p).places →
      X.entered (roles.keep p.leftRow.slot row) t₁ (s.withRows (some row) none) n = roles n :=
    fun n hn => (entered_apart (h.outside hn).2.2.1).trans (Roles.keep_ne _ (h.outside hn).1)
  have nodup := h.nodup st
  simp only [List.nodup_cons, List.nodup_append, List.mem_cons, List.mem_append, not_or] at nodup
  refine h.leftSide.acceptedKey (fun op hop => st.clear.part above ?_) (fun c hc => ?_)
    (h.leftOpens (assigns_enter nodup.2.2.1.1)
    (st.sees.finds.withRows (st.clear.below above) key (by decide)))
  · simp only [OpNode.parts, List.mem_cons, List.mem_append]
    exact .inr (.inr (.inl (.inl (.inr hop))))
  · obtain ⟨honRows, hsides⟩ := JoinPlan.mem_left hc
    refine st.sees.withRows (st.clear.below above) (st.covers (.joined honRows)) key (by decide)
      (fun _ => ⟨row, ?_, rfl⟩) fun h => ?_
    · exact (entered_apart nodup.1.2.1.1).trans (Roles.keep_self _ _ _)
    · rw [hsides] at h
      cases h

theorem rightKey (row : Value) :
    X.Within (X.entered (roles.keep p.rightRow.slot row) t₂ (s.withRows none (some row))) views
      ((foldSide (OpNode.evaluate X.host) p.rightSide).acceptedKey x)
      ((joinMeaning (fun c => c.1.meaning X.semantics) s p.kind
        (.ofCondition condition p.kind)).rightKey row) := by
  have above : ∀ n, n ∉ (OpNode.join p).places →
      X.entered (roles.keep p.rightRow.slot row) t₂ (s.withRows none (some row)) n = roles n :=
    fun n hn => (entered_apart (h.outside hn).2.2.2.1).trans (Roles.keep_ne _ (h.outside hn).2.1)
  have nodup := h.nodup st
  simp only [List.nodup_cons, List.nodup_append, List.mem_cons, List.mem_append, not_or] at nodup
  refine h.rightSide.acceptedKey (fun op hop => st.clear.part above ?_) (fun c hc => ?_)
    (h.rightOpens (assigns_enter nodup.2.2.1.2.1)
    (st.sees.finds.withRows (st.clear.below above) key (by decide)))
  · simp only [OpNode.parts, List.mem_cons, List.mem_append]
    exact .inr (.inr (.inl (.inr hop)))
  · obtain ⟨honRows, hsides⟩ := JoinPlan.mem_right hc
    refine st.sees.withRows (st.clear.below above) (st.covers (.joined honRows)) key (by decide)
      (fun h => ?_) fun _ => ⟨row, ?_, rfl⟩
    · rw [hsides] at h
      cases h
    · exact (entered_apart nodup.2.1.1.2).trans (Roles.keep_self _ _ _)

theorem fits (l r : Value) :
    X.Within (X.entered ((roles.keep p.leftRow.slot l).keep p.rightRow.slot r) t₃
        (s.withRows (some l) (some r))) views
      (Eval.holds (foldOption (OpNode.evaluate X.host) p.residual) x)
      ((joinMeaning (fun c => c.1.meaning X.semantics) s p.kind
        (.ofCondition condition p.kind)).residual l r) := by
  have above : ∀ n, n ∉ (OpNode.join p).places →
      X.entered ((roles.keep p.leftRow.slot l).keep p.rightRow.slot r) t₃
        (s.withRows (some l) (some r)) n = roles n :=
    fun n hn => (entered_apart (h.outside hn).2.2.2.2).trans
      ((Roles.keep_ne _ (h.outside hn).2.1).trans (Roles.keep_ne _ (h.outside hn).1))
  have nodup := h.nodup st
  simp only [List.nodup_cons, List.nodup_append, List.mem_cons, List.mem_append, not_or] at nodup
  refine h.residual.holds (fun op hop => st.clear.part above ?_) (fun c hc => ?_)
    (h.pairOpens (assigns_enter nodup.2.2.2.1)
    (st.sees.finds.withRows (st.clear.below above) key (by decide)))
  · simp only [OpNode.parts, List.mem_cons, List.mem_append]
    exact .inr (.inr (.inr hop))
  · refine st.sees.withRows (st.clear.below above)
      (st.covers (.joined (List.mem_append_right _ hc))) key (by decide) (fun _ => ⟨l, ?_, rfl⟩)
      fun _ => ⟨r, ?_, rfl⟩
    · rw [entered_apart nodup.1.2.2, Roles.keep_ne _ nodup.1.1, Roles.keep_self]
    · rw [entered_apart nodup.2.1.2, Roles.keep_self]

end JoinSound

theorem sound_join {p : JoinOp Op} {left right : Smaller e} {condition : Option (Smaller e)}
    {t₂ t₃ : State} (he : X.Orderly e)
    (hnode : e.parts = .join left right condition p.kind)
    (h : X.JoinSound env key t t₁ t₂ t₃ p left right (.ofCondition condition p.kind)) :
    X.NodeSound env t (.mk (.join p)) e := by
  refine .of he hnode fun {roles views x s} st => ?_
  have leftRows := st.here h.left List.mem_cons_self List.mem_cons_self
  have rightRows := st.here h.right (List.mem_cons_of_mem _ List.mem_cons_self)
    (List.mem_cons_of_mem _ List.mem_cons_self)
  obtain ⟨placed, accepted, join⟩ := exists_ofJoin rfl h.leftSide.scope h.rightSide.scope
    h.pairScope st.clear (h.leftKey st) (h.rightKey st) (h.fits st)
  change X.Within roles views ((foldJoin (OpNode.evaluate X.host) p).collect x) _
  rw [foldJoin_eq] at join ⊢
  exact Yields.join join leftRows rightRows (h.enabled st)

end Execution
end DataExpr
