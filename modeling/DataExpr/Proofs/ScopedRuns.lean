import DataExpr.Proofs.Draining
import DataExpr.Proofs.OrdinaryEvaluation

/-!
# Runs of well-scoped programs

A run of a well-scoped program never blames the program.  The outputs to which an operation belongs
are those of aggregates whose groups are in place when it is evaluated (`Around.InPlace`): a group
is put in place for the output of its aggregate, and whatever an evaluation does to the groups is
undone at its end.  So all operations proceed (`Op.WellScoped.proceeds`), and lowered programs
neither fail with an error that blames them when they are called nor when their results are taken
one by one (`Program.ofExpr_runs_harmless`).
-/

namespace DataExpr

open Eval Op Reduction

variable {σ α : Type}

/-! ### Operations -/

/-- The groups to whose outputs an operation belongs are in place. -/
def Around.InPlace (a : Around) (groups : Array (Option Group)) : Prop :=
  ∀ o ∈ a.outputs, ∃ view, groups[o.group]?.join = some view

/-- A group is put in place for the output of its aggregate. -/
theorem Around.InPlace.enter {a : Around} {groups : Array (Option Group)} (h : a.InPlace groups)
    {shape : Shape} (hlt : shape.group < groups.size) (view : Group) (scope : Scope Op) :
    (a.enter [shape] scope).InPlace (groups.setIfInBounds shape.group (some view)) := by
  intro o ho
  by_cases hgroup : shape.group = o.group
  · exact ⟨view, by simp [← hgroup, hlt]⟩
  · rcases List.mem_append.mp ho with ho | ho
    · exact absurd (congrArg Shape.group (List.mem_singleton.mp ho)).symm hgroup
    · obtain ⟨other, hother⟩ := h o ho
      exact ⟨other, by rw [Array.getElem?_setIfInBounds_ne hgroup, hother]⟩

/-- Only the output of an aggregate is evaluated with a group in place. -/
theorem OpNode.outputs_of_entry {node : OpNode Op} (hnode : ∀ op, node ≠ .aggregate op)
    {e : Entry} (he : e ∈ node.entries) : e.outputs = [] := by
  cases node with
  | aggregate op => exact absurd rfl (hnode op)
  | loop | sort | join =>
    simp only [entries, Entry.plain, List.mem_cons, List.mem_append, List.mem_map] at he
    aesop
  | _ =>
    obtain ⟨p, -, rfl⟩ := List.mem_map.mp he
    rfl

theorem SlotOp.Valid.fold {β : Type} {slot : SlotOp Op} (h : slot.Valid)
    (combine : OpNode β → β) : (foldSlot combine slot).Valid := by
  rw [foldSlot_eq]
  constructor
  · simpa [foldAll_eq] using h.least
  · simpa [foldAll_eq] using h.greatest
  · simpa [foldOption_eq] using h.initial

section Entries

variable {room : Room} {a : Around} {groups : Array (Option Group)} {host : Host σ}
  (hhost : host.Ordinary) (hsize : groups.size = room.groups) (hplace : a.InPlace groups)

include hhost hsize hplace

/-- The output of an aggregate is evaluated with the group in place that its slots have been fed
    for. -/
theorem Op.aggregate_proceeds {op : AggregateOp Op} (here : (OpNode.aggregate op).InBounds room a)
    (ih : ∀ e ∈ (OpNode.aggregate op).entries, ∀ groups : Array (Option Group),
      groups.size = room.groups → (a.enter e.outputs e.scope).InPlace groups →
        (e.op.eval host).Proceeds groups) :
    ((Op.mk (.aggregate op)).eval host).Proceeds groups := by
  change Evaluator.Proceeds groups ((foldAggregate (OpNode.evaluate host) op).collect host)
  rw [foldAggregate_eq]
  refine AggregateOp.collect_proceeds hhost (fun slot hslot => ?_) (fun f hf => ?_)
    (fun view => ?_) (ih (.plain op.source) List.mem_cons_self groups hsize hplace)
  · obtain ⟨slot, hmem, rfl⟩ := List.mem_map.mp hslot
    exact (here.2 slot hmem).fold _
  -- Keys and slots are evaluated for each row, while no group of this aggregate is in place.
  · rw [foldAll_eq, flatMap_parts_map _ (parts_foldSlot _), ← List.map_append] at hf
    obtain ⟨p, hp, rfl⟩ := List.mem_map.mp hf
    refine ih ⟨[], op.rowScope, p⟩ ?_ groups hsize hplace
    exact List.mem_cons_of_mem _ (List.mem_append_left _ (List.mem_map_of_mem hp))
  · refine ih ⟨[⟨op.group, op.keys.length, op.slots.length⟩], op.outputScope, op.output⟩ ?_ _
      (by simpa using hsize) (hplace.enter (hsize ▸ here.1) view op.outputScope)
    exact List.mem_cons_of_mem _ (List.mem_append_right _ List.mem_cons_self)

/-- The parts of any other node are evaluated with the groups that are in place around it. -/
theorem Op.node_proceeds {node : OpNode Op} (hnode : ∀ op, node ≠ .aggregate op)
    (here : node.InBounds room a)
    (ih : ∀ e ∈ node.entries, ∀ groups : Array (Option Group),
      groups.size = room.groups → (a.enter e.outputs e.scope).InPlace groups →
        (e.op.eval host).Proceeds groups) :
    ((Op.mk node).eval host).Proceeds groups := by
  change Evaluator.Proceeds groups ((foldNode (OpNode.evaluate host) node).evaluate host)
  refine OpNode.evaluate_proceeds hhost ?_ ?_ fun f hf => ?_
  · intro op h
    cases node with
    | aggregate op => exact hnode op rfl
    | _ => cases h
  · cases node with
    | groupKey g index | slotValue g index =>
      obtain ⟨o, ho, rfl, -⟩ := here
      exact hplace o ho
    | _ => trivial
  · rw [parts_foldNode] at hf
    obtain ⟨p, hp, rfl⟩ := List.mem_map.mp hf
    rw [← OpNode.entries_op] at hp
    obtain ⟨e, he, rfl⟩ := List.mem_map.mp hp
    refine ih e he groups hsize ?_
    rwa [OpNode.outputs_of_entry hnode he]

end Entries

/-- Operations that are well scoped proceed where the groups around them are in place. -/
theorem Op.WellScoped.proceeds {room : Room} {a : Around} {op : Op} (h : op.WellScoped room a)
    {host : Host σ} (hhost : host.Ordinary) {groups : Array (Option Group)}
    (hsize : groups.size = room.groups) (hplace : a.InPlace groups) :
    (op.eval host).Proceeds groups := by
  induction h generalizing groups with
  | @mk a node here _ _ _ _ ih =>
    have parts := fun e he (groups : Array (Option Group)) hsize hplace =>
      @ih e he groups hsize hplace
    by_cases hnode : ∃ op, node = .aggregate op
    · obtain ⟨op, rfl⟩ := hnode
      exact Op.aggregate_proceeds hhost hsize hplace here parts
    · exact Op.node_proceeds hhost hsize hplace (fun op h => hnode ⟨op, h⟩) here parts

/-! ### Runs -/

/-- Whatever is taken from a cursor is one of the results that draining it gives. -/
theorem Cursor.Drains.mem_of_take {k : Cursor σ} {s s' : σ} {results : List (Except Error Value)}
    (h : k.Drains s results s') {n : Nat} {r : Except Error Value} (hr : r ∈ (k.take n s).1) :
    r ∈ results := by
  obtain ⟨m, htake, hm⟩ := h
  induction m generalizing k s results n with
  | zero => exact absurd hm (Nat.not_lt_zero _)
  | succ m ih =>
    cases n with
    | zero => exact absurd hr List.not_mem_nil
    | succ n =>
      rw [take_succ] at htake hr
      rcases hnext : k.next s with ⟨⟨_ | first, k'⟩, t⟩
      · rw [hnext] at hr
        exact absurd hr List.not_mem_nil
      · rw [hnext] at htake hr
        obtain ⟨rfl, rfl⟩ := Prod.mk.inj htake
        rcases List.mem_cons.mp hr with rfl | hr
        · exact List.mem_cons_self
        · exact List.mem_cons_of_mem _ (ih hr rfl (Nat.lt_of_succ_lt_succ hm))

namespace Program

variable {host : Host σ} {program : Program}

theorem bind_harmless (signature : Signature) (params : Params) :
    Harmless (signature.bind params) := by
  have given : Harmless (signature.given params) := by
    unfold Signature.given
    split
    · exact .ok trivial
    · exact .ite _ (.error (by simp)) (.ok trivial)
    · split
      · exact .error (by simp)
      · exact .ok trivial
  have resolve (p : ParamSpec × Option Value) : Harmless (Signature.resolve p.1 p.2) := by
    unfold Signature.resolve
    split
    · exact .ok trivial
    · split
      · exact .ok trivial
      · exact .error (by simp)
  exact given.bind fun values _ => (Ordinary.mapM fun p _ => resolve p).imp fun _ _ => trivial

/-- A run starts with a place for each group, and with no group in place. -/
theorem runFresh_ordinary {P : α → Prop} {m : Eval σ α} (params : Params)
    (h : Proceeds (.replicate program.layout.groups none) P m) (s : σ) :
    Ordinary (fun r => P r.1) (program.runFresh params m s).1 := by
  unfold runFresh frame
  have bound := bind_harmless program.params params
  cases hbind : program.params.bind params with
  | error e =>
    rw [hbind] at bound
    exact bound.rethrow
  | ok values =>
    obtain ⟨result, -⟩ := h ⟨.ofLayout program.layout values, s⟩ rfl
    dsimp only [bind, Except.bind, pure, Except.pure]
    generalize m.run ⟨.ofLayout program.layout values, s⟩ = r at result
    obtain ⟨r, w⟩ := r
    cases result with
    | ok h => exact .ok h
    | error h => exact .error h

variable (h : program.WellScoped) (hhost : host.Ordinary) (input : Value) (params : Params) (s : σ)

include h hhost

theorem WellScoped.call_harmless : Harmless (program.call host input params s).1 := by
  have size : (Array.replicate program.layout.groups (none : Option Group)).size =
      program.layout.groups := Array.size_replicate
  have body := h.body.proceeds hhost size (fun o ho => absurd ho List.not_mem_nil) input
  have run := runFresh_ordinary params body s
  change Harmless ((program.runFresh params (program.body.eval host input) s).1.map (·.1))
  generalize program.runFresh params (program.body.eval host input) s = r at run ⊢
  obtain ⟨r, s'⟩ := r
  cases run with
  | ok h => exact .ok trivial
  | error h => exact .error h

/-- Results that are taken one by one fail, if they do, as the call does. -/
theorem WellScoped.take_harmless (n : Nat) :
    Ordinary (fun results => ∀ r ∈ results, Harmless r)
      (program.takeBy (OpNode.evaluate host) n input params s).1 := by
  have called := h.call_harmless hhost input params s
  have values (taken : List Value) : ∀ r ∈ taken.map Except.ok, Harmless r := by
    intro r hr
    obtain ⟨v, -, rfl⟩ := List.mem_map.mp hr
    exact .ok trivial
  obtain ⟨hlazy, heager, -⟩ := call_eq_drained host program input params s
  rw [takeBy_eq, ← start_eq_startBy]
  -- Where results come lazily, those before a failure are values and the failure is that of the
  -- call; elsewhere the call comes first.
  cases lazy : program.isLazy with
  | true =>
    have started := (hlazy lazy).1
    generalize program.start host input params s = p at started ⊢
    rcases p with ⟨e | k, s'⟩
    · rw [started] at called
      exact called.rethrow
    · refine .ok fun r hr => ?_
      obtain ⟨taken, s'', ⟨drains, -⟩ | ⟨e, drains, failed⟩⟩ := started
      · exact values taken r (drains.mem_of_take hr)
      · rw [failed] at called
        rcases List.mem_append.mp (drains.mem_of_take hr) with hr | hr
        · exact values taken r hr
        · rw [List.mem_singleton.mp hr]
          exact called
  | false =>
    rw [heager lazy]
    generalize program.call host input params s = p at called ⊢
    rcases p with ⟨e | v, s'⟩
    · exact called.rethrow
    · have elements := v.elements_harmless
      dsimp only
      cases helements : v.elements with
      | error e =>
        rw [helements] at elements
        exact elements.rethrow
      | ok items =>
        refine .ok fun r hr => values items r ?_
        exact Cursor.Drains.mem_of_take (Cursor.values_gives items s') hr

omit h in
/-- **No run blames the program.**  Whatever expression has been accepted, and whatever the input
    and the parameters are, neither a call nor a result that is taken fails because a group is not
    there, an accumulator does not match or a key is missing.  Functions of the host must not say so
    themselves. -/
theorem ofExpr_runs_harmless {e : Expr} {signature : Signature} {threshold : Weight.Threshold}
    (h : Program.ofExpr e signature threshold = .ok program) :
    Harmless (program.call host input params s).1 ∧
      ∀ n, Ordinary (fun results => ∀ r ∈ results, Harmless r)
        (program.takeBy (OpNode.evaluate host) n input params s).1 :=
  ⟨(ofExpr_wellScoped h).call_harmless hhost input params s,
    (ofExpr_wellScoped h).take_harmless hhost input params s⟩

end Program

-- A program that is not well scoped is blamed: the key of a group is read outside of the output of
-- an aggregate.
example : ((Program.mk [] [] ⟨[]⟩ (.mk (.groupKey 0 0)) ⟨0, 1⟩).call Host.none .null .none ()).1 =
    .error (.invalidArgument "aggregate" "group state read outside of its aggregate") := rfl

end DataExpr
