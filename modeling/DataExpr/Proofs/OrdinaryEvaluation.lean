import DataExpr.Proofs.OrdinaryReducers
import DataExpr.Proofs.Simulation
import DataExpr.Proofs.WellScoped

/-!
# Evaluations that do not blame the program

An evaluation proceeds if it leaves the groups of the frame as it has found them, also when it
fails, and does not blame the program (`Eval.Proceeds`).  A node proceeds if its parts do and the
group that it reads is in place (`OpNode.evaluate_proceeds`).  For an aggregate it takes more: its
slots have to be fed with what their kinds take, its records then hold accumulators of these kinds,
and its output has to proceed with a group in place (`AggregateOp.collect_proceeds`).
-/

namespace DataExpr

open Eval Op Reduction

variable {σ α β : Type}

/-! ### Rules -/

/-- With these groups in place the evaluation leaves them in place, what it gives has the property,
    and it does not blame the program. -/
def Eval.Proceeds (groups : Array (Option Group)) (P : α → Prop) (m : Eval σ α) : Prop :=
  ∀ w, w.frame.groups = groups → Ordinary P (m.run w).1 ∧ (m.run w).2.frame.groups = groups

/-- An operation whose evaluation proceeds on every input. -/
def Evaluator.Proceeds (groups : Array (Option Group)) (f : Evaluator σ) : Prop :=
  ∀ x, Eval.Proceeds groups (fun _ => True) (f x)

namespace Eval.Proceeds

variable {groups : Array (Option Group)} {P P' : α → Prop} {Q : β → Prop} {m : Eval σ α}

protected theorem pure {a : α} (h : P a) : Proceeds groups P (pure a : Eval σ α) :=
  fun _ hw => ⟨.ok h, hw⟩

protected theorem throw {e : Error} (h : ¬e.Defensive) :
    Proceeds groups P (throw e : Eval σ α) := fun _ hw => ⟨.error h, hw⟩

protected theorem lift {r : Except Error α} (h : Ordinary P r) :
    Proceeds groups P (liftM r : Eval σ α) := fun _ hw => ⟨h, hw⟩

protected theorem bind {f : α → Eval σ β} (hm : Proceeds groups P m)
    (hf : ∀ a, P a → Proceeds groups Q (f a)) : Proceeds groups Q (m >>= f) := by
  intro w hw
  rw [run_bind]
  obtain ⟨result, after⟩ := hm w hw
  generalize m.run w = r at result after ⊢
  obtain ⟨r, w'⟩ := r
  cases result with
  | ok h => exact hf _ h w' after
  | error h => exact ⟨.error h, after⟩

theorem imp (h : Proceeds groups P m) (himp : ∀ a, P a → P' a) : Proceeds groups P' m :=
  fun w hw => ⟨(h w hw).1.imp himp, (h w hw).2⟩

protected theorem ite {n : Eval σ α} (c : Prop) [Decidable c] (hm : Proceeds groups P m)
    (hn : Proceeds groups P n) : Proceeds groups P (if c then m else n) := by
  split
  · exact hm
  · exact hn

/-- A failure that is caught may be thrown again. -/
theorem attempt (h : Proceeds groups P m) :
    Proceeds groups (fun r => Ordinary P r) (attempt m) := by
  intro w hw
  rw [run_attempt]
  exact ⟨.ok (h w hw).1, (h w hw).2⟩

theorem frame : Proceeds groups (fun fr => fr.groups = groups) (frame : Eval σ Frame) :=
  fun _ hw => ⟨.ok hw, hw⟩

/-- Slots may change. -/
theorem updateFrame {f : Frame → Frame} (h : ∀ fr, (f fr).groups = fr.groups) :
    Proceeds groups (fun _ => True) (updateFrame f : Eval σ Unit) :=
  fun w hw => ⟨.ok trivial, (h w.frame).trans hw⟩

theorem setSlot (slot : Nat) (v : Value) :
    Proceeds groups (fun _ => True) (setSlot slot v : Eval σ Unit) := updateFrame fun _ => rfl

theorem reset (slots : List Nat) :
    Proceeds groups (fun _ => True) (reset slots : Eval σ Unit) := updateFrame fun _ => rfl

theorem slot? (slot : Nat) :
    Proceeds groups (fun _ => True) (slot? slot : Eval σ (Option Value)) :=
  frame.bind fun _ _ => .pure trivial

theorem readSlot (b : Binding) : Proceeds groups (fun _ => True) (readSlot b : Eval σ Value) := by
  refine (slot? b.slot).bind fun v _ => ?_
  cases v with
  | some v => exact .pure trivial
  | none => exact .throw (by simp)

theorem readMemo (b : Binding) {m : Eval σ Value} (h : Proceeds groups (fun _ => True) m) :
    Proceeds groups (fun _ => True) (readMemo b m) := by
  refine (slot? b.slot).bind fun v _ => ?_
  cases v with
  | some v => exact .pure trivial
  | none => exact h.bind fun v _ => (setSlot b.slot v).bind fun _ _ => .pure trivial

/-- A group that is in place can be read. -/
theorem currentGroup {g : Nat} {view : Group} (h : groups[g]?.join = some view) :
    Proceeds groups (fun _ => True) (currentGroup g : Eval σ Group) := by
  refine frame.bind fun fr hfr => ?_
  rw [Frame.group?, hfr, h]
  exact .pure trivial

/-- A group that is put back is where it was. -/
theorem putBack (groups : Array (Option Group)) (g : Nat) (view : Option Group) :
    (groups.setIfInBounds g view).setIfInBounds g groups[g]?.join = groups := by
  refine Array.ext (by simp) fun i hi hi' => ?_
  by_cases h : g = i
  · subst h
    simp [hi']
  · grind

/-- The previous group is back afterwards. -/
theorem withGroup {g : Nat} {view : Group}
    (h : Proceeds (groups.setIfInBounds g (some view)) P m) :
    Proceeds groups P (withGroup g view m) := by
  intro w hw
  obtain ⟨result, after⟩ := h { w with frame := w.frame.setGroup g (some view) } (by
    rw [Frame.setGroup, hw])
  refine ⟨result, ?_⟩
  change (m.run { w with frame := w.frame.setGroup g (some view) }).2.frame.groups.setIfInBounds g
    (w.frame.group? g) = groups
  rw [after, Frame.group?, hw, putBack]

theorem mapM_option {f : α → Eval σ β} {o : Option α} (h : ∀ a ∈ o, Proceeds groups Q (f a)) :
    Proceeds groups (fun _ => True) (o.mapM f) := by
  cases o with
  | none => exact .pure trivial
  | some a => exact (h a rfl).bind fun _ _ => .pure trivial

theorem holds {c : Option (Evaluator σ)} (h : ∀ f ∈ c.toList, f.Proceeds groups) (x : Value) :
    Proceeds groups (fun _ => True) (holds c x) := by
  cases c with
  | none => exact .pure trivial
  | some f => exact (h f List.mem_cons_self x).bind fun _ _ => .pure trivial

/-- The results of the elements, one by one. -/
theorem mapM {R : α → β → Prop} {f : α → Eval σ β} (as : List α)
    (h : ∀ a ∈ as, Proceeds groups (R a) (f a)) :
    Proceeds groups (List.Forall₂ R as) (as.mapM f) := by
  induction as with
  | nil => exact .pure .nil
  | cons a as ih =>
    rw [List.mapM_cons]
    refine (h a List.mem_cons_self).bind fun b hb => ?_
    exact (ih fun a' ha' => h a' (List.mem_cons_of_mem a ha')).bind fun bs hbs =>
      .pure (.cons hb hbs)

/-- Results of elements that have been related to others before and are related to them again. -/
theorem mapM_zip {R : α → β → Prop} {f : α × β → Eval σ β} {as : List α} {bs : List β}
    (h : List.Forall₂ R as bs)
    (hf : ∀ a ∈ as, ∀ b, R a b → Proceeds groups (R a) (f (a, b))) :
    Proceeds groups (List.Forall₂ R as) ((as.zip bs).mapM f) := by
  obtain ⟨hlength, hzip⟩ := List.forall₂_iff_zip.mp h
  refine (mapM (R := fun p b => R p.1 b) _ fun p hp => ?_).imp fun cs hcs => ?_
  · exact hf p.1 (List.of_mem_zip hp).1 p.2 (hzip hp)
  · have firsts : (as.zip bs).map Prod.fst = as := List.map_fst_zip hlength.le
    rw [← firsts]
    exact List.forall₂_map_left_iff.mpr hcs

theorem foldlM {f : β → α → Eval σ β} {as : List α} {b : β} (hb : Q b)
    (h : ∀ b, Q b → ∀ a ∈ as, Proceeds groups Q (f b a)) :
    Proceeds groups Q (as.foldlM f b) := by
  induction as generalizing b with
  | nil => exact .pure hb
  | cons a as ih =>
    rw [List.foldlM_cons]
    refine (h b hb a List.mem_cons_self).bind fun b' hb' => ?_
    exact ih hb' fun b hb a' ha' => h b hb a' (List.mem_cons_of_mem a ha')

end Eval.Proceeds

/-- A host none of whose functions blames the program. -/
def Host.Ordinary (host : Host σ) : Prop := ∀ f args s, Harmless (host.call f args s).1

theorem Eval.Proceeds.call {host : Host σ} (h : host.Ordinary) {groups : Array (Option Group)}
    (f : Function) (args : List Value) :
    Proceeds groups (fun _ => True) (Eval.call host f args) := by
  intro w hw
  rw [run_call]
  exact ⟨h f args w.host, hw⟩

/-! ### Nodes -/

section Nodes

variable {groups : Array (Option Group)}

theorem shortCircuit_proceeds (deciding : Bool) (x last : Value) {items : List (Evaluator σ)}
    (h : ∀ f ∈ items, f.Proceeds groups) :
    Proceeds groups (fun _ => True) (shortCircuit deciding x last items) := by
  induction items generalizing last with
  | nil => exact .pure trivial
  | cons f items ih =>
    refine (h f List.mem_cons_self x).bind fun v _ => .ite _ (.pure trivial) ?_
    exact ih v fun g hg => h g (List.mem_cons_of_mem f hg)

theorem take_proceeds {step : Step (Evaluator σ)} (h : ∀ f ∈ step.parts, f.Proceeds groups)
    (x container : Value) :
    Proceeds groups (Ordinary fun _ => True) (step.take x container) := by
  cases step with
  | key f =>
    refine (h f List.mem_cons_self x).bind fun k _ => .pure ?_
    exact Value.getItem_harmless container k
  | attr name => exact .pure (Value.getAttr_harmless container name)

theorem follow_proceeds {default : Option (Evaluator σ)}
    (hdefault : ∀ f ∈ default.toList, f.Proceeds groups) {steps : List (Step (Evaluator σ))}
    (hsteps : ∀ f ∈ steps.flatMap Step.parts, f.Proceeds groups) (x container : Value) :
    Proceeds groups (fun _ => True) (follow default x container steps) := by
  induction steps generalizing container with
  | nil => exact .pure trivial
  | cons step steps ih =>
    rw [List.flatMap_cons] at hsteps
    rw [follow_cons]
    refine (take_proceeds (fun f hf => hsteps f (List.mem_append_left _ hf)) x container).bind
      fun r hr => ?_
    cases hr with
    | ok _ => exact ih (fun f hf => hsteps f (List.mem_append_right _ hf)) _
    | error he =>
      cases default with
      | none => exact .throw he
      | some f => exact .ite _ (hdefault f List.mem_cons_self x) (.throw he)

theorem HandlerOp.handle_proceeds {handler : HandlerOp (Evaluator σ)}
    (h : ∀ f ∈ handler.parts, f.Proceeds groups) {e : Error} (he : ¬e.Defensive) (x : Value) :
    Proceeds groups (fun _ => True) (handler.handle e x) := by
  obtain ⟨kinds, value, reraiseIf⟩ := handler
  have hvalue := h value (List.mem_append_right _ List.mem_cons_self) x
  cases reraiseIf with
  | none => exact hvalue
  | some condition =>
    exact (h condition List.mem_cons_self x).bind fun _ _ => .ite _ (.throw he) hvalue

theorem GuardOp.run_proceeds {op : GuardOp (Evaluator σ)}
    (h : ∀ f ∈ (OpNode.guarded op).parts, f.Proceeds groups) (x : Value) :
    Proceeds groups (fun _ => True) (op.run x) := by
  refine (h op.body List.mem_cons_self x).attempt.bind fun r hr => ?_
  cases hr with
  | ok _ => exact .pure trivial
  | @error e he =>
    dsimp only
    split
    · exact .throw he
    · rename_i handler found
      have hmem := List.mem_of_find?_eq_some found
      refine (Proceeds.setSlot _ _).bind fun _ _ => HandlerOp.handle_proceeds (fun f hf => ?_) he x
      exact h f (List.mem_cons_of_mem _ (List.mem_flatMap.mpr ⟨handler, hmem, hf⟩))

theorem Eval.Proceeds.elements {m : Eval σ Value} (h : Proceeds groups (fun _ => True) m) :
    Proceeds groups (fun _ => True) (do (← m).elements) :=
  h.bind fun v _ => .lift v.elements_harmless

theorem Eval.Proceeds.evaluateAll {fs : List (Evaluator σ)} (h : ∀ f ∈ fs, f.Proceeds groups)
    (x : Value) : Proceeds groups (fun vs => vs.length = fs.length) (fs.mapM (· x)) :=
  (Proceeds.mapM fs fun f hf => h f hf x).imp fun _ hvs => hvs.length_eq.symm

namespace LoopOp

variable {op : LoopOp (Evaluator σ)} (h : ∀ f ∈ (OpNode.loop op).parts, f.Proceeds groups)

include h

theorem items_proceeds (x : Value) : Proceeds groups (fun _ => True) (op.items x) :=
  (h op.source List.mem_cons_self x).elements

theorem step_proceeds (item : Value) : Proceeds groups (fun _ => True) (op.step item) := by
  have part : ∀ f ∈ op.filter.toList ++ op.key.toList ++ [op.element], f.Proceeds groups :=
    fun f hf => h f (List.mem_cons_of_mem _ hf)
  simp only [List.forall_mem_append] at part
  refine (Proceeds.reset _).bind fun _ _ => (Proceeds.holds part.1.1 item).bind fun _ _ => ?_
  refine .ite _ ?_ (.pure trivial)
  have key : Proceeds groups (fun _ => True) (op.key.mapM (· item)) :=
    .mapM_option fun f hf => part.1.2 f (Option.mem_toList.mpr hf) item
  exact key.bind fun _ _ => (part.2 _ List.mem_cons_self item).bind fun _ _ => .pure trivial

theorem steps_proceeds (items : List Value) :
    Proceeds groups (fun _ => True) (op.steps items) := by
  induction items with
  | nil => exact .pure trivial
  | cons item rest ih =>
    refine (step_proceeds h item).bind fun r _ => ?_
    cases r with
    | none => exact ih
    | some r => exact ih.bind fun _ _ => .pure trivial

theorem collect_proceeds (x : Value) : Proceeds groups (fun _ => True) (op.collect x) :=
  (items_proceeds h x).bind fun items _ => (steps_proceeds h items).bind fun _ _ => .pure trivial

end LoopOp

theorem SortOp.collect_proceeds {op : SortOp (Evaluator σ)}
    (h : ∀ f ∈ (OpNode.sort op).parts, f.Proceeds groups) (x : Value) :
    Proceeds groups (fun _ => True) (op.collect x) := by
  have key (item : Value) : Proceeds groups (fun _ => True) (op.key item) := by
    refine (Proceeds.reset _).bind fun _ _ => (Proceeds.mapM (R := fun _ _ => True) _ ?_).imp ?_
    · exact fun k hk => h k.op (List.mem_cons_of_mem _ (List.mem_map_of_mem hk)) item
    · exact fun _ _ => trivial
  refine (h op.source List.mem_cons_self x).bind fun v _ => ?_
  refine Proceeds.bind (.lift v.elements_harmless) fun items _ => .ite _ ?_ ?_
  · exact Proceeds.bind (.lift (Value.sort_harmless items _)) fun _ _ => .pure trivial
  · refine Proceeds.bind (.mapM (R := fun _ _ => True) items fun item _ => ?_) fun keyed _ => ?_
    · exact (key item).bind fun _ _ => .pure trivial
    · exact Proceeds.bind (.lift (Value.sortByKeys_harmless _ keyed _)) fun _ _ => .pure trivial

namespace JoinSideOp

variable {side : JoinSideOp (Evaluator σ)} (h : ∀ f ∈ side.parts, f.Proceeds groups)

theorem place_proceeds (register : Binding) (row : Value) :
    Proceeds groups (fun _ => True) (side.place register row) :=
  (Proceeds.setSlot _ _).bind fun _ _ => .reset _

include h

theorem acceptedKey_proceeds (x : Value) :
    Proceeds groups (fun _ => True) (side.acceptedKey x) := by
  have key : Proceeds groups (fun _ => True) (side.key x) := by
    refine Proceeds.bind (.mapM (R := fun _ _ => True) side.keys fun k hk => ?_) fun _ _ =>
      .pure trivial
    exact (h k (List.mem_append_left _ hk) x).bind fun _ _ => .pure trivial
  refine (Proceeds.holds (fun f hf => h f (List.mem_append_right _ hf)) x).bind fun _ _ => ?_
  exact .ite _ (key.bind fun _ _ => .pure trivial) (.pure trivial)

theorem candidates_proceeds (register : Binding) (x : Value) (position : Nat)
    (rows : List Value) :
    Proceeds groups (fun _ => True) (side.candidates register x position rows) := by
  induction rows generalizing position with
  | nil => exact .pure trivial
  | cons row rest ih =>
    refine (place_proceeds register row).bind fun _ _ => ?_
    refine (acceptedKey_proceeds h x).bind fun key _ => ?_
    cases key with
    | none => exact ih _
    | some key => exact (ih _).bind fun _ _ => .pure trivial

end JoinSideOp

namespace JoinOp

variable {op : JoinOp (Evaluator σ)} (h : ∀ f ∈ (OpNode.join op).parts, f.Proceeds groups)

include h

theorem pairsWith_proceeds (x row : Value) (candidates : List Candidate)
    (matched : Std.TreeSet Nat) :
    Proceeds groups (fun _ => True) (op.pairsWith x row candidates matched) := by
  have residual : ∀ f ∈ op.residual.toList, f.Proceeds groups := fun f hf =>
    h f (List.mem_cons_of_mem _ (List.mem_cons_of_mem _ (List.mem_append_right _ hf)))
  induction candidates generalizing matched with
  | nil => exact .pure trivial
  | cons candidate rest ih =>
    refine (Proceeds.setSlot _ _).bind fun _ _ => (Proceeds.reset _).bind fun _ _ => ?_
    refine (Proceeds.holds residual x).bind fun _ _ => .ite _ ?_ (ih matched)
    exact (ih _).bind fun _ _ => .pure trivial

theorem matchRow_proceeds (x : Value) (state : JoinState) (row : Value) :
    Proceeds groups (fun _ => True) (op.matchRow x state row) := by
  have found (candidates : List Candidate) : Proceeds groups (fun _ => True) (do
      let r ← op.pairsWith x row candidates state.matched
      let pairs := if r.1.isEmpty && op.preservesPrimary then [op.pair row .null] else r.1
      return (pairs, { state with matched := r.2 })) :=
    (pairsWith_proceeds h x row _ _).bind fun _ _ => .pure trivial
  refine (JoinSideOp.place_proceeds _ _).bind fun _ _ => .ite _ ?_ ?_
  · refine (JoinSideOp.acceptedKey_proceeds (fun f hf => ?_) x).bind fun _ _ => found _
    exact h f (Setting.parts_primarySide hf)
  · exact Proceeds.bind (P := fun _ => True) (.pure trivial) fun _ _ => found _

theorem pairs_proceeds (x : Value) (rows : List Value) (state : JoinState) :
    Proceeds groups (fun _ => True) (op.pairs x rows state) := by
  induction rows generalizing state with
  | nil => exact .pure trivial
  | cons row rest ih =>
    refine (matchRow_proceeds h x state row).bind fun ⟨found, state⟩ _ => ?_
    exact (ih state).bind fun _ _ => .pure trivial

theorem start_proceeds (x : Value) : Proceeds groups (fun _ => True) (op.start x) := by
  refine (h op.left List.mem_cons_self x).bind fun l _ => ?_
  refine Proceeds.bind (.lift l.elements_harmless) fun left _ => ?_
  refine (h op.right (List.mem_cons_of_mem _ List.mem_cons_self) x).bind fun r _ => ?_
  refine Proceeds.bind (.lift r.elements_harmless) fun right _ => ?_
  have preFilter : ∀ f ∈ op.preFilter.toList, f.Proceeds groups := fun f hf =>
    h f (List.mem_cons_of_mem _ (List.mem_cons_of_mem _ (List.mem_append_left _
      (List.mem_append_left _ (List.mem_append_left _ hf)))))
  refine (Proceeds.holds preFilter x).bind fun enabled _ => .ite _ ?_ ?_
  · refine (JoinSideOp.candidates_proceeds (fun f hf => ?_) _ x _ _).bind fun _ _ => .pure trivial
    exact h f (Setting.parts_secondarySide hf)
  · exact Proceeds.bind (P := fun _ => True) (.pure trivial) fun _ _ => .pure trivial

theorem collect_proceeds (x : Value) : Proceeds groups (fun _ => True) (op.collect x) :=
  (start_proceeds h x).bind fun r _ => (pairs_proceeds h x r.1 r.2).bind fun _ _ => .pure trivial

end JoinOp

end Nodes

/-! ### Aggregates -/

section Aggregates

variable {groups : Array (Option Group)} {host : Host σ} (hhost : host.Ordinary)

include hhost

/-- A row is combined with an accumulator of the kind of its slot. -/
theorem SlotOp.combine_proceeds {kind : ReducerKind} {acc : Accumulator} (fits : acc.Fits kind)
    {args : List Value} (h : kind.arity.1 ≤ args.length) :
    Proceeds groups (Accumulator.Fits kind) (SlotOp.combine host kind acc args) := by
  unfold SlotOp.combine
  split
  · exact (Proceeds.call hhost _ _).bind fun v _ => .pure (Accumulator.fits_seed rfl v)
  · rename_i other
    refine .lift (Accumulator.combine_ordinary h ?_ fits)
    rintro f rfl
    -- A fold with a function of the host has a value, which the first branch takes.
    cases fits with
    | plain _ form =>
      rename_i cell _
      cases cell <;> cases form
      exact other f _ rfl rfl
    | keyed keyed => cases keyed

namespace SlotOp

variable {op : SlotOp (Evaluator σ)} (valid : op.Valid) (h : ∀ f ∈ op.parts, f.Proceeds groups)

include valid h

/-- A slot keeps accumulators of its kind. -/
theorem feed_proceeds {slot : Option Accumulator} (fits : ∀ acc ∈ slot, acc.Fits op.kind)
    (row : Value) :
    Proceeds groups (fun slot => ∀ acc ∈ slot, acc.Fits op.kind) (op.feed host slot row) := by
  have ofFit {acc : Accumulator} (fits : acc.Fits op.kind) :
      ∀ a ∈ some acc, a.Fits op.kind := by
    rintro _ ⟨⟩
    exact fits
  have parts := h
  simp only [SlotOp.parts, List.forall_mem_append] at parts
  refine (Proceeds.holds parts.1.1 row).bind fun _ _ => .ite _ ?_ (.pure fits)
  refine (Proceeds.evaluateAll parts.1.2 row).bind fun args hargs => ?_
  have hlength : op.kind.arity.1 ≤ args.length := hargs ▸ valid.least
  cases slot with
  | some acc =>
    exact (SlotOp.combine_proceeds hhost (fits acc rfl) hlength).bind fun _ h => .pure (ofFit h)
  | none =>
    refine Proceeds.bind (.lift (Accumulator.first_ordinary hlength)) fun made hmade => ?_
    cases made with
    | none => exact .pure fun _ h => absurd h (Option.not_mem_none _)
    | some acc =>
      cases hinitial : op.initial with
      | none => exact .pure hmade
      | some initial =>
        have accepts := valid.initial (by rw [hinitial]; rfl)
        refine (parts.2 initial (by rw [hinitial]; exact List.mem_cons_self) row).bind fun v _ => ?_
        exact (SlotOp.combine_proceeds hhost (Accumulator.fits_seed accepts v) hlength).bind
          fun _ h => .pure (ofFit h)

omit hhost in
theorem empty_proceeds (x : Value) :
    Proceeds groups (fun slot => ∀ acc ∈ slot, acc.Fits op.kind) (op.empty x) := by
  unfold SlotOp.empty
  cases hinitial : op.initial with
  | none => exact .pure fun _ h => absurd h (Option.not_mem_none _)
  | some initial =>
    have accepts := valid.initial (by rw [hinitial]; rfl)
    refine .ite _ ?_ (.pure fun _ h => absurd h (Option.not_mem_none _))
    refine (h initial (List.mem_append_right _ (by rw [hinitial]; exact List.mem_cons_self)) x).bind
      fun v _ => .pure ?_
    rintro _ ⟨⟩
    exact Accumulator.fits_seed accepts v

end SlotOp

/-- The accumulators of a record are those of the kinds of the slots. -/
def GroupRecord.Fits {ω : Type} (slots : List (SlotOp ω)) (record : GroupRecord) : Prop :=
  List.Forall₂ (fun slot acc => ∀ a ∈ acc, a.Fits slot.kind) slots record.slots

namespace AggregateOp

variable {op : AggregateOp (Evaluator σ)} (valid : ∀ slot ∈ op.slots, slot.Valid)
  (h : ∀ f ∈ op.keys ++ op.slots.flatMap SlotOp.parts, f.Proceeds groups)
  (houtput : ∀ view, op.output.Proceeds (groups.setIfInBounds op.group (some view)))

include valid h in
/-- A row keeps the records fitting. -/
theorem feed_proceeds {table : GroupTable} (fits : ∀ g ∈ table.toEntries, g.2.Fits op.slots)
    (row : Value) :
    Proceeds groups (fun table : GroupTable => ∀ g ∈ table.toEntries, g.2.Fits op.slots)
      (op.feed host table row) := by
  obtain ⟨keys, parts⟩ := List.forall_mem_append.mp h
  refine (Proceeds.reset _).bind fun _ _ => (Proceeds.evaluateAll keys row).bind fun key _ => ?_
  -- The record of the group of the row, which may be a new one without accumulators.
  dsimp only
  generalize hnormal : Value.tuple (key.map Value.hashKey) = normal
  generalize hrecord : (table.get? normal).getD ⟨key, op.slots.map fun _ => none⟩ = record
  have hfits : record.Fits op.slots := by
    rw [← hrecord, Table.get?_eq, Entries.get?]
    cases found : table.toEntries.find? fun e => e.1 == normal with
    | some g => exact fits g (List.mem_of_find?_eq_some found)
    | none => exact List.forall₂_map_right_iff.mpr (List.forall₂_same.mpr fun _ _ _ h =>
        absurd h (Option.not_mem_none _))
  refine (Proceeds.mapM_zip hfits fun slot hslot acc hacc => ?_).bind fun slots hslots => ?_
  · exact SlotOp.feed_proceeds hhost (valid slot hslot)
      (fun f hf => parts f (List.mem_flatMap.mpr ⟨slot, hslot, hf⟩)) hacc row
  · refine .pure fun g hg => ?_
    rw [Table.toEntries_insert] at hg
    rcases Entries.mem_insert hg with hg | ⟨hg, -⟩
    · exact fits g hg
    · rw [hg]
      exact hslots

omit hhost in
include houtput in
theorem emit_proceeds {record : GroupRecord} (fits : record.Fits op.slots) (x : Value) :
    Proceeds groups (fun _ => True) (op.emit x record) := by
  refine Proceeds.bind (.mapM (R := fun _ _ => True) _ fun p hp => ?_) fun values _ => ?_
  · exact .lift (finishSlot_harmless ((List.forall₂_iff_zip.mp fits).2 hp))
  · exact .withGroup ((Proceeds.reset _).bind fun _ _ => houtput _ x)

omit hhost in
include valid h in
theorem emptyRecord_proceeds (x : Value) :
    Proceeds groups (GroupRecord.Fits op.slots) (op.emptyRecord x) := by
  obtain ⟨-, parts⟩ := List.forall_mem_append.mp h
  refine (Proceeds.reset _).bind fun _ _ => ?_
  refine (Proceeds.mapM op.slots fun slot hslot => ?_).bind fun slots hslots => .pure hslots
  exact SlotOp.empty_proceeds (valid slot hslot)
    (fun f hf => parts f (List.mem_flatMap.mpr ⟨slot, hslot, hf⟩)) x

include valid h houtput in
theorem collect_proceeds (hsource : op.source.Proceeds groups) (x : Value) :
    Proceeds groups (fun _ => True) (op.collect host x) := by
  refine (hsource x).bind fun v _ => ?_
  refine Proceeds.bind (.lift v.elements_harmless) fun rows _ => ?_
  refine Proceeds.bind (.foldlM (Q := fun table : GroupTable =>
    ∀ g ∈ table.toEntries, g.2.Fits op.slots) (fun _ h => absurd h List.not_mem_nil)
    fun table fits row _ => feed_proceeds hhost valid h fits row) fun table fits => .ite _ ?_ ?_
  · split
    · rename_i record found
      exact emit_proceeds houtput (fits _ (List.mem_of_getLast? found)) x
    · exact (emptyRecord_proceeds valid h x).bind fun record fits => emit_proceeds houtput fits x
  · refine Proceeds.bind (.mapM (R := fun _ _ => True) _ fun g hg => ?_) fun _ _ => .pure trivial
    exact emit_proceeds houtput (fits g hg) x

end AggregateOp

end Aggregates

/-! ### All other nodes -/

namespace OpNode

/-- The group that a node reads is in place. -/
def Reads {ω : Type} (groups : Array (Option Group)) : OpNode ω → Prop
  | groupKey g _ | slotValue g _ _ => ∃ view, groups[g]?.join = some view
  | _ => True

variable {groups : Array (Option Group)} {host : Host σ}

/-- A node other than an aggregate proceeds if its parts do. -/
theorem evaluate_proceeds (hhost : host.Ordinary) {node : OpNode (Evaluator σ)}
    (hnode : ∀ op, node ≠ .aggregate op) (reads : node.Reads groups)
    (h : ∀ f ∈ node.parts, f.Proceeds groups) : (node.evaluate host).Proceeds groups := by
  intro x
  -- Aggregates are left to the groups they open; every other node only runs its parts.
  cases node with
  | input | const => exact .pure trivial
  | param index => exact Proceeds.frame.bind fun _ _ => .pure trivial
  | access source steps default =>
    refine (h source List.mem_cons_self x).bind fun v _ => follow_proceeds (fun f hf => ?_)
      (fun f hf => ?_) x v
    · exact h f (List.mem_cons_of_mem _ (List.mem_append_right _ hf))
    · exact h f (List.mem_cons_of_mem _ (List.mem_append_left _ hf))
  | call name f args => exact (Proceeds.evaluateAll h x).bind fun vs _ => .call hhost f vs
  | builtin op args =>
    exact (Proceeds.evaluateAll h x).bind fun vs _ => .lift (op.apply_harmless vs)
  | binary op left right =>
    refine (h left List.mem_cons_self x).bind fun l _ => ?_
    refine (h right (List.mem_cons_of_mem _ List.mem_cons_self) x).bind fun r _ => ?_
    exact .lift (op.apply_harmless l r)
  | unary op operand =>
    exact (h operand List.mem_cons_self x).bind fun v _ => .lift (op.apply_harmless v)
  | and items => exact shortCircuit_proceeds _ x _ h
  | or items => exact shortCircuit_proceeds _ x _ h
  | collection kind items => exact (Proceeds.evaluateAll h x).bind fun _ _ => .pure trivial
  | dict pairs =>
    refine Proceeds.bind (.mapM (R := fun _ _ => True) pairs fun p hp => ?_) fun _ _ =>
      .pure trivial
    have part {f : Evaluator σ} (hf : f ∈ [p.1, p.2]) : f.Proceeds groups :=
      h f (List.mem_flatMap.mpr ⟨p, hp, hf⟩)
    refine (part List.mem_cons_self x).bind fun k _ => ?_
    exact (part (List.mem_cons_of_mem _ List.mem_cons_self) x).bind fun v _ => .pure trivial
  | loop op => exact LoopOp.collect_proceeds h x
  | sort op => exact SortOp.collect_proceeds h x
  | guarded op => exact GuardOp.run_proceeds h x
  | caught b => exact (Proceeds.slot? b.slot).bind fun _ _ => .pure trivial
  | cond condition yes no =>
    refine (h condition List.mem_cons_self x).bind fun v _ => .ite _ ?_ ?_
    · exact h yes (by simp [parts]) x
    · exact h no (by simp [parts]) x
  | pipe producer consumer =>
    refine (h producer List.mem_cons_self x).bind fun v _ => ?_
    exact h consumer (List.mem_cons_of_mem _ List.mem_cons_self) v
  | memo b definition => exact .readMemo b (h definition List.mem_cons_self x)
  | setLabel label value =>
    refine (h value List.mem_cons_self x).bind fun v _ => ?_
    exact (Proceeds.setSlot _ v).bind fun _ _ => .pure trivial
  | getLabel label => exact .readSlot label
  | register row => exact .readSlot row
  | aggregate op => exact absurd rfl (hnode op)
  | join op => exact JoinOp.collect_proceeds h x
  | groupKey group index =>
    obtain ⟨view, hview⟩ := reads
    exact (Proceeds.currentGroup hview).bind fun _ _ => .pure trivial
  | slotValue group index default =>
    obtain ⟨view, hview⟩ := reads
    refine (Proceeds.currentGroup hview).bind fun view _ => ?_
    split
    · exact .pure trivial
    · exact h default List.mem_cons_self x

end OpNode

end DataExpr
