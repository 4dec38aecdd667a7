import DataExpr.Proofs.Meaning
import DataExpr.Proofs.OpAgreement

/-!
# Evaluations with known results

An evaluation yields a result if it has this result in every world that fulfils a condition, and
leaves a world that fulfils a condition again, whether it has succeeded or failed.  The rules say
what the operations yield, given what their parts do: the pure functions of which the meanings of
nodes are made.
-/

namespace DataExpr

open Reduction

variable {σ α β γ δ : Type}

/-- A condition on the worlds of an evaluation. -/
abbrev Worlds (σ : Type) := World σ → Prop

/-- Whatever fulfils the first condition fulfils the second. -/
def Worlds.Within (p q : Worlds σ) : Prop := ∀ w, p w → q w

namespace Worlds.Within

variable {p q r : Worlds σ}

theorem refl (p : Worlds σ) : p.Within p := fun _ h => h

end Worlds.Within

/-- A conjunction is a short circuit. -/
theorem allHold_eq (rs : List Result) (last : Value) (hlast : last.isTruthy = true) :
    allHold rs = firstDeciding false last rs >>= fun v => .ok v.isTruthy := by
  induction rs generalizing last with
  | nil => exact congrArg Except.ok hlast.symm
  | cons first rest ih =>
    rw [allHold, firstDeciding, bind_assoc]
    refine bind_congr fun v => ?_
    cases hv : v.isTruthy with
    | true => exact ih v hv
    | false => exact congrArg Except.ok hv.symm

namespace Eval

/-- Started in a world with `pre`, an evaluation has this result and ends in a world with
    `post`. -/
def Yields (pre post : Worlds σ) (m : Eval σ α) (r : Except Error α) : Prop :=
  ∀ w, pre w → (m.run w).1 = r ∧ post (m.run w).2

namespace Yields

variable {pre mid post pre' post' p q : Worlds σ}

theorem weaken {m : Eval σ α} {r : Except Error α} (h : Yields pre post m r)
    (hpre : pre'.Within pre) (hpost : post.Within post') : Yields pre' post' m r := fun w hw =>
  ⟨(h w (hpre w hw)).1, hpost _ (h w (hpre w hw)).2⟩

protected theorem pure (a : α) (h : pre.Within post) :
    Yields pre post (pure a : Eval σ α) (.ok a) := fun w hw => ⟨rfl, h w hw⟩

protected theorem throw (e : Error) (h : pre.Within post) :
    Yields pre post (throw e : Eval σ α) (.error e) := fun w hw => ⟨rfl, h w hw⟩

protected theorem lift (r : Except Error α) (h : pre.Within post) :
    Yields pre post (liftM r : Eval σ α) r := fun w hw => ⟨rfl, h w hw⟩

/-- What follows a success is known; after a failure nothing follows. -/
theorem bindOk {m : Eval σ α} {r : Except Error α} {f : α → Eval σ β} {k : α → Except Error β}
    (hm : Yields pre mid m r) (hf : ∀ a, r = .ok a → Yields mid post (f a) (k a))
    (leave : mid.Within post) : Yields pre post (m >>= f) (r >>= k) := by
  intro w hw
  obtain ⟨result, after⟩ := hm w hw
  rw [run_bind]
  generalize m.run w = t at result after ⊢
  obtain ⟨r', w'⟩ := t
  obtain rfl : r' = r := result
  cases r' with
  | ok a => exact hf a rfl w' after
  | error e => exact ⟨rfl, leave w' after⟩

protected theorem bind {m : Eval σ α} {r : Except Error α} {f : α → Eval σ β}
    {k : α → Except Error β} (hm : Yields p p m r) (hf : ∀ a, Yields p p (f a) (k a)) :
    Yields p p (m >>= f) (r >>= k) := hm.bindOk (fun a _ => hf a) (.refl p)

/-- What follows a success that is known. -/
theorem after {m : Eval σ α} {a : α} {f : α → Eval σ β} {r : Except Error β}
    (hm : Yields pre mid m (.ok a)) (hf : Yields mid post (f a) r) :
    Yields pre post (m >>= f) r := by
  intro w hw
  obtain ⟨result, after⟩ := hm w hw
  rw [run_bind]
  generalize m.run w = t at result after ⊢
  obtain ⟨r', w'⟩ := t
  obtain rfl : r' = .ok a := result
  exact hf w' after

theorem attempt_bind {m : Eval σ α} {r : Except Error α} {f : Except Error α → Eval σ β}
    {r' : Except Error β} (hm : Yields pre mid m r) (hf : Yields mid post (f r) r') :
    Yields pre post (attempt m >>= f) r' := by
  intro w hw
  obtain ⟨result, after⟩ := hm w hw
  rw [run_bind, run_attempt]
  generalize m.run w = t at result after ⊢
  obtain ⟨r₀, w'⟩ := t
  obtain rfl : r₀ = r := result
  exact hf w' after

protected theorem updateFrame {f : Frame → Frame}
    (h : ∀ w, pre w → post { w with frame := f w.frame }) :
    Yields pre post (updateFrame f : Eval σ Unit) (.ok ()) := fun w hw => ⟨rfl, h w hw⟩

/-- What depends on the frame only. -/
theorem ofFrame {k : Frame → Eval σ α} {r : Except Error α}
    (h : ∀ w, p w → Yields p p (k w.frame) r) : Yields p p (frame >>= k) r := by
  intro w hw
  rw [run_bind, run_frame]
  exact h w hw w hw

protected theorem ite {m n : Eval σ α} {r s : Except Error α} (c : Prop) [Decidable c]
    (hyes : Yields pre post m r) (hno : Yields pre post n s) :
    Yields pre post (if c then m else n) (if c then r else s) := by
  by_cases h : c
  · simpa only [if_pos h] using hyes
  · simpa only [if_neg h] using hno

/-! ### Lists and options -/

protected theorem mapM {f : γ → Eval σ α} {g : δ → Except Error α} {cs : List γ} {ds : List δ}
    (h : List.Forall₂ (fun c d => Yields p p (f c) (g d)) cs ds) :
    Yields p p (cs.mapM f) (ds.mapM g) := by
  induction h with
  | nil => exact .pure [] (.refl p)
  | cons head _ ih =>
    rw [List.mapM_cons, List.mapM_cons]
    exact head.bind fun a => ih.bind fun as => .pure (a :: as) (.refl p)

theorem mapM_same {f : γ → Eval σ α} {g : γ → Except Error α} (cs : List γ)
    (h : ∀ c ∈ cs, Yields p p (f c) (g c)) : Yields p p (cs.mapM f) (cs.mapM g) :=
  Yields.mapM (List.forall₂_same.mpr h)

theorem foldlM_same {f : β → γ → Eval σ β} {g : β → γ → Except Error β} (cs : List γ)
    (h : ∀ b, ∀ c ∈ cs, Yields p p (f b c) (g b c)) (b : β) :
    Yields p p (cs.foldlM f b) (cs.foldlM g b) := by
  induction cs generalizing b with
  | nil => exact .pure b (.refl p)
  | cons c cs ih =>
    rw [List.foldlM_cons, List.foldlM_cons]
    exact (h b c List.mem_cons_self).bind fun b' =>
      ih (fun b d hd => h b d (List.mem_cons_of_mem c hd)) b'

theorem mapM_option {f : γ → Eval σ α} {c : Option γ} {rs : Option (Except Error α)}
    (h : Option.Rel (fun c r => Yields p p (f c) r) c rs) :
    Yields p p (c.mapM f) (rs.mapM id) := by
  cases h with
  | some hcd => exact hcd.bind fun a => .pure (some a) (.refl p)
  | none => exact .pure none (.refl p)

protected theorem holds {c : Option (Evaluator σ)} {x : Value} {rs : Option Result}
    (h : Option.Rel (fun c r => Yields p p (c x) r) c rs) :
    Yields p p (holds c x) (allHold rs.toList) := by
  cases h with
  | none => exact .pure true (.refl p)
  | @some c r hcd =>
    have truth : allHold [r] = r >>= fun v => .ok v.isTruthy := by
      rw [allHold]
      congr 1
      funext v
      cases v.isTruthy <;> rfl
    rw [Option.toList_some, truth]
    exact hcd.bind fun v => .pure v.isTruthy (.refl p)

theorem shortCircuit {deciding : Bool} {x : Value} {cs : List (Evaluator σ)} {rs : List Result}
    (h : List.Forall₂ (fun c r => Yields p p (c x) r) cs rs) (last : Value) :
    Yields p p (DataExpr.shortCircuit deciding x last cs) (firstDeciding deciding last rs) := by
  induction h generalizing last with
  | nil => exact .pure last (.refl p)
  | cons head _ ih =>
    refine head.bind fun v => ?_
    exact .ite _ (.pure v (.refl p)) (ih v)

/-! ### Paths -/

/-- A step of a path and what its key yields. -/
inductive OfStep (p : Worlds σ) (x : Value) : Step (Evaluator σ) → PathStep Result → Prop
  | key {c : Evaluator σ} {r : Result} (h : Yields p p (c x) r) : OfStep p x (.key c) (.key r)
  | attr {name : String} : OfStep p x (.attr name) (.attr name)

theorem take {x v : Value} {step : Step (Evaluator σ)} {s : PathStep Result}
    (h : OfStep p x step s) : Yields p p (step.take x v) (s.find v) := by
  cases h with
  | key h => exact h.bind fun k => .pure _ (.refl p)
  | attr => exact .pure _ (.refl p)

theorem follow {x : Value} {default : Option (Evaluator σ)} {d : Option Result}
    {steps : List (Step (Evaluator σ))} {path : List (PathStep Result)}
    (hdefault : Option.Rel (fun c r => Yields p p (c x) r) default d)
    (h : List.Forall₂ (OfStep p x) steps path) (v : Value) :
    Yields p p (DataExpr.follow default x v steps) (followPath d v path) := by
  induction h generalizing v with
  | nil => exact .pure v (.refl p)
  | @cons step s steps path head _ ih =>
    rw [follow_cons, followPath]
    refine (take head).bind fun r => ?_
    cases r with
    | ok v => exact ih v
    | error e =>
      cases hdefault with
      | none => exact .throw e (.refl p)
      | some hd => exact .ite _ hd (.throw e (.refl p))

/-! ### Guarded operations -/

theorem handle {x : Value} {h : HandlerOp (Evaluator σ)} {reraise : Option Result}
    {value : Result} (hreraise : Option.Rel (fun c r => Yields p p (c x) r) h.reraiseIf reraise)
    (hvalue : Yields p p (h.value x) value) (e : Error) :
    Yields p p (h.handle e x) (handled e reraise value) := by
  obtain ⟨kinds, op, condition⟩ := h
  cases hreraise with
  | none => exact hvalue
  | some hc => exact hc.bind fun v => .ite _ (.throw e (.refl p)) hvalue

theorem guarded {op : GuardOp (Evaluator σ)} {x : Value} {body : Result}
    {handle : Error → Option Result} (hbody : Yields p p (op.body x) body)
    (hhandle : ∀ e, body = .error e →
      Option.Rel (Yields p p) (op.handler x e) (handle e)) :
    Yields p p (op.run x) (rescue body handle) := by
  rw [GuardOp.run_eq, guardWith]
  refine hbody.attempt_bind ?_
  cases body with
  | ok v => exact .pure v (.refl p)
  | error e =>
    have found := hhandle e rfl
    dsimp only [rescue]
    generalize op.handler x e = h at found ⊢
    generalize handle e = k at found ⊢
    cases found with
    | none => exact .throw e (.refl p)
    | some hm => exact hm

end Yields

/-! ### Comprehensions and sorts -/

namespace Yields

variable {p q : Worlds σ}

theorem loopStep {op : LoopOp (Evaluator σ)} {item : Value} {filter key : Option Result}
    {element : Result} (henter : Yields p q (reset op.scope.resets) (.ok ()))
    (hfilter : Option.Rel (fun c r => Yields q q (c item) r) op.filter filter)
    (hkey : Option.Rel (fun c r => Yields q q (c item) r) op.key key)
    (helement : Yields q q (op.element item) element) (leave : q.Within p) :
    Yields p p (op.step item) (itemResult filter.toList key element) := by
  refine henter.after (Yields.weaken ?_ (.refl q) leave)
  refine (Yields.holds hfilter).bind fun accepted => ?_
  refine .ite _ ?_ (.pure none (.refl q))
  exact (Yields.mapM_option hkey).bind fun k => helement.bind fun v => .pure _ (.refl q)

theorem loopSteps {op : LoopOp (Evaluator σ)}
    {f : Value → Except Error (Option (Option Value × Value))}
    (hstep : ∀ item, Yields p p (op.step item) (f item)) (items : List Value) :
    Yields p p (op.steps items) (items.mapM f >>= fun results => pure results.reduceOption) := by
  induction items with
  | nil => exact .pure [] (.refl p)
  | cons item rest ih =>
    have pure_side : ((item :: rest).mapM f >>= fun results =>
          (pure results.reduceOption : Except Error (List (Option Value × Value)))) =
        f item >>= fun r => (rest.mapM f >>= fun results => pure results.reduceOption) >>=
          fun results => pure (r.toList ++ results) := by
      rw [List.mapM_cons]
      cases f item with
      | error e => rfl
      | ok r =>
        cases rest.mapM f with
        | error e => rfl
        | ok results => cases r <;> rfl
    rw [pure_side]
    refine (hstep item).bind fun r => ?_
    cases r with
    | none =>
      have same (m : Except Error (List (Option Value × Value))) :
          (m >>= fun results =>
            pure ((none : Option (Option Value × Value)).toList ++ results)) = m := by
        cases m <;> rfl
      rw [same]
      exact ih
    | some r => exact ih.bind fun rs => .pure (r :: rs) (.refl p)

theorem loop {op : LoopOp (Evaluator σ)} {x : Value} {source : Result}
    {f : Value → Except Error (Option (Option Value × Value))}
    (hsource : Yields p p (op.source x) source)
    (hstep : ∀ item, Yields p p (op.step item) (f item)) :
    Yields p p (op.collect x) (do
      let items ← (← source).elements
      let results ← items.mapM f
      return LoopOp.build op.kind results.reduceOption) := by
  have items : Yields p p (op.items x) (source >>= Value.elements) :=
    hsource.bind fun v => .lift v.elements (.refl p)
  have whole := items.bind fun items => (loopSteps hstep items).bind (f := fun results =>
    pure (LoopOp.build op.kind results)) (k := fun results => pure (LoopOp.build op.kind results))
    fun results => .pure _ (.refl p)
  simp only [bind_assoc, pure_bind] at whole
  exact whole

theorem sort {op : SortOp (Evaluator σ)} {x : Value} {source : Result}
    {key : Value → Except Error (List Value)} (hsource : Yields p p (op.source x) source)
    (hkey : ∀ item, Yields p p (op.key item) (key item)) :
    Yields p p (op.collect x) (do
      let items ← (← source).elements
      if op.keys.isEmpty then return .list (← Value.sort items op.reverse)
      else
        let keyed ← items.mapM fun item => do
          let k ← key item
          return (k, item)
        return .list (← Value.sortByKeys (op.keys.map (·.order)) keyed op.reverse)) := by
  refine hsource.bind fun v => ?_
  refine (Yields.lift v.elements (.refl p)).bind fun items => ?_
  refine .ite _ ?_ ?_
  · exact (Yields.lift (Value.sort items op.reverse) (.refl p)).bind fun sorted =>
      .pure _ (.refl p)
  · refine (mapM_same items fun item _ => ?_).bind fun keyed => ?_
    · exact (hkey item).bind fun k => .pure (k, item) (.refl p)
    · exact (Yields.lift (Value.sortByKeys _ keyed op.reverse) (.refl p)).bind fun sorted =>
        .pure _ (.refl p)

end Yields
/-! ### Aggregates -/

namespace Yields

variable {p q : Worlds σ} {S : Semantics} {host : Host σ} {x row : Value}

/-- What is evaluated with a group in place; afterwards the previous one is back. -/
protected theorem withGroup {g : Nat} {view : Group} {m : Eval σ α} {r : Except Error α}
    (henter : ∀ w, p w → q { w with frame := w.frame.setGroup g (some view) })
    (hbody : Yields q q m r)
    (hleave : ∀ w w', p w → q w' →
      p { w' with frame := w'.frame.setGroup g (w.frame.group? g) }) :
    Yields p p (Eval.withGroup g view m) r := by
  intro w hw
  obtain ⟨result, after⟩ := hbody _ (henter w hw)
  have hm : (Eval.withGroup g view m).run w =
      ((m.run { w with frame := w.frame.setGroup g (some view) }).1,
        { (m.run { w with frame := w.frame.setGroup g (some view) }).2 with
          frame := (m.run { w with frame := w.frame.setGroup g (some view) }).2.frame.setGroup g
            (w.frame.group? g) }) := rfl
  rw [hm]
  exact ⟨result, hleave w _ hw after⟩

/-- A slot that evaluates for a row what it should. -/
structure OfSlot (q : Worlds σ) (row : Value) (op : SlotOp (Evaluator σ)) (m : SlotMeaning) :
    Prop where
  kind : op.kind = m.kind
  filter : Yields q q (holds op.filter row) (m.accepts row)
  args : Yields q q (op.args.mapM (· row)) (m.args row)
  initial : Option.Rel (fun c f => Yields q q (c row) (f row)) op.initial m.initial

theorem combine {kind : ReducerKind}
    (hcall : ∀ f, kind = .reduce f → ∀ args, Yields q q (call host f args) (S.function f args))
    (acc : Accumulator) (args : List Value) :
    Yields q q (SlotOp.combine host kind acc args) (SlotMeaning.combine S kind acc args) := by
  have plain (kind : ReducerKind) (acc : Accumulator) :
      Yields q q (liftM (acc.combine kind args)) (acc.combine kind args) := .lift _ (.refl q)
  cases kind with
  | reduce f =>
    cases acc with
    | plain cell =>
      cases cell with
      | value state => exact (hcall f rfl _).bind fun v => .pure _ (.refl q)
      | _ => exact plain _ _
    | _ => exact plain _ _
  | _ => exact plain _ _

theorem feedSlot {op : SlotOp (Evaluator σ)} {m : SlotMeaning} (h : OfSlot q row op m)
    (hcall : ∀ f, op.kind = .reduce f → ∀ args, Yields q q (call host f args) (S.function f args))
    (slot : Option Accumulator) : Yields q q (op.feed host slot row) (m.feed S slot row) := by
  obtain ⟨kind, args, filter, initial, seedEmpty⟩ := op
  obtain ⟨kind', accepts, args', initial', seed⟩ := m
  obtain ⟨hkind, hfilter, hargs, hinitial⟩ := h
  obtain rfl : kind = kind' := hkind
  refine hfilter.bind fun accepted => ?_
  refine .ite _ ?_ (.pure slot (.refl q))
  refine hargs.bind fun values => ?_
  cases slot with
  | some acc => exact (combine hcall acc values).bind fun a => .pure _ (.refl q)
  | none =>
    refine Yields.bind (.lift (Accumulator.first kind values) (.refl q)) fun first => ?_
    cases first with
    | none => exact .pure none (.refl q)
    | some acc =>
      cases hinitial with
      | none => exact .pure _ (.refl q)
      | some hi =>
        refine hi.bind fun v => ?_
        exact (combine hcall _ values).bind fun a => .pure _ (.refl q)

/-- A slot that has seen no row: its initial value if it does not read the row. -/
theorem emptySlot {op : SlotOp (Evaluator σ)} {m : SlotMeaning}
    (h : Option.Rel (fun c r => Yields q q (c x) r)
    (op.initial.filter fun _ => op.seedEmpty) m.seed) :
    Yields q q (op.empty x) m.empty := by
  obtain ⟨kind, args, filter, initial, seedEmpty⟩ := op
  obtain ⟨kind', accepts, args', initial', seed⟩ := m
  dsimp only at h
  cases initial with
  | none =>
    cases h
    exact .pure none (.refl q)
  | some c =>
    cases seedEmpty with
    | false =>
      cases h
      exact .pure none (.refl q)
    | true =>
      cases h with
      | some hc => exact hc.bind fun v => .pure _ (.refl q)

/-- Pairs of related elements with a third list. -/
theorem feedSlots {ops : List (SlotOp (Evaluator σ))} {ms : List SlotMeaning}
    (h : List.Forall₂ (fun op m => ∀ acc,
      Yields q q (op.feed host acc row) (m.feed S acc row)) ops ms)
    (accs : List (Option Accumulator)) :
    Yields q q ((ops.zip accs).mapM fun s => s.1.feed host s.2 row)
      ((ms.zip accs).mapM fun s => s.1.feed S s.2 row) := by
  refine Yields.mapM ?_
  induction h generalizing accs with
  | nil => exact .nil
  | cons head _ ih =>
    cases accs with
    | nil => exact .nil
    | cons acc accs => exact .cons (head acc) (ih accs)

/-- One row: the scope is entered, the keys are evaluated and the slots are fed. -/
theorem feedRow {op : AggregateOp (Evaluator σ)} {m : AggregateMeaning}
    (henter : Yields p q (reset op.rowScope.resets) (.ok ()))
    (hkeys : Yields q q (op.keys.mapM (· row)) (m.keys row))
    (hslots : List.Forall₂ (fun op m => ∀ acc,
      Yields q q (SlotOp.feed host op acc row) (SlotMeaning.feed S m acc row)) op.slots m.slots)
    (leave : q.Within p) (groups : GroupTable) :
    Yields p p (op.feed host groups row) (m.feed S groups row) := by
  refine henter.after (Yields.weaken ?_ (.refl q) leave)
  refine hkeys.bind fun key => ?_
  have hlength : (op.slots.map fun _ => (none : Option Accumulator)) =
    m.slots.map fun _ => none := by
    rw [List.map_const', List.map_const', hslots.length_eq]
  simp only [hlength]
  exact (feedSlots hslots _).bind fun slots => .pure _ (.refl q)

/-- The output of a group is evaluated with the values of its slots in place. -/
theorem emit {op : AggregateOp (Evaluator σ)} {m : AggregateMeaning} {record : GroupRecord}
    (hkinds : List.Forall₂ (fun op m => SlotOp.kind op = SlotMeaning.kind m) op.slots m.slots)
    (hgroup : ∀ values : List (Option Value), Yields p p
      (Eval.withGroup op.group ⟨record.key, values⟩ do
        reset op.outputScope.resets
        op.output x) (m.emit ⟨record.key, values⟩)) :
    Yields p p (op.emit x record) (m.finish record) := by
  refine Yields.bind ?_ hgroup
  refine Yields.mapM ?_
  generalize record.slots = accs
  generalize op.slots = slots at hkinds ⊢
  generalize m.slots = meanings at hkinds ⊢
  induction hkinds generalizing accs with
  | nil => exact .nil
  | cons head _ ih =>
    cases accs with
    | nil => exact .nil
    | cons acc accs =>
      refine .cons ?_ (ih accs)
      dsimp only
      rw [head]
      exact .lift _ (.refl p)

theorem emptyRecord {op : AggregateOp (Evaluator σ)} {m : AggregateMeaning}
    (henter : Yields p q (reset op.rowScope.resets) (.ok ()))
    (hslots : List.Forall₂ (fun op m => Yields q q (SlotOp.empty op x) (SlotMeaning.empty m))
      op.slots m.slots) (leave : q.Within p) :
    Yields p p (op.emptyRecord x) (do return ⟨[], ← m.slots.mapM (·.empty)⟩) := by
  refine henter.after (Yields.weaken ?_ (.refl q) leave)
  exact (Yields.mapM hslots).bind fun slots => .pure _ (.refl q)

theorem aggregate {op : AggregateOp (Evaluator σ)} {m : AggregateMeaning} {source : Result}
    (hgrouped : m.grouped = !op.keys.isEmpty) (hsource : Yields p p (op.source x) source)
    (hfeed : ∀ groups row, Yields p p (op.feed host groups row) (m.feed S groups row))
    (hempty : Yields p p (op.emptyRecord x) (do return ⟨[], ← m.slots.mapM (·.empty)⟩))
    (hemit : ∀ record, Yields p p (op.emit x record) (m.finish record)) :
    Yields p p (op.collect host x) (do
      let rows ← (← source).elements
      m.run S rows) := by
  refine hsource.bind fun v => ?_
  refine Yields.bind (.lift v.elements (.refl p)) fun rows => ?_
  refine (foldlM_same rows (fun groups row _ => hfeed groups row) _).bind fun groups => ?_
  rw [hgrouped]
  cases h : op.keys.isEmpty with
  | true =>
    cases groups.toEntries.getLast? with
    | none =>
      have whole := hempty.bind hemit
      rw [bind_assoc] at whole
      exact whole
    | some entry => exact hemit entry.2
  | false =>
    exact (mapM_same _ fun g _ => hemit g.2).bind fun results => .pure _ (.refl p)

end Yields

/-! ### Joins -/

end Eval

/-- Adds the positions of some candidates. -/
def Candidate.mark (matched : Std.TreeSet Nat) (found : List Candidate) : Std.TreeSet Nat :=
  found.foldl (fun matched c => matched.insert c.position) matched

theorem Candidate.contains_mark (matched : Std.TreeSet Nat) (found : List Candidate) (n : Nat) :
    (Candidate.mark matched found).contains n =
      (matched.contains n || found.any (·.position == n)) := by
  induction found generalizing matched with
  | nil => simp [mark]
  | cons c rest ih =>
    have step : mark matched (c :: rest) = mark (matched.insert c.position) rest := rfl
    rw [step, ih, Std.TreeSet.contains_insert, List.any_cons, Bool.or_comm _ (matched.contains n),
      Bool.or_assoc]
    congr 2
    simp [beq_eq_decide]

namespace JoinMeaning

theorem select_bind (fits : Value → Except Error Bool) (c : Candidate) (rest : List Candidate)
    (k : List Candidate → Except Error β) :
    (select fits (c :: rest) >>= k) = fits c.row >>= fun ok =>
      if ok = true then select fits rest >>= fun found => k (c :: found)
      else select fits rest >>= k := by
  rw [select, bind_assoc]
  refine bind_congr fun ok => ?_
  cases ok with
  | false => rfl
  | true =>
    rw [if_pos rfl, if_pos rfl, bind_assoc]
    rfl

/-- The candidates with the key of the current row. -/
def withKey (found : List Candidate) (key : Option Value) : List Candidate :=
  match key with
  | some key => found.filter (·.key == key)
  | none => []

theorem partners_bind (m : JoinMeaning) (found : List Candidate) (row : Value)
    (k : List Candidate → Except Error β) :
    (m.partners found row >>= k) =
      m.primaryKey row >>= fun key => select (m.fits row) (withKey found key) >>= k := by
  rw [partners, bind_assoc]
  refine bind_congr fun key => ?_
  cases key <;> rfl

end JoinMeaning

namespace Eval

namespace Yields

/-- A join that evaluates what it should.  Between the rows the worlds fulfil `p`, after a primary
    row has been placed `placed`, and after it has been accepted `accepted`. -/
structure OfJoin (p : Worlds σ) (placed accepted : Value → Worlds σ) (x : Value)
    (op : JoinOp (Evaluator σ)) (m : JoinMeaning) : Prop where
  kind : op.kind = m.kind
  secondary : ∀ row, Yields p p
    (do
      op.secondarySide.1.place op.secondarySide.2 row
      op.secondarySide.1.acceptedKey x) (m.secondaryKey row)
  place : ∀ row, Yields p (placed row) (op.primarySide.1.place op.primarySide.2 row) (.ok ())
  primary : ∀ row, Yields (placed row) (accepted row) (op.primarySide.1.acceptedKey x)
    (m.primaryKey row)
  skip : ∀ row, (placed row).Within (accepted row)
  pair : ∀ row other, Yields (accepted row) (accepted row)
    (do
      setSlot op.secondarySide.2.slot other
      reset op.pairScope.resets
      holds op.residual x) (m.fits row other)
  leave : ∀ row, (accepted row).Within p

namespace OfJoin

variable {p : Worlds σ} {placed accepted : Value → Worlds σ} {x : Value}
  {op : JoinOp (Evaluator σ)} {m : JoinMeaning} (h : OfJoin p placed accepted x op m)
include h

theorem isSwapped_eq : op.isSwapped = m.swapped := by
  simp only [JoinOp.isSwapped, JoinMeaning.swapped, h.kind]

theorem pair_eq : op.pair = m.pair := by
  funext a b
  rw [JoinOp.pair, JoinMeaning.pair, h.isSwapped_eq]

theorem preserves_eq : op.preservesPrimary = m.preserves := by
  have hkind := h.kind
  unfold JoinOp.preservesPrimary JoinMeaning.preserves
  generalize op.kind = kind at hkind ⊢
  subst hkind
  cases m.kind <;> rfl

theorem candidates (rows : List Value) (position : Nat) :
    Yields p p (op.secondarySide.1.candidates op.secondarySide.2 x position rows)
      (JoinMeaning.candidates m.secondaryKey position rows) := by
  induction rows generalizing position with
  | nil => exact .pure [] (.refl p)
  | cons row rest ih =>
    have whole := (h.secondary row).bind (f := fun key => match key with
        | some key => do
          return ⟨position, key, row⟩ ::
            (← op.secondarySide.1.candidates op.secondarySide.2 x (position + 1) rest)
        | none => op.secondarySide.1.candidates op.secondarySide.2 x (position + 1) rest)
      (k := fun key => match key with
        | some key => do
          return ⟨position, key, row⟩ ::
            (← JoinMeaning.candidates m.secondaryKey (position + 1) rest)
        | none => JoinMeaning.candidates m.secondaryKey (position + 1) rest) fun key => ?_
    · rw [bind_assoc] at whole
      exact whole
    · cases key with
      | none => exact ih (position + 1)
      | some key => exact (ih (position + 1)).bind fun found => .pure _ (.refl p)

/-- The pairs of a primary row with the candidates that fit, which are marked. -/
theorem pairsWith (row : Value) (candidates : List Candidate) (matched : Std.TreeSet Nat) :
    Yields (accepted row) (accepted row) (op.pairsWith x row candidates matched) (do
      let found ← JoinMeaning.select (m.fits row) candidates
      return (found.map fun c => m.pair row c.row, Candidate.mark matched found)) := by
  induction candidates generalizing matched with
  | nil => exact .pure _ (.refl _)
  | cons c rest ih =>
    have whole := (h.pair row c.row).bind (f := fun fits =>
        if fits = true then do
          let r ← op.pairsWith x row rest (matched.insert c.position)
          return (op.pair row c.row :: r.1, r.2)
        else op.pairsWith x row rest matched)
      (k := fun fits =>
        if fits = true then do
          let r ← (do
            let found ← JoinMeaning.select (m.fits row) rest
            return (found.map fun c => m.pair row c.row,
              Candidate.mark (matched.insert c.position) found))
          return (m.pair row c.row :: r.1, r.2)
        else do
          let found ← JoinMeaning.select (m.fits row) rest
          return (found.map fun c => m.pair row c.row, Candidate.mark matched found)) fun fits => ?_
    · rw [JoinOp.pairsWith, JoinMeaning.select_bind]
      simp only [bind_assoc, pure_bind] at whole
      exact whole
    · rw [h.pair_eq]
      exact .ite _ ((ih _).bind fun r => .pure _ (.refl _)) (ih matched)

/-- The partners of a primary row give its pairs and are marked. -/
theorem matchRow (enabled : Bool) (found : List Candidate) (secondary : List Value)
    (matched : Std.TreeSet Nat) (row : Value) :
    Yields p p (op.matchRow x ⟨enabled, .ofList found, secondary, matched⟩ row) (do
      let taken ← (if enabled then m.partners found row else pure [])
      return (m.pairsOf row taken,
        ⟨enabled, .ofList found, secondary, Candidate.mark matched taken⟩)) := by
  -- The pairs with given candidates, which both cases end in.
  have pairs (candidates : List Candidate) : Yields (accepted row) p
      (do
        let r ← op.pairsWith x row candidates matched
        return (if r.1.isEmpty && op.preservesPrimary then [op.pair row .null] else r.1,
          (⟨enabled, .ofList found, secondary, r.2⟩ : JoinState)))
      (do
        let taken ← JoinMeaning.select (m.fits row) candidates
        return (m.pairsOf row taken,
          ⟨enabled, .ofList found, secondary, Candidate.mark matched taken⟩)) := by
    have whole := (h.pairsWith row candidates matched).bindOk
      (f := fun r => pure (if r.1.isEmpty && op.preservesPrimary then [op.pair row .null] else r.1,
        (⟨enabled, .ofList found, secondary, r.2⟩ : JoinState)))
      (fun r _ => .pure _ (h.leave row)) (h.leave row)
    rw [bind_assoc] at whole
    simp only [pure_bind, List.isEmpty_map, h.preserves_eq, h.pair_eq] at whole ⊢
    exact whole
  refine (h.place row).after ?_
  cases enabled with
  | false => exact (pairs []).weaken (h.skip row) (.refl p)
  | true =>
    have whole := (h.primary row).bindOk (f := fun key => do
        let r ← op.pairsWith x row (match key with
          | some key => (Candidates.ofList found).withKey key
          | none => []) matched
        return (if r.1.isEmpty && op.preservesPrimary then [op.pair row .null] else r.1,
          (⟨true, .ofList found, secondary, r.2⟩ : JoinState)))
      (k := fun key => do
        let taken ← JoinMeaning.select (m.fits row) (JoinMeaning.withKey found key)
        return (m.pairsOf row taken,
          ⟨true, .ofList found, secondary, Candidate.mark matched taken⟩)) (fun key _ => ?_)
      (h.leave row)
    · rw [if_pos rfl, if_pos rfl, JoinMeaning.partners_bind]
      exact whole
    · have given := pairs (JoinMeaning.withKey found key)
      cases key with
      | none => exact given
      | some key =>
        simp only [Candidates.withKey_ofList]
        exact given

/-- The secondary rows without a partner. -/
theorem unmatched_eq {state : JoinState} {taken : List Candidate}
    (hmatched : ∀ n, state.matched.contains n = taken.any (·.position == n)) :
    op.unmatched state = m.unmatched state.secondary taken := by
  simp only [JoinOp.unmatched, JoinMeaning.unmatched, h.kind, h.pair_eq, hmatched]

/-- The primary rows one by one, given the candidates that are taken already. -/
theorem pairs (enabled : Bool) (found taken : List Candidate) (secondary : List Value)
    {matched : Std.TreeSet Nat}
    (hmatched : ∀ n, matched.contains n = taken.any (·.position == n)) (rows : List Value) :
    Yields p p (op.pairs x rows ⟨enabled, .ofList found, secondary, matched⟩) (do
      let all ← rows.mapM fun row => if enabled then m.partners found row else pure []
      return (rows.zip all).flatMap (fun r => m.pairsOf r.1 r.2) ++
        m.unmatched secondary (taken ++ all.flatten)) := by
  induction rows generalizing matched taken with
  | nil =>
    rw [JoinOp.pairs, h.unmatched_eq hmatched]
    simp only [List.mapM_nil, pure_bind, List.zip_nil_left, List.flatMap_nil, List.nil_append,
      List.flatten_nil, List.append_nil]
    exact .pure _ (.refl p)
  | cons row rest ih =>
    rw [JoinOp.pairs, List.mapM_cons]
    simp only [bind_assoc, pure_bind, List.zip_cons_cons, List.flatMap_cons, List.flatten_cons]
    have first := h.matchRow enabled found secondary matched row
    cases hpartners : (if enabled then m.partners found row else pure [] : Except Error _) with
    | error e =>
      rw [hpartners] at first
      exact first.bindOk (k := fun _ => .error e) (fun _ hr => by cases hr) (.refl p)
    | ok partners =>
      rw [hpartners] at first
      refine first.bindOk (k := fun r => do
        let all ← rest.mapM fun row => if enabled then m.partners found row else pure []
        return r.1 ++ (rest.zip all).flatMap (fun r => m.pairsOf r.1 r.2) ++
          m.unmatched secondary (taken ++ (partners ++ all.flatten))) (fun r hr => ?_) (.refl p)
      cases hr
      have marked : ∀ n, (Candidate.mark matched partners).contains n =
          (taken ++ partners).any (·.position == n) := by
        intro n
        rw [Candidate.contains_mark, hmatched, List.any_append]
      have others := (ih (taken ++ partners) marked).bind (f := fun found =>
        pure (m.pairsOf row partners ++ found)) (k := fun found =>
        pure (m.pairsOf row partners ++ found)) fun found => .pure _ (.refl p)
      simp only [bind_assoc, pure_bind, ← List.append_assoc] at others ⊢
      exact others

end OfJoin

theorem join {p : Worlds σ} {placed accepted : Value → Worlds σ} {x : Value}
    {op : JoinOp (Evaluator σ)} {m : JoinMeaning} {left right : Result}
    (h : OfJoin p placed accepted x op m) (hleft : Yields p p (op.left x) left)
    (hright : Yields p p (op.right x) right)
    (hpre : Yields p p (holds op.preFilter x) m.enabled) :
    Yields p p (op.collect x) (do
      let l ← (← left).elements
      let r ← (← right).elements
      m.run l r) := by
  simp only [JoinOp.collect, JoinOp.start, bind_assoc]
  refine hleft.bind fun l => (Yields.lift l.elements (.refl p)).bind fun l => ?_
  refine hright.bind fun r => (Yields.lift r.elements (.refl p)).bind fun r => ?_
  rw [JoinMeaning.run, ← h.isSwapped_eq]
  refine hpre.bind fun enabled => ?_
  have unmarked (n : Nat) : (∅ : Std.TreeSet Nat).contains n =
    [].any fun c : Candidate => c.position == n := by
    simp
  have pairs (primary secondary : List Value) (found : List Candidate) :=
    (h.pairs enabled found [] secondary unmarked primary).bind
      (f := fun pairs => pure (Value.list pairs)) (k := fun pairs => pure (Value.list pairs))
      fun pairs => .pure _ (.refl p)
  simp only [bind_assoc, pure_bind, List.nil_append] at pairs
  cases enabled with
  | false => cases op.isSwapped <;> exact pairs _ _ []
  | true =>
    have whole (primary secondary : List Value) :=
      (h.candidates secondary 0).bind (pairs primary secondary)
    rw [if_pos rfl, if_pos rfl, bind_assoc]
    cases op.isSwapped with
    | false => exact whole l r
    | true => exact whole r l

end Yields
end Eval
end DataExpr
