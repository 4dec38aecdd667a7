import DataExpr.Eval.Cursor
import DataExpr.Proofs.Agreement

/-!
# Agreement of operations

When the parts of two operations agree, so do the operations.  Each rule says which
links the parts have to keep: an item of a comprehension, a row of an aggregate or a pair
of a join runs in a world that is linked in its own way, and the link of the whole holds
again afterwards.
-/

namespace DataExpr

open Eval Reduction

variable {σ τ α : Type}

/-! ### Operands -/

/-- Operands of which a prefix is evaluated; `post` links the worlds wherever that ends. -/
inductive Exits (post fail : Link σ τ) (x y : Value) :
    Link σ τ → List (Evaluator σ) → List (Evaluator τ) → Prop
  | nil {pre : Link σ τ} (h : pre.Within post) : Exits post fail x y pre [] []
  | cons {pre mid : Link σ τ} {c : Evaluator σ} {d : Evaluator τ} {cs : List (Evaluator σ)}
      {ds : List (Evaluator τ)} (head : Agree pre mid fail (c x) (d y)) (exit : mid.Within post)
      (tail : Exits post fail x y mid cs ds) : Exits post fail x y pre (c :: cs) (d :: ds)

theorem Exits.agree {post fail : Link σ τ} {x y : Value} {pre : Link σ τ}
    {cs : List (Evaluator σ)} {ds : List (Evaluator τ)} (h : Exits post fail x y pre cs ds)
    (deciding : Bool) (last : Value) :
    Agree pre post fail (shortCircuit deciding x last cs) (shortCircuit deciding y last ds) := by
  induction h generalizing last with
  | nil hpre => exact .pure last hpre
  | cons head exit _ ih =>
    refine head.bind fun v => ?_
    exact .ite _ (.pure v exit) (ih v)

/-- What follows a step of a path from a container. -/
def afterStep (default : Option (Evaluator σ)) (x container : Value)
    (rest : List (Step (Evaluator σ))) : Except Error Value → Eval σ Value
  | .ok v => follow default x v rest
  | .error e =>
    match default with
    | some default => if e.isAbsent container then default x else throw e
    | none => throw e

theorem follow_cons (default : Option (Evaluator σ)) (x v : Value) (step : Step (Evaluator σ))
    (rest : List (Step (Evaluator σ))) :
    follow default x v (step :: rest) = step.take x v >>= afterStep default x v rest := by
  rw [follow]
  congr 1
  funext r
  cases r <;> cases default <;> rfl

/-- A path that may be left early, in worlds linked by `exit`, for a default. -/
inductive FollowAgree (exit post fail : Link σ τ) (x y : Value) :
    Link σ τ → List (Step (Evaluator σ)) → List (Step (Evaluator τ)) → Prop
  | nil {pre : Link σ τ} (h : pre.Within post) : FollowAgree exit post fail x y pre [] []
  | key {pre mid : Link σ τ} {c : Evaluator σ} {d : Evaluator τ} {cs : List (Step (Evaluator σ))}
      {ds : List (Step (Evaluator τ))} (head : Agree pre mid fail (c x) (d y))
      (leave : mid.Within exit) (failed : mid.Within fail)
      (tail : FollowAgree exit post fail x y mid cs ds) :
      FollowAgree exit post fail x y pre (.key c :: cs) (.key d :: ds)
  | attr {pre : Link σ τ} {name : String} {cs : List (Step (Evaluator σ))}
      {ds : List (Step (Evaluator τ))} (leave : pre.Within exit) (failed : pre.Within fail)
      (tail : FollowAgree exit post fail x y pre cs ds) :
      FollowAgree exit post fail x y pre (.attr name :: cs) (.attr name :: ds)

theorem FollowAgree.agree {exit post fail pre : Link σ τ} {x y : Value}
    {cs : List (Step (Evaluator σ))} {ds : List (Step (Evaluator τ))}
    (h : FollowAgree exit post fail x y pre cs ds) {c : Option (Evaluator σ)}
    {d : Option (Evaluator τ)}
    (hdefault : Option.Rel (fun c d => Agree exit post fail (c x) (d y)) c d) (v : Value) :
    Agree pre post fail (follow c x v cs) (follow d y v ds) := by
  -- A failed step is left for the default, or it is the failure of the path.
  have leave {mid : Link σ τ} {cs : List (Step (Evaluator σ))} {ds : List (Step (Evaluator τ))}
      (leave : mid.Within exit) (failed : mid.Within fail)
      (tail : ∀ v, Agree mid post fail (follow c x v cs) (follow d y v ds)) (v : Value)
      (r : Except Error Value) :
      Agree mid post fail (afterStep c x v cs r) (afterStep d y v ds r) := by
    rcases r with e | v
    · cases hdefault with
      | none => exact .throw e failed
      | some h => exact .ite _ (h.weaken leave (.refl post) (.refl fail)) (.throw e failed)
    · exact tail v
  induction h generalizing v with
  | nil hpre => exact .pure v hpre
  | @key pre mid f g cs ds head hleave failed _ ih =>
    have taken : Agree pre mid fail (Step.take (.key f) x v) (Step.take (.key g) y v) :=
      head.bind fun k => .pure _ (.refl mid)
    rw [follow_cons, follow_cons]
    exact taken.bind (leave hleave failed ih v)
  | @attr pre name cs ds hleave failed _ ih =>
    have taken : Agree pre pre fail (Step.take (.attr name : Step (Evaluator σ)) x v)
        (Step.take (.attr name : Step (Evaluator τ)) y v) := .pure _ (.refl pre)
    rw [follow_cons, follow_cons]
    exact taken.bind (leave hleave failed ih v)

/-! ### Guarded operations -/

/-- Handlers that catch the same errors and agree once they have caught one. -/
structure HandlerAgree (pre post fail : Link σ τ) (x y : Value) (h : HandlerOp (Evaluator σ))
    (k : HandlerOp (Evaluator τ)) : Prop where
  kinds : h.kinds = k.kinds
  handle : ∀ e, Agree pre post fail (h.handle e x) (k.handle e y)

/-- A handler agrees when its condition and its value do. -/
theorem HandlerOp.handle_agree {pre mid post fail : Link σ τ} {x y : Value}
    {h : HandlerOp (Evaluator σ)} {k : HandlerOp (Evaluator τ)} (failed : mid.Within fail)
    (skip : pre.Within mid)
    (hreraise : Option.Rel (fun c d => Agree pre mid fail (c x) (d y)) h.reraiseIf k.reraiseIf)
    (hvalue : Agree mid post fail (h.value x) (k.value y)) (e : Error) :
    Agree pre post fail (h.handle e x) (k.handle e y) := by
  obtain ⟨kinds, value, reraiseIf⟩ := h
  obtain ⟨kinds', value', reraiseIf'⟩ := k
  cases hreraise with
  | none => exact hvalue.weaken skip (.refl post) (.refl fail)
  | some hcd =>
    refine hcd.bind fun v => ?_
    exact .ite _ (.throw e failed) hvalue

/-- Of elements that are related one by one, those that are found first are related. -/
theorem rel_find? {γ δ : Type} {R : γ → δ → Prop} {cs : List γ} {ds : List δ}
    (h : List.Forall₂ R cs ds)
    {p : γ → Bool} {q : δ → Bool} (hsame : ∀ c d, R c d → p c = q d) :
    Option.Rel R (cs.find? p) (ds.find? q) := by
  induction h with
  | nil => exact .none
  | @cons c d _ _ hcd _ ih =>
    rw [List.find?_cons, List.find?_cons, ← hsame c d hcd]
    cases p c with
    | true => exact .some hcd
    | false => exact ih

/-- Of handlers that agree one by one, those that catch an error first agree. -/
theorem find?_catches_agree {pre post fail : Link σ τ} {x y : Value}
    {hs : List (HandlerOp (Evaluator σ))} {ks : List (HandlerOp (Evaluator τ))}
    (h : List.Forall₂ (HandlerAgree pre post fail x y) hs ks) (e : Error) :
    Option.Rel (HandlerAgree pre post fail x y) (hs.find? (·.catches e))
      (ks.find? (·.catches e)) :=
  rel_find? h fun h k hd => by simp only [HandlerOp.catches, hd.kinds]

/-- A body with a way to go on for some of its errors. -/
def Eval.guardWith (body : Eval σ α) (handle : Error → Option (Eval σ α)) : Eval σ α := do
  match ← attempt body with
  | .ok v => return v
  | .error e =>
    match handle e with
    | none => throw e
    | some m => m

theorem Eval.Agree.guardWith {pre post fail fail₁ : Link σ τ} {m : Eval σ α} {n : Eval τ α}
    {f : Error → Option (Eval σ α)} {g : Error → Option (Eval τ α)}
    (hbody : Agree pre post fail₁ m n) (failed : fail₁.Within fail)
    (hhandle : ∀ e, Option.Rel (Agree fail₁ post fail) (f e) (g e)) :
    Agree pre post fail (Eval.guardWith m f) (Eval.guardWith n g) := by
  refine hbody.attempt_bind (fun v => .pure v (.refl post)) fun e => ?_
  have found := hhandle e
  dsimp only
  generalize f e = h at found ⊢
  generalize g e = k at found ⊢
  cases found with
  | none => exact .throw e failed
  | some hm => exact hm

/-- What a guarded operation does about an error. -/
def GuardOp.handler (op : GuardOp (Evaluator σ)) (x : Value) (e : Error) :
    Option (Eval σ Value) :=
  (op.handlers.find? (·.catches e)).map fun h => do
    setSlot op.caught.slot (.str e.message)
    h.handle e x

theorem GuardOp.run_eq (op : GuardOp (Evaluator σ)) (x : Value) :
    op.run x = Eval.guardWith (op.body x) (op.handler x) := by
  rw [GuardOp.run, Eval.guardWith]
  congr 1
  funext r
  rcases r with e | v
  · simp only [GuardOp.handler]
    cases op.handlers.find? (·.catches e) <;> rfl
  · rfl

theorem GuardOp.run_agree {pre post fail fail₁ : Link σ τ} {caught : Error → Link σ τ}
    {x y : Value}
    {g : GuardOp (Evaluator σ)} {k : GuardOp (Evaluator τ)}
    (hbody : Agree pre post fail₁ (g.body x) (k.body y)) (failed : fail₁.Within fail)
    (hcaught : ∀ e : Error, Agree fail₁ (caught e) fail (setSlot g.caught.slot (.str e.message))
      (setSlot k.caught.slot (.str e.message)))
    (hhandlers : ∀ e, List.Forall₂ (HandlerAgree (caught e) post fail x y) g.handlers k.handlers) :
    Agree pre post fail (g.run x) (k.run y) := by
  rw [GuardOp.run_eq, GuardOp.run_eq]
  refine hbody.guardWith failed fun e => ?_
  have found := find?_catches_agree (hhandlers e) e
  simp only [GuardOp.handler]
  generalize g.handlers.find? (·.catches e) = h at found ⊢
  generalize k.handlers.find? (·.catches e) = h' at found ⊢
  cases found with
  | none => exact .none
  | some hh => exact .some ((hcaught e).bind fun _ => hh.handle e)

/-! ### Comprehensions and sorts -/

namespace LoopOp

variable {pre link fail : Link σ τ} {x y : Value} {p : LoopOp (Evaluator σ)}
  {q : LoopOp (Evaluator τ)}

/-- One item: the scope is entered, then the filter, the key and the element are evaluated. -/
theorem step_agree {item : Value} {enter afterFilter afterKey : Link σ τ}
    (henter : Agree link enter fail (reset p.scope.resets) (reset q.scope.resets))
    (hfilter : Option.Rel (fun c d => Agree enter afterFilter fail (c item) (d item))
      p.filter q.filter)
    (noFilter : enter.Within afterFilter)
    (hkey : Option.Rel (fun c d => Agree afterFilter afterKey fail (c item) (d item)) p.key q.key)
    (noKey : afterFilter.Within afterKey)
    (helement : Agree afterKey link fail (p.element item) (q.element item))
    (leave : afterFilter.Within link) :
    Agree link link fail (p.step item) (q.step item) := by
  refine henter.bind fun _ => ?_
  refine (Agree.holds hfilter noFilter).bind fun accepted => ?_
  refine .ite _ ?_ (.pure none leave)
  refine (Agree.mapM_option hkey noKey).bind fun k => ?_
  exact helement.bind fun v => .pure _ (.refl link)

theorem steps_agree (hstep : ∀ item, Agree link link fail (p.step item) (q.step item))
    (items : List Value) : Agree link link fail (p.steps items) (q.steps items) := by
  induction items with
  | nil => exact .pure [] (.refl link)
  | cons item rest ih =>
    refine (hstep item).bind fun r => ?_
    cases r with
    | none => exact ih
    | some r => exact ih.bind fun rs => .pure (r :: rs) (.refl link)

theorem items_agree (hsource : Agree pre link fail (p.source x) (q.source y))
    (failed : link.Within fail) : Agree pre link fail (p.items x) (q.items y) :=
  hsource.bind fun v => .lift v.elements (.refl link) failed

theorem collect_agree (hkind : p.kind = q.kind)
    (hsource : Agree pre link fail (p.source x) (q.source y)) (failed : link.Within fail)
    (hstep : ∀ item, Agree link link fail (p.step item) (q.step item)) :
    Agree pre link fail (p.collect x) (q.collect y) := by
  refine (items_agree hsource failed).bind fun items => ?_
  refine (steps_agree hstep items).bind fun results => ?_
  rw [hkind]
  exact .pure _ (.refl link)

/-- Going through the items up to the next result. -/
theorem nextItem_agree (hstep : ∀ item, Agree link link fail (p.step item) (q.step item))
    (items : List Value) :
    Agree link link fail (Cursor.nextItem p items) (Cursor.nextItem q items) := by
  induction items with
  | nil => exact .pure none (.refl link)
  | cons item rest ih =>
    refine (hstep item).bind fun r => ?_
    cases r with
    | none => exact ih
    | some r => exact .pure _ (.refl link)

end LoopOp

namespace SortOp

variable {pre link fail : Link σ τ} {x y : Value} {p : SortOp (Evaluator σ)}
  {q : SortOp (Evaluator τ)}

theorem key_agree {item : Value} {enter : Link σ τ}
    (henter : Agree link enter fail (reset p.scope.resets) (reset q.scope.resets))
    (hkeys : AgreeAll fail (fun k : SortKeyOp (Evaluator σ) => k.op item)
      (fun k : SortKeyOp (Evaluator τ) => k.op item) enter p.keys q.keys link) :
    Agree link link fail (p.key item) (q.key item) :=
  henter.bind fun _ => hkeys.mapM

theorem collect_agree (hreverse : p.reverse = q.reverse)
    (horders : p.keys.map (·.order) = q.keys.map (·.order))
    (hsource : Agree pre link fail (p.source x) (q.source y)) (failed : link.Within fail)
    (hkey : ∀ item, Agree link link fail (p.key item) (q.key item)) :
    Agree pre link fail (p.collect x) (q.collect y) := by
  have hempty : p.keys.isEmpty = q.keys.isEmpty := by
    have := congrArg List.isEmpty horders
    simpa using this
  refine hsource.bind fun v => ?_
  refine Agree.bind (.lift v.elements (.refl link) failed) fun items => ?_
  simp only [hreverse, horders, hempty]
  refine .ite _ ?_ ?_
  · refine Agree.bind (.lift (Value.sort items q.reverse) (.refl link) failed) fun sorted => ?_
    exact .pure _ (.refl link)
  · refine Agree.bind (.mapM_same items fun item _ => ?_) fun keyed => ?_
    · exact (hkey item).bind fun k => .pure (k, item) (.refl link)
    · refine Agree.bind (.lift (Value.sortByKeys _ keyed q.reverse) (.refl link) failed)
        fun sorted => ?_
      exact .pure _ (.refl link)

end SortOp

/-! ### Aggregates -/

/-- Evaluation with a group in place.  `inside` links the worlds while it is, and the
    worlds before tell which groups come back. -/
theorem Eval.Agree.withGroup {pre inside insideFail post fail : Link σ τ} {g k : Nat}
    {view : Group} {m : Eval σ α} {n : Eval τ α}
    (henter : ∀ w v, pre w v → inside
      { w with frame := w.frame.setGroup g (some view) }
      { v with frame := v.frame.setGroup k (some view) })
    (hbody : Agree inside inside insideFail m n)
    (hleave : ∀ w v w' v', pre w v → inside w' v' → post
      { w' with frame := w'.frame.setGroup g (w.frame.group? g) }
      { v' with frame := v'.frame.setGroup k (v.frame.group? k) })
    (hfail : ∀ w v w' v', pre w v → insideFail w' v' → fail
      { w' with frame := w'.frame.setGroup g (w.frame.group? g) }
      { v' with frame := v'.frame.setGroup k (v.frame.group? k) }) :
    Agree pre post fail (Eval.withGroup g view m) (Eval.withGroup k view n) := by
  intro w v hwv
  obtain ⟨result, after⟩ := hbody _ _ (henter w v hwv)
  have hm : (Eval.withGroup g view m).run w =
      ((m.run { w with frame := w.frame.setGroup g (some view) }).1,
        { (m.run { w with frame := w.frame.setGroup g (some view) }).2 with
          frame := (m.run { w with frame := w.frame.setGroup g (some view) }).2.frame.setGroup g
            (w.frame.group? g) }) := rfl
  have hn : (Eval.withGroup k view n).run v =
      ((n.run { v with frame := v.frame.setGroup k (some view) }).1,
        { (n.run { v with frame := v.frame.setGroup k (some view) }).2 with
          frame := (n.run { v with frame := v.frame.setGroup k (some view) }).2.frame.setGroup k
            (v.frame.group? k) }) := rfl
  rw [hm, hn]
  generalize m.run { w with frame := w.frame.setGroup g (some view) } = p at result after ⊢
  generalize n.run { v with frame := v.frame.setGroup k (some view) } = q at result after ⊢
  obtain ⟨r, w'⟩ := p
  obtain ⟨r', v'⟩ := q
  obtain rfl : r = r' := result
  cases r with
  | ok a => exact ⟨rfl, hleave w v w' v' hwv after⟩
  | error e => exact ⟨rfl, hfail w v w' v' hwv after⟩

/-- Slots of two aggregates that are fed alike, on a row or, for the initial value, also
    on the inputs of the aggregates. -/
structure SlotAgree (link fail : Link σ τ) (x y : Value) (p : SlotOp (Evaluator σ))
    (q : SlotOp (Evaluator τ)) : Prop where
  kind : p.kind = q.kind
  seedEmpty : p.seedEmpty = q.seedEmpty
  filter : Option.Rel (fun c d => Agree link link fail (c x) (d y)) p.filter q.filter
  args : List.Forall₂ (fun c d => Agree link link fail (c x) (d y)) p.args q.args
  initial : Option.Rel (fun c d => Agree link link fail (c x) (d y)) p.initial q.initial

namespace SlotOp

variable {link fail : Link σ τ} {host : Host σ} {host' : Host τ}

theorem combine_agree {kind : ReducerKind} (failed : link.Within fail)
    (hcall : ∀ f, kind = .reduce f → ∀ args,
      Agree link link fail (Eval.call host f args) (Eval.call host' f args))
    (acc : Accumulator) (args : List Value) :
    Agree link link fail (combine host kind acc args) (combine host' kind acc args) := by
  unfold combine
  split
  · rename_i f state
    exact (hcall f rfl _).bind fun v => .pure _ (.refl link)
  · exact .lift _ (.refl link) failed

theorem feed_agree {p : SlotOp (Evaluator σ)} {q : SlotOp (Evaluator τ)} {row : Value}
    (h : SlotAgree link fail row row p q) (failed : link.Within fail)
    (hcall : ∀ f, p.kind = .reduce f → ∀ args,
      Agree link link fail (Eval.call host f args) (Eval.call host' f args))
    (slot : Option Accumulator) :
    Agree link link fail (p.feed host slot row) (q.feed host' slot row) := by
  obtain ⟨kind, args, filter, initial, seedEmpty⟩ := p
  obtain ⟨kind', args', filter', initial', seedEmpty'⟩ := q
  obtain ⟨hkind, -, hfilter, hargs, hinitial⟩ := h
  obtain rfl : kind = kind' := hkind
  refine (Agree.holds hfilter (.refl link)).bind fun accepted => ?_
  refine .ite _ ?_ (.pure slot (.refl link))
  refine (AgreeAll.of_forall₂ hargs).mapM.bind fun values => ?_
  cases slot with
  | some acc =>
    exact (combine_agree failed hcall acc values).bind fun a => .pure _ (.refl link)
  | none =>
    refine Agree.bind (.lift (Accumulator.first kind values) (.refl link) failed) fun first => ?_
    cases first with
    | none => exact .pure none (.refl link)
    | some acc =>
      cases hinitial with
      | none => exact .pure _ (.refl link)
      | some hi =>
        refine hi.bind fun v => ?_
        exact (combine_agree failed hcall _ values).bind fun a => .pure _ (.refl link)

theorem empty_agree {p : SlotOp (Evaluator σ)} {q : SlotOp (Evaluator τ)} {x y : Value}
    (hseed : p.seedEmpty = q.seedEmpty)
    (hinitial : p.seedEmpty = true →
      Option.Rel (fun c d => Agree link link fail (c x) (d y)) p.initial q.initial) :
    Agree link link fail (p.empty x) (q.empty y) := by
  obtain ⟨kind, args, filter, initial, seedEmpty⟩ := p
  obtain ⟨kind', args', filter', initial', seedEmpty'⟩ := q
  obtain rfl : seedEmpty = seedEmpty' := hseed
  cases seedEmpty with
  | true =>
    cases hinitial rfl with
    | none => exact .pure none (.refl link)
    | some hi => exact hi.bind fun v => .pure _ (.refl link)
  | false => cases initial <;> cases initial' <;> exact .pure none (.refl link)

end SlotOp

namespace AggregateOp

variable {link fail : Link σ τ} {host : Host σ} {host' : Host τ} {x y : Value}
  {p : AggregateOp (Evaluator σ)} {q : AggregateOp (Evaluator τ)}

/-- Related elements stay related when both lists are paired with a third one. -/
theorem forall₂_zip {γ δ ι : Type} {R : γ → δ → Prop} {cs : List γ} {ds : List δ}
    (h : List.Forall₂ R cs ds) (is : List ι) :
    List.Forall₂ (fun c d => R c.1 d.1 ∧ c.2 = d.2) (cs.zip is) (ds.zip is) := by
  induction h generalizing is with
  | nil => exact .nil
  | cons head _ ih =>
    cases is with
    | nil => exact .nil
    | cons i is => exact .cons ⟨head, rfl⟩ (ih is)

/-- One row: the scope is entered, the keys are evaluated and the slots are fed. -/
theorem feed_agree {row : Value} {enter rowLink : Link σ τ}
    (henter : Agree link enter fail (reset p.rowScope.resets) (reset q.rowScope.resets))
    (hkeys : Agree enter rowLink fail (p.keys.mapM (· row)) (q.keys.mapM (· row)))
    (hslots : List.Forall₂ (SlotAgree rowLink fail row row) p.slots q.slots)
    (hcall : ∀ s ∈ p.slots, ∀ f, s.kind = .reduce f → ∀ args,
      Agree rowLink rowLink fail (Eval.call host f args) (Eval.call host' f args))
    (failed : rowLink.Within fail) (leave : rowLink.Within link) (groups : GroupTable) :
    Agree link link fail (p.feed host groups row) (q.feed host' groups row) := by
  refine henter.bind fun _ => hkeys.bind fun key => ?_
  have hlength : (p.slots.map fun _ => (none : Option Accumulator)) =
    q.slots.map fun _ => none := by
    rw [List.map_const', List.map_const', hslots.length_eq]
  simp only [hlength]
  refine Agree.bind ?_ fun slots => .pure _ leave
  refine AgreeAll.mapM (.of_forall₂ ?_)
  have zipped := forall₂_zip hslots
    ((groups.get? (Value.tuple (key.map Value.hashKey))).getD
    ⟨key, q.slots.map fun _ => none⟩).slots
  generalize ((groups.get? (Value.tuple (key.map Value.hashKey))).getD
    ⟨key, q.slots.map fun _ => none⟩).slots = accs at zipped ⊢
  have hmem : ∀ c ∈ p.slots.zip accs, c.1 ∈ p.slots := fun c hc => (List.of_mem_zip hc).1
  generalize p.slots.zip accs = cs at zipped hmem ⊢
  generalize q.slots.zip accs = ds at zipped ⊢
  induction zipped with
  | nil => exact .nil
  | @cons c d cs ds hcd _ ih =>
    obtain ⟨slot, acc⟩ := c
    obtain ⟨slot', acc'⟩ := d
    obtain ⟨hs, rfl⟩ := hcd
    refine .cons ?_ (ih fun c hc => hmem c (List.mem_cons_of_mem _ hc))
    exact SlotOp.feed_agree hs failed (hcall slot (hmem _ List.mem_cons_self)) acc

/-- The output of a group is evaluated with the group in place. -/
theorem emit_agree {record : GroupRecord}
    (hkinds : List.Forall₂ (fun s t => SlotOp.kind s = SlotOp.kind t) p.slots q.slots)
    (failed : link.Within fail)
    (hgroup : ∀ values : List (Option Value), Agree link link fail
      (Eval.withGroup p.group ⟨record.key, values⟩ do
        Eval.reset p.outputScope.resets
        p.output x)
      (Eval.withGroup q.group ⟨record.key, values⟩ do
        Eval.reset q.outputScope.resets
        q.output y)) :
    Agree link link fail (p.emit x record) (q.emit y record) := by
  refine Agree.bind ?_ hgroup
  refine AgreeAll.mapM (.of_forall₂ ?_)
  refine (forall₂_zip hkinds record.slots).imp fun c d hcd => ?_
  obtain ⟨slot, acc⟩ := c
  obtain ⟨slot', acc'⟩ := d
  obtain ⟨hkind, rfl⟩ : slot.kind = slot'.kind ∧ acc = acc' := hcd
  simp only [hkind]
  exact .lift _ (.refl link) failed

/-- The record of an aggregate that has seen no row. -/
theorem emptyRecord_agree {enter : Link σ τ}
    (henter : Agree link enter fail (reset p.rowScope.resets) (reset q.rowScope.resets))
    (hslots : List.Forall₂ (fun s t => Agree enter enter fail (SlotOp.empty s x) (SlotOp.empty t y))
      p.slots q.slots)
    (leave : enter.Within link) :
    Agree link link fail (p.emptyRecord x) (q.emptyRecord y) := by
  refine henter.bind fun _ => ?_
  exact (AgreeAll.of_forall₂ hslots).mapM.bind fun slots => .pure _ leave

theorem collect_agree {pre : Link σ τ} (hkeys : p.keys.isEmpty = q.keys.isEmpty)
    (hsource : Agree pre link fail (p.source x) (q.source y)) (failed : link.Within fail)
    (hfeed : ∀ groups row, Agree link link fail (p.feed host groups row) (q.feed host' groups row))
    (hempty : p.keys.isEmpty = true → Agree link link fail (p.emptyRecord x) (q.emptyRecord y))
    (hemit : ∀ record, Agree link link fail (p.emit x record) (q.emit y record)) :
    Agree pre link fail (p.collect host x) (q.collect host' y) := by
  refine hsource.bind fun v => ?_
  refine Agree.bind (.lift v.elements (.refl link) failed) fun rows => ?_
  refine Agree.bind (Agree.foldlM_same rows (fun groups row _ => hfeed groups row) _)
    fun groups => ?_
  by_cases h : p.keys.isEmpty = true
  · rw [if_pos h, if_pos (hkeys ▸ h)]
    cases groups.toEntries.getLast? with
    | none => exact (hempty h).bind hemit
    | some entry => exact hemit entry.2
  · rw [if_neg h, if_neg (hkeys ▸ h)]
    refine Agree.bind (.mapM_same _ fun g _ => hemit g.2) fun results => ?_
    exact .pure _ (.refl link)

end AggregateOp

/-! ### Joins -/

namespace Op

variable {β : Type} (combine : OpNode β → β)

theorem foldJoin_primarySide (p : JoinOp Op) :
    (foldJoin combine p).primarySide = (foldSide combine p.primarySide.1, p.primarySide.2) := by
  obtain ⟨kind, _⟩ := p
  cases kind <;> rfl

theorem foldJoin_secondarySide (p : JoinOp Op) :
    (foldJoin combine p).secondarySide =
      (foldSide combine p.secondarySide.1, p.secondarySide.2) := by
  obtain ⟨kind, _⟩ := p
  cases kind <;> rfl

end Op

namespace JoinSideOp

variable {link rejected post fail : Link σ τ} {x y : Value} {p : JoinSideOp (Evaluator σ)}
  {q : JoinSideOp (Evaluator τ)}

theorem key_agree
    (hkeys : AgreeAll fail (fun k : Evaluator σ => k x) (fun k : Evaluator τ => k y) link
      p.keys q.keys post) :
    Agree link post fail (p.key x) (q.key y) := by
  refine Agree.bind ?_ fun values => .pure _ (.refl post)
  refine AgreeAll.mapM ?_
  generalize p.keys = cs at hkeys ⊢
  generalize q.keys = ds at hkeys ⊢
  induction hkeys with
  | nil h => exact .nil h
  | cons head _ ih => exact .cons (head.bind fun v => .pure _ (.refl _)) ih

/-- The filter comes first, and the key is evaluated only for a row that passes it. -/
theorem acceptedKey_agree {passed : Link σ τ}
    (hfilter : Option.Rel (fun c d => Agree link passed fail (c x) (d y)) p.filter q.filter)
    (noFilter : link.Within passed)
    (hkey : Agree passed post fail (p.key x) (q.key y)) (reject : passed.Within post) :
    Agree link post fail (p.acceptedKey x) (q.acceptedKey y) := by
  refine (Agree.holds hfilter noFilter).bind fun accepted => ?_
  exact .ite _ (hkey.bind fun k => .pure _ (.refl post)) (.pure none reject)

/-- The rows of a side, each in worlds of its own in between. -/
theorem candidates_agree {row : Value → Link σ τ} {b c : Binding}
    (hplace : ∀ r, Agree link (row r) fail (p.place b r) (q.place c r))
    (haccepted : ∀ r, Agree (row r) link fail (p.acceptedKey x) (q.acceptedKey y))
    (rows : List Value) (position : Nat) :
    Agree link link fail (p.candidates b x position rows) (q.candidates c y position rows) := by
  induction rows generalizing position with
  | nil => exact .pure [] (.refl link)
  | cons r rest ih =>
    refine (hplace r).bind fun _ => (haccepted r).bind fun key => ?_
    cases key with
    | none => exact ih (position + 1)
    | some key => exact (ih (position + 1)).bind fun found => .pure _ (.refl link)

end JoinSideOp

/-- Joins that take the same rows in the same order and whose parts agree.  Between the rows
    the worlds are linked by `link`, after a row has been placed by `secondary` or
    `primary`, once the primary row has been accepted by `accepted`, and for a pair by
    `paired`. -/
structure JoinAgree (link fail : Link σ τ) (secondary primary accepted : Value → Link σ τ)
    (paired : Value → Value → Link σ τ) (x y : Value) (p : JoinOp (Evaluator σ))
    (q : JoinOp (Evaluator τ)) : Prop where
  kind : p.kind = q.kind
  placeSecondary : ∀ row, Agree link (secondary row) fail
    (p.secondarySide.1.place p.secondarySide.2 row) (q.secondarySide.1.place q.secondarySide.2 row)
  acceptSecondary : ∀ row, Agree (secondary row) link fail
    (p.secondarySide.1.acceptedKey x) (q.secondarySide.1.acceptedKey y)
  placePrimary : ∀ row, Agree link (primary row) fail
    (p.primarySide.1.place p.primarySide.2 row) (q.primarySide.1.place q.primarySide.2 row)
  acceptPrimary : ∀ row, Agree (primary row) (accepted row) fail
    (p.primarySide.1.acceptedKey x) (q.primarySide.1.acceptedKey y)
  skipPrimary : ∀ row, (primary row).Within (accepted row)
  placePair : ∀ row other, Agree (accepted row) (paired row other) fail
    (do
      setSlot p.secondarySide.2.slot other
      reset p.pairScope.resets)
    (do
      setSlot q.secondarySide.2.slot other
      reset q.pairScope.resets)
  checkPair : ∀ row other, Agree (paired row other) (accepted row) fail
    (Eval.holds p.residual x) (Eval.holds q.residual y)
  leave : ∀ row, (accepted row).Within link

namespace JoinAgree

variable {pre link fail : Link σ τ} {secondary primary accepted : Value → Link σ τ}
  {paired : Value → Value → Link σ τ} {x y : Value} {p : JoinOp (Evaluator σ)}
  {q : JoinOp (Evaluator τ)}

theorem isSwapped_eq (h : JoinAgree link fail secondary primary accepted paired x y p q) :
    p.isSwapped = q.isSwapped := by
  simp only [JoinOp.isSwapped, h.kind]

theorem pair_eq (h : JoinAgree link fail secondary primary accepted paired x y p q) :
    p.pair = q.pair := by
  funext a b
  rw [JoinOp.pair, JoinOp.pair, h.isSwapped_eq]

theorem unmatched_eq (h : JoinAgree link fail secondary primary accepted paired x y p q) :
    p.unmatched = q.unmatched := by
  funext state
  simp only [JoinOp.unmatched, h.kind, h.pair_eq]

theorem pairsWith (h : JoinAgree link fail secondary primary accepted paired x y p q)
    (row : Value) (candidates : List Candidate) (matched : Std.TreeSet Nat) :
    Agree (accepted row) (accepted row) fail (p.pairsWith x row candidates matched)
      (q.pairsWith y row candidates matched) := by
  induction candidates generalizing matched with
  | nil => exact .pure _ (.refl _)
  | cons candidate rest ih =>
    have placed := h.placePair row candidate.row
    have checked : Agree (accepted row) (accepted row) fail
        (do
          setSlot p.secondarySide.2.slot candidate.row
          reset p.pairScope.resets
          Eval.holds p.residual x)
        (do
          setSlot q.secondarySide.2.slot candidate.row
          reset q.pairScope.resets
          Eval.holds q.residual y) := by
      have both := placed.bind fun _ => h.checkPair row candidate.row
      simpa only [bind_assoc] using both
    have whole : Agree _ (accepted row) fail _ _ := checked.bind
      (f := fun ok => if ok = true then do
          let r ← p.pairsWith x row rest (matched.insert candidate.position)
          return (p.pair row candidate.row :: r.1, r.2)
        else p.pairsWith x row rest matched)
      (g := fun ok => if ok = true then do
          let r ← q.pairsWith y row rest (matched.insert candidate.position)
          return (q.pair row candidate.row :: r.1, r.2)
        else q.pairsWith y row rest matched) ?_
    · rw [JoinOp.pairsWith, JoinOp.pairsWith]
      simp only [bind_assoc] at whole
      exact whole
    · intro ok
      refine .ite _ ?_ (ih matched)
      rw [h.pair_eq]
      exact (ih _).bind fun r => .pure _ (.refl _)

theorem matchRow (h : JoinAgree link fail secondary primary accepted paired x y p q)
    (state : JoinState) (row : Value) :
    Agree link link fail (p.matchRow x state row) (q.matchRow y state row) := by
  have hpreserves : p.preservesPrimary = q.preservesPrimary := by
    simp only [JoinOp.preservesPrimary, h.kind]
  have found (candidates : List Candidate) : Agree (accepted row) link fail
      (do
        let r ← p.pairsWith x row candidates state.matched
        return (if r.1.isEmpty && p.preservesPrimary then [p.pair row .null] else r.1,
          { state with matched := r.2 }))
      (do
        let r ← q.pairsWith y row candidates state.matched
        return (if r.1.isEmpty && q.preservesPrimary then [q.pair row .null] else r.1,
          { state with matched := r.2 })) := by
    refine (h.pairsWith row _ state.matched).bind fun r => ?_
    rw [hpreserves, h.pair_eq]
    exact .pure _ (h.leave row)
  refine (h.placePrimary row).bind fun _ => ?_
  refine .ite _ ?_ ?_
  · exact (h.acceptPrimary row).bind fun key => found _
  · exact Agree.bind (.pure none (h.skipPrimary row)) fun key => found _

theorem pairs (h : JoinAgree link fail secondary primary accepted paired x y p q)
    (rows : List Value) (state : JoinState) :
    Agree link link fail (p.pairs x rows state) (q.pairs y rows state) := by
  induction rows generalizing state with
  | nil =>
    simp only [JoinOp.pairs, h.unmatched_eq]
    exact .pure _ (.refl link)
  | cons row rest ih =>
    refine (h.matchRow state row).bind fun r => ?_
    exact (ih r.2).bind fun found => .pure _ (.refl link)

theorem next (h : JoinAgree link fail secondary primary accepted paired x y p q)
    (rows : List Value) (state : JoinState) :
    Agree link link fail (p.next x rows state) (q.next y rows state) := by
  induction rows generalizing state with
  | nil =>
    simp only [JoinOp.next, h.unmatched_eq]
    exact .pure _ (.refl link)
  | cons row rest ih =>
    refine (h.matchRow state row).bind fun r => ?_
    exact .ite _ (ih r.2) (.pure _ (.refl link))

theorem start {afterLeft afterRight : Link σ τ}
    (h : JoinAgree link fail secondary primary accepted paired x y p q)
    (hleft : Agree pre afterLeft fail (p.left x) (q.left y))
    (hright : Agree afterLeft afterRight fail (p.right x) (q.right y))
    (hpre : Agree afterRight link fail (Eval.holds p.preFilter x) (Eval.holds q.preFilter y))
    (failedLeft : afterLeft.Within fail) (failedRight : afterRight.Within fail) :
    Agree pre link fail (p.start x) (q.start y) := by
  refine hleft.bind fun l => ?_
  refine Agree.bind (.lift l.elements (.refl _) failedLeft) fun left => ?_
  refine hright.bind fun r => ?_
  refine Agree.bind (.lift r.elements (.refl _) failedRight) fun right => ?_
  refine hpre.bind fun enabled => ?_
  rw [h.isSwapped_eq]
  cases enabled with
  | true =>
    refine Agree.bind
      (JoinSideOp.candidates_agree h.placeSecondary h.acceptSecondary _ 0) fun found => ?_
    exact .pure _ (.refl link)
  | false => exact .pure _ (.refl link)

theorem collect (h : JoinAgree link fail secondary primary accepted paired x y p q)
    (hstart : Agree pre link fail (p.start x) (q.start y)) :
    Agree pre link fail (p.collect x) (q.collect y) := by
  refine hstart.bind fun r => ?_
  exact (h.pairs r.1 r.2).bind fun found => .pure _ (.refl link)

end JoinAgree
end DataExpr
