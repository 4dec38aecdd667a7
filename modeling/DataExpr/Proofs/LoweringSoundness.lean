import DataExpr.Proofs.ScopeSoundness

/-!
# Lowering is sound

An expression without effects and labels is lowered to an operation that yields what the expression
means (`Execution.lower_sound`), as far as its pipes compute equal producers in one way.  Along
lowering, the surroundings are those of the scope or come after the producers of pipes in it
(`Execution.Place`), and the definitions of the bindings made so far are sound
(`Execution.Defined`).  So the bindings are ready when the scope is entered (`Defined.opens`), and a
binding that is read again stands for an expression that means the same.
-/

namespace DataExpr

open Eval Lowering Op

variable {σ α β : Type}

/-- A key that equals that of an expression is one itself. -/
theorem Lowering.NodeKey.exists_shape {key : NodeKey} {e : Expr} {size : UInt64}
    {hsize : size = e.size} (h : (key == .shape e size hsize) = true) :
    ∃ d size' hsize', key = .shape d size' hsize' := by
  cases key with
  | identity i => cases h
  | shape d size' hsize' => exact ⟨d, size', hsize', rfl⟩

/-- The surroundings at a place in a scope, where no error is handled. -/
def Lowering.Env.placed (base : Env) (context : Context) (input : Input) : Env :=
  { base with context, input, caught := none }

namespace Execution

variable (X : Execution σ)

/-! ### Places in a scope -/

/-- A context and an input that the producers of pipes lead to from those of a scope. -/
inductive Place (base : Env) (t : State) : Context → Input → Prop
  | here : Place base t base.context base.input
  | inlined {context : Context} {input : Input} {p : Expr} {size : UInt64} {hsize : size = p.size}
      {op : Op} (outer : Place base t context input) (mild : p.Mild X.registry)
      (mode : X.inline p = true)
      (sound : X.Sound (base.placed context input) t op p) :
      Place base t (.part context (.shape p size hsize) .consumer) (.inline op)
  | piped {context : Context} {input : Input} {p : Expr} {size : UInt64} {hsize : size = p.size}
      (outer : Place base t context input) (mild : p.Mild X.registry) (mode : X.inline p = false) :
      Place base t (.part context (.shape p size hsize) .consumer) .value

/-- The surroundings are at a place in the scope that was entered with others. -/
structure Situated (base : Env) (t : State) (env : Env) : Prop where
  own : base.context.producers = []
  aggregate : env.aggregate = base.aggregate
  join : env.join = base.join
  place : X.Place base t env.context env.input

/-- A binding for an expression stands for a mild one, and its definition is sound at its place. -/
def Definition (base : Env) (t : State) (b : Bound) : Prop :=
  ∀ e size hsize, b.site.node = .shape e size hsize →
    e.Mild X.registry ∧ e.analysis.readsCaught = false ∧ ∃ input,
      X.Place base t b.site.context input ∧
      X.Sound (base.placed b.site.context input) t b.definition e

/-- The bindings of a scope, each with a definition that is sound given those before it. -/
inductive Defined (base : Env) : List Bound → Prop
  | nil : Defined base []
  | snoc {t : State} {b : Bound} (before : Defined base t.bound) (h : X.Definition base t b) :
      Defined base (t.bound ++ [b])

variable {X} {base env env' : Env} {s s₁ s₂ s' t t' : State}

/-- At its place an operation that does not read the error is as sound. -/
theorem Sound.placed {op : Op} {e : Expr} (h : X.Sound env t op e)
    (situated : X.Situated base t env)
    (hread : e.analysis.readsCaught = false) :
    X.Sound (base.placed env.context env.input) t op e := by
  obtain ⟨-, aggregate, join, -⟩ := situated
  refine ⟨fun {roles views x s} sees clear binds => h.yields ⟨?_, ?_, ?_⟩ clear ?_⟩
  · exact { sees.finds with
      alone := aggregate ▸ sees.finds.alone, output := aggregate ▸ sees.finds.output }
  · intro hc
    rw [hread] at hc
    cases hc
  · exact join ▸ sees.rows
  · exact binds.along (.refl _) .here join rfl

section Place

variable {context context' : Context} {input input' : Input}

theorem Place.mono (h : X.Place base t context input) (hext : Extends t t') :
    X.Place base t' context input := by
  induction h with
  | here => exact .here
  | inlined _ mild mode sound ih => exact .inlined ih mild mode (sound.mono hext)
  | piped _ mild mode ih => exact .piped ih mild mode

theorem Situated.mono (h : X.Situated base t env) (hext : Extends t t') :
    X.Situated base t' env := { h with place := h.place.mono hext }

/-- At like places in a scope the producers before are the same. -/
theorem Place.producers_eq (h : X.Place base t context input)
    (h' : X.Place base t' context' input') (own : base.context.producers = [])
    (alike : context.alike context' = true) : context.producers = context'.producers := by
  -- The context of the scope is that of no consumer, so both places are equally deep.
  have apart {outer : Context} {p : Expr} {size : UInt64} {hsize : size = p.size} :
      base.context.alike (.part outer (.shape p size hsize) .consumer) = false ∧
        (Context.part outer (.shape p size hsize) .consumer).alike base.context = false := by
    cases hbase : base.context with
    | root => exact ⟨rfl, rfl⟩
    | part outer' node which =>
      cases node with
      | identity i => simp [Context.alike, NodeKey.alike]
      | shape q size' hsize' =>
        have hwhich : which ≠ .consumer := by
          rintro rfl
          rw [hbase] at own
          cases own
        simp [Context.alike, hwhich, Ne.symm hwhich]
  have step {outer outer' : Context} {p p' : Expr} {size size' : UInt64} {hsize : size = p.size}
      {hsize' : size' = p'.size} (mild : p.Mild X.registry) (mild' : p'.Mild X.registry)
      (ih : outer.alike outer' = true → outer.producers = outer'.producers)
      (alike : (Context.part outer (.shape p size hsize) .consumer).alike
        (.part outer' (.shape p' size' hsize') .consumer) = true) :
      (Context.part outer (.shape p size hsize) .consumer).producers =
        (Context.part outer' (.shape p' size' hsize') .consumer).producers := by
    simp only [Context.alike, NodeKey.alike, Bool.and_eq_true, beq_self_eq_true, true_and] at alike
    rw [Context.producers, Context.producers, (Expr.alike_iff mild.exact mild'.exact).mp alike.1,
      ih alike.2]
  induction h generalizing context' input' with
  | here =>
    cases h' with
    | here => rfl
    | inlined | piped => rw [apart.1] at alike; cases alike
  | inlined _ mild _ _ ih =>
    cases h' with
    | here => rw [apart.2] at alike; cases alike
    | inlined outer' mild' => exact step mild mild' (ih outer') alike
    | piped outer' mild' => exact step mild mild' (ih outer') alike
  | piped _ mild _ ih =>
    cases h' with
    | here => rw [apart.2] at alike; cases alike
    | inlined outer' mild' => exact step mild mild' (ih outer') alike
    | piped outer' mild' => exact step mild mild' (ih outer') alike

end Place

/-- What is placed in a scope finds the input to which the producers before it lead. -/
theorem Place.finds {roles roles' : ValueRoles} {views : Views} {x y : Value} {u z : Scene}
    {context : Context} {input : Input} {ps : List Expr} (h : X.Place base t context input)
    (own : base.context.producers = []) (finds : X.Finds base roles views x z)
    (binds : X.Binds base t roles views x z) (hle : roles.Below roles')
    (hleads : X.Leads base.join roles' x z ps y u) (hps : context.producers = ps) :
    X.Finds (base.placed context input) roles' views y u := by
  -- By induction on the pipes between the base and the place: each of them leads one input
  -- further, inlined or bound as its mode says.
  induction h generalizing roles' y u ps with
  | here =>
    rw [own] at hps
    subst hps
    cases hleads
    exact { finds.mono hle with }
  | @inlined context input p size hsize op outer mild mode sound ih =>
    subst hps
    cases hleads with
    | piped _ mode' =>
      rw [X.inline_rename, mode] at mode'
      cases mode'
    | @inlined _ _ u _ before _ _ rows =>
      rw [Expr.analysis_rename] at rows
      rw [Expr.meaning_rename]
      -- What was inlined is evaluated again here, in a frame that has only grown.
      have supplied : X.Supplies roles' views op y (p.meaning X.semantics u) := by
        intro roles'' hle' clear
        have outside := ih (hle.trans hle') (before.mono hle') rfl
        refine sound.yields ⟨outside, nofun, rows.mono hle'⟩ clear ?_
        refine binds.along (hle.trans hle') (before.mono hle') rfl ?_
        rw [own, List.append_nil]
        rfl
      have consumer : X.Finds ((base.placed context input).enter
          (.part context (.shape p size hsize) .consumer) (.inline op)) roles' views y
          (u.within (p.meaning X.semantics u)) :=
        (ih hle before rfl).entering _ (by decide) nofun fun _ hop =>
          Input.inline.inj hop ▸ supplied
      exact { consumer with }
  | @piped context input p size hsize outer mild mode ih =>
    subst hps
    cases hleads with
    | inlined _ mode' =>
      rw [X.inline_rename, mode] at mode'
      cases mode'
    | piped before _ _ _ value =>
      have consumer : X.Finds ((base.placed context input).enter
          (.part context (.shape p size hsize) .consumer) .value) roles' views y _ :=
        (ih hle before rfl).within _ (by decide)
      exact { consumer with }

/-- The bindings of a scope are ready where it is entered. -/
theorem Defined.binds {bs : List Bound} (h : X.Defined base bs) {t : State} (ht : t.bound = bs)
    (own : base.context.producers = []) {roles : ValueRoles} {views : Views} {x : Value}
    {z : Scene} (finds : X.Finds base roles views x z)
    (hroles : ∀ b ∈ bs, ∀ e size hsize, b.site.node = .shape e size hsize →
      roles b.binding.slot = .memo (b.result X.semantics z)) :
    X.Binds base t roles views x z := by
  induction h generalizing t with
  | nil =>
    intro b hb
    rw [ht] at hb
    exact absurd hb List.not_mem_nil
  | @snoc s b before definition ih =>
    have earlier := ih rfl fun b hb => hroles b (List.mem_append_left _ hb)
    intro b' hb'
    rcases List.mem_append.mp (ht ▸ hb') with hb' | hb'
    · exact earlier b' hb'
    intro e size hsize hnode roles' ps y u hle hleads hsite
    rw [own, List.append_nil] at hsite
    obtain rfl := List.mem_singleton.mp hb'
    obtain ⟨mild, hread, input, place, sound⟩ := definition e size hsize hnode
    constructor
    · have role := hle.memo
        (hroles b' (List.mem_append_right _ List.mem_cons_self) e size hsize hnode)
      rw [role, Bound.result, hnode, hsite, hleads.scene]
    · intro rows clear
      have finds := place.finds own finds earlier hle hleads hsite
      refine sound.yields ⟨finds, nofun, rows⟩ clear (earlier.along hle hleads rfl ?_)
      rw [own, List.append_nil]
      exact hsite

theorem Defined.opens (h : X.Defined base t.bound) (own : base.context.producers = []) :
    X.Opens base t := by
  intro roles views x z assigns finds
  exact h.binds rfl own finds assigns

/-- A step after which the bindings are sound, if they were before, and from which on something
    holds. -/
structure Sounds (env : Env) (s s' : State) (Q : State → Prop) : Prop where
  extends' : Extends s s'
  gives : ∀ base, X.Defined base s.bound → X.Situated base s env →
    X.Defined base s'.bound ∧ ∀ t, Extends s' t → Q t

variable {Q Q' : State → Prop} {e : Expr} {op : Op}

/-- The definition of a binding, from which its expression is known. -/
theorem Defined.definition {bs : List Bound} (h : X.Defined base bs) :
    ∀ b ∈ bs, ∃ t, X.Definition base t b := by
  induction h with
  | nil => exact nofun
  | @snoc t b before definition ih =>
    intro b' hb'
    rcases List.mem_append.mp hb' with hb' | hb'
    · exact ih b' hb'
    · exact ⟨t, List.mem_singleton.mp hb' ▸ definition⟩

/-- What does not read the error means the same while one is handled. -/
theorem Defined.steady (h : X.Defined base t.bound) : Steady X.semantics t := by
  intro b hb e size hsize hnode
  obtain ⟨t₀, definition⟩ := h.definition b hb
  obtain ⟨mild, hread, -⟩ := definition e size hsize hnode
  exact mild.steady hread X.semantics

namespace Sounds

/-- A step that makes no binding. -/
theorem idle (hext : Extends s s') (hbound : s'.bound = s.bound) :
    X.Sounds env s s' fun _ => True :=
  ⟨hext, fun _ hs _ => ⟨hbound ▸ hs, fun _ _ => trivial⟩⟩

theorem freshSlot {stem : String} {b : Binding} (h : Gives (freshSlot stem) s b s') :
    X.Sounds env s s' fun _ => True := by
  have hext := Extends.closed.slot h
  obtain ⟨-, n, rfl⟩ := gives_freshSlot h
  exact idle hext rfl

theorem freshName {stem name : String} (h : Gives (freshName stem) s name s') :
    X.Sounds env s s' fun _ => True := by
  have hext := Extends.closed.name h
  obtain ⟨n, rfl⟩ := gives_freshName h
  exact idle hext rfl

theorem freshGroup {g : Nat} (h : Gives freshGroup s g s') :
    X.Sounds env s s' fun _ => True := by
  have hext := Extends.closed.group h
  obtain ⟨-, rfl⟩ := gives_freshGroup h
  exact idle hext rfl

theorem constantName {value : Value} {name : String} (h : Gives (constantName value) s name s') :
    X.Sounds env s s' fun _ => True := by
  have hext := Extends.closed.constant h
  obtain ⟨n, cs, rfl⟩ := gives_constantName h
  exact idle hext rfl

theorem paramIndex {name : String} {index : Nat} (h : Gives (paramIndex name) s index s') :
    X.Sounds env s s' fun _ => True := by
  have hext := Extends.closed.parameter h
  rcases gives_paramIndex h with ⟨-, rfl⟩ | ⟨-, -, rfl⟩ <;> exact idle hext rfl

theorem imp (h : X.Sounds env s s' Q) (hQ : ∀ t, Q t → Q' t) : X.Sounds env s s' Q' := by
  refine ⟨h.extends', fun base hs situated => ?_⟩
  obtain ⟨hs', hq⟩ := h.gives base hs situated
  exact ⟨hs', fun t ht => hQ t (hq t ht)⟩

theorem trans (h : X.Sounds env s s₁ Q) (h' : X.Sounds env s₁ s₂ Q') :
    X.Sounds env s s₂ fun t => Q t ∧ Q' t := by
  refine ⟨h.extends'.trans h'.extends', fun base hs situated => ?_⟩
  obtain ⟨hs₁, hq⟩ := h.gives base hs situated
  obtain ⟨hs₂, hq'⟩ := h'.gives base hs₁ (situated.mono h.extends')
  exact ⟨hs₂, fun t ht => ⟨hq t (h'.extends'.trans ht), hq' t ht⟩⟩

/-- A step that gives nothing before another one. -/
theorem after (h : X.Sounds env s s₁ fun _ => True) (h' : X.Sounds env s₁ s₂ Q) :
    X.Sounds env s s₂ Q := (h.trans h').imp fun _ h => h.2

theorem before (h : X.Sounds env s s₁ Q) (h' : X.Sounds env s₁ s₂ fun _ => True) :
    X.Sounds env s s₂ Q := (h.trans h').imp fun _ h => h.1

theorem assign (h : X.Sounds env s s₁ Q) (names : NameSet) :
    X.Sounds env s { s₁ with assigned := names } Q :=
  h.before (idle (Extends.closed.assign _ _) rfl)

/-- Labels that are known before have no part in this. -/
theorem assignBefore {names : NameSet} (h : X.Sounds env { s with assigned := names } s' Q) :
    X.Sounds env s s' Q := by
  have labels : X.Sounds env s { s with assigned := names } fun _ => True :=
    idle (Extends.closed.assign s names) rfl
  exact labels.after h

/-- Bindings do not read the error that is handled. -/
theorem caught {binding : Option Binding}
    (h : X.Sounds { env with caught := binding } s s' Q) : X.Sounds env s s' Q :=
  ⟨h.extends', fun base hs situated => h.gives base hs { situated with }⟩

/-- A scope of its own. -/
theorem scope (h : X.Sounds env' s.enter s₁ Q) (own : env'.context.producers = []) :
    X.Sounds env s (s₁.leave s) fun _ => Q s₁ ∧ X.Opens env' s₁ := by
  refine ⟨Extends.closed.scope h.extends', fun base hs situated => ⟨hs, fun _ _ => ?_⟩⟩
  obtain ⟨defined, hq⟩ := h.gives env' .nil ⟨own, rfl, rfl, .here⟩
  exact ⟨hq s₁ (.refl _), defined.opens own⟩

/-- The consumer of a pipe comes after its producer. -/
theorem consumer {p : Expr} {input : Input} (mild : p.Mild X.registry)
    (hread : p.analysis.readsCaught = false)
    (h : X.Sounds env s s₁ fun t => X.Sound env t op p)
    (hinput : X.inline p = true ∧ input = .inline op ∨ X.inline p = false ∧ input = .value)
    (h' : X.Sounds (env.consumer p input) s₁ s' Q) :
    X.Sounds env s s' fun t => X.Sound env t op p ∧ Q t := by
  refine ⟨h.extends'.trans h'.extends', fun base hs situated => ?_⟩
  obtain ⟨hs₁, sound⟩ := h.gives base hs situated
  have before := situated.mono h.extends'
  have producer := (sound s₁ (.refl _)).placed before hread
  have place : X.Place base s₁ (env.consumer p input).context (env.consumer p input).input := by
    rw [Env.consumer, mild.nodeKey_eq hread]
    rcases hinput with ⟨mode, rfl⟩ | ⟨mode, rfl⟩
    · exact .inlined before.place mild mode producer
    · exact .piped before.place mild mode
  obtain ⟨hs', hq⟩ := h'.gives base hs₁ ⟨before.own, before.aggregate, before.join, place⟩
  exact ⟨hs', fun t ht => ⟨sound t (h'.extends'.trans ht), hq t ht⟩⟩

section Lists

variable {R : α → State → β → State → Prop} {P : State → β → α → Prop}

theorem sequence {as : List α} {bs : List β} (h : Sequence R as s bs s')
    (hR : ∀ a ∈ as, ∀ s b s', R a s b s' → X.Sounds env s s' fun t => P t b a) :
    X.Sounds env s s' fun t => List.Forall₂ (P t) bs as := by
  induction h with
  | nil => exact (idle (.refl _) rfl).imp fun _ _ => .nil
  | cons head _ ih =>
    have tail := ih fun a ha => hR a (List.mem_cons_of_mem _ ha)
    exact ((hR _ List.mem_cons_self _ _ _ head).trans tail).imp fun _ h => .cons h.1 h.2

end Lists

end Sounds

theorem optionRel_of_toList {P : α → β → Prop} {a : Option α} {b : Option β}
    (h : List.Forall₂ P a.toList b.toList) : Option.Rel P a b := by
  cases a with
  | none =>
    obtain rfl := Option.toList_eq_nil_iff.mp (List.forall₂_nil_left_iff.mp h)
    exact .none
  | some a =>
    cases b with
    | none => cases h
    | some b => exact .some (List.forall₂_cons.mp h).1

variable (X) in
/-- What is lowered below a root is sound. -/
def SoundBelow (root : Expr) : Prop :=
  ∀ (c : Smaller root) {env : Env} {s s' : State} {op : Op}, env.pass = .emit →
    env.threshold = X.threshold → X.Orderly c.1 → Lowers env c s op s' →
      X.Sounds env s s' fun t => X.Sound env t op c.1

section Parts

variable {e : Expr} {op : Op} {ops : List Op} (ih : X.SoundBelow e) (hpass : env.pass = .emit)
  (hthreshold : env.threshold = X.threshold)
include ih hpass hthreshold

/-- The steps that lower parts which are sound. -/
theorem SoundBelow.steps : Steps env fun s (cs : List (Smaller e)) ops s' =>
    (∀ c ∈ cs, X.Orderly c.1) → X.Sounds env s s' fun t => X.AllSound env t ops cs where
  lowers h hcs := (ih _ hpass hthreshold (hcs _ List.mem_cons_self) h).imp fun _ h => .cons h .nil
  refl s _ := (Sounds.idle (.refl s) rfl).imp fun _ _ => .nil
  trans h h' hcs := by
    obtain ⟨hleft, hright⟩ := List.forall_mem_append.mp hcs
    exact ((h hleft).trans (h' hright)).imp fun _ h => List.rel_append h.1 h.2
  assign names _ h hcs := (h hcs).assign names

theorem SoundBelow.contained {c : Smaller e} (hc : X.Orderly c.1)
    (h : LowersContained env c s op s') : X.Sounds env s s' fun t => X.Sound env t op c.1 := by
  obtain ⟨s₁, h, rfl⟩ := h
  exact (ih c hpass hthreshold hc h).assign _

theorem SoundBelow.option {c : Option (Smaller e)} {op : Option Op}
    (hc : ∀ d ∈ c.toList, X.Orderly d.1) (h : Optional (Lowers env) c s op s') :
    X.Sounds env s s' fun t => X.OptionSound env t op c :=
  ((ih.steps hpass hthreshold).option h hc).imp fun _ h => optionRel_of_toList h

theorem SoundBelow.optionContained {c : Option (Smaller e)} {op : Option Op}
    (hc : ∀ d ∈ c.toList, X.Orderly d.1) (h : Optional (LowersContained env) c s op s') :
    X.Sounds env s s' fun t => X.OptionSound env t op c :=
  ((ih.steps hpass hthreshold).optionContained h hc).imp fun _ h => optionRel_of_toList h

theorem SoundBelow.step {step : PathStep (Smaller e)} {op : Step Op}
    (hstep : ∀ c ∈ step.children, X.Orderly c.1) (h : StepGives env step s op s') :
    X.Sounds env s s' fun t => X.StepSound env t op step := by
  cases h with
  | key h => exact (ih _ hpass hthreshold (hstep _ List.mem_cons_self) h).imp fun _ h => .key h
  | attr => exact (Sounds.idle (.refl _) rfl).imp fun _ _ => .attr

theorem SoundBelow.pair {p : Smaller e × Smaller e} {ops : Op × Op}
    (hp : ∀ c ∈ [p.1, p.2], X.Orderly c.1) (h : PairGives env p s ops s') :
    X.Sounds env s s' fun t => X.PairSound env t ops p := by
  obtain ⟨s₁, hk, hv⟩ := h
  have key := ih _ hpass hthreshold (hp _ List.mem_cons_self) hk
  have value := ih _ hpass hthreshold (hp _ (List.mem_cons_of_mem _ List.mem_cons_self)) hv
  exact (key.trans value).imp fun _ h => ⟨h.1, h.2⟩

theorem SoundBelow.sortKey {k : SortKey (Smaller e)} {op : SortKeyOp Op} (hk : X.Orderly k.key.1)
    (h : SortKeyGives env k s op s') : X.Sounds env s s' fun t => X.SortKeySound env t op k :=
  (ih _ hpass hthreshold hk h.1).imp fun _ sound => ⟨h.2, sound⟩

theorem SoundBelow.handler {before : NameSet} {h : Handler (Smaller e)}
    {o : HandlerOp Op × NameSet} (hh : ∀ c ∈ h.children, X.Orderly c.1)
    (hgives : HandlerGives env before h s o s') :
    X.Sounds env s s' fun t => X.HandlerSound env t o.1 h := by
  obtain ⟨hkinds, -, s₁, hreraise, hvalue⟩ := hgives
  have reraise := ih.option hpass hthreshold (fun c hc => hh c (List.mem_append_left _ hc)) hreraise
  have value := ih _ hpass hthreshold (hh _ (List.mem_append_right _ List.mem_cons_self)) hvalue
  exact (reraise.trans value).assignBefore.imp fun _ h => ⟨hkinds, h.1, h.2⟩

theorem SoundBelow.slot {red : Reducer (Smaller e)} {slot : SlotOp Op}
    (hred : ∀ c ∈ red.fed, X.Orderly c.1) (h : SlotGives env red s slot s') :
    X.Sounds env s s' fun t => X.SlotSound env t slot red := by
  obtain ⟨hkind, hseed, s₁, s₂, hfilter, hargs, hinitial⟩ := h
  have filter := ih.optionContained hpass hthreshold
    (fun c hc => hred c (List.mem_append_left _ (List.mem_append_left _ hc))) hfilter
  have args := (ih.steps hpass hthreshold).allContained hargs
    fun c hc => hred c (List.mem_append_left _ (List.mem_append_right _ hc))
  have initial := ih.optionContained hpass hthreshold
    (fun c hc => hred c (List.mem_append_right _ hc)) hinitial
  exact ((filter.trans args).trans initial).imp fun _ h => ⟨hkind, hseed, h.1.1, h.1.2, h.2⟩

theorem SoundBelow.fallback {red : Reducer (Smaller e)}
    (hred : ∀ c ∈ red.default.toList ++ red.initial.toList, X.Orderly c.1)
    (h : FallbackGives env red s op s') :
    X.Sounds env s s' fun t => X.FallbackSound env t red op := by
  cases h with
  | default hdefault h =>
    refine (ih.contained hpass hthreshold (hred _ (List.mem_append_left _ ?_)) h).imp fun _ h =>
      .default hdefault h
    rw [hdefault]
    exact List.mem_cons_self
  | initial hdefault hinitial huses h =>
    refine (ih.contained hpass hthreshold (hred _ (List.mem_append_right _ ?_)) h).imp fun _ h =>
      .initial hdefault ?_ h
    · rw [hinitial]
      exact List.mem_cons_self
    · rw [hinitial, Option.filter_some, if_pos (beq_iff_eq.mpr huses)]
  | static hdefault hinitial h =>
    refine (Sounds.constantName h).imp fun _ _ => .static hdefault ?_
    refine Option.filter_eq_none_iff.mpr fun c hc huses => hinitial c hc ?_
    exact beq_iff_eq.mp huses

theorem SoundBelow.conjunction {cs : List (Smaller e)} {op : Option Op}
    (hcs : ∀ c ∈ cs, X.Orderly c.1) (h : ConjunctionGives env cs s op s') :
    X.Sounds env s s' fun t => X.ConjunctionSound env t op cs := by
  obtain ⟨ops, s₁, hops, hop, rfl⟩ := h
  have all := (ih.steps hpass hthreshold).all hops hcs
  exact (all.assign _).imp fun _ h => ⟨ops, hop, h⟩

end Parts

/-! ### Nodes -/

theorem NodeSound.mono (h : X.NodeSound env t op e) (hext : Extends t t') :
    X.NodeSound env t' op e :=
  ⟨fun sees clear binds => h.yields sees clear (binds.mono hext)⟩

/-- What is sound after a step stays so. -/
theorem Sounds.node (h : X.Sounds env s s' Q)
    (hQ : Steady X.semantics s' → Q s' → X.NodeSound env s' op e) :
    X.Sounds env s s' fun t => X.NodeSound env t op e := by
  refine ⟨h.extends', fun base hs situated => ?_⟩
  obtain ⟨hs', hq⟩ := h.gives base hs situated
  exact ⟨hs', fun t ht => (hQ hs'.steady (hq s' (.refl _))).mono ht⟩

/-- What a node evaluates somewhere is orderly if the node is. -/
theorem Orderly.part (he : X.Orderly e) {node : Node (Smaller e)} (hnode : e.parts = node)
    (shift : Shift) {c : Smaller e} (hc : node.Evaluates shift c) : X.Orderly c.1 :=
  he.within (Expr.covers_part he.analyzed he.candid (hnode ▸ hc)).1

section Nodes

variable (ih : X.SoundBelow e) (hpass : env.pass = .emit) (hthreshold : env.threshold = X.threshold)
include ih hpass hthreshold

theorem SoundBelow.side {key : NodeKey} {which : Part} {join : JoinEnv}
    {keys filter : List (Smaller e)} {side : JoinSideOp Op}
    (hparts : ∀ c ∈ keys ++ filter, X.Orderly c.1) (hwhich : which ≠ .consumer)
    (h : SideGives (.part env.context key which) join keys filter env s side s') :
    ∃ t, X.Sounds env s s' fun _ => X.SideSound
      { env.enter (.part env.context key which) env.input with join := some join } t side keys
      filter ∧ X.Opens { env.enter (.part env.context key which) env.input with join := some join }
        t := by
  obtain ⟨s₁, s₂, hkeys, hfilter, hscope, rfl⟩ := h
  have keyParts := (ih.steps (Env.pass_side hpass) hthreshold).all hkeys
    fun c hc => hparts c (List.mem_append_left _ hc)
  have filterParts := ih.conjunction (Env.pass_side hpass) hthreshold
    (fun c hc => hparts c (List.mem_append_right _ hc)) hfilter
  have parts : X.Sounds env _ _ _ :=
    (keyParts.trans filterParts).scope (Context.producers_part hwhich)
  exact ⟨s₂, parts.imp fun _ h => ⟨⟨hscope, h.1.1, h.1.2⟩, h.2⟩⟩

/-- The operations of an aggregate are sound. -/
theorem SoundBelow.aggregate {key : NodeKey} {keys : List (Smaller e)} {output : Smaller e}
    (he : X.Orderly e) (hnode : e.parts = .aggregate keys output)
    (h : NodeGives e env key (.aggregate keys output) s op s') :
    ∃ p reducers t₁ t₂, op = .mk (.aggregate p) ∧
      X.Sounds env s s' fun _ => X.AggregateSound env key t₁ t₂ p keys output reducers := by
  cases h with
  | aggregate hsource hreducers hgroup hrow hkeys hslots houtput =>
    have keyParts := (ih.steps (Env.pass_row hpass) hthreshold).all hkeys
      fun c hc => he.part hnode (.onRow (.ok .null)) (.key hc)
    have slotParts := Sounds.sequence hslots fun red hred _ _ _ h =>
      ih.slot (Env.pass_row hpass) hthreshold
        (fun c hc => he.part hnode (.onRow (.ok .null)) (.slot hreducers hred hc)) h
    have rows := keyParts.trans slotParts
    have output := ih _ (Env.pass_output hpass) hthreshold
      (he.part hnode (.emitting (.ofGroup [] [] ⟨[], []⟩)) .output) houtput
    have scopes : X.Sounds env _ _ _ := (rows.scope (Context.producers_part (by decide))).trans
      (output.scope (Context.producers_part (by decide)))
    have whole : X.Sounds env _ _ _ :=
      (Sounds.freshGroup hgroup).after ((Sounds.freshName hrow).after scopes)
    exact ⟨_, _, _, _, rfl, whole.imp fun _ h =>
      ⟨hreducers, rfl, rfl, h.1.2, h.2.2, hsource, h.2.1, h.1.1.2, h.1.1.1⟩⟩

section Shapes

variable {key : NodeKey} (he : X.Orderly e)
include he

/-- Nodes that combine the values of their parts. -/
theorem SoundBelow.plain {node : Node (Smaller e)} (hplain : node.plain = true)
    (hnode : e.parts = node) (h : NodeGives e env key node s op s') :
    X.Sounds env s s' fun t => X.NodeSound env t op e := by
  have here {c : Smaller e} (hc : c ∈ node.onScene) : X.Orderly c.1 :=
    he.part hnode .same (.here hc)
  have steps := ih.steps hpass hthreshold
  cases h with
  | constant h => exact (Sounds.constantName h).node fun _ _ => sound_constant he hnode
  | access hsource hsteps hdefault =>
    have source := ih _ hpass hthreshold (here List.mem_cons_self) hsource
    have path := Sounds.sequence hsteps fun step hstep _ _ _ h =>
      ih.step hpass hthreshold (fun c hc => here (List.mem_append_left _ (List.mem_cons_of_mem _
        (List.mem_flatMap.mpr ⟨step, hstep, hc⟩)))) h
    have absent := ih.optionContained hpass hthreshold
      (fun c hc => here (List.mem_append_right _ hc)) hdefault
    exact ((source.trans path).trans absent).node fun _ h =>
      sound_access he hnode h.1.1 h.1.2 h.2
  | call hname hargs =>
    have args := steps.all hargs fun _ hc => here hc
    exact ((Sounds.constantName hname).after args).node fun _ h => sound_call he hnode h
  | builtin h => exact (steps.all h fun _ hc => here hc).node fun _ h => sound_builtin he hnode h
  | binary hleft hright =>
    have left := ih _ hpass hthreshold (here List.mem_cons_self) hleft
    have right := ih _ hpass hthreshold (here (List.mem_cons_of_mem _ List.mem_cons_self)) hright
    exact (left.trans right).node fun _ h => sound_binary he hnode h.1 h.2
  | unary h =>
    have operand := ih _ hpass hthreshold (here List.mem_cons_self) h
    exact operand.node fun _ h => sound_unary he hnode h
  | and h => exact (steps.shortCircuit h fun _ hc => here hc).node fun _ h => sound_and he hnode h
  | or h => exact (steps.shortCircuit h fun _ hc => here hc).node fun _ h => sound_or he hnode h
  | collection h =>
    exact (steps.all h fun _ hc => here hc).node fun _ h => sound_collection he hnode h
  | dict h =>
    have pairs := Sounds.sequence h fun p hp _ _ _ h =>
      ih.pair hpass hthreshold (fun c hc => here (List.mem_flatMap.mpr ⟨p, hp, hc⟩)) h
    exact pairs.node fun _ h => sound_dict he hnode h
  | conditional hcondition hyes hno =>
    have condition := ih _ hpass hthreshold (here List.mem_cons_self) hcondition
    have yes := ih _ hpass hthreshold (here (List.mem_cons_of_mem _ List.mem_cons_self)) hyes
    have no := ih _ hpass hthreshold
      (here (List.mem_cons_of_mem _ (List.mem_cons_of_mem _ List.mem_cons_self))) hno
    exact (((condition.trans yes).trans no.assignBefore).assign _).node fun _ h =>
      sound_conditional he hnode h.1.1 h.1.2 h.2
  | _ => cases hplain

theorem SoundBelow.loop {kind : ComprehensionKind} {keyed filter : Option (Smaller e)}
    {element source : Smaller e} (hnode : e.parts = .comprehension kind keyed element source filter)
    (h : NodeGives e env key (.comprehension kind keyed element source filter) s op s') :
    X.Sounds env s s' fun t => X.NodeSound env t op e := by
  have item {c : Smaller e} (hc : c ∈ filter.toList ++ keyed.toList ++ [element]) :
      X.Orderly c.1 := he.part hnode (.within (.ok .null)) (.item hc)
  cases h with
  | comprehension hsource hvar hfilter hkeyed helement =>
    have source := ih _ hpass hthreshold (he.part hnode .same (.here List.mem_cons_self)) hsource
    have filter := ih.option (Env.pass_enter hpass) hthreshold
      (fun c hc => item (List.mem_append_left _ (List.mem_append_left _ hc))) hfilter
    have keyed := ih.option (Env.pass_enter hpass) hthreshold
      (fun c hc => item (List.mem_append_left _ (List.mem_append_right _ hc))) hkeyed
    have element := ih _ (Env.pass_enter hpass) hthreshold
      (item (List.mem_append_right _ List.mem_cons_self)) helement
    have items := (filter.trans keyed).trans element
    have scopes := (source.before (.freshName hvar)).trans
      (items.scope (Context.producers_part (by decide)))
    exact scopes.node fun _ h =>
      sound_loop he rfl h.2.2 hnode h.1 h.2.1.1.1 h.2.1.1.2 h.2.1.2

theorem SoundBelow.sort {source : Smaller e} {keys : List (SortKey (Smaller e))} {reverse : Bool}
    (hnode : e.parts = .sort source keys reverse)
    (h : NodeGives e env key (.sort source keys reverse) s op s') :
    X.Sounds env s s' fun t => X.NodeSound env t op e := by
  cases h with
  | sort hsource hvar hkeys =>
    have source := ih _ hpass hthreshold (he.part hnode .same (.here List.mem_cons_self)) hsource
    have keys := Sounds.sequence hkeys fun k hk _ _ _ h =>
      ih.sortKey (Env.pass_enter hpass) hthreshold
        (he.part hnode (.within (.ok .null)) (.sortItem hk)) h
    have scopes := (source.before (.freshName hvar)).trans
      (keys.scope (Context.producers_part (by decide)))
    exact scopes.node fun _ h => sound_sort he rfl h.2.2 hnode h.1 h.2.1

theorem SoundBelow.guarded {body : Smaller e} {handlers : List (Handler (Smaller e))}
    (hnode : e.parts = .guarded body handlers)
    (h : NodeGives e env key (.guarded body handlers) s op s') :
    X.Sounds env s s' fun t => X.NodeSound env t op e := by
  have bodyOrderly := he.part hnode .same (.here List.mem_cons_self)
  cases h with
  | unguarded h =>
    exact (ih _ hpass hthreshold bodyOrderly h).node fun _ h => sound_unguarded he hnode h
  | guarded _ hbody hcaught hhandlers =>
    have body := ih _ hpass hthreshold bodyOrderly hbody
    have handlers := Sounds.sequence hhandlers fun h hh _ _ _ hgives =>
      ih.handler (Env.pass_handler hpass) hthreshold
        (fun c hc => he.part hnode (.catching .divisionByZero) (.handler hh hc)) hgives
    have all := ((body.before (.freshSlot hcaught)).trans handlers.caught).assign
    refine (all _).node fun steady h => sound_guarded he steady hnode h.1 ?_
    rw [List.forall₂_map_left_iff]
    exact h.2

theorem SoundBelow.pipe {producer consumer : Smaller e} (hnode : e.parts = .pipe producer consumer)
    (h : NodeGives e env key (.pipe producer consumer) s op s') :
    X.Sounds env s s' fun t => X.NodeSound env t op e := by
  have same : e.node = .pipe producer.1 consumer.1 := by
    rw [← Expr.map_parts, hnode]
    rfl
  have mode := he.lowered e (.refl e) _ _ same
  obtain ⟨mild, hread, -⟩ := producer_part he hnode
  have before := he.part hnode .same (.here List.mem_cons_self)
  have behind := he.part hnode (.within (.ok .null)) .consumer
  cases h with
  | inlined hmode hproducer hconsumer =>
    have mode := mode.symm.trans (hthreshold ▸ hmode)
    have producer := ih _ hpass hthreshold before hproducer
    have consumer := ih _ (Env.pass_consumer hpass) hthreshold behind hconsumer
    exact (producer.consumer mild hread (.inl ⟨mode, rfl⟩) consumer).node fun _ h =>
      sound_inlined he hnode h.1 mode h.2
  | piped hmode hproducer hconsumer =>
    have mode := mode.symm.trans (hthreshold ▸ hmode)
    have producer := ih _ hpass hthreshold before hproducer
    have consumer := ih _ (Env.pass_consumer hpass) hthreshold behind hconsumer
    exact (producer.consumer mild hread (.inr ⟨mode, rfl⟩) consumer).node fun _ h =>
      sound_piped he hnode h.1 mode h.2

theorem SoundBelow.join {left right : Smaller e} {condition : Option (Smaller e)} {kind : JoinKind}
    (hnode : e.parts = .join left right condition kind)
    (h : NodeGives e env key (.join left right condition kind) s op s') :
    X.Sounds env s s' fun t => X.NodeSound env t op e := by
  have here {c : Smaller e} (hc : c ∈ (Node.join left right condition kind).onScene) :
      X.Orderly c.1 := he.part hnode .same (.here hc)
  have onRows {c : Smaller e} (hc : c ∈ (JoinPlan.ofCondition condition kind).onRows) :
      X.Orderly c.1 := he.part hnode (.withRows none none) (.joined hc)
  cases h with
  | join hleft hright hleftRow hrightRow hplan hpreFilter hleftSide hrightSide hresidual =>
    subst hplan
    have left := ih _ hpass hthreshold (here List.mem_cons_self) hleft
    have right := ih _ hpass hthreshold (here (List.mem_cons_of_mem _ List.mem_cons_self)) hright
    have preFilter := ih.conjunction hpass hthreshold
      (fun c hc => here (List.mem_cons_of_mem _ (List.mem_cons_of_mem _ hc))) hpreFilter
    obtain ⟨t₁, leftSide⟩ := ih.side hpass hthreshold
      (fun c hc => onRows (JoinPlan.mem_left hc).1) (by decide) hleftSide
    obtain ⟨t₂, rightSide⟩ := ih.side hpass hthreshold
      (fun c hc => onRows (JoinPlan.mem_right hc).1) (by decide) hrightSide
    have residual := ih.conjunction (Env.pass_pair hpass) hthreshold
      (fun c hc => onRows (List.mem_append_right _ hc)) hresidual
    have rows := ((left.trans right).before (.freshSlot hleftRow)).before (.freshSlot hrightRow)
    have sides := (preFilter.trans leftSide).trans rightSide
    have pairs : X.Sounds env _ _ _ := residual.scope (Context.producers_part (by decide))
    exact ((rows.trans sides).trans pairs).node fun _ h =>
      sound_join he hnode ⟨h.1.1.1, h.1.1.2, h.1.2.1.1, h.1.2.1.2.2, h.1.2.2.2, h.2.2, h.1.2.1.2.1,
        h.1.2.2.1, rfl, h.2.1⟩

/-- Lowering a node in place is sound. -/
theorem SoundBelow.node {node : Node (Smaller e)} (hnode : e.parts = node)
    (h : NodeGives e env key node s op s') :
    X.Sounds env s s' fun t => X.NodeSound env t op e := by
  by_cases hplain : node.plain = true
  · exact ih.plain hpass hthreshold he hplain hnode h
  have same : e.node = node.map (·.1) := by rw [← Expr.map_parts, hnode]
  cases node with
  | input =>
    cases h with
    | input h => exact (Sounds.idle (.refl _) rfl).node fun _ _ => sound_input hnode h
  | parameter name =>
    cases h with
    | parameter h => exact (Sounds.paramIndex h).node fun _ _ => sound_parameter he hnode
  | caught =>
    cases h with
    | caught h => exact (Sounds.idle (.refl _) rfl).node fun _ _ => sound_caught he hnode h
  | joinRow side =>
    cases h with
    | leftRow h => exact (Sounds.idle (.refl _) rfl).node fun _ _ => sound_leftRow he hnode h
    | rightRow h => exact (Sounds.idle (.refl _) rfl).node fun _ _ => sound_rightRow he hnode h
  -- Labels do not occur in the expressions that are given a meaning.
  | label name value =>
    have written := (Analysis.hasSideEffects_eq_false.mp he.effects).2
    exact absurd (he.analyzed.labelWritten same) (written _)
  | labelRef name =>
    have read := Analysis.readsLabels_eq_false.mp he.labels
    exact absurd (he.analyzed.labelRead same) (read _)
  | reducer red =>
    cases h with
    | reducer haggregate hindex hfallback =>
      have fallback := ih.fallback hpass hthreshold
        (fun _ hc => he.part hnode .same (.here hc)) hfallback
      exact fallback.node fun _ h => sound_reducer he hnode haggregate hindex h
  | aggregate keys output =>
    obtain ⟨p, reducers, t₁, t₂, hop, sounds⟩ := ih.aggregate hpass hthreshold he hnode h
    rw [hop]
    exact sounds.node fun _ h => sound_aggregate he hnode h
  | comprehension => exact ih.loop hpass hthreshold he hnode h
  | sort => exact ih.sort hpass hthreshold he hnode h
  | guarded => exact ih.guarded hpass hthreshold he hnode h
  | pipe => exact ih.pipe hpass hthreshold he hnode h
  | join => exact ih.join hpass hthreshold he hnode h
  | _ => exact absurd rfl hplain

end Shapes

end Nodes
end Execution

/-! ### Keys of groups -/

namespace Execution

variable {X : Execution σ} {env : Env} {s s' t : State} {e d : Expr} {op : Op}

section Keys

variable {roles : ValueRoles} {views : Views} {x : Value} {a : Analysis} {scene : Scene}
  (sees : X.Sees env roles views x a scene)
include sees

theorem Sees.key?_eq_none (h : groupKey? e env = .ok none) : scene.key? e = none := by
  cases hg : env.aggregate with
  | none => rw [Scene.key?, sees.finds.alone hg, Option.bind_none]
  | some g =>
    obtain ⟨-, group, -, hs⟩ := sees.finds.output g hg
    rw [Scene.key?, hs, Option.bind_some, AggregateEnv.view]
    rw [groupKey?, hg] at h
    dsimp only at h
    split at h
    · rename_i hsame
      have unmatched : g.keyPositions e = [] := by
        split at h
        · assumption
        · cases h
        · cases h
      rw [if_pos hsame]
      have absent : g.keys.findIdx? (· == e) = none := by
        refine List.findIdx?_eq_none_iff.mpr fun k hk => Bool.eq_false_iff.mpr fun hsame => ?_
        obtain ⟨i, hi⟩ := List.mem_iff_getElem?.mp hk
        have hmem := mem_keyPositions.mpr ⟨k, hi, hsame⟩
        rw [unmatched] at hmem
        exact List.not_mem_nil hmem
      exact congrArg (Option.map _) absent
    · rename_i hsame
      rw [if_neg hsame]
      rfl

theorem Sees.key?_eq_some {g : AggregateEnv} {index : Nat} (hg : env.aggregate = some g)
    (hsame : g.context.same env.context = true) (hindex : g.keyPositions e = [index]) :
    ∃ group, views g.group = some group ∧ scene.key? e = some (group.key[index]?.getD .null) := by
  obtain ⟨-, group, hview, hs⟩ := sees.finds.output g hg
  refine ⟨group, hview, ?_⟩
  obtain ⟨k, hk, hke⟩ := mem_keyPositions.mp (hindex ▸ List.mem_singleton_self index)
  have first : g.keys.findIdx? (· == e) = some index := by
    obtain ⟨hlt, rfl⟩ := List.getElem?_eq_some_iff.mp hk
    refine List.findIdx?_eq_some_iff_getElem.mpr ⟨hlt, hke, fun j hj hje => ?_⟩
    have hmem := mem_keyPositions.mpr ⟨_, List.getElem?_eq_getElem (Nat.lt_trans hj hlt), hje⟩
    rw [hindex] at hmem
    exact absurd (List.mem_singleton.mp hmem) (Nat.ne_of_lt hj)
  rw [Scene.key?, hs, Option.bind_some, AggregateEnv.view, if_pos hsame]
  change (g.keys.findIdx? (· == e)).map _ = _
  rw [first]
  rfl

end Keys

theorem sound_groupKey {g : AggregateEnv} {index : Nat} (hg : env.aggregate = some g)
    (hsame : g.context.same env.context = true) (hindex : g.keyPositions e = [index]) :
    X.Sound env t (.mk (.groupKey g.group index)) e := by
  refine ⟨fun sees _ _ => ?_⟩
  obtain ⟨group, hview, key⟩ := sees.key?_eq_some hg hsame hindex
  rw [Expr.meaning_of_key key]
  exact (currentGroup hview).after (.pure _ (.refl _))

/-- What does not stand for a key means what its node means. -/
theorem NodeSound.sound (h : X.NodeSound env t op e) (hkey : groupKey? e env = .ok none) :
    X.Sound env t op e := by
  refine ⟨fun sees clear binds => ?_⟩
  rw [Expr.meaning_of_node (sees.key?_eq_none hkey)]
  exact h.yields sees clear binds

/-! ### Bindings -/

/-- A binding yields what its expression means. -/
theorem sound_memo {b : Bound} {size : UInt64} {hsize : size = d.size} (hb : b ∈ t.bound)
    (hnode : b.site.node = .shape d size hsize)
    (hproducers : b.site.context.producers = env.context.producers)
    (hanalysis : e.analysis = d.analysis)
    (hmeaning : e.meaning X.semantics = d.meaning X.semantics) :
    X.Sound env t (.mk (.memo b.binding b.definition)) e := by
  refine ⟨fun {roles views x s} sees clear binds => ?_⟩
  obtain ⟨a, hslot, -⟩ := clear.reach
  have ready := binds.ready hb hnode hproducers
  rw [hmeaning]
  exact readMemo ready.role hslot (ready.yields (hanalysis ▸ sees.rows)
    (clear.part (fun _ _ => rfl) List.mem_cons_self))

theorem readsCaught_of_isBound {a : Analysis} {count : Nat} (h : isBound env e a count = true) :
    a.readsCaught = false := by
  unfold isBound at h
  split at h
  · cases h
  · rename_i hcond
    simp only [Bool.or_eq_true, not_or] at hcond
    exact Bool.eq_false_iff.mpr hcond.2

/-- **Lowering is sound.** -/
theorem lower_sound {e : Expr} {env : Env} {s s' : State} {op : Op} (hpass : env.pass = .emit)
    (hthreshold : env.threshold = X.threshold) (he : X.Orderly e)
    (h : Gives (lower e env) s op s') : X.Sounds env s s' fun t => X.Sound env t op e := by
  have ih : X.SoundBelow e := fun c _ _ _ _ hpass hthreshold hc h =>
    lower_sound hpass hthreshold hc h
  cases lower_cases hpass h with
  | groupKey hkey =>
    obtain ⟨g, index, hg, hsame, hindex, rfl⟩ := groupKey_eq hkey
    exact (Sounds.idle (.refl _) rfl).imp fun _ _ => sound_groupKey hg hsame hindex
  | inPlace hkey _ hnode =>
    exact (ih.node hpass hthreshold he rfl hnode).imp fun _ h => h.sound hkey
  | @hit b _ hbound hmem hsite _ =>
    have hext := Extends.closed.assign s (NameSet.union s.assigned b.writes)
    refine ⟨hext, fun base hs situated => ⟨hs, fun t ht => ?_⟩⟩
    obtain ⟨t₀, definition⟩ := hs.definition b hmem
    obtain ⟨hcontext, hsame⟩ := Bool.and_eq_true_iff.mp hsite
    rw [siteOf, he.nodeKey_eq (readsCaught_of_isBound hbound)] at hsame
    obtain ⟨d, size, hsize, hnode⟩ := NodeKey.exists_shape hsame
    obtain ⟨mild, hread, input, place, -⟩ := definition d size hsize hnode
    rw [hnode] at hsame
    have equal : (d == e) = true := hsame
    exact sound_memo (ht.mem_bound hmem) hnode
      (place.producers_eq situated.place situated.own hcontext)
      (Expr.analysis_eq_of_beq mild.exact he.exact equal).symm
      (Expr.meaning_eq_of_beq mild.exact he.exact equal).symm
  | @bind definition s₁ s₂ binding hkey hbound hnew hnode hslot =>
    have hread := readsCaught_of_isBound hbound
    have made := (ih.node hpass hthreshold he rfl hnode).before (.freshSlot hslot)
    have hext := Extends.closed.bind s₂ ⟨siteOf env e, binding, definition, e.analysis.labelsRead,
      NameSet.diff s₁.assigned s.assigned⟩
    have hsite : (siteOf env e).node = .shape e e.size rfl := he.nodeKey_eq hread
    refine ⟨made.extends'.trans hext, fun base hs situated => ?_⟩
    obtain ⟨hs₂, sound⟩ := made.gives base hs situated
    have situated₂ := situated.mono made.extends'
    refine ⟨.snoc hs₂ fun d size hsize hnode => ?_, fun t ht => ?_⟩
    · cases hsite.symm.trans hnode
      exact ⟨he.toMild, hread, env.input, situated₂.place,
        ((sound s₂ (.refl _)).sound hkey).placed situated₂ hread⟩
    · exact sound_memo (ht.mem_bound (List.mem_append_right _ List.mem_cons_self)) hsite rfl rfl rfl
termination_by sizeOf e
decreasing_by exact c.2

end Execution

end DataExpr
