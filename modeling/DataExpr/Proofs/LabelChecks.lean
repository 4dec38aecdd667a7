import DataExpr.Proofs.CheckedLabels
import DataExpr.Proofs.Extension
import DataExpr.Proofs.LabelFlow
import DataExpr.Proofs.Placement

/-!
# What lowering knows about labels

While it emits, lowering keeps the labels that are certainly set and refuses to read any other
label.  This file compares that bookkeeping with the order of evaluation (`Op.flow`): under
two conditions on the expression, whatever an operation needs was known to be set, and
whatever is known to be set afterwards has been set by the operation or before it.

The conditions name the places where the two orders differ.  Lowering counts all keys of an
access path, also those behind a step at which the default may take over; and it goes over the
keys of a side of a join before the filters, which are evaluated first.

An expression with effects is bound in the consumer of a pipe although a producer that reads
labels may be evaluated wherever the consumer uses its input.  Its binding may then be read in
another pipe of the same producer, where only the producer is lowered again: what it checks
there (`lower_checks`) is what the binding needs (`Behind`).
-/

namespace DataExpr

namespace Expr

/-- No label that is set in a key behind the first step of a path with a default is read. -/
def LateKeysUnread (root : Expr) : Prop :=
  ∀ e, Within e root → ∀ source path default, e.node = .access source path (some default) →
    ∀ step ∈ path.tail, ∀ k ∈ step.children, ∀ n ∈ k.analysis.labelsWritten,
      n ∉ root.analysis.labelsRead

/-- No filter of a side of a join reads a label that is set in a key of the side. -/
def FiltersIgnoreKeys (root : Expr) : Prop :=
  ∀ e, Within e root → ∀ left right condition kind, e.parts = .join left right condition kind →
    (∀ f ∈ (JoinPlan.ofCondition condition kind).leftFilter,
      ∀ k ∈ (JoinPlan.ofCondition condition kind).keys, ∀ n ∈ k.1.1.analysis.labelsWritten,
        n ∉ f.1.analysis.labelsRead) ∧
    ∀ f ∈ (JoinPlan.ofCondition condition kind).rightFilter,
      ∀ k ∈ (JoinPlan.ofCondition condition kind).keys, ∀ n ∈ k.2.1.analysis.labelsWritten,
        n ∉ f.1.analysis.labelsRead

/-- Lowering sees labels in the order in which they are set and read. -/
structure Orderly (root : Expr) : Prop where
  coherent : root.Coherent
  lateKeys : root.LateKeysUnread
  filters : root.FiltersIgnoreKeys

end Expr

namespace Lowering

/-- A label has a slot. -/
def At (labels : List (String × Binding)) (name : String) (slot : Nat) : Prop :=
  ∃ b, (name, b) ∈ labels ∧ b.slot = slot

theorem At.unique {labels : List (String × Binding)} {name : String} {k l : Nat}
    (hnames : (labels.map Prod.fst).Nodup) (h : At labels name k) (h' : At labels name l) :
    k = l := by
  obtain ⟨b, hb, rfl⟩ := h
  obtain ⟨c, hc, rfl⟩ := h'
  have := List.inj_on_of_nodup_map hnames hb hc rfl
  cases this
  rfl

section Charts

variable (root : Expr) (labels : List (String × Binding))

/-- A flow agrees with what is known before and after about the labels that are read.  Slots
    in `G` are known to be needed by the input; all others are those of labels in `Q`, and new
    labels are in `W`. -/
structure Charts (G : Nat → Prop) (Q : String → Prop) (W a : NameSet) (f : Flow)
    (a' : NameSet) : Prop where
  needs : ∀ k ∈ f.needs, G k ∨ ∃ n, Q n ∧ At labels n k ∧ n ∈ a
  sets : ∀ n ∈ a', n ∈ root.analysis.labelsRead → n ∈ a ∨ ∃ k ∈ f.sets, At labels n k
  grows : ∀ n ∈ a, n ∈ a'
  writes : ∀ n ∈ a', n ∈ a ∨ n ∈ W

namespace Charts

variable {root labels} {G : Nat → Prop} {Q Q' : String → Prop} {W W' a a₁ a₂ a' : NameSet}
  {f g : Flow}

theorem nothing (a : NameSet) : Charts root labels G Q W a .nothing a :=
  ⟨fun _ h => absurd h List.not_mem_nil, fun _ h _ => .inl h, fun _ h => h, fun _ h => .inl h⟩

theorem mono (h : Charts root labels G Q W a f a') (hQ : ∀ n, Q n → Q' n)
    (hW : ∀ n ∈ W, n ∈ W') : Charts root labels G Q' W' a f a' := by
  refine ⟨fun k hk => ?_, h.sets, h.grows, fun n hn => (h.writes n hn).imp id (hW n)⟩
  rcases h.needs k hk with hG | ⟨n, hn, hat⟩
  · exact .inl hG
  · exact .inr ⟨n, hQ n hn, hat⟩

theorem refine (h : Charts root labels G Q W a f a') (hg : g.Refines f) :
    Charts root labels G Q W a g a' := by
  refine ⟨fun k hk => h.needs k (hg.needs k hk), fun n hn hR => ?_, h.grows, h.writes⟩
  exact (h.sets n hn hR).imp id fun ⟨k, hk, hat⟩ => ⟨k, hg.sets k hk, hat⟩

/-- The same from labels that are as many. -/
theorem start (h : Charts root labels G Q W a f a') (hnew : ∀ n ∈ a, n ∈ a₁)
    (hold : ∀ n ∈ a₁, n ∈ a) : Charts root labels G Q W a₁ f a' := by
  refine ⟨fun k hk => ?_, fun n hn hR => (h.sets n hn hR).imp (hnew n) id,
    fun n hn => h.grows n (hold n hn), fun n hn => (h.writes n hn).imp (hnew n) id⟩
  rcases h.needs k hk with hG | ⟨n, hn, hat, hna⟩
  · exact .inl hG
  · exact .inr ⟨n, hn, hat, hnew n hna⟩

theorem contained (h : Charts root labels G Q W a f a₁) :
    Charts root labels G Q W a f.contained a :=
  ⟨h.needs, fun _ h _ => .inl h, fun _ h => h, fun _ h => .inl h⟩

/-- New labels that nobody reads need not be set. -/
theorem calm (h : Charts root labels G Q W a f a₁)
    (hW : ∀ n ∈ W, n ∉ root.analysis.labelsRead) :
    Charts root labels G Q W a f.contained a₁ := by
  refine ⟨h.needs, fun n hn hR => ?_, h.grows, h.writes⟩
  rcases h.writes n hn with hn | hn
  · exact .inl hn
  · exact absurd hR (hW n hn)

theorem trans (hnames : (labels.map Prod.fst).Nodup)
    (hQ : ∀ n, Q n → n ∈ root.analysis.labelsRead) (h : Charts root labels G Q W a f a₁)
    (h' : Charts root labels G Q W a₁ g a₂) : Charts root labels G Q W a (f.andThen g) a₂ := by
  refine ⟨fun k hk => ?_, fun n hn hR => ?_, fun n hn => h'.grows n (h.grows n hn),
    fun n hn => ?_⟩
  · rcases Flow.mem_needs_andThen.mp hk with hk | ⟨hk, hset⟩
    · exact h.needs k hk
    · rcases h'.needs k hk with hG | ⟨n, hn, hat, hna⟩
      · exact .inl hG
      · rcases h.sets n hna (hQ n hn) with hna | ⟨l, hl, hat'⟩
        · exact .inr ⟨n, hn, hat, hna⟩
        · rw [hat'.unique hnames hat] at hl
          exact absurd hl hset
  · rcases h'.sets n hn hR with hn | ⟨k, hk, hat⟩
    · rcases h.sets n hn hR with hn | ⟨k, hk, hat⟩
      · exact .inl hn
      · exact .inr ⟨k, Flow.mem_sets_andThen.mpr (.inl hk), hat⟩
    · exact .inr ⟨k, Flow.mem_sets_andThen.mpr (.inr hk), hat⟩
  · rcases h'.writes n hn with hn | hn
    · exact h.writes n hn
    · exact .inr hn

theorem either (hnames : (labels.map Prod.fst).Nodup) (h : Charts root labels G Q W a f a₁)
    (h' : Charts root labels G Q W a g a₂) :
    Charts root labels G Q W a (f.either g) (NameSet.inter a₁ a₂) := by
  refine ⟨fun k hk => ?_, fun n hn hR => ?_, fun n hn => ?_, fun n hn => ?_⟩
  · exact (Flow.mem_needs_either.mp hk).elim (h.needs k) (h'.needs k)
  · obtain ⟨hn₁, hn₂⟩ := NameSet.mem_inter.mp hn
    rcases h.sets n hn₁ hR with hn | ⟨k, hk, hat⟩
    · exact .inl hn
    · rcases h'.sets n hn₂ hR with hn | ⟨l, hl, hat'⟩
      · exact .inl hn
      · rw [hat'.unique hnames hat] at hl
        exact .inr ⟨k, Flow.mem_sets_either.mpr ⟨hk, hl⟩, hat⟩
  · exact NameSet.mem_inter.mpr ⟨h.grows n hn, h'.grows n hn⟩
  · exact h.writes n (NameSet.mem_inter.mp hn).1

end Charts

/-! ### What the input of a scope needs -/

/-- What a scope is entered with: the labels that its input needs, and the keys of a group that
    its expressions may stand for. -/
structure Ground where
  needs : Nat → Prop
  keys : List Expr

/-- The input of the scope needs no label. -/
def Ground.plain (keys : List Expr) : Ground := ⟨fun _ => False, keys⟩

/-- The keys that an expression in a context of a scope may stand for. -/
def keysAt (keys : List Expr) : Context → List Expr
  | .part _ _ .consumer => []
  | _ => keys

/-- The labels that were checked with the producers whose consumers a context belongs to. -/
def Behind (keys : List Expr) : Context → Nat → Prop
  | .part outer node .consumer, k =>
    Behind keys outer k ∨ ∃ p n, Expr.Within p root ∧ p.analysis.hasSideEffects = false ∧
      node = .identity p.id ∧ Checks (keysAt keys outer) p n ∧ At labels n k
  | _, _ => False

/-- The labels that the input of an expression or of its scope needs. -/
def Given (ground : Ground) (context : Context) (k : Nat) : Prop :=
  ground.needs k ∨ Behind root labels ground.keys context k

section Contexts

variable {root labels} {keys : List Expr} {context context' outer : Context} {node : NodeKey}
  {which : Part} {k : Nat}

theorem keysAt_alike (h : context.alike context' = true) :
    keysAt keys context = keysAt keys context' := by
  cases context with
  | root =>
    cases context' with
    | root => rfl
    | part => cases h
  | part outer node which =>
    cases context' with
    | root => cases h
    | part outer' node' which' =>
      simp only [Context.alike, Bool.and_eq_true, beq_iff_eq] at h
      obtain ⟨⟨rfl, -⟩, -⟩ := h
      cases which <;> rfl

theorem keysAt_part (hwhich : which ≠ .consumer) :
    keysAt keys (.part outer node which) = keys := by
  cases which <;> first | rfl | exact absurd rfl hwhich

theorem not_behind_part (hwhich : which ≠ .consumer) :
    ¬Behind root labels keys (.part outer node which) k := by
  cases which <;> first | exact id | exact absurd rfl hwhich

theorem not_given_part (hwhich : which ≠ .consumer) :
    ¬Given root labels (.plain keys) (.part outer node which) k :=
  fun h => h.elim id (not_behind_part hwhich)

/-- Alike contexts have the same producers. -/
theorem Behind.alike (h : context.alike context' = true)
    (hbehind : Behind root labels keys context k) : Behind root labels keys context' k := by
  induction context generalizing context' with
  | root => exact hbehind.elim
  | part outer node which ih =>
    cases context' with
    | root => cases h
    | part outer' node' which' =>
      simp only [Context.alike, Bool.and_eq_true, beq_iff_eq] at h
      obtain ⟨⟨rfl, hnode⟩, houter⟩ := h
      by_cases hwhich : which = .consumer
      · subst hwhich
        rcases hbehind with hbehind | ⟨p, n, hp, hfree, rfl, hchecks, hat⟩
        · exact .inl (ih houter hbehind)
        · refine .inr ⟨p, n, hp, hfree, ?_, keysAt_alike houter ▸ hchecks, hat⟩
          cases node' with
          | identity i => rw [eq_of_beq (show (p.id == i) = true from hnode)]
          | shape => cases hnode
      · exact absurd hbehind (not_behind_part hwhich)

end Contexts

/-- What is known about a binding: the labels its definition needs and sets are those of the
    expression it stands for, apart from what the input needs. -/
structure Noted (ground : Ground) (b : Bound) (e : Expr) : Prop where
  within : Expr.Within e root
  node : b.site.node = .of e e.analysis
  reads : b.reads = e.analysis.labelsRead
  needs : ∀ k ∈ b.definition.flow.needs, Given root labels ground b.site.context k ∨
    ∃ n, Checks (keysAt ground.keys b.site.context) e n ∧ At labels n k
  sets : ∀ n ∈ b.writes, n ∈ root.analysis.labelsRead →
    ∃ k ∈ b.definition.flow.sets, At labels n k
  writes : ∀ n ∈ b.writes, n ∈ e.analysis.labelsWritten

def AllNoted (ground : Ground) (bound : List Bound) : Prop :=
  ∀ b ∈ bound, ∃ e, Noted root labels ground b e

theorem AllNoted.honest {root : Expr} {labels : List (String × Binding)} {ground : Ground}
    {bound : List Bound} (h : AllNoted root labels ground bound) : Honest root bound := by
  intro b hb
  obtain ⟨e, noted⟩ := h b hb
  exact ⟨e, noted.within, noted.node, noted.writes⟩

/-- The labels behind some slots are set. -/
def Ready (G : Nat → Prop) (a : NameSet) : Prop :=
  ∀ k, G k → ∃ n ∈ root.analysis.labelsRead, At labels n k ∧ n ∈ a

/-- A step of lowering and the flow of what it gives. -/
structure Flows (ground : Ground) (G : Nat → Prop) (Q : String → Prop) (W : NameSet) (s : State)
    (f : Flow) (s' : State) : Prop where
  grown : Extends s s'
  charts : (∀ l ∈ s'.supply.labels, l ∈ labels) → AllNoted root labels ground s.bound →
    Ready root labels G s.assigned →
      Charts root labels G Q W s.assigned f s'.assigned ∧ AllNoted root labels ground s'.bound

/-- What the whole development below assumes: the labels have different names. -/
abbrev NamesApart : Prop := (labels.map Prod.fst).Nodup

namespace Flows

variable {root labels} {α β : Type} {ground : Ground} {G G' : Nat → Prop}
  {Q Q' : String → Prop} {W W' : NameSet} {s s₁ s₂ s' : State} {f g : Flow}

/-- A step that only hands out names and places. -/
theorem idle (hextends : Extends s s') (hbound : s'.bound = s.bound)
    (hassigned : s'.assigned = s.assigned) : Flows root labels ground G Q W s .nothing s' := by
  refine ⟨hextends, fun _ hnoted _ => ⟨?_, hbound ▸ hnoted⟩⟩
  rw [hassigned]
  exact .nothing _

theorem refl (s : State) : Flows root labels ground G Q W s .nothing s := idle (.refl s) rfl rfl

theorem mono (h : Flows root labels ground G Q W s f s') (hQ : ∀ n, Q n → Q' n)
    (hW : ∀ n ∈ W, n ∈ W') : Flows root labels ground G Q' W' s f s' := by
  refine ⟨h.grown, fun hlabels hnoted hready => ?_⟩
  obtain ⟨charts, noted⟩ := h.charts hlabels hnoted hready
  exact ⟨charts.mono hQ hW, noted⟩

theorem refine (h : Flows root labels ground G Q W s f s') (hg : g.Refines f) :
    Flows root labels ground G Q W s g s' := by
  refine ⟨h.grown, fun hlabels hnoted hready => ?_⟩
  obtain ⟨charts, noted⟩ := h.charts hlabels hnoted hready
  exact ⟨charts.refine hg, noted⟩

/-- A part whose labels do not count afterwards. -/
theorem contained (h : Flows root labels ground G Q W s f s₁) :
    Flows root labels ground G Q W s f.contained { s₁ with assigned := s.assigned } := by
  refine ⟨h.grown.trans (Extends.closed.assign _ _), fun hlabels hnoted hready => ?_⟩
  obtain ⟨charts, noted⟩ := h.charts hlabels hnoted hready
  exact ⟨charts.contained, noted⟩

theorem calm (h : Flows root labels ground G Q W s f s')
    (hW : ∀ n ∈ W, n ∉ root.analysis.labelsRead) :
    Flows root labels ground G Q W s f.contained s' := by
  refine ⟨h.grown, fun hlabels hnoted hready => ?_⟩
  obtain ⟨charts, noted⟩ := h.charts hlabels hnoted hready
  exact ⟨charts.calm hW, noted⟩

theorem Ready.grow {a a' : NameSet} (h : Ready root labels G a) (hgrow : ∀ n ∈ a, n ∈ a') :
    Ready root labels G a' := by
  intro k hk
  obtain ⟨n, hn, hat, hna⟩ := h k hk
  exact ⟨n, hn, hat, hgrow n hna⟩

theorem trans (hnames : NamesApart labels) (hQ : ∀ n, Q n → n ∈ root.analysis.labelsRead)
    (h : Flows root labels ground G Q W s f s₁) (h' : Flows root labels ground G Q W s₁ g s₂) :
    Flows root labels ground G Q W s (f.andThen g) s₂ := by
  refine ⟨h.grown.trans h'.grown, fun hlabels hnoted hready => ?_⟩
  obtain ⟨charts, noted⟩ := h.charts
    (fun l hl => hlabels l (h'.grown.mem_labels hl)) hnoted hready
  obtain ⟨charts', noted'⟩ := h'.charts hlabels noted (Ready.grow hready charts.grows)
  exact ⟨charts.trans hnames hQ charts', noted'⟩

/-- What the input needs besides may be labels that are set. -/
theorem given (hQ : ∀ n, Q n → n ∈ root.analysis.labelsRead)
    (h : Flows root labels ground G' Q W s f s')
    (hG : ∀ k, G' k → G k ∨ ∃ n, Q n ∧ At labels n k ∧ n ∈ s.assigned) :
    Flows root labels ground G Q W s f s' := by
  refine ⟨h.grown, fun hlabels hnoted hready => ?_⟩
  have ready : Ready root labels G' s.assigned := by
    intro k hk
    rcases hG k hk with hk | ⟨n, hn, hat, hna⟩
    · exact hready k hk
    · exact ⟨n, hQ n hn, hat, hna⟩
  obtain ⟨charts, noted⟩ := h.charts hlabels hnoted ready
  refine ⟨{ charts with needs := fun k hk => ?_ }, noted⟩
  rcases charts.needs k hk with hk | hn
  · exact hG k hk
  · exact .inr hn

/-- One of two steps, both from the same labels. -/
theorem either (hnames : NamesApart labels) (h : Flows root labels ground G Q W s f s₁)
    (h' : Flows root labels ground G Q W { s₁ with assigned := s.assigned } g s₂) :
    Flows root labels ground G Q W s (f.either g)
      { s₂ with assigned := NameSet.inter s₂.assigned s₁.assigned } := by
  refine ⟨(h.grown.trans (Extends.closed.assign _ _)).trans
    (h'.grown.trans (Extends.closed.assign _ _)), fun hlabels hnoted hready => ?_⟩
  obtain ⟨charts, noted⟩ := h.charts
    (fun l hl => hlabels l (h'.grown.mem_labels hl)) hnoted hready
  obtain ⟨charts', noted'⟩ := h'.charts hlabels noted hready
  exact ⟨(charts'.either hnames charts).refine (.either_comm f g), noted'⟩

/-- A scope, whose input may need some of what the input around it needs. -/
theorem scope {inner : Ground} (h : Flows root labels inner G' Q W s.enter f s₁)
    (hG : ∀ k, G' k → G k) :
    Flows root labels ground G Q W s f.contained (s₁.leave s) := by
  refine ⟨Extends.closed.scope h.grown, fun hlabels hnoted hready => ?_⟩
  obtain ⟨charts, -⟩ := h.charts hlabels (fun _ h => absurd h List.not_mem_nil)
    fun k hk => hready k (hG k hk)
  refine ⟨⟨fun k hk => ?_, fun _ h _ => .inl h, fun _ h => h, fun _ h => .inl h⟩, hnoted⟩
  exact (charts.needs k hk).imp (hG k) id

/-- Two steps that are evaluated in the other order, where the one that comes first then reads
    nothing that the other one writes. -/
theorem swap {Qf : String → Prop} {Wf : NameSet} (h : Flows root labels ground G Q W s g s₁)
    (h' : Flows root labels ground G Qf Wf s₁ f.contained s₂) (hapart : ∀ n, Qf n → n ∉ W) :
    Flows root labels ground G (fun n => Q n ∨ Qf n) (W ++ Wf) s (f.andThen g) s₂ := by
  refine ⟨h.grown.trans h'.grown, fun hlabels hnoted hready => ?_⟩
  obtain ⟨charts, noted⟩ := h.charts
    (fun l hl => hlabels l (h'.grown.mem_labels hl)) hnoted hready
  obtain ⟨charts', noted'⟩ := h'.charts hlabels noted (Ready.grow hready charts.grows)
  refine ⟨⟨fun k hk => ?_, fun n hn hR => ?_, fun n hn => charts'.grows n (charts.grows n hn),
    fun n hn => ?_⟩, noted'⟩
  · rcases Flow.mem_needs_andThen.mp hk with hk | ⟨hk, -⟩
    · rcases charts'.needs k hk with hG | ⟨n, hn, hat, hna⟩
      · exact .inl hG
      · rcases charts.writes n hna with hna | hw
        · exact .inr ⟨n, .inr hn, hat, hna⟩
        · exact absurd hw (hapart n hn)
    · rcases charts.needs k hk with hG | ⟨n, hn, hat⟩
      · exact .inl hG
      · exact .inr ⟨n, .inl hn, hat⟩
  · rcases charts'.sets n hn hR with hn | ⟨k, hk, -⟩
    · rcases charts.sets n hn hR with hn | ⟨k, hk, hat⟩
      · exact .inl hn
      · exact .inr ⟨k, Flow.mem_sets_andThen.mpr (.inr hk), hat⟩
    · exact absurd hk List.not_mem_nil
  · rcases charts'.writes n hn with hn | hn
    · rcases charts.writes n hn with hn | hn
      · exact .inl hn
      · exact .inr (List.mem_append_left _ hn)
    · exact .inr (List.mem_append_right _ hn)

section Lists

variable {R : α → State → β → State → Prop} {F : β → Flow}

theorem sequence (hnames : NamesApart labels) (hQ : ∀ n, Q n → n ∈ root.analysis.labelsRead)
    {as : List α} {bs : List β} (h : Sequence R as s bs s')
    (hR : ∀ a ∈ as, ∀ s b s', R a s b s' → Flows root labels ground G Q W s (F b) s') :
    Flows root labels ground G Q W s (Flow.all (bs.map F)) s' := by
  induction h with
  | nil => exact refl _
  | cons head _ ih =>
    exact (hR _ List.mem_cons_self _ _ _ head).trans hnames hQ
      (ih fun a ha => hR a (List.mem_cons_of_mem _ ha))

theorem optional {a : Option α} {b : Option β} (h : Optional R a s b s')
    (hR : ∀ c ∈ a, ∀ s b s', R c s b s' → Flows root labels ground G Q W s (F b) s') :
    Flows root labels ground G Q W s (Flow.perhaps (b.map F)) s' := by
  cases h with
  | none => exact refl _
  | some h => exact hR _ rfl _ _ _ h

end Lists

end Flows

end Charts

/-! ### Lowering agrees with the order of evaluation -/

/-- The labels that a use of the input needs. -/
def Input.needs : Input → List Nat
  | .inline producer => producer.flow.needs
  | .value | .unavailable => []

/-- Surroundings in which the input needs no more than is known about their context. -/
structure Sheltered (root : Expr) (labels : List (String × Binding)) (ground : Ground) (env : Env) :
    Prop where
  located : env.Located
  keys : env.keysHere = keysAt ground.keys env.context
  input : ∀ k ∈ env.input.needs, Given root labels ground env.context k

/-- A part with an input of its own, which is no output of an aggregate. -/
theorem Sheltered.enter {root : Expr} {labels : List (String × Binding)} {needs : Nat → Prop}
    {inner : Env} {outer : Context} {key : NodeKey} {which : Part} (hlocated : inner.Located)
    (hcontext : inner.context = .part outer key which) (houtput : which ≠ .output)
    (hconsumer : which ≠ .consumer) (hinput : ∀ k ∈ inner.input.needs, needs k) :
    Sheltered root labels ⟨needs, []⟩ inner where
  located := hlocated
  keys := by rw [Env.keysHere_part hlocated houtput hcontext, hcontext, keysAt_part hconsumer]
  input k hk := .inl (hinput k hk)

/-- The expressions below an expression are lowered in the order of evaluation. -/
def FlowBelow (root : Expr) (labels : List (String × Binding)) (e : Expr) : Prop :=
  ∀ (c : Smaller e) {env : Env} {ground : Ground} {s s' : State} {op : Op},
    Expr.Within c.1 root → env.pass = .emit → Sheltered root labels ground env →
      Lowers env c s op s' →
        Flows root labels ground (Given root labels ground env.context)
          (Checks env.keysHere c.1) c.1.analysis.labelsWritten s op.flow s'

theorem Op.flow_mk (node : OpNode Op) :
    (Op.mk node).flow = OpNode.flow (Op.foldNode OpNode.flow node) := rfl

/-- An expression inside a root that stands for none of these keys, and below which all
    expressions are lowered in order. -/
structure Setting (root : Expr) (labels : List (String × Binding)) (keys : List Expr) (e : Expr) :
    Prop where
  below : FlowBelow root labels e
  analyzed : root.Analyzed
  names : NamesApart labels
  within : Expr.Within e root
  orderly : root.Orderly
  noKey : ∀ key ∈ keys, (key == e) = false

/-- The flow of what a step gives, as part of the evaluation of an expression that may stand for
    some keys. -/
abbrev FlowsIn (root : Expr) (labels : List (String × Binding)) (keys : List Expr) (e : Expr)
    (env : Env) (ground : Ground) (s : State) (f : Flow) (s' : State) : Prop :=
  Flows root labels ground (Given root labels ground env.context) (Checks keys e)
    e.analysis.labelsWritten s f s'

/-- A part of an expression that is lowered in some surroundings. -/
abbrev IsPart (keys : List Expr) (e : Expr) (env : Env) (c : Smaller e) : Prop :=
  (env.keysHere, c) ∈ Smaller.loweredParts keys e.parts

theorem isPart_of_keysHere {keys keys' : List Expr} {e : Expr} {env : Env} {c : Smaller e}
    (hkeys : env.keysHere = keys') (h : (keys', c) ∈ Smaller.loweredParts keys e.parts) :
    IsPart keys e env c := by
  subst hkeys
  exact h

/-- The children of most nodes are lowered where the node is. -/
theorem isPart_child {e : Expr} (env : Env) {node : Node (Smaller e)} (hnode : e.parts = node)
    (hparts : Smaller.loweredParts env.keysHere node = node.children.map (env.keysHere, ·)) :
    ∀ c ∈ node.children, IsPart env.keysHere e env c := by
  intro c hc
  rw [IsPart, hnode, hparts]
  exact List.mem_map_of_mem hc

namespace Setting

variable {root e : Expr} {labels : List (String × Binding)} {keys : List Expr} {env : Env}
  {key : NodeKey} {ground : Ground} {s s₁ s₂ s' : State} {op : Op}

theorem reads (S : Setting root labels keys e) :
    ∀ n, Checks keys e n → n ∈ root.analysis.labelsRead := by
  intro n hn
  obtain ⟨analyzed, covers⟩ := S.within.analyzed S.analyzed
  exact covers.labelsRead n (hn.read analyzed)

theorem covers (S : Setting root labels keys e) {c : Expr} (hc : Expr.Within c e) :
    e.analysis.CoversEffects c.analysis := (hc.analyzed (S.within.analyzed S.analyzed).1).2

theorem trans (S : Setting root labels keys e) {f g : Flow}
    (h : FlowsIn root labels keys e env ground s f s₁)
    (h' : FlowsIn root labels keys e env ground s₁ g s₂) :
    FlowsIn root labels keys e env ground s (f.andThen g) s₂ :=
  Flows.trans S.names S.reads h h'

/-- A step after one that only hands out names and places. -/
theorem after (S : Setting root labels keys e) {f : Flow}
    (h : FlowsIn root labels keys e env ground s .nothing s₁)
    (h' : FlowsIn root labels keys e env ground s₁ f s₂) :
    FlowsIn root labels keys e env ground s f s₂ :=
  (S.trans h h').refine (.nothing_andThen f)

/-- What is known of the parts of an expression. -/
theorem known (S : Setting root labels keys e) {cs : List (Smaller e)}
    (hcs : ∀ c ∈ cs, IsPart keys e env c) :
    ∀ c ∈ cs, IsPart keys e env c ∧ (∀ n, Checks env.keysHere c.1 n → Checks keys e n) ∧
      ∀ n ∈ c.1.analysis.labelsWritten, n ∈ e.analysis.labelsWritten := fun c hc =>
  ⟨hcs c hc, fun _ hn => .part S.noKey (hcs c hc) hn,
    (S.covers (Smaller.within_of_mem_loweredParts (hcs c hc))).labelsWritten⟩

section Same

variable (S : Setting root labels keys e) (hpass : env.pass = .emit)
  (hshelter : Sheltered root labels ground env)
include S hpass hshelter

/-- A part of an expression reads and writes what the expression does. -/
theorem part {c : Smaller e} (hc : IsPart keys e env c) (h : Lowers env c s op s') :
    FlowsIn root labels keys e env ground s op.flow s' := by
  have within := Smaller.within_of_mem_loweredParts hc
  have flows := S.below c (within.trans S.within) hpass hshelter h
  exact flows.mono (fun _ hn => .part S.noKey hc hn) (S.covers within).labelsWritten

theorem containedPart {c : Smaller e} (hc : IsPart keys e env c)
    (h : LowersContained env c s op s') :
    FlowsIn root labels keys e env ground s op.flow.contained s' := by
  obtain ⟨s₁, h, rfl⟩ := h
  exact (S.part hpass hshelter hc h).contained

/-- Parts of an expression, of which more is known than that they belong to it. -/
theorem allOf {Q : String → Prop} {W : NameSet} {cs : List (Smaller e)} {ops : List Op}
    (hQ : ∀ n, Q n → n ∈ root.analysis.labelsRead)
    (hcs : ∀ c ∈ cs, IsPart keys e env c ∧ (∀ n, Checks env.keysHere c.1 n → Q n) ∧
      ∀ n ∈ c.1.analysis.labelsWritten, n ∈ W)
    (h : Sequence (Lowers env) cs s ops s') :
    Flows root labels ground (Given root labels ground env.context) Q W s
      (Flow.all (ops.map Op.flow)) s' := by
  refine .sequence S.names hQ h fun c hc _ _ _ h => ?_
  obtain ⟨hpart, hreads, hwrites⟩ := hcs c hc
  have within := (Smaller.within_of_mem_loweredParts hpart).trans S.within
  exact (S.below c within hpass hshelter h).mono hreads hwrites

theorem all {cs : List (Smaller e)} {ops : List Op} (hcs : ∀ c ∈ cs, IsPart keys e env c)
    (h : Sequence (Lowers env) cs s ops s') :
    FlowsIn root labels keys e env ground s (Flow.all (ops.map Op.flow)) s' :=
  S.allOf hpass hshelter S.reads (S.known hcs) h

theorem option {c : Option (Smaller e)} {o : Option Op} (hc : ∀ d ∈ c, IsPart keys e env d)
    (h : Optional (Lowers env) c s o s') :
    FlowsIn root labels keys e env ground s (Flow.perhaps (o.map Op.flow)) s' :=
  .optional h fun d hd _ _ _ h => S.part hpass hshelter (hc d hd) h

theorem shortCircuit {cs : List (Smaller e)} {ops : List Op}
    (hcs : ∀ c ∈ cs, IsPart keys e env c) (h : ShortCircuit env cs s ops s') :
    FlowsIn root labels keys e env ground s (Flow.first (ops.map Op.flow)) s' := by
  cases h with
  | nil => exact .refl _
  | cons head tail =>
    refine S.trans (S.part hpass hshelter (hcs _ List.mem_cons_self) head) ?_
    exact (S.all hpass hshelter (fun c hc => hcs c (List.mem_cons_of_mem _ hc)) tail).contained

theorem conjunctionOf {Q : String → Prop} {W : NameSet} {cs : List (Smaller e)} {o : Option Op}
    (hQ : ∀ n, Q n → n ∈ root.analysis.labelsRead)
    (hcs : ∀ c ∈ cs, IsPart keys e env c ∧ (∀ n, Checks env.keysHere c.1 n → Q n) ∧
      ∀ n ∈ c.1.analysis.labelsWritten, n ∈ W)
    (h : ConjunctionGives env cs s o s') :
    Flows root labels ground (Given root labels ground env.context) Q W s
      (Flow.perhaps (o.map Op.flow)).contained s' := by
  obtain ⟨ops, s₁, hops, rfl, rfl⟩ := h
  have flows := (S.allOf hpass hshelter hQ hcs hops).contained
  match ops, flows with
  | [], flows => exact flows
  | [o], flows =>
    refine flows.refine ⟨fun n hn => ?_, fun n hn => absurd hn List.not_mem_nil⟩
    exact Flow.mem_needs_andThen.mpr (.inl hn)
  | o :: o' :: os, flows =>
    refine flows.refine ⟨fun n hn => ?_, fun n hn => absurd hn List.not_mem_nil⟩
    have hfirst : (Op.mk (.and (o :: o' :: os))).flow =
        Flow.first ((o :: o' :: os).map Op.flow) := by
      rw [Op.flow_mk, Op.foldNode, Op.foldAll_eq]
      rfl
    simp only [conjunctionOp, Option.map_some, Flow.perhaps, Option.getD_some, Flow.contained,
      hfirst] at hn
    exact hn

theorem conjunction {cs : List (Smaller e)} {o : Option Op}
    (hcs : ∀ c ∈ cs, IsPart keys e env c) (h : ConjunctionGives env cs s o s') :
    FlowsIn root labels keys e env ground s (Flow.perhaps (o.map Op.flow)).contained s' :=
  S.conjunctionOf hpass hshelter S.reads (S.known hcs) h

/-- All keys of a path. -/
theorem steps {path : List (PathStep (Smaller e))} {steps : List (Step Op)}
    (hpath : ∀ step ∈ path, ∀ c ∈ step.children, IsPart keys e env c)
    (h : Sequence (StepGives env) path s steps s') :
    FlowsIn root labels keys e env ground s
      (Flow.all (Flow.keys (steps.map (Op.foldStep OpNode.flow)))) s' := by
  induction h with
  | nil => exact .refl _
  | cons head _ ih =>
    have rest := ih fun step hstep => hpath step (List.mem_cons_of_mem _ hstep)
    cases head with
    | key h => exact S.trans (S.part hpass hshelter
        (hpath _ List.mem_cons_self _ List.mem_cons_self) h) rest
    | attr => exact rest

/-- Keys whose labels nobody reads. -/
theorem lateSteps {path : List (PathStep (Smaller e))} {steps : List (Step Op)}
    (hpath : ∀ step ∈ path, ∀ c ∈ step.children, IsPart keys e env c)
    (hunread : ∀ step ∈ path, ∀ c ∈ step.children, ∀ n ∈ c.1.analysis.labelsWritten,
      n ∉ root.analysis.labelsRead)
    (h : Sequence (StepGives env) path s steps s') :
    FlowsIn root labels keys e env ground s
      (Flow.apart (Flow.keys (steps.map (Op.foldStep OpNode.flow)))) s' := by
  induction h with
  | nil => exact .refl _
  | cons head _ ih =>
    have rest := ih (fun step hstep => hpath step (List.mem_cons_of_mem _ hstep))
      fun step hstep => hunread step (List.mem_cons_of_mem _ hstep)
    cases head with
    | @key c _ _ _ h =>
      have hpart := hpath _ List.mem_cons_self c List.mem_cons_self
      have within := Smaller.within_of_mem_loweredParts hpart
      have flows := S.below c (within.trans S.within) hpass hshelter h
      have calm := flows.calm (hunread _ List.mem_cons_self c List.mem_cons_self)
      exact S.trans (calm.mono (fun _ hn => .part S.noKey hpart hn) (S.covers within).labelsWritten)
        rest
    | attr => exact rest

/-- A handler starts where the guarded expression does. -/
theorem handler {before : NameSet} {h : Handler (Smaller e)} {r : HandlerOp Op × NameSet}
    (hh : ∀ c ∈ h.children, IsPart keys e env c) (hgives : HandlerGives env before h s r s') :
    FlowsIn root labels keys e env ground { s with assigned := before }
      (Flow.handler (Op.foldHandler OpNode.flow r.1)) s' := by
  obtain ⟨⟨kinds, value, reraiseIf⟩, names⟩ := r
  obtain ⟨-, -, s₁, hreraise, hvalue⟩ := hgives
  have condition := S.option hpass hshelter (fun c hc => hh c (by simp_all [Handler.children]))
    hreraise
  rw [Op.foldHandler, Flow.handler, Op.foldOption_eq]
  exact S.trans condition (S.part hpass hshelter (hh h.value (by simp [Handler.children])) hvalue)

end Same

/-- What is evaluated for each row of a side; the filters come first. -/
theorem side (S : Setting root labels keys e) (hpass : env.pass = .emit)
    (hshelter : Sheltered root labels ground env) {join : JoinEnv} {which : Part}
    {joined filter : List (Smaller e)} {side : JoinSideOp Op} (houtput : which ≠ .output)
    (hconsumer : which ≠ .consumer)
    (hjoined : ∀ c ∈ joined, ([], c) ∈ Smaller.loweredParts keys e.parts)
    (hfilter : ∀ c ∈ filter, ([], c) ∈ Smaller.loweredParts keys e.parts)
    (hapart : ∀ f ∈ filter, ∀ k ∈ joined, ∀ n ∈ k.1.analysis.labelsWritten,
      n ∉ f.1.analysis.labelsRead)
    (h : SideGives (.part env.context key which) join joined filter env s side s') :
    FlowsIn root labels keys e env ground s
      (Flow.side (Op.foldSide OpNode.flow side)).contained s' := by
  obtain ⟨scope, keyOps, filterOp⟩ := side
  obtain ⟨s₁, s₂, hkeyOps, hfilterOp, -, rfl⟩ := h
  let inner : Env :=
    { env.enter (.part env.context key which) env.input with join := some join }
  have shelter : Sheltered root labels ⟨Given root labels ground env.context, []⟩ inner :=
    .enter hshelter.located rfl houtput hconsumer hshelter.input
  have none : inner.keysHere = [] := Env.keysHere_part hshelter.located houtput rfl
  have parts {cs : List (Smaller e)}
      (hcs : ∀ c ∈ cs, ([], c) ∈ Smaller.loweredParts keys e.parts) : ∀ c ∈ cs,
      IsPart keys e inner c ∧
        (∀ n, Checks inner.keysHere c.1 n → ∃ d ∈ cs, Checks inner.keysHere d.1 n) ∧
        ∀ n ∈ c.1.analysis.labelsWritten, n ∈ cs.flatMap fun c => c.1.analysis.labelsWritten :=
    fun c hc => ⟨isPart_of_keysHere none (hcs c hc), fun n hn => ⟨c, hc, hn⟩,
      fun n hn => List.mem_flatMap.mpr ⟨c, hc, hn⟩⟩
  have checks {cs : List (Smaller e)}
      (hcs : ∀ c ∈ cs, ([], c) ∈ Smaller.loweredParts keys e.parts) {n : String}
      (hn : ∃ d ∈ cs, Checks inner.keysHere d.1 n) : Checks keys e n := by
    obtain ⟨d, hd, hn⟩ := hn
    exact .part S.noKey (hcs d hd) (none ▸ hn)
  have written {cs : List (Smaller e)}
      (hcs : ∀ c ∈ cs, ([], c) ∈ Smaller.loweredParts keys e.parts) {n : String}
      (hn : n ∈ cs.flatMap fun c => c.1.analysis.labelsWritten) :
      n ∈ e.analysis.labelsWritten := by
    obtain ⟨c, hc, hn⟩ := List.mem_flatMap.mp hn
    exact (S.covers (Smaller.within_of_mem_loweredParts (hcs c hc))).labelsWritten n hn
  have keysFlow := S.allOf (Env.pass_side hpass) shelter (fun n hn => S.reads n (checks hjoined hn))
    (parts hjoined) hkeyOps
  have filterFlow := S.conjunctionOf (Env.pass_side hpass) shelter
    (fun n hn => S.reads n (checks hfilter hn)) (parts hfilter) hfilterOp
  -- The keys are lowered first while the filter runs first: they commute, since no filter reads
  -- a label that a key writes.
  have both := keysFlow.swap filterFlow fun n hn hw => by
    obtain ⟨f, hf, hn⟩ := hn
    obtain ⟨k, hk, hw⟩ := List.mem_flatMap.mp hw
    have within := (Smaller.within_of_mem_loweredParts (hfilter f hf)).trans S.within
    exact hapart f hf k hk n hw (hn.read (within.analyzed S.analyzed).1)
  have whole : Flows root labels _ _ (Checks keys e) e.analysis.labelsWritten _ _ _ :=
    both.mono (fun n hn => hn.elim (checks hjoined) (checks hfilter))
      fun n hn => (List.mem_append.mp hn).elim (written hjoined) (written hfilter)
  rw [Op.foldSide, Flow.side, Op.foldOption_eq, Op.foldAll_eq]
  exact whole.scope fun k hk => hk.elim id fun hk => absurd hk (not_behind_part hconsumer)

/-- The handlers of a guarded expression all start where it does. -/
theorem handlers (S : Setting root labels keys e) (hpass : env.pass = .emit)
    (hshelter : Sheltered root labels ground env) {before : NameSet}
    {hs : List (Handler (Smaller e))} {lowered : List (HandlerOp Op × NameSet)}
    (hhs : ∀ h ∈ hs, ∀ c ∈ h.children, IsPart keys e env c)
    (h : Sequence (HandlerGives env before) hs s lowered s') :
    Extends s s' ∧ ((∀ l ∈ s'.supply.labels, l ∈ labels) → AllNoted root labels ground s.bound →
      Ready root labels (Given root labels ground env.context) before →
        AllNoted root labels ground s'.bound ∧ ∀ f a,
          Charts root labels (Given root labels ground env.context) (Checks keys e)
            e.analysis.labelsWritten before f a →
          Charts root labels (Given root labels ground env.context) (Checks keys e)
            e.analysis.labelsWritten before
            ((lowered.map fun r => Op.foldHandler OpNode.flow r.1).foldl
              (fun f h => f.either (Flow.handler h)) f)
            (lowered.foldl (fun names h => NameSet.inter names h.2) a)) := by
  induction h with
  | nil => exact ⟨.refl _, fun _ hnoted _ => ⟨hnoted, fun _ _ h => h⟩⟩
  | cons head _ ih =>
    obtain ⟨grown', rest⟩ := ih fun h hh => hhs h (List.mem_cons_of_mem _ hh)
    have flows := S.handler hpass hshelter (hhs _ List.mem_cons_self) head
    refine ⟨((Extends.closed.assign _ _).trans flows.grown).trans grown',
      fun hlabels hnoted hready => ?_⟩
    obtain ⟨charts, noted⟩ := flows.charts
      (fun l hl => hlabels l (grown'.mem_labels hl)) hnoted hready
    obtain ⟨noted', charts'⟩ := rest hlabels noted hready
    refine ⟨noted', fun f a h => charts' _ _ ?_⟩
    dsimp only
    rw [head.2.1]
    exact h.either S.names charts

theorem ofInput (hshelter : Sheltered root labels ground env) (h : InputGives env op) (s : State) :
    FlowsIn root labels keys e env ground s op.flow s := by
  cases h with
  | value => exact .refl s
  | inline h =>
    refine ⟨.refl s, fun _ hnoted _ => ⟨⟨fun k hk => .inl (hshelter.input k ?_),
      fun _ h _ => .inl h, fun _ h => h, fun _ h => .inl h⟩, hnoted⟩⟩
    rw [h]
    exact hk

theorem named {value : Value} {name : String} (h : Gives (constantName value) s name s') :
    FlowsIn root labels keys e env ground s .nothing s' := by
  have grown : Extends s s' := Extends.closed.constant h
  obtain ⟨n, cs, rfl⟩ := gives_constantName h
  exact .idle grown rfl rfl

theorem fresh {stem name : String} (h : Gives (freshName stem) s name s') :
    FlowsIn root labels keys e env ground s .nothing s' := by
  have grown : Extends s s' := Extends.closed.name h
  obtain ⟨n, rfl⟩ := gives_freshName h
  exact .idle grown rfl rfl

theorem slot {stem : String} {b : Binding} (h : Gives (freshSlot stem) s b s') :
    FlowsIn root labels keys e env ground s .nothing s' := by
  have grown : Extends s s' := Extends.closed.slot h
  obtain ⟨-, n, rfl⟩ := gives_freshSlot h
  exact .idle grown rfl rfl

/-- An access path, which is left for the default at the first step that fails. -/
theorem access (S : Setting root labels env.keysHere e) (hpass : env.pass = .emit)
    (hshelter : Sheltered root labels ground env) {source : Smaller e}
    {path : List (PathStep (Smaller e))} {default : Option (Smaller e)} {sourceOp : Op}
    {steps : List (Step Op)} {fallback : Option Op}
    (hnode : e.parts = .access source path default) (hsource : Lowers env source s sourceOp s₁)
    (hsteps : Sequence (StepGives env) path s₁ steps s₂)
    (hdefault : Optional (LowersContained env) default s₂ fallback s') :
    FlowsIn root labels env.keysHere e env ground s
      (Op.mk (.access sourceOp steps fallback)).flow s' := by
  have hmem := isPart_child env hnode rfl
  have hpath : ∀ step ∈ path, ∀ c ∈ step.children, IsPart env.keysHere e env c := by
    intro step hstep c hc
    refine hmem c (List.mem_cons_of_mem _ (List.mem_append_left _ ?_))
    exact List.mem_flatMap.mpr ⟨step, hstep, hc⟩
  have first := S.part hpass hshelter (hmem source List.mem_cons_self) hsource
  change FlowsIn root labels env.keysHere e env ground s (OpNode.flow (.access sourceOp.flow
    (Op.foldSteps OpNode.flow steps) (Op.foldOption OpNode.flow fallback))) s'
  rw [OpNode.flow, Op.foldSteps_eq, Op.foldOption_eq]
  refine S.trans first ?_
  cases hdefault with
  | none =>
    rw [Option.map_none, Flow.path_none]
    exact S.steps hpass hshelter hpath hsteps
  | @some d fallbackOp _ _ h =>
    have hd := S.containedPart hpass hshelter (hmem d (by simp [Node.children])) h
    -- Labels of keys behind the first step are read nowhere, so it does not matter that they
    -- may not be set.
    have unread : ∀ step ∈ path.tail, ∀ c ∈ step.children, ∀ n ∈ c.1.analysis.labelsWritten,
        n ∉ root.analysis.labelsRead := by
      intro step hstep c hc
      have hmapped : e.node =
        .access source.1 (path.map (PathStep.map fun c => c.1)) (some d.1) := by
        rw [← e.map_parts, hnode]
        rfl
      refine S.orderly.lateKeys e S.within _ _ _ hmapped (step.map fun c => c.1) ?_ c.1 ?_
      · rw [← List.map_tail]
        exact List.mem_map_of_mem hstep
      · cases step with
        | key k =>
          rw [List.mem_singleton.mp hc]
          exact List.mem_cons_self
        | attr name => exact absurd hc List.not_mem_nil
    have tail {late : List (PathStep (Smaller e))} {steps : List (Step Op)} {t : State}
        (hlate : ∀ step ∈ late, step ∈ path) (htail : ∀ step ∈ late, step ∈ path.tail)
        (h : Sequence (StepGives env) late t steps s₂) :
        FlowsIn root labels env.keysHere e env ground t
          ((Flow.path (some fallbackOp.flow) (steps.map (Op.foldStep OpNode.flow))).orDefault
            (some fallbackOp.flow)) s' := by
      have late := S.lateSteps hpass hshelter (fun step hstep => hpath step (hlate step hstep))
        (fun step hstep => unread step (htail step hstep)) h
      exact (S.trans late hd).refine (Flow.refines_path _ _)
    cases hsteps with
    | nil =>
      refine hd.refine ⟨fun n hn => absurd hn List.not_mem_nil, fun n hn => ?_⟩
      exact absurd hn List.not_mem_nil
    | cons head rest =>
      have later := tail (fun step hstep => List.mem_cons_of_mem _ hstep) (fun _ h => h) rest
      cases head with
      | key h =>
        exact S.trans (S.part hpass hshelter (hpath _ List.mem_cons_self _ List.mem_cons_self) h)
          later
      | attr => exact later

/-- A consumer is lowered in order: what its input may need besides was checked with the
    producer. -/
theorem consumed (S : Setting root labels env.keysHere e) (hpass : env.pass = .emit)
    (hshelter : Sheltered root labels ground env) {producer consumer : Smaller e} {p : Op}
    {input : Input} (hnode : e.parts = .pipe producer consumer) (honest : Honest root s.bound)
    (hproducer : Lowers env producer s p s₁) (hgrows : ∀ n ∈ s.assigned, n ∈ s₁.assigned)
    (hinput : ∀ k ∈ input.needs,
      Given root labels ground (env.consumer producer.1 input).context k)
    (hconsumer : Lowers (env.consumer producer.1 input) consumer s₁ op s') :
    FlowsIn root labels env.keysHere e env ground s₁ op.flow s' := by
  have none : (env.consumer producer.1 input).keysHere = [] :=
    Env.keysHere_part hshelter.located (by decide) rfl
  have shelter : Sheltered root labels ground (env.consumer producer.1 input) :=
    ⟨hshelter.located, none, hinput⟩
  have hpart : IsPart env.keysHere e env producer := by
    rw [IsPart, hnode]
    exact List.mem_cons_self
  have hconsumed : IsPart env.keysHere e (env.consumer producer.1 input) consumer := by
    rw [IsPart, hnode, none]
    exact List.mem_cons_of_mem _ List.mem_cons_self
  have within := (Smaller.within_of_mem_loweredParts hpart).trans S.within
  refine (S.part (Env.pass_consumer hpass) shelter hconsumed hconsumer).given S.reads
    fun k hk => ?_
  rcases hk with hk | hk | ⟨q, n, hq, hfree, hkey, hchecks, hat⟩
  · exact .inl (.inl hk)
  · exact .inl (.inr hk)
  · -- The producer is the one expression of this identity, and it was lowered just now.
    obtain rfl : q = producer.1 := by
      unfold NodeKey.of at hkey
      split at hkey
      · exact (S.orderly.coherent _ _ within hq (NodeKey.identity.inj hkey)).symm
      · cases hkey
    rw [← hshelter.keys] at hchecks
    have vetted := lower_checks S.analyzed S.orderly.coherent within hfree hpass hshelter.located
      hproducer honest
    exact .inr ⟨n, .part S.noKey hpart hchecks, hat, hgrows n (vetted.checked n hchecks)⟩

/-- A pipe whose producer is evaluated at each use. -/
theorem inlined (S : Setting root labels env.keysHere e) (hpass : env.pass = .emit)
    (hshelter : Sheltered root labels ground env) {producer consumer : Smaller e} {p : Op}
    (hnode : e.parts = .pipe producer consumer)
    (hmode : inlines env.threshold producer.1 consumer.1 = true)
    (hproducer : Lowers env producer s p s₁)
    (hconsumer : Lowers (env.consumer producer.1 (.inline p)) consumer s₁ op s') :
    FlowsIn root labels env.keysHere e env ground s op.flow s' := by
  have pure : producer.1.analysis.hasSideEffects = false := by
    simp only [inlines, Bool.and_eq_true, Bool.not_eq_true'] at hmode
    exact hmode.1
  have hpart : IsPart env.keysHere e env producer := by
    rw [IsPart, hnode]
    exact List.mem_cons_self
  have within := (Smaller.within_of_mem_loweredParts hpart).trans S.within
  have produced := S.below producer within hpass hshelter hproducer
  have later := lower_extends (Env.pass_consumer hpass) hconsumer
  refine ⟨produced.grown.trans later, fun hlabels hnoted hready => ?_⟩
  obtain ⟨charts, noted⟩ := produced.charts (fun l hl => hlabels l (later.mem_labels hl)) hnoted
    hready
  have vetted := lower_checks S.analyzed S.orderly.coherent within pure hpass hshelter.located
    hproducer hnoted.honest
  have flows := S.consumed hpass hshelter hnode hnoted.honest hproducer charts.grows
    (fun k hk => ?_) hconsumer
  · obtain ⟨charts', noted'⟩ := flows.charts hlabels noted (Flows.Ready.grow hready charts.grows)
    exact ⟨charts'.start vetted.shrinks charts.grows, noted'⟩
  · rcases charts.needs k hk with hk | ⟨n, hn, hat, -⟩
    · exact hk.imp id .inl
    · have read := hn.read (within.analyzed S.analyzed).1
      have key : NodeKey.of producer.1 producer.1.analysis = .identity producer.1.id :=
        if_pos (by simp [Analysis.readsLabels, List.ne_nil_of_mem read])
      exact .inr (.inr ⟨producer.1, n, within, pure, key, hshelter.keys ▸ hn, hat⟩)

/-- A pipe whose producer is evaluated once. -/
theorem piped (S : Setting root labels env.keysHere e) (hpass : env.pass = .emit)
    (hshelter : Sheltered root labels ground env) {producer consumer : Smaller e} {p : Op}
    (hnode : e.parts = .pipe producer consumer) (hproducer : Lowers env producer s p s₁)
    (hconsumer : Lowers (env.consumer producer.1 .value) consumer s₁ op s') :
    FlowsIn root labels env.keysHere e env ground s (Op.mk (.pipe p op)).flow s' := by
  have hpart : IsPart env.keysHere e env producer := by
    rw [IsPart, hnode]
    exact List.mem_cons_self
  have produced := S.part hpass hshelter hpart hproducer
  have later := lower_extends (Env.pass_consumer hpass) hconsumer
  refine ⟨produced.grown.trans later, fun hlabels hnoted hready => ?_⟩
  obtain ⟨charts, noted⟩ := produced.charts (fun l hl => hlabels l (later.mem_labels hl)) hnoted
    hready
  have flows := S.consumed hpass hshelter hnode hnoted.honest hproducer charts.grows
    (fun k hk => absurd hk List.not_mem_nil) hconsumer
  obtain ⟨charts', noted'⟩ := flows.charts hlabels noted (Flows.Ready.grow hready charts.grows)
  exact ⟨charts.trans S.names S.reads charts', noted'⟩

/-- The parts of reducers may be evaluated or not. -/
theorem reducerSlot (S : Setting root labels keys e) (hpass : env.pass = .emit)
    (hshelter : Sheltered root labels ground env) {r : Reducer (Smaller e)} {slot : SlotOp Op}
    (hr : ∀ c ∈ r.fed, IsPart keys e env c) (h : SlotGives env r s slot s') :
    FlowsIn root labels keys e env ground s
      (Flow.apart (SlotOp.parts (Op.foldSlot OpNode.flow slot))) s' := by
  have optional {c : Option (Smaller e)} {o : Option Op} {t t' : State}
      (hc : ∀ d ∈ c, IsPart keys e env d) (h : Optional (LowersContained env) c t o t') :
      FlowsIn root labels keys e env ground t (Flow.apart (o.map Op.flow).toList) t' := by
    cases h with
    | none => exact .refl _
    | some h => exact (S.containedPart hpass hshelter (hc _ rfl) h).refine (.apart_singleton _)
  obtain ⟨kind, args, filter, initial, seedEmpty⟩ := slot
  obtain ⟨-, -, s₁, s₂, hfilter, hargs, hinitial⟩ := h
  have each : FlowsIn root labels keys e env ground s₁
      (Flow.all (args.map fun op => op.flow.contained)) s₂ :=
    .sequence S.names S.reads hargs fun c hc _ _ _ h =>
      S.containedPart hpass hshelter (hr c (by simp [Reducer.fed, hc])) h
  have argsFlow : FlowsIn root labels keys e env ground s₁ (Flow.apart (args.map Op.flow)) s₂ := by
    simpa only [Flow.apart, List.map_map, Function.comp_def] using each
  have filterFlow := optional (fun c hc => hr c (by simp_all [Reducer.fed])) hfilter
  have initialFlow := optional (fun c hc => hr c (by simp_all [Reducer.fed])) hinitial
  have whole := S.trans ((S.trans filterFlow argsFlow).refine (.apart_append _ _)) initialFlow
  rw [Op.foldSlot, SlotOp.parts, Op.foldOption_eq, Op.foldOption_eq, Op.foldAll_eq]
  exact whole.refine (.apart_append _ _)

theorem reducerSlots (S : Setting root labels keys e) (hpass : env.pass = .emit)
    (hshelter : Sheltered root labels ground env) {reducers : List (Reducer (Smaller e))}
    {slots : List (SlotOp Op)} (hreducers : ∀ r ∈ reducers, ∀ c ∈ r.fed, IsPart keys e env c)
    (h : Sequence (SlotGives env) reducers s slots s') :
    FlowsIn root labels keys e env ground s
      (Flow.apart ((slots.map (Op.foldSlot OpNode.flow)).flatMap SlotOp.parts)) s' := by
  induction h with
  | nil => exact .refl _
  | cons head _ ih =>
    have first := S.reducerSlot hpass hshelter (hreducers _ List.mem_cons_self) head
    have rest := ih fun r hr => hreducers r (List.mem_cons_of_mem _ hr)
    exact (S.trans first rest).refine (.apart_append _ _)

theorem aggregate (S : Setting root labels env.keysHere e) (hpass : env.pass = .emit)
    (hshelter : Sheltered root labels ground env) {keys : List (Smaller e)}
    {output : Smaller e} {reducers : List (Reducer (Smaller e))} {s₃ s₄ s₅ : State}
    {source outputOp : Op} {group : Nat} {row : String} {keyOps : List Op}
    {slots : List (SlotOp Op)} (hnode : e.parts = .aggregate keys output)
    (hsource : InputGives env source) (hreducers : output.slots = .ok reducers)
    (hgroup : Gives freshGroup s group s₁) (hrow : Gives (freshName "row") s₁ row s₂)
    (hkeys : Sequence (Lowers (env.row key)) keys s₂.enter keyOps s₃)
    (hslots : Sequence (SlotGives (env.row key)) reducers s₃ slots s₄)
    (houtput : Lowers (env.output (.of env key group keys reducers)) output
      (s₄.leave s₂).enter outputOp s₅) :
    FlowsIn root labels env.keysHere e env ground s
      (Op.mk (.aggregate { group, row, source, rowScope := s₄.scope, keys := keyOps, slots
                           outputScope := s₅.scope, output := outputOp })).flow
      (s₅.leave (s₄.leave s₂)) := by
  have parts : Smaller.loweredParts env.keysHere e.parts =
      (keys ++ reducers.flatMap Reducer.fed).map ([], ·) ++ [(keys.map (·.1), output)] := by
    rw [hnode, Smaller.loweredParts, Smaller.validSlots, hreducers]
    rfl
  have inRow {c : Smaller e} (hc : c ∈ keys ++ reducers.flatMap Reducer.fed) :
      IsPart env.keysHere e (env.row key) c := by
    refine isPart_of_keysHere rfl ?_
    rw [parts]
    exact List.mem_append_left _ (List.mem_map_of_mem hc)
  have inOutput :
      IsPart env.keysHere e (env.output (.of env key group keys reducers)) output := by
    refine isPart_of_keysHere Env.keysHere_output ?_
    rw [parts]
    exact List.mem_append_right _ List.mem_cons_self
  have started : FlowsIn root labels env.keysHere e env ground s .nothing s₂ := by
    have grouped : FlowsIn root labels env.keysHere e env ground s .nothing s₁ := by
      have grown : Extends s s₁ := Extends.closed.group hgroup
      obtain ⟨-, rfl⟩ := gives_freshGroup hgroup
      exact .idle grown rfl rfl
    exact S.after grouped (fresh hrow)
  -- A row and the output start from inputs of their own, which need nothing from outside.
  have rowShelter : Sheltered root labels (.plain []) (env.row key) :=
    .enter Env.located_row rfl (by decide) (by decide) fun _ hk => absurd hk List.not_mem_nil
  have keysFlow := S.all (Env.pass_row hpass) rowShelter
    (fun c hc => inRow (List.mem_append_left _ hc)) hkeys
  have slotsFlow := S.reducerSlots (Env.pass_row hpass) rowShelter (fun r hr c hc =>
    inRow (List.mem_append_right _ (List.mem_flatMap.mpr ⟨r, hr, hc⟩))) hslots
  have rows : FlowsIn root labels env.keysHere e env ground _ _ _ :=
    (S.trans keysFlow slotsFlow).scope fun k hk => absurd hk (not_given_part (by decide))
  have outputShelter : Sheltered root labels (.plain (keys.map (·.1)))
      (env.output (.of env key group keys reducers)) :=
    ⟨Env.located_output, Env.keysHere_output, fun _ hk => absurd hk List.not_mem_nil⟩
  have outputFlow : FlowsIn root labels env.keysHere e env ground _ _ _ :=
    (S.part (Env.pass_output hpass) outputShelter inOutput houtput).scope
      fun k hk => absurd hk (not_given_part (by decide))
  have whole := S.trans rows (outputFlow.refine (.apart_singleton _))
  change FlowsIn root labels env.keysHere e env ground s
    (OpNode.flow (.aggregate (Op.foldAggregate OpNode.flow _))) _
  rw [Op.foldAggregate, OpNode.flow, Op.foldAll_eq, Op.foldSlots_eq]
  exact S.trans (ofInput hshelter hsource s) (S.after started whole)

theorem join (S : Setting root labels env.keysHere e) (hpass : env.pass = .emit)
    (hshelter : Sheltered root labels ground env) {left right : Smaller e}
    {condition : Option (Smaller e)} {kind : JoinKind} {s₃ s₄ s₅ s₆ s₇ s₈ : State} {l r : Op}
    {leftRow rightRow : Binding} {preFilter residual : Option Op}
    {leftSide rightSide : JoinSideOp Op}
    (hnode : e.parts = .join left right condition kind)
    (hleft : Lowers env left s l s₁) (hright : Lowers env right s₁ r s₂)
    (hleftRow : Gives (freshSlot "left") s₂ leftRow s₃)
    (hrightRow : Gives (freshSlot "right") s₃ rightRow s₄)
    (hpreFilter : ConjunctionGives env (JoinPlan.ofCondition condition kind).preFilter s₄
      preFilter s₅)
    (hleftSide : SideGives (.part env.context key .leftRow) ⟨leftRow, rightRow⟩
      ((JoinPlan.ofCondition condition kind).keys.map (·.1))
      (JoinPlan.ofCondition condition kind).leftFilter env s₅ leftSide s₆)
    (hrightSide : SideGives (.part env.context key .rightRow) ⟨leftRow, rightRow⟩
      ((JoinPlan.ofCondition condition kind).keys.map (·.2))
      (JoinPlan.ofCondition condition kind).rightFilter env s₆ rightSide s₇)
    (hresidual : ConjunctionGives (env.pair key ⟨leftRow, rightRow⟩)
      (JoinPlan.ofCondition condition kind).residual s₇.enter residual s₈) :
    FlowsIn root labels env.keysHere e env ground s
      (Op.mk (.join { kind, left := l, right := r, leftRow, rightRow, preFilter, leftSide
                      rightSide, pairScope := s₈.scope, residual })).flow (s₈.leave s₇) := by
  have parts : Smaller.loweredParts env.keysHere e.parts = _ := congrArg _ hnode
  rw [Smaller.loweredParts] at parts
  have here {c : Smaller e}
      (hc : c ∈ left :: right :: (JoinPlan.ofCondition condition kind).preFilter) :
      IsPart env.keysHere e env c := by
    rw [IsPart, parts]
    exact List.mem_append_left _ (List.mem_map_of_mem hc)
  have inner {c : Smaller e} (hc : c ∈ ((JoinPlan.ofCondition condition kind).keys.map (·.1) ++
        (JoinPlan.ofCondition condition kind).leftFilter) ++
      ((JoinPlan.ofCondition condition kind).keys.map (·.2) ++
        (JoinPlan.ofCondition condition kind).rightFilter) ++
      (JoinPlan.ofCondition condition kind).residual) :
      ([], c) ∈ Smaller.loweredParts env.keysHere e.parts := by
    rw [parts]
    exact List.mem_append_right _ (List.mem_map_of_mem hc)
  -- On each side no filter reads what a key writes: this is what orderly asks of a join.
  obtain ⟨leftApart, rightApart⟩ := S.orderly.filters e S.within _ _ _ _ hnode
  have leftFlow := S.part hpass hshelter (here List.mem_cons_self) hleft
  have rightFlow := S.part hpass hshelter (here (List.mem_cons_of_mem _ List.mem_cons_self)) hright
  have preFlow := S.conjunction hpass hshelter
    (fun c hc => here (List.mem_cons_of_mem _ (List.mem_cons_of_mem _ hc))) hpreFilter
  have leftSideFlow := S.side hpass hshelter (by decide) (by decide)
    (fun c hc => inner (List.mem_append_left _ (List.mem_append_left _
      (List.mem_append_left _ hc))))
    (fun c hc => inner (List.mem_append_left _ (List.mem_append_left _
      (List.mem_append_right _ hc))))
    (fun f hf k hk n hn => by
      obtain ⟨pair, hpair, rfl⟩ := List.mem_map.mp hk
      exact leftApart f hf pair hpair n hn) hleftSide
  have rightSideFlow := S.side hpass hshelter (by decide) (by decide)
    (fun c hc => inner (List.mem_append_left _ (List.mem_append_right _
      (List.mem_append_left _ hc))))
    (fun c hc => inner (List.mem_append_left _ (List.mem_append_right _
      (List.mem_append_right _ hc))))
    (fun f hf k hk n hn => by
      obtain ⟨pair, hpair, rfl⟩ := List.mem_map.mp hk
      exact rightApart f hf pair hpair n hn) hrightSide
  have pairShelter : Sheltered root labels ⟨Given root labels ground env.context, []⟩
      (env.pair key ⟨leftRow, rightRow⟩) :=
    .enter hshelter.located rfl (by decide) (by decide) hshelter.input
  have noKeys : (env.pair key ⟨leftRow, rightRow⟩).keysHere = [] :=
    Env.keysHere_part hshelter.located (by decide) rfl
  have residualFlow : FlowsIn root labels env.keysHere e env ground _ _ _ :=
    (S.conjunction (Env.pass_pair hpass) pairShelter (fun c hc =>
      isPart_of_keysHere noKeys (inner (List.mem_append_right _ hc))) hresidual).scope
      fun k hk => hk.elim id fun hk => absurd hk (not_behind_part (by decide))
  have rows : FlowsIn root labels env.keysHere e env ground s₂ .nothing s₄ :=
    S.after (slot hleftRow) (slot hrightRow)
  have whole := S.after rows (S.trans preFlow (S.trans leftSideFlow (S.trans rightSideFlow
    (residualFlow.refine (.apart_singleton _)))))
  change FlowsIn root labels env.keysHere e env ground s
    (OpNode.flow (.join (Op.foldJoin OpNode.flow _))) _
  rw [Op.foldJoin, OpNode.flow, Op.foldOption_eq, Op.foldOption_eq]
  exact S.trans leftFlow (S.trans rightFlow whole)

theorem dict (S : Setting root labels env.keysHere e) (hpass : env.pass = .emit)
    (hshelter : Sheltered root labels ground env) {pairs : List (Smaller e × Smaller e)}
    {ops : List (Op × Op)}
    (hmem : ∀ c ∈ (Node.dict pairs).children, IsPart env.keysHere e env c)
    (h : Sequence (PairGives env) pairs s ops s') :
    FlowsIn root labels env.keysHere e env ground s (Op.mk (.dict ops)).flow s' := by
  change FlowsIn root labels env.keysHere e env ground s
    (OpNode.flow (.dict (Op.foldPairs OpNode.flow ops))) s'
  rw [OpNode.flow, Op.foldPairs_eq, List.map_map]
  refine .sequence (F := fun p : Op × Op => p.1.flow.andThen p.2.flow) S.names S.reads h
    fun p hp _ _ _ hpair => ?_
  obtain ⟨t, hk, hv⟩ := hpair
  have inside : p.1 ∈ (Node.dict pairs).children ∧ p.2 ∈ (Node.dict pairs).children :=
    ⟨List.mem_flatMap.mpr ⟨p, hp, by simp⟩, List.mem_flatMap.mpr ⟨p, hp, by simp⟩⟩
  exact S.trans (S.part hpass hshelter (hmem _ inside.1) hk)
    (S.part hpass hshelter (hmem _ inside.2) hv)

theorem comprehension (S : Setting root labels env.keysHere e) (hpass : env.pass = .emit)
    (hshelter : Sheltered root labels ground env) {kind : ComprehensionKind}
    {keyed filter : Option (Smaller e)} {element source : Smaller e} {s₃ s₄ s₅ : State}
    {sourceOp elementOp : Op} {var : String} {filterOp keyedOp : Option Op}
    (hnode : e.parts = .comprehension kind keyed element source filter)
    (hsource : Lowers env source s sourceOp s₁) (hvar : Gives (freshName "item") s₁ var s₂)
    (hfilter : Optional (Lowers (env.enter (.part env.context key .item) .value)) filter s₂.enter
      filterOp s₃)
    (hkeyed : Optional (Lowers (env.enter (.part env.context key .item) .value)) keyed s₃
      keyedOp s₄)
    (helement : Lowers (env.enter (.part env.context key .item) .value) element s₄ elementOp s₅) :
    FlowsIn root labels env.keysHere e env ground s
      (Op.mk (.loop { kind, var, source := sourceOp, scope := s₅.scope, filter := filterOp
                      key := keyedOp, element := elementOp })).flow (s₅.leave s₂) := by
  have shelter : Sheltered root labels (.plain [])
      (env.enter (.part env.context key .item) .value) :=
    .enter hshelter.located rfl (by decide) (by decide) fun _ hk => absurd hk List.not_mem_nil
  have sourced : IsPart env.keysHere e env source := by
    rw [IsPart, hnode]
    exact List.mem_cons_self
  have inItem {c : Smaller e} (hc : c ∈ filter.toList ++ keyed.toList ++ [element]) :
      IsPart env.keysHere e (env.enter (.part env.context key .item) .value) c := by
    refine isPart_of_keysHere shelter.keys ?_
    rw [hnode]
    exact List.mem_cons_of_mem _ (List.mem_map_of_mem hc)
  have filterFlow := S.option (Env.pass_enter hpass) shelter
    (fun c hc => inItem (by simp_all)) hfilter
  have keyedFlow := S.option (Env.pass_enter hpass) shelter
    (fun c hc => inItem (by simp_all)) hkeyed
  have elementFlow := S.part (Env.pass_enter hpass) shelter (inItem (by simp)) helement
  have inner : FlowsIn root labels env.keysHere e env ground _ _ _ :=
    (S.trans filterFlow (S.trans keyedFlow elementFlow)).scope
      fun k hk => absurd hk (not_given_part (by decide))
  change FlowsIn root labels env.keysHere e env ground s
    (OpNode.flow (.loop (Op.foldLoop OpNode.flow _))) _
  rw [Op.foldLoop, OpNode.flow, Op.foldOption_eq, Op.foldOption_eq]
  exact S.trans (S.part hpass hshelter sourced hsource)
    (S.after (fresh hvar) inner)

theorem sort (S : Setting root labels env.keysHere e) (hpass : env.pass = .emit)
    (hshelter : Sheltered root labels ground env) {source : Smaller e}
    {keys : List (SortKey (Smaller e))} {reverse : Bool} {s₃ : State} {sourceOp : Op}
    {var : String} {keyOps : List (SortKeyOp Op)}
    (hnode : e.parts = .sort source keys reverse)
    (hsource : Lowers env source s sourceOp s₁) (hvar : Gives (freshName "item") s₁ var s₂)
    (hkeys : Sequence (SortKeyGives (env.enter (.part env.context key .sortItem) .value)) keys
      s₂.enter keyOps s₃) :
    FlowsIn root labels env.keysHere e env ground s
      (Op.mk (.sort { var, source := sourceOp, scope := s₃.scope, keys := keyOps, reverse })).flow
      (s₃.leave s₂) := by
  have shelter : Sheltered root labels (.plain [])
      (env.enter (.part env.context key .sortItem) .value) :=
    .enter hshelter.located rfl (by decide) (by decide) fun _ hk => absurd hk List.not_mem_nil
  have sourced : IsPart env.keysHere e env source := by
    rw [IsPart, hnode]
    exact List.mem_cons_self
  have inItem {k : SortKey (Smaller e)} (hk : k ∈ keys) :
      IsPart env.keysHere e (env.enter (.part env.context key .sortItem) .value) k.key := by
    refine isPart_of_keysHere shelter.keys ?_
    rw [hnode]
    exact List.mem_cons_of_mem _ (List.mem_map_of_mem hk)
  have keysFlow := Flows.sequence (F := fun k : SortKeyOp Op => k.op.flow) S.names S.reads
    hkeys fun k hk _ _ _ h => S.part (Env.pass_enter hpass) shelter (inItem hk) h.1
  have inner : FlowsIn root labels env.keysHere e env ground _ _ _ :=
    keysFlow.scope fun k hk => absurd hk (not_given_part (by decide))
  change FlowsIn root labels env.keysHere e env ground s
    (OpNode.flow (.sort (Op.foldSort OpNode.flow _))) _
  rw [Op.foldSort, OpNode.flow, Op.foldSortKeys_eq, List.map_map]
  exact S.trans (S.part hpass hshelter sourced hsource)
    (S.after (fresh hvar) inner)

/-- After a guarded expression those labels count as set that its body and all its handlers
    set. -/
theorem guarded (S : Setting root labels env.keysHere e) (hpass : env.pass = .emit)
    (hshelter : Sheltered root labels ground env) {body : Smaller e}
    {hs : List (Handler (Smaller e))} {s₃ : State} {bodyOp : Op} {caught : Binding}
    {lowered : List (HandlerOp Op × NameSet)}
    (hmem : ∀ c ∈ (Node.guarded body hs).children, IsPart env.keysHere e env c)
    (hbody : Lowers env body s bodyOp s₁) (hcaught : Gives (freshSlot "exc") s₁ caught s₂)
    (hhandlers : Sequence (HandlerGives { env with caught := some caught } s.assigned) hs s₂
      lowered s₃) :
    FlowsIn root labels env.keysHere e env ground s
      (Op.mk (.guarded { body := bodyOp, handlers := lowered.map (·.1), caught })).flow
      { s₃ with
        assigned := lowered.foldl (fun names h => NameSet.inter names h.2) s₁.assigned } := by
  have bodyFlow := S.part hpass hshelter (hmem body (by simp [Node.children])) hbody
  have caughtFlow : FlowsIn root labels env.keysHere e env ground _ .nothing _ := slot hcaught
  have shelter : Sheltered root labels ground { env with caught := some caught } :=
    ⟨hshelter.located, hshelter.keys, hshelter.input⟩
  obtain ⟨grown, handled⟩ := S.handlers (Env.pass_handler hpass) shelter
    (fun h hh c hc => hmem c (List.mem_cons_of_mem _ (List.mem_flatMap.mpr ⟨h, hh, hc⟩)))
    hhandlers
  change FlowsIn root labels env.keysHere e env ground s
    (OpNode.flow (.guarded (Op.foldGuard OpNode.flow _))) _
  rw [Op.foldGuard, OpNode.flow, Op.foldHandlers_eq, List.map_map]
  refine ⟨((bodyFlow.grown.trans caughtFlow.grown).trans grown).trans
    (Extends.closed.assign _ _), fun hlabels hnoted hready => ?_⟩
  obtain ⟨charts, noted⟩ := bodyFlow.charts
    (fun l hl => hlabels l (grown.mem_labels (caughtFlow.grown.mem_labels hl))) hnoted hready
  obtain ⟨-, noted'⟩ := caughtFlow.charts (fun l hl => hlabels l (grown.mem_labels hl)) noted
    (Flows.Ready.grow hready charts.grows)
  obtain ⟨noted'', all⟩ := handled hlabels noted' hready
  exact ⟨all _ _ charts, noted''⟩

/-- The slot of a label is the one that the label has in the end. -/
theorem labelSlot_keeps {name : String} {b : Binding}
    (h : Gives (labelSlot name) s b s') : (name, b) ∈ s'.supply.labels ∧ s'.bound = s.bound ∧
      s'.assigned = s.assigned := by
  rcases gives_labelSlot h with ⟨hl, rfl⟩ | ⟨-, -, rfl⟩
  · exact ⟨hl, rfl, rfl⟩
  · exact ⟨List.mem_append_right _ List.mem_cons_self, rfl, rfl⟩

theorem label (S : Setting root labels env.keysHere e) (hpass : env.pass = .emit)
    (hshelter : Sheltered root labels ground env) {name : String} {c : Smaller e} {b : Binding}
    (hnode : e.parts = .label name c) (hvalue : Lowers env c s op s₁)
    (hslot : Gives (labelSlot name) { s₁ with assigned := NameSet.insert name s₁.assigned } b
      s') :
    FlowsIn root labels env.keysHere e env ground s (Op.mk (.setLabel b op)).flow s' := by
  have written : name ∈ e.analysis.labelsWritten := by
    refine (S.within.analyzed S.analyzed).1.labelWritten (c := c.1) ?_
    rw [← e.map_parts, hnode]
    rfl
  refine S.trans (g := ⟨[], [b.slot]⟩)
    (S.part hpass hshelter (isPart_child env hnode rfl c List.mem_cons_self) hvalue) ?_
  have grown : Extends _ s' := Extends.closed.label hslot
  refine ⟨(Extends.closed.assign _ _).trans grown, fun hlabels hnoted _ => ?_⟩
  obtain ⟨hl, hbound, hassigned⟩ := labelSlot_keeps hslot
  rw [hassigned, hbound]
  refine ⟨⟨fun _ h => absurd h List.not_mem_nil, fun n hn _ => ?_, fun n hn => ?_,
    fun n hn => ?_⟩, hnoted⟩
  · rcases NameSet.mem_insert.mp hn with rfl | hn
    · exact .inr ⟨b.slot, List.mem_cons_self, b, hlabels _ hl, rfl⟩
    · exact .inl hn
  · exact NameSet.mem_insert.mpr (.inr hn)
  · rcases NameSet.mem_insert.mp hn with rfl | hn
    · exact .inr written
    · exact .inl hn

theorem labelRef (S : Setting root labels env.keysHere e) {name : String} {b : Binding}
    (hnode : e.parts = .labelRef name) (hset : name ∈ s.assigned)
    (hslot : Gives (labelSlot name) s b s') :
    FlowsIn root labels env.keysHere e env ground s (Op.mk (.getLabel b)).flow s' := by
  have read : Checks env.keysHere e name := .ref S.noKey hnode
  refine ⟨Extends.closed.label hslot, fun hlabels hnoted _ => ?_⟩
  obtain ⟨hl, hbound, hassigned⟩ := labelSlot_keeps hslot
  rw [hassigned, hbound]
  refine ⟨⟨fun k hk => .inr ⟨name, read, ⟨b, hlabels _ hl, ?_⟩, hset⟩, fun _ h _ => .inl h,
    fun _ h => h, fun _ h => .inl h⟩, hnoted⟩
  exact (List.mem_singleton.mp hk).symm

/-- What a reducer falls back to is evaluated or not. -/
theorem fallback (S : Setting root labels env.keysHere e) (hpass : env.pass = .emit)
    (hshelter : Sheltered root labels ground env) {r : Reducer (Smaller e)}
    (hnode : e.parts = .reducer r) (h : FallbackGives env r s op s') :
    FlowsIn root labels env.keysHere e env ground s (Flow.contained op.flow) s' := by
  rcases fallback_cases h with ⟨c, hc, hpart⟩ | ⟨name, -, hname, rfl⟩
  · refine S.containedPart hpass hshelter ?_ hpart
    rw [IsPart, hnode, Smaller.loweredParts, hc]
    exact List.mem_cons_self
  · exact named hname

/-- Lowering a node in place follows the order of evaluation. -/
theorem node (S : Setting root labels env.keysHere e) (hpass : env.pass = .emit)
    (hshelter : Sheltered root labels ground env) (h : NodeGives e env key e.parts s op s') :
    FlowsIn root labels env.keysHere e env ground s op.flow s' := by
  generalize hnode : e.parts = node at h
  cases h with
  | input h => exact ofInput hshelter h _
  | constant h => exact named h
  | parameter h =>
    have grown : Extends s s' := Extends.closed.parameter h
    rcases gives_paramIndex h with ⟨-, rfl⟩ | ⟨-, -, rfl⟩ <;> exact .idle grown rfl rfl
  | access hsource hsteps hdefault => exact S.access hpass hshelter hnode hsource hsteps hdefault
  | call hname hargs =>
    rw [Op.flow_mk, Op.foldNode, OpNode.flow, Op.foldAll_eq]
    exact S.after (named hname) (S.all hpass hshelter (isPart_child env hnode rfl) hargs)
  | builtin h | collection h =>
    rw [Op.flow_mk, Op.foldNode, OpNode.flow, Op.foldAll_eq]
    exact S.all hpass hshelter (isPart_child env hnode rfl) h
  | binary hleft hright =>
    have parts := isPart_child env hnode rfl
    exact S.trans (S.part hpass hshelter (parts _ List.mem_cons_self) hleft)
      (S.part hpass hshelter (parts _ (List.mem_cons_of_mem _ List.mem_cons_self)) hright)
  | @unary _ operand _ _ o h =>
    have flows : FlowsIn root labels env.keysHere e env ground s o.flow s' :=
      S.part hpass hshelter (isPart_child env hnode rfl operand List.mem_cons_self) h
    exact flows
  | unguarded h => exact S.part hpass hshelter (isPart_child env hnode rfl _ List.mem_cons_self) h
  | and h | or h =>
    rw [Op.flow_mk, Op.foldNode, OpNode.flow, Op.foldAll_eq]
    exact S.shortCircuit hpass hshelter (isPart_child env hnode rfl) h
  | dict h => exact S.dict hpass hshelter (isPart_child env hnode rfl) h
  | comprehension hsource hvar hfilter hkeyed helement =>
    exact S.comprehension hpass hshelter hnode hsource hvar hfilter hkeyed helement
  | sort hsource hvar hkeys => exact S.sort hpass hshelter hnode hsource hvar hkeys
  | guarded _ hbody hcaught hhandlers =>
    exact S.guarded hpass hshelter (isPart_child env hnode rfl) hbody hcaught hhandlers
  | caught | leftRow | rightRow => exact .refl _
  | conditional hcondition hyes hno =>
    have parts := isPart_child env hnode rfl
    refine S.trans (S.part hpass hshelter (parts _ List.mem_cons_self) hcondition) ?_
    exact (S.part hpass hshelter (parts _ (by simp [Node.children])) hyes).either S.names
      (S.part hpass hshelter (parts _ (by simp [Node.children])) hno)
  | inlined hmode hproducer hconsumer =>
    exact S.inlined hpass hshelter hnode hmode hproducer hconsumer
  | piped _ hproducer hconsumer => exact S.piped hpass hshelter hnode hproducer hconsumer
  | label hvalue hslot => exact S.label hpass hshelter hnode hvalue hslot
  | labelRef hset hslot => exact S.labelRef hnode hset hslot
  | reducer _ _ hfallback => exact S.fallback hpass hshelter hnode hfallback
  | aggregate hsource hreducers hgroup hrow hkeys hslots houtput =>
    exact S.aggregate hpass hshelter hnode hsource hreducers hgroup hrow hkeys hslots houtput
  | join hleft hright hleftRow hrightRow hplan hpreFilter hleftSide hrightSide hresidual =>
    subst hplan
    exact S.join hpass hshelter hnode hleft hright hleftRow hrightRow hpreFilter hleftSide
      hrightSide hresidual

end Setting

/-- **Lowering follows the order of evaluation.** -/
theorem lower_flows {root : Expr} {labels : List (String × Binding)} (hanalyzed : root.Analyzed)
    (hnames : NamesApart labels) (horderly : root.Orderly) {e : Expr} {env : Env}
    {ground : Ground} {s s' : State} {op : Op} (hwithin : Expr.Within e root)
    (hpass : env.pass = .emit) (hshelter : Sheltered root labels ground env)
    (h : Gives (lower e env) s op s') :
    FlowsIn root labels env.keysHere e env ground s op.flow s' := by
  have setting (hkey : groupKey? e env = .ok none) : Setting root labels env.keysHere e :=
    { below := fun c _ _ _ _ _ hwithin hpass hshelter h =>
        lower_flows hanalyzed hnames horderly hwithin hpass hshelter h
      analyzed := hanalyzed, names := hnames, within := hwithin, orderly := horderly
      noKey := forall_keysHere hkey }
  -- By recursion on the expression.  A hit reuses a binding whose labels were checked when it was
  -- noted; a binding is noted with what its definition needs, reads and writes.
  cases lower_cases hpass h with
  | groupKey hkey =>
    obtain ⟨aggregate, index, -, -, -, rfl⟩ := groupKey_eq hkey
    exact .refl s
  | inPlace hkey _ hnode => exact (setting hkey).node hpass hshelter hnode
  | @hit b hkey _ hmem hsame hreads =>
    refine ⟨Extends.closed.assign _ _, fun _ hnoted _ => ?_⟩
    obtain ⟨c, noted⟩ := hnoted b hmem
    simp only [Site.same, Bool.and_eq_true] at hsame
    have alike : b.site.context.alike env.context = true := hsame.1
    have same : (NodeKey.of c c.analysis == NodeKey.of e e.analysis) = true := by
      rw [← noted.node]
      exact hsame.2
    -- Two sites of one key are one node, or nodes that touch no label at all.
    have known : ∀ n, Checks (keysAt ground.keys b.site.context) c n →
        Checks env.keysHere e n ∧ n ∈ s.assigned := by
      intro n hn
      have read := hn.read (noted.within.analyzed hanalyzed).1
      constructor
      · rw [keysAt_alike alike, ← hshelter.keys] at hn
        rcases same_or_silent horderly.coherent noted.within hwithin same with rfl | ⟨hnone, -⟩
        · exact hn
        · rw [hnone] at read
          exact absurd read List.not_mem_nil
      · by_contra hna
        have unset : n ∈ NameSet.diff b.reads s.assigned :=
          NameSet.mem_diff.mpr ⟨noted.reads ▸ read, hna⟩
        rw [hreads] at unset
        exact absurd unset List.not_mem_nil
    refine ⟨⟨fun k hk => ?_, fun n hn hR => ?_, fun n hn => NameSet.mem_union.mpr (.inl hn),
      fun n hn => ?_⟩, hnoted⟩
    · rcases noted.needs k hk with hk | ⟨n, hn, hat⟩
      · exact .inl (hk.imp id (Behind.alike alike))
      · exact .inr ⟨n, (known n hn).1, hat, (known n hn).2⟩
    · exact (NameSet.mem_union.mp hn).imp id fun hn => noted.sets n hn hR
    · rcases NameSet.mem_union.mp hn with hn | hn
      · exact .inl hn
      · have hw := noted.writes n hn
        rcases same_or_silent horderly.coherent noted.within hwithin same with rfl | ⟨-, hnone⟩
        · exact .inr hw
        · rw [hnone] at hw
          exact absurd hw List.not_mem_nil
  | @bind definition s₁ s₂ binding hkey _ _ hnode hslot =>
    have flows := (setting hkey).node hpass hshelter hnode
    have grown : Extends s₁ s₂ := Extends.closed.slot hslot
    refine ⟨(flows.grown.trans grown).trans (Extends.closed.bind _ _),
      fun hlabels hnoted hready => ?_⟩
    obtain ⟨charts, noted⟩ := flows.charts (fun l hl => hlabels l (grown.mem_labels hl)) hnoted
      hready
    obtain ⟨-, n, rfl⟩ := gives_freshSlot hslot
    refine ⟨charts, fun b hb => ?_⟩
    rcases List.mem_append.mp hb with hb | hb
    · exact noted b hb
    · refine ⟨e, ?_⟩
      rw [List.mem_singleton.mp hb]
      refine ⟨hwithin, rfl, rfl, fun k hk => ?_, fun n hn hR => ?_, fun n hn => ?_⟩
      · rcases charts.needs k hk with hG | ⟨n, hn, hat, -⟩
        · exact .inl hG
        · exact .inr ⟨n, hshelter.keys ▸ hn, hat⟩
      · obtain ⟨hn, hnew⟩ := NameSet.mem_diff.mp hn
        exact (charts.sets n hn hR).resolve_left hnew
      · obtain ⟨hn, hnew⟩ := NameSet.mem_diff.mp hn
        exact (charts.writes n hn).resolve_left hnew
termination_by sizeOf e
decreasing_by exact c.2

end Lowering
end DataExpr
