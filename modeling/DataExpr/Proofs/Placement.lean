import DataExpr.Proofs.LoweringSteps
import DataExpr.Proofs.Places

/-!
# Operations whose slots have one use

A node of an operation sets some slots for its own use: the bindings of its scopes, its rows,
the error that it handles.  In a lowered operation these are different from each other, and no
part of the node overwrites them; labels and lazy bindings are known where they are used
(`Op.Placed`).  From this every statement about evaluation gets what it needs to know about
slots.
-/

namespace DataExpr

variable {ω : Type}

def Scope.empty : Scope ω := ⟨[]⟩

/-- The operations that a node is made of, each with the scope that is entered for it. -/
def OpNode.scopedParts : OpNode ω → List (Scope ω × ω)
  | loop op =>
    (.empty, op.source) :: (op.filter.toList ++ op.key.toList ++ [op.element]).map (op.scope, ·)
  | sort op => (.empty, op.source) :: op.keys.map fun k => (op.scope, k.op)
  | aggregate op =>
    (.empty, op.source) :: ((op.keys ++ op.slots.flatMap SlotOp.parts).map (op.rowScope, ·) ++
      [(op.outputScope, op.output)])
  | join op =>
    (.empty, op.left) :: (.empty, op.right) :: (op.preFilter.toList.map (.empty, ·) ++
      op.leftSide.parts.map (op.leftSide.scope, ·) ++
      op.rightSide.parts.map (op.rightSide.scope, ·) ++ op.residual.toList.map (op.pairScope, ·))
  | node => node.parts.map (.empty, ·)

theorem OpNode.scopedParts_snd (node : OpNode ω) : node.scopedParts.map Prod.snd = node.parts := by
  cases node <;> simp [scopedParts, parts, Function.comp_def]

theorem OpNode.scopedParts_of_plain {node : OpNode ω} (h : node.plain = true) :
    node.scopedParts = node.parts.map (.empty, ·) := by
  cases node with
  | loop | sort | aggregate | join => cases h
  | _ => rfl

theorem OpNode.places_of_plain {node : OpNode ω} (h : node.plain = true) : node.places = [] := by
  cases node <;> first | rfl | cases h

theorem OpNode.mem_parts_of_scopedParts {node : OpNode ω} {p : Scope ω × ω}
    (h : p ∈ node.scopedParts) :
    p.2 ∈ node.parts := by
  rw [← scopedParts_snd]
  exact List.mem_map_of_mem h

/-- A node forgets the bindings of a scope that it enters. -/
theorem OpNode.resets_sublist {node : OpNode ω} {p : Scope ω × ω} (h : p ∈ node.scopedParts) :
    p.1.resets.Sublist node.places := by
  cases node with
  | loop op =>
    rcases List.mem_cons.mp h with rfl | h
    · exact List.nil_sublist _
    · obtain ⟨o, -, rfl⟩ := List.mem_map.mp h
      exact List.Sublist.refl _
  | sort op =>
    rcases List.mem_cons.mp h with rfl | h
    · exact List.nil_sublist _
    · obtain ⟨k, -, rfl⟩ := List.mem_map.mp h
      exact List.Sublist.refl _
  | aggregate op =>
    rcases List.mem_cons.mp h with rfl | h
    · exact List.nil_sublist _
    · rcases List.mem_append.mp h with h | h
      · obtain ⟨o, -, rfl⟩ := List.mem_map.mp h
        exact List.sublist_append_left _ _
      · rw [List.mem_singleton.mp h]
        exact List.sublist_append_right _ _
  | join op =>
    simp only [scopedParts, List.mem_cons, List.mem_append, List.mem_map] at h
    rcases h with rfl | rfl | ((⟨o, -, rfl⟩ | ⟨o, -, rfl⟩) | ⟨o, -, rfl⟩) | ⟨o, -, rfl⟩
    · exact List.nil_sublist _
    · exact List.nil_sublist _
    · exact List.nil_sublist _
    · exact (((List.sublist_append_left _ _).trans (List.sublist_append_left _ _)).cons _).cons _
    · exact (((List.sublist_append_right _ _).trans (List.sublist_append_left _ _)).cons _).cons _
    · exact ((List.sublist_append_right _ _).cons _).cons _
  | _ =>
    obtain ⟨o, -, rfl⟩ := List.mem_map.mp h
    exact List.nil_sublist _

/-- The slots of labels and the lazy bindings that are known somewhere. -/
structure Ambient where
  labels : List Nat
  memos : List (Memo Op)

namespace Ambient

def enter (a : Ambient) (scope : Scope Op) : Ambient := { a with memos := a.memos ++ scope.memos }

/-- Whatever is known in the first place is known in the second. -/
structure Within (a b : Ambient) : Prop where
  labels : ∀ n ∈ a.labels, n ∈ b.labels
  memos : ∀ m ∈ a.memos, m ∈ b.memos

theorem enter_empty (a : Ambient) : a.enter .empty = a := by
  simp [enter, Scope.empty]

theorem Within.enter {a b : Ambient} (h : a.Within b) (scope : Scope Op) :
    (a.enter scope).Within (b.enter scope) := by
  refine ⟨h.labels, fun m hm => ?_⟩
  rcases List.mem_append.mp hm with hm | hm
  · exact List.mem_append_left _ (h.memos m hm)
  · exact List.mem_append_right _ hm

end Ambient

/-- The label or the lazy binding of a node is known. -/
def OpNode.Known (a : Ambient) : OpNode Op → Prop
  | .memo binding definition => ⟨binding, definition⟩ ∈ a.memos
  | .setLabel label _ | .getLabel label => label.slot ∈ a.labels
  | _ => True

/-- The slots that a node sets for its own use are distinct, and no part overwrites them. -/
structure OpNode.Placed (node : OpNode Op) : Prop where
  nodup : node.places.Nodup
  apart : ∀ n ∈ node.places, ∀ part ∈ node.parts, n ∉ part.scratch

/-- All nodes of an operation have their slots for themselves and know what they use. -/
inductive Op.Placed : Ambient → Op → Prop
  | mk {a : Ambient} {node : OpNode Op} (here : node.Placed) (known : node.Known a)
      (parts : ∀ p ∈ node.scopedParts, Placed (a.enter p.1) p.2) : Placed a (.mk node)

theorem OpNode.known_of_plain {node : OpNode Op} (h : node.plain = true) (a : Ambient) :
    node.Known a := by
  cases node <;> trivial

theorem OpNode.Known.mono {a b : Ambient} {node : OpNode Op} (h : node.Known a)
    (hab : a.Within b) : node.Known b := by
  cases node with
  | memo binding definition => exact hab.memos _ h
  | setLabel label value => exact hab.labels _ h
  | getLabel label => exact hab.labels _ h
  | _ => trivial

theorem Op.Placed.mono {a b : Ambient} {op : Op} (h : op.Placed a) (hab : a.Within b) :
    op.Placed b := by
  induction h generalizing b with
  | mk here known _ ih =>
    exact .mk here (known.mono hab) fun p hp => ih p hp (hab.enter p.1)

theorem Op.mem_scratch {node : OpNode Op} {n : Nat} :
    n ∈ (Op.mk node).scratch ↔ n ∈ node.places ∨ ∃ part ∈ node.parts, n ∈ part.scratch :=
  Op.mem_gather

theorem Op.scratch_eq_nil {node : OpNode Op} (hplaces : node.places = [])
    (hparts : node.parts = []) : (Op.mk node).scratch = [] := by
  refine List.eq_nil_iff_forall_not_mem.mpr fun n hn => ?_
  rw [mem_scratch, hplaces, hparts] at hn
  simp at hn

namespace Lowering

variable {outer : List (Memo Op)} {input input' : Input} {s s₁ s₂ s' : State}
  {ps ps' : List Nat} {parts parts' : List (Scope Op × Op)}

/-- What is known in a scope, given the bindings of the scopes around it. -/
def State.ambient (s : State) (outer : List (Memo Op)) : Ambient :=
  ⟨s.supply.labels.map (·.2.slot), outer ++ s.scope.memos⟩

/-- Operations that are evaluated where they stand. -/
def here (ops : List Op) : List (Scope Op × Op) := ops.map (.empty, ·)

def Input.Placed (a : Ambient) : Input → Prop
  | .inline producer => producer.Placed a
  | .value | .unavailable => True

/-- The definitions of bindings have their slots for themselves. -/
def Settled (outer : List (Memo Op)) (s : State) : Prop :=
  ∀ b ∈ s.bound, b.definition.Placed (s.ambient outer)

theorem Grows.ambient (h : Grows s s') : (s.ambient outer).Within (s'.ambient outer) := by
  refine ⟨fun n hn => ?_, fun m hm => ?_⟩
  · obtain ⟨l, hl, rfl⟩ := List.mem_map.mp hn
    exact List.mem_map_of_mem (f := fun l => l.2.slot) (h.mem_labels hl)
  · rcases List.mem_append.mp hm with hm | hm
    · exact List.mem_append_left _ hm
    · obtain ⟨b, hb, rfl⟩ := List.mem_map.mp hm
      exact List.mem_append_right _ (List.mem_map_of_mem (h.mem_bound hb))

theorem Input.Placed.mono {a b : Ambient} (h : input.Placed a) (hab : a.Within b) :
    input.Placed b := by
  cases input with
  | inline producer => exact Op.Placed.mono h hab
  | value => trivial
  | unavailable => trivial

/-- What a step does that hands out the slots `ps` for the node around it and gives some
    operations with the scopes entered for them. -/
structure Put (outer : List (Memo Op)) (input : Input) (s : State) (ps : List Nat)
    (parts : List (Scope Op × Op)) (s' : State) : Prop where
  kept : Kept input.scratch s (ps ++ parts.flatMap (·.2.scratch)) s'
  fresh : ∀ n ∈ ps, s.supply.slots ≤ n
  nodup : ps.Nodup
  unknown : ∀ n ∈ ps, n ∉ known input.scratch s'.bound
  apart : ∀ n ∈ ps, ∀ p ∈ parts, n ∉ p.2.scratch
  placed : ∀ p ∈ parts, p.2.Placed ((s'.ambient outer).enter p.1)
  settled : Settled outer s'

def Puts (outer : List (Memo Op)) (input : Input) (s : State) (ps : List Nat)
    (parts : List (Scope Op × Op)) (s' : State) : Prop :=
  Tidy input.scratch s.supply s.bound → input.Placed (s.ambient outer) → Settled outer s →
    Put outer input s ps parts s'

namespace Puts

/-- A step that makes no binding and gives nothing. -/
theorem idle (h : Tidies input.scratch s [] s') (hbound : s'.bound = s.bound) :
    Puts outer input s [] [] s' := by
  intro htidy _ hsettled
  have kept := h htidy
  refine ⟨kept, ?_, List.nodup_nil, ?_, ?_, ?_, fun b hb => ?_⟩
  any_goals exact fun _ h => absurd h List.not_mem_nil
  rw [hbound] at hb
  exact (hsettled b hb).mono kept.grows.ambient

theorem refl (input : Input) (s : State) : Puts outer input s [] [] s := idle (.refl _ s) rfl

/-- A slot that is handed out is free for the node around the step. -/
theorem freshSlot {stem : String} {b : Binding} (h : Gives (freshSlot stem) s b s') :
    Puts outer input s [b.slot] [] s' := by
  intro htidy _ hsettled
  have kept : Kept input.scratch _ _ _ := Tidies.freshSlot h htidy
  obtain ⟨hslot, n, rfl⟩ := gives_freshSlot h
  refine ⟨by simpa using kept, ?_, by simp, ?_, ?_, ?_, hsettled⟩
  · intro m hm
    exact Nat.le_of_eq (hslot.symm.trans (List.mem_singleton.mp hm).symm)
  · intro m hm hknown
    have hlt := htidy.known_lt m hknown
    rw [List.mem_singleton.mp hm, hslot] at hlt
    exact Nat.lt_irrefl _ hlt
  · exact fun _ _ _ h => absurd h List.not_mem_nil
  · exact fun _ h => absurd h List.not_mem_nil

theorem freshName {stem name : String} (h : Gives (freshName stem) s name s') :
    Puts outer input s [] [] s' := by
  have tidies : Tidies input.scratch _ _ _ := Tidies.freshName h
  obtain ⟨n, rfl⟩ := gives_freshName h
  exact idle tidies rfl

theorem constantName {value : Value} {name : String} (h : Gives (constantName value) s name s') :
    Puts outer input s [] [] s' := by
  have tidies : Tidies input.scratch _ _ _ := Tidies.constantName h
  obtain ⟨n, cs, rfl⟩ := gives_constantName h
  exact idle tidies rfl

theorem paramIndex {name : String} {index : Nat} (h : Gives (paramIndex name) s index s') :
    Puts outer input s [] [] s' := by
  have tidies : Tidies input.scratch _ _ _ := Tidies.paramIndex h
  rcases gives_paramIndex h with ⟨-, rfl⟩ | ⟨-, -, rfl⟩ <;> exact idle tidies rfl

theorem freshGroup {g : Nat} (h : Gives freshGroup s g s') : Puts outer input s [] [] s' := by
  have tidies : Tidies input.scratch _ _ _ := Tidies.freshGroup h
  obtain ⟨-, rfl⟩ := gives_freshGroup h
  exact idle tidies rfl

theorem labelSlot {name : String} {b : Binding} (h : Gives (labelSlot name) s b s') :
    Puts outer input s [] [] s' := by
  have tidies : Tidies input.scratch _ _ _ := Tidies.labelSlot h
  rcases gives_labelSlot h with ⟨-, rfl⟩ | ⟨-, -, rfl⟩ <;> exact idle tidies rfl

/-- Two steps, of which the second may run with an input that the first one has lowered. -/
theorem pipe {ops : List Op} (h : Puts outer input s [] (here ops) s₁)
    (h' : Puts outer input' s₁ [] parts' s₂)
    (hinput : ∀ n ∈ input'.scratch, n ∈ ops.flatMap Op.scratch)
    (hplaced : (∀ op ∈ ops, op.Placed (s₁.ambient outer)) → input'.Placed (s₁.ambient outer)) :
    Puts outer input s [] (here ops ++ parts') s₂ := by
  intro htidy hin hsettled
  have first := h htidy hin hsettled
  have hscratch : (here ops).flatMap (fun p => p.2.scratch) = ops.flatMap Op.scratch := by
    simp [here, List.flatMap_map]
  have kept := first.kept
  rw [List.nil_append, hscratch] at kept
  have htidy' : Tidy input'.scratch s₁.supply s₁.bound := by
    refine kept.tidy.reinput (fun n hn => ?_) fun n hn => ?_
    · exact kept.apart.lt n (hinput n hn)
    · exact kept.apart.apart n (hinput n hn)
  have hops : ∀ op ∈ ops, op.Placed (s₁.ambient outer) := by
    intro op hop
    have placed := first.placed (.empty, op) (List.mem_map_of_mem hop)
    rwa [Ambient.enter_empty] at placed
  have second := h' htidy' (hplaced hops) first.settled
  have both := Tidies.pipe (fun _ => kept) (fun _ => second.kept) (fun n hn => .inr (hinput n hn))
    htidy
  refine ⟨by simpa [hscratch] using both, ?_, List.nodup_nil, ?_, ?_, fun p hp => ?_,
    second.settled⟩
  any_goals exact fun _ h => absurd h List.not_mem_nil
  rcases List.mem_append.mp hp with hp | hp
  · exact (first.placed p hp).mono (second.kept.grows.ambient.enter p.1)
  · exact second.placed p hp

theorem trans (h : Puts outer input s ps parts s₁) (h' : Puts outer input s₁ ps' parts' s₂) :
    Puts outer input s (ps ++ ps') (parts ++ parts') s₂ := by
  intro htidy hin hsettled
  have first := h htidy hin hsettled
  have second := h' first.kept.tidy (hin.mono first.kept.grows.ambient) first.settled
  have both : Tidies input.scratch s _ s₂ :=
    Tidies.trans (fun _ => first.kept) fun _ => second.kept
  have hslots := first.kept.grows.slots
  have hlt : ∀ n ∈ ps, n < s₁.supply.slots :=
    fun n hn => first.kept.apart.lt n (List.mem_append_left _ hn)
  have hge : ∀ n ∈ ps', s₁.supply.slots ≤ n := second.fresh
  -- What the second step knows of was known after the first one, or is new.
  have later : ∀ n ∈ ps, ∀ ns : List Nat, Since input.scratch s₁ ns → n ∉ ns := by
    intro n hn ns hns hmem
    rcases hns n hmem with hknown | hnew
    · exact first.unknown n hn hknown
    · exact absurd (hlt n hn) (Nat.not_lt_of_le hnew)
  refine ⟨?_, ?_, ?_, ?_, ?_, ?_, second.settled⟩
  · refine both.subset (fun n hn => ?_) htidy
    simp only [List.flatMap_append, List.mem_append] at hn ⊢
    rcases hn with (hn | hn) | hn | hn
    · exact .inl (.inl hn)
    · exact .inr (.inl hn)
    · exact .inl (.inr hn)
    · exact .inr (.inr hn)
  · intro n hn
    rcases List.mem_append.mp hn with hn | hn
    · exact first.fresh n hn
    · exact Nat.le_trans hslots (hge n hn)
  · refine List.nodup_append.mpr ⟨first.nodup, second.nodup, fun n hn m hm hnm => ?_⟩
    subst hnm
    exact absurd (hlt n hn) (Nat.not_lt_of_le (hge n hm))
  · intro n hn
    rcases List.mem_append.mp hn with hn | hn
    · exact later n hn _ second.kept.known
    · exact second.unknown n hn
  · intro n hn p hp hmem
    rcases List.mem_append.mp hn with hn | hn <;> rcases List.mem_append.mp hp with hp | hp
    · exact first.apart n hn p hp hmem
    · refine later n hn _ second.kept.since ?_
      exact List.mem_append_right _ (List.mem_flatMap.mpr ⟨p, hp, hmem⟩)
    · have := first.kept.apart.lt n
        (List.mem_append_right _ (List.mem_flatMap.mpr ⟨p, hp, hmem⟩))
      exact absurd this (Nat.not_lt_of_le (hge n hn))
    · exact second.apart n hn p hp hmem
  · intro p hp
    rcases List.mem_append.mp hp with hp | hp
    · exact (first.placed p hp).mono (second.kept.grows.ambient.enter p.1)
    · exact second.placed p hp

theorem both {ops ops' : List Op} (h : Puts outer input s [] (here ops) s₁)
    (h' : Puts outer input s₁ [] (here ops') s₂) :
    Puts outer input s [] (here (ops ++ ops')) s₂ := by
  simpa [here] using h.trans h'

/-- A scope hands out the slots of its bindings. -/
theorem scope {ops : List Op}
    (h : Puts (outer ++ s.scope.memos) input' s.enter [] (here ops) s₁)
    (hinput : ∀ n ∈ input'.scratch, n ∈ input.scratch)
    (hplaced : ∀ a, input.Placed a → input'.Placed a) :
    Puts outer input s s₁.scope.resets (ops.map (s₁.scope, ·)) (s₁.leave s) := by
  intro htidy hin hsettled
  have hambient : s.enter.ambient (outer ++ s.scope.memos) = s.ambient outer := by
    simp [State.ambient, State.enter, State.scope]
  have inner := h (htidy.enter hinput) (hambient ▸ hplaced _ hin)
    fun _ h => absurd h List.not_mem_nil
  have hscratch : (here ops).flatMap (fun p => p.2.scratch) = ops.flatMap Op.scratch := by
    simp [here, List.flatMap_map]
  have kept := inner.kept
  rw [List.nil_append, hscratch] at kept
  have outside := Tidies.scope (s := s) (fun _ => kept) hinput htidy
  have hfresh : ∀ n ∈ s₁.scope.resets, s.supply.slots ≤ n := by
    intro n hn
    obtain ⟨bs, hbs, hnew⟩ := kept.grows.bound
    rw [State.resets_scope, hbs] at hn
    obtain ⟨b, hb, rfl⟩ := List.mem_map.mp hn
    exact hnew b hb
  refine ⟨by simpa [List.flatMap_map] using outside, hfresh, ?_, ?_, ?_, ?_,
    fun b hb => (hsettled b hb).mono outside.grows.ambient⟩
  · rw [State.resets_scope]
    exact (List.nodup_append.mp kept.tidy.nodup).1
  · intro n hn hknown
    have hlt := htidy.known_lt n hknown
    exact absurd hlt (Nat.not_lt_of_le (hfresh n hn))
  · intro n hn p hp hmem
    obtain ⟨op, hop, rfl⟩ := List.mem_map.mp hp
    rw [State.resets_scope] at hn
    exact kept.apart.apart n (List.mem_flatMap.mpr ⟨op, hop, hmem⟩) (List.mem_append_left _ hn)
  · intro p hp
    obtain ⟨op, hop, rfl⟩ := List.mem_map.mp hp
    have placed := inner.placed (.empty, op) (List.mem_map_of_mem hop)
    rwa [Ambient.enter_empty] at placed

/-- A node whose slots have been handed out around its parts. -/
theorem node {node : OpNode Op} (h : Puts outer input s ps parts s')
    (hplaces : node.places.Perm ps) (hknown : node.Known (s'.ambient outer))
    (hparts : ∀ p ∈ node.scopedParts, p ∈ parts) : Puts outer input s [] (here [.mk node]) s' := by
  intro htidy hin hsettled
  have whole := h htidy hin hsettled
  have hmem : ∀ part ∈ node.parts, ∃ p ∈ parts, p.2 = part := by
    intro part hpart
    rw [← OpNode.scopedParts_snd] at hpart
    obtain ⟨p, hp, rfl⟩ := List.mem_map.mp hpart
    exact ⟨p, hparts p hp, rfl⟩
  have hnode : node.Placed := by
    refine ⟨hplaces.nodup_iff.mpr whole.nodup, fun n hn part hpart => ?_⟩
    obtain ⟨p, hp, rfl⟩ := hmem part hpart
    exact whole.apart n (hplaces.mem_iff.mp hn) p hp
  have kept : Tidies input.scratch s _ s' := fun _ => whole.kept
  refine ⟨?_, ?_, List.nodup_nil, ?_, ?_, ?_, whole.settled⟩
  any_goals exact fun _ h => absurd h List.not_mem_nil
  · refine kept.subset (fun n hn => ?_) htidy
    simp only [here, List.map_cons, List.map_nil, List.nil_append, List.flatMap_singleton,
      Op.mem_scratch] at hn
    rcases hn with hn | ⟨part, hpart, hn⟩
    · exact List.mem_append_left _ (hplaces.mem_iff.mp hn)
    · obtain ⟨p, hp, rfl⟩ := hmem part hpart
      exact List.mem_append_right _ (List.mem_flatMap.mpr ⟨p, hp, hn⟩)
  · intro p hp
    rw [List.mem_singleton.mp hp, Ambient.enter_empty]
    exact .mk hnode hknown fun p hp => whole.placed p (hparts p hp)

/-- A node that needs no slots. -/
theorem plain {node : OpNode Op} (h : Puts outer input s [] parts s') (hplaces : node.places = [])
    (hknown : node.Known (s'.ambient outer)) (hparts : ∀ p ∈ node.scopedParts, p ∈ parts) :
    Puts outer input s [] (here [.mk node]) s' :=
  h.node (by rw [hplaces]) hknown hparts

/-- Fewer operations. -/
theorem subset (h : Puts outer input s ps parts s') (hsub : ∀ p ∈ parts', p ∈ parts) :
    Puts outer input s ps parts' s' := by
  intro htidy hin hsettled
  have whole := h htidy hin hsettled
  have kept : Tidies input.scratch s _ s' := fun _ => whole.kept
  refine ⟨kept.subset (fun n hn => ?_) htidy, whole.fresh, whole.nodup, whole.unknown,
    fun n hn p hp => whole.apart n hn p (hsub p hp), fun p hp => whole.placed p (hsub p hp),
    whole.settled⟩
  rcases List.mem_append.mp hn with hn | hn
  · exact List.mem_append_left _ hn
  · obtain ⟨p, hp, hn⟩ := List.mem_flatMap.mp hn
    exact List.mem_append_right _ (List.mem_flatMap.mpr ⟨p, hsub p hp, hn⟩)

theorem assign (h : Puts outer input s ps parts s₁) (names : NameSet) :
    Puts outer input s ps parts { s₁ with assigned := names } := by
  intro htidy hin hsettled
  have whole := h htidy hin hsettled
  exact { whole with kept := Tidies.assign (fun _ => whole.kept) names htidy }

/-- Labels that are known before have no part in this. -/
theorem assignBefore {names : NameSet}
    (h : Puts outer input { s with assigned := names } ps parts s') :
    Puts outer input s ps parts s' := by
  intro htidy hin hsettled
  have whole := h htidy hin hsettled
  exact { whole with kept := Tidies.assignBefore (fun _ => whole.kept) htidy }

/-- Operations that overwrite nothing but what is known, and that have their place. -/
theorem known {op : Op} (hknown : ∀ n ∈ op.scratch, n ∈ Lowering.known input.scratch s.bound)
    (hplaced : input.Placed (s.ambient outer) → Settled outer s → op.Placed (s.ambient outer)) :
    Puts outer input s [] (here [op]) s := by
  intro htidy hin hsettled
  refine ⟨⟨htidy, .refl s, fun _ hn => .inl hn, ?_, ?_, ?_⟩, ?_, List.nodup_nil, ?_, ?_, ?_,
    hsettled⟩
  any_goals exact fun _ h => absurd h List.not_mem_nil
  · exact fun n hn => .inl (hknown n (by simpa [here] using hn))
  · exact fun n hn => htidy.known_lt n (hknown n (by simpa [here] using hn))
  · exact fun n hn => htidy.apart n (hknown n (by simpa [here] using hn))
  · intro p hp
    rw [List.mem_singleton.mp hp, Ambient.enter_empty]
    exact hplaced hin hsettled

/-- The input overwrites what it always does. -/
theorem ofInput {env : Env} {op : Op} (h : InputGives env op) (s : State) :
    Puts outer env.input s [] (here [op]) s := by
  cases h with
  | value h =>
    refine known (fun n hn => ?_) fun _ _ => ?_
    · rw [Op.scratch_eq_nil rfl rfl] at hn
      exact absurd hn List.not_mem_nil
    · exact .mk ⟨List.nodup_nil, fun _ h => absurd h List.not_mem_nil⟩ trivial
        fun _ h => absurd h List.not_mem_nil
  | inline h =>
    refine known (fun n hn => ?_) fun hin _ => ?_
    · rw [h]
      exact List.mem_append_left _ hn
    · rw [h] at hin
      exact hin

/-- A binding that is read again overwrites what it overwrote before. -/
theorem hit {b : Bound} (hb : b ∈ s.bound) :
    Puts outer input s [] (here [.mk (.memo b.binding b.definition)]) s := by
  have definition : Puts outer input s [] (here [b.definition]) s := by
    refine known (fun n hn => ?_) fun _ hsettled => hsettled b hb
    exact List.mem_append_right _ (List.mem_flatMap.mpr ⟨b, hb, hn⟩)
  refine definition.plain rfl ?_ fun p hp => hp
  refine List.mem_append_right _ ?_
  exact List.mem_map_of_mem (f := fun b : Bound => Memo.mk b.binding b.definition) hb

/-- A new binding of the scope. -/
theorem bind {definition : Op} {binding : Binding} {site : Site} {reads writes : NameSet}
    (h : Puts outer input s [] (here [definition]) s₁)
    (hslot : Gives (Lowering.freshSlot "v") s₁ binding s₂) :
    Puts outer input s [] (here [.mk (.memo binding definition)])
      { s₂ with bound := s₂.bound ++ [⟨site, binding, definition, reads, writes⟩] } := by
  have made : Puts outer input s [] (here [definition])
      { s₂ with bound := s₂.bound ++ [⟨site, binding, definition, reads, writes⟩] } := by
    intro htidy hin hsettled
    have whole := h htidy hin hsettled
    have kept : Tidies input.scratch s definition.scratch s₁ := by
      intro _
      simpa [here] using whole.kept
    have bound : Kept input.scratch s definition.scratch
        { s₂ with bound := s₂.bound ++ [⟨site, binding, definition, reads, writes⟩] } :=
      kept.bind hslot htidy
    obtain ⟨-, n, rfl⟩ := gives_freshSlot hslot
    have hambient : (s₁.ambient outer).Within (State.ambient { s₁ with
        supply := { s₁.supply with slots := s₁.supply.slots + 1, counter := n }
        bound := s₁.bound ++ [⟨site, binding, definition, reads, writes⟩] } outer) := by
      refine ⟨fun _ h => h, fun m hm => ?_⟩
      simp only [State.ambient, State.scope, List.map_append, List.mem_append] at hm ⊢
      exact hm.imp_right .inl
    have hdefinition := whole.placed _ List.mem_cons_self
    refine ⟨by simpa [here] using bound, ?_, List.nodup_nil, ?_, ?_,
      fun p hp => (whole.placed p hp).mono (hambient.enter p.1), fun b hb => ?_⟩
    any_goals exact fun _ h => absurd h List.not_mem_nil
    rcases List.mem_append.mp hb with hb | hb
    · exact (whole.settled b hb).mono hambient
    · rw [List.mem_singleton.mp hb]
      rw [Ambient.enter_empty] at hdefinition
      exact hdefinition.mono hambient
  refine made.plain rfl ?_ fun p hp => hp
  simp [OpNode.Known, State.ambient, State.scope]

end Puts

/-! ### Lowering gives every node its own slots -/

/-- The expressions below a root are lowered to operations that have their slots for
    themselves. -/
def PutBelow (root : Expr) : Prop :=
  ∀ (c : Smaller root) {outer : List (Memo Op)} {env : Env} {s s' : State} {op : Op},
    env.pass = .emit → Lowers env c s op s' → Puts outer env.input s [] (here [op]) s'

/-- The slot of a label is known once it has been handed out. -/
theorem slot_mem_ambient {name : String} {b : Binding} (h : Gives (labelSlot name) s b s') :
    b.slot ∈ (s'.ambient outer).labels := by
  rcases gives_labelSlot h with ⟨hmem, rfl⟩ | ⟨-, -, rfl⟩
  · exact List.mem_map_of_mem (f := fun l => l.2.slot) hmem
  · simp [State.ambient]

section Node

variable {e : Expr} {env : Env} {key : NodeKey} {op : Op} (ih : PutBelow e)
  (hpass : env.pass = .emit)
include ih hpass

theorem PutBelow.steps (outer : List (Memo Op)) :
    NodeSteps env fun s (_ : List (Smaller e)) ops s' =>
      Puts outer env.input s [] (here ops) s' where
  lowers h := ih _ hpass h
  refl s := .refl _ s
  trans := Puts.both
  assign names _ h := h.assign names
  constant h := .constantName h
  node hplain h := by
    refine h.plain (OpNode.places_of_plain hplain) (OpNode.known_of_plain hplain _) fun p hp => ?_
    rwa [OpNode.scopedParts_of_plain hplain] at hp

theorem PutBelow.side {context : Context} {join : JoinEnv} {keys filter : List (Smaller e)}
    {side : JoinSideOp Op} (h : SideGives context join keys filter env s side s') :
    Puts outer env.input s side.scope.resets (side.parts.map (side.scope, ·)) s' := by
  obtain ⟨s₁, s₂, hkeys, hfilter, hscope, rfl⟩ := h
  have inside := ih.steps (@Env.pass_side _ hpass context join) (outer ++ s.scope.memos)
  rw [hscope]
  exact ((inside.all hkeys).both (inside.conjunction hfilter)).scope (fun _ h => h) fun _ h => h

/-- Lowering a node in place gives it its own slots. -/
theorem PutBelow.node {node : Node (Smaller e)} (h : NodeGives e env key node s op s') :
    Puts outer env.input s [] (here [op]) s' := by
  have here' := ih.steps hpass outer
  -- A plain node adds no place; the others add those of their scopes and of their own slots.
  by_cases hplain : node.plain = true
  · exact here'.plain hplain h
  cases h with
  | input h => exact .ofInput h _
  | parameter h => exact (Puts.paramIndex h).plain rfl trivial fun _ h => h
  | @comprehension _ _ _ _ _ _ _ s₂ _ _ _ _ _ _ _ _ hsource hvar hfilter hkeyed helement =>
    have inside := ih.steps (@Env.pass_enter _ hpass (.part env.context key .item) .value)
      (outer ++ s₂.scope.memos)
    have parts := ((inside.option hfilter).both (inside.option hkeyed)).both
      (inside.lowers helement)
    have entered : Puts outer env.input _ _ _ _ :=
      parts.scope (fun _ h => absurd h List.not_mem_nil) fun _ _ => trivial
    exact (((ih _ hpass hsource).trans (.freshName hvar)).trans entered).node (.refl _) trivial
      fun p hp => by simpa [OpNode.scopedParts, here] using hp
  | @sort _ _ _ _ _ s₂ _ _ _ _ hsource hvar hkeys =>
    have inside := ih.steps (@Env.pass_enter _ hpass (.part env.context key .sortItem) .value)
      (outer ++ s₂.scope.memos)
    have entered : Puts outer env.input _ _ _ _ :=
      (inside.sortKeys hkeys).scope (fun _ h => absurd h List.not_mem_nil) fun _ _ => trivial
    exact (((ih _ hpass hsource).trans (.freshName hvar)).trans entered).node (.refl _) trivial
      fun p hp => by simpa [OpNode.scopedParts, here] using hp
  | unguarded h => exact ih _ hpass h
  | @guarded _ _ _ _ _ _ _ caught _ _ hbody hcaught hhandlers =>
    have handlers : Puts outer env.input _ _ _ _ :=
      (ih.steps (@Env.pass_handler _ hpass caught) outer).handlers Puts.assignBefore hhandlers
    refine ((((ih _ hpass hbody).trans (.freshSlot hcaught)).trans handlers).assign _).node
      (.refl _) trivial fun p hp => ?_
    simpa [OpNode.scopedParts, OpNode.parts, here, List.flatMap_map] using hp
  | caught | leftRow | rightRow => exact (Puts.refl _ _).plain rfl trivial fun _ h => h
  | inlined _ hproducer hconsumer =>
    have both : Puts outer _ _ _ _ _ := (ih _ hpass hproducer).pipe
      (ih _ (Env.pass_consumer hpass) hconsumer)
      (fun n hn => List.mem_flatMap.mpr ⟨_, List.mem_cons_self, hn⟩)
      fun h => h _ List.mem_cons_self
    exact both.subset fun _ h => List.mem_append_right _ h
  | piped _ hproducer hconsumer =>
    have both : Puts outer _ _ _ _ _ := (ih _ hpass hproducer).pipe
      (ih _ (Env.pass_consumer hpass) hconsumer)
      (fun _ h => absurd h List.not_mem_nil) fun _ => trivial
    exact both.plain rfl trivial fun _ h => h
  | label hvalue hslot =>
    refine ((ih _ hpass hvalue).trans (Puts.labelSlot hslot).assignBefore).plain rfl ?_
      fun _ h => h
    exact slot_mem_ambient hslot
  | labelRef _ hslot =>
    exact (Puts.labelSlot hslot).plain rfl (slot_mem_ambient hslot) fun _ h => h
  | reducer _ _ hfallback =>
    obtain ⟨_, fallback⟩ := here'.fallback hfallback
    exact fallback.plain rfl trivial fun _ h => h
  | @aggregate _ _ _ _ _ s₂ _ s₄ _ _ _ _ _ _ _ hsource _ hgroup hrow hkeys hslots houtput =>
    have inside := ih.steps (@Env.pass_row _ hpass key) (outer ++ s₂.scope.memos)
    have rows : Puts outer env.input _ _ _ _ :=
      ((inside.all hkeys).both (inside.slots hslots)).scope (fun _ h => absurd h List.not_mem_nil)
        fun _ _ => trivial
    have outputs : Puts outer env.input _ _ _ _ :=
      (ih _ (Env.pass_output hpass) houtput).scope (fun _ h => absurd h List.not_mem_nil)
        fun _ _ => trivial
    exact (((((Puts.ofInput hsource _).trans (.freshGroup hgroup)).trans (.freshName hrow)).trans
      rows).trans outputs).node (.refl _) trivial
      fun p hp => by simpa [OpNode.scopedParts, here] using hp
  | join hleft hright hleftRow hrightRow _ hpreFilter hleftSide hrightSide hresidual =>
    have pairs : Puts outer env.input _ _ _ _ :=
      ((ih.steps (Env.pass_pair hpass) _).conjunction hresidual).scope (fun _ h => h) fun _ h => h
    have rows : Puts outer env.input _ _ _ _ :=
      (((ih _ hpass hleft).trans (ih _ hpass hright)).trans (.freshSlot hleftRow)).trans
        (.freshSlot hrightRow)
    have sides : Puts outer env.input _ _ _ _ :=
      ((here'.conjunction hpreFilter).trans (ih.side hpass hleftSide)).trans
        (ih.side hpass hrightSide)
    refine ((rows.trans sides).trans pairs).node ?_ trivial fun p hp => ?_
    · simp [OpNode.places]
    · simpa [OpNode.scopedParts, here] using hp
  | _ => exact absurd rfl hplain

end Node

/-- **Lowering gives every node its own slots.** -/
theorem lower_puts {outer : List (Memo Op)} {e : Expr} {env : Env} {s s' : State} {op : Op}
    (hpass : env.pass = .emit) (h : Gives (lower e env) s op s') :
    Puts outer env.input s [] (here [op]) s' := by
  have ih : PutBelow e := fun c _ _ _ _ _ hpass h => lower_puts hpass h
  cases lower_cases hpass h with
  | groupKey hkey =>
    obtain ⟨aggregate, index, -, -, -, rfl⟩ := groupKey_eq hkey
    exact (Puts.refl _ _).plain rfl trivial fun _ h => h
  | inPlace _ _ hnode => exact ih.node hpass hnode
  | hit _ _ hmem _ _ => exact (Puts.hit hmem).assign _
  | bind _ _ _ hnode hslot => exact (ih.node hpass hnode).bind hslot
termination_by sizeOf e
decreasing_by exact c.2

/-- The labels and the bindings of a program have their slots, and its body overwrites none of
    these. -/
theorem lower_start {e : Expr} {threshold : Weight.Threshold} {signature : Signature}
    {counts : Occurrences} {body : Op} {s : State}
    (h : Gives (lower e (.start .emit threshold)) (.start signature counts) body s) :
    body.Placed (s.ambient []) ∧ Tidy [] s.supply s.bound ∧ Apart body.scratch s := by
  have tidy : Tidy [] (State.start signature counts).supply (State.start signature counts).bound :=
    ⟨fun _ h => absurd h List.not_mem_nil, fun _ h => absurd h List.not_mem_nil, List.nodup_nil,
      fun _ h => absurd h List.not_mem_nil, List.nodup_nil⟩
  have put : Put [] _ _ _ _ _ := lower_puts rfl h tidy trivial fun _ h => absurd h List.not_mem_nil
  have placed := put.placed _ List.mem_cons_self
  rw [Ambient.enter_empty] at placed
  exact ⟨placed, put.kept.tidy, by simpa [here] using put.kept.apart⟩

end Lowering
end DataExpr
