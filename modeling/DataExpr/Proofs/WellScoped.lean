import DataExpr.Proofs.Extension
import DataExpr.Proofs.Placement
import DataExpr.Proofs.Subexpressions

/-!
# Lowered programs are well scoped

Whatever a lowered operation refers to is there.  A slot, a group or a parameter is one of those
that the program has; a lazy binding belongs to a scope that is entered, and its definition refers
only to bindings that come before it; the key of a group and the value of a slot are read in the
output of the aggregate that has them (`Program.ofExpr_wellScoped`).
-/

namespace DataExpr

/-- The slots, groups and parameters that there are. -/
structure Room where
  slots : Nat
  groups : Nat
  params : Signature

structure Room.Within (r r' : Room) : Prop where
  slots : r.slots ≤ r'.slots
  groups : r.groups ≤ r'.groups
  params : r.params <+: r'.params

theorem Room.Within.refl (r : Room) : r.Within r :=
  ⟨Nat.le_refl _, Nat.le_refl _, List.prefix_rfl⟩

/-- The numbers of keys and slots of an aggregate whose output is evaluated. -/
structure Shape where
  group : Nat
  keys : Nat
  slots : Nat

/-- What an operation can refer to: the bindings of the scopes that are entered, and the aggregates
    to whose outputs it belongs. -/
structure Around where
  memos : List (Memo Op)
  outputs : List Shape

namespace Around

def enter (a : Around) (outputs : List Shape) (scope : Scope Op) : Around :=
  ⟨a.memos ++ scope.memos, outputs ++ a.outputs⟩

/-- Whatever is there in the first place is there in the second. -/
structure Within (a b : Around) : Prop where
  memos : a.memos ⊆ b.memos
  outputs : a.outputs ⊆ b.outputs

theorem Within.refl (a : Around) : a.Within a := ⟨List.Subset.refl _, List.Subset.refl _⟩

theorem Within.enter {a b : Around} (h : a.Within b) (outputs : List Shape) (scope : Scope Op) :
    (a.enter outputs scope).Within (b.enter outputs scope) := by
  refine ⟨fun m hm => ?_, fun o ho => ?_⟩
  · exact List.mem_append.mpr ((List.mem_append.mp hm).imp_left fun hm => h.memos hm)
  · exact List.mem_append.mpr ((List.mem_append.mp ho).imp_right fun ho => h.outputs ho)

theorem within_enter (a : Around) (outputs : List Shape) (scope : Scope Op) :
    a.Within (a.enter outputs scope) :=
  ⟨List.subset_append_left _ _, List.subset_append_right _ _⟩

end Around

/-- The number of arguments that a slot gets is one that its kind takes, and it starts from an
    initial value only if its kind does. -/
structure SlotOp.Valid {ω : Type} (slot : SlotOp ω) : Prop where
  least : slot.kind.arity.1 ≤ slot.args.length
  greatest : slot.args.length ≤ slot.kind.arity.2
  initial : slot.initial.isSome = true → slot.kind.acceptsInitial = true

/-- A part of a node with the scope that is entered for it, and the aggregate to whose output it
    belongs, if that is the node. -/
structure Entry where
  outputs : List Shape
  scope : Scope Op
  op : Op

/-- A part that is evaluated where it stands. -/
def Entry.plain (op : Op) : Entry := ⟨[], ⟨[]⟩, op⟩

namespace OpNode

/-- The parts of a node with what is entered for them. -/
def entries : OpNode Op → List Entry
  | loop op =>
    .plain op.source ::
      (op.filter.toList ++ op.key.toList ++ [op.element]).map (⟨[], op.scope, ·⟩)
  | sort op => .plain op.source :: op.keys.map fun k => ⟨[], op.scope, k.op⟩
  | aggregate op =>
    .plain op.source :: ((op.keys ++ op.slots.flatMap SlotOp.parts).map (⟨[], op.rowScope, ·⟩) ++
      [⟨[⟨op.group, op.keys.length, op.slots.length⟩], op.outputScope, op.output⟩])
  | join op =>
    .plain op.left :: .plain op.right :: (op.preFilter.toList.map .plain ++
      op.leftSide.parts.map (⟨[], op.leftSide.scope, ·⟩) ++
      op.rightSide.parts.map (⟨[], op.rightSide.scope, ·⟩) ++
      op.residual.toList.map (⟨[], op.pairScope, ·⟩))
  | node => node.parts.map .plain

/-- The entries of a node are its parts. -/
theorem entries_op (node : OpNode Op) : node.entries.map Entry.op = node.parts := by
  cases node <;> simp [entries, parts, Entry.plain, Function.comp_def]

theorem entries_of_plain {node : OpNode Op} (h : node.plain = true) :
    node.entries = node.parts.map .plain := by
  cases node with
  | loop | sort | aggregate | join => cases h
  | _ => rfl

/-- A node refers to slots, groups and parameters that exist, to bindings, keys and slots of
    aggregates that are there, and feeds its slots with what their kinds take. -/
def InBounds (room : Room) (a : Around) : OpNode Op → Prop
  | param index name => room.params.indexOf? name = some index
  | memo binding definition => binding.slot < room.slots ∧ ⟨binding, definition⟩ ∈ a.memos
  | caught b | setLabel b _ | getLabel b | register b => b.slot < room.slots
  | guarded op => op.caught.slot < room.slots
  | join op => op.leftRow.slot < room.slots ∧ op.rightRow.slot < room.slots
  | aggregate op => op.group < room.groups ∧ ∀ slot ∈ op.slots, slot.Valid
  | groupKey group index => ∃ o ∈ a.outputs, o.group = group ∧ index < o.keys
  | slotValue group index _ => ∃ o ∈ a.outputs, o.group = group ∧ index < o.slots
  | _ => True

theorem inBounds_of_plain {node : OpNode Op} (h : node.plain = true) (room : Room) (a : Around) :
    node.InBounds room a := by
  cases node <;> trivial

end OpNode

/-- All that an operation refers to is there. -/
inductive Op.WellScoped (room : Room) : Around → Op → Prop
  | mk {a : Around} {node : OpNode Op} (here : node.InBounds room a)
      (slots : ∀ e ∈ node.entries, ∀ m ∈ e.scope.memos, m.binding.slot < room.slots)
      (definitions : ∀ e ∈ node.entries, ∀ before m after, e.scope.memos = before ++ m :: after →
        WellScoped room (a.enter e.outputs ⟨before⟩) m.definition)
      (parts : ∀ e ∈ node.entries, WellScoped room (a.enter e.outputs e.scope) e.op) :
      WellScoped room a (.mk node)

/-- The bindings of a scope have their slots, and each definition refers only to bindings that are
    there before it. -/
structure Scope.WellScoped (room : Room) (a : Around) (scope : Scope Op) : Prop where
  slots : ∀ m ∈ scope.memos, m.binding.slot < room.slots
  definitions : ∀ before m after, scope.memos = before ++ m :: after →
    m.definition.WellScoped room (a.enter [] ⟨before⟩)

/-- All that the operations of a program refer to is there. -/
structure Program.WellScoped (P : Program) : Prop where
  scope : P.scope.WellScoped ⟨P.layout.slots, P.layout.groups, P.params⟩ ⟨[], []⟩
  body : P.body.WellScoped ⟨P.layout.slots, P.layout.groups, P.params⟩ ⟨P.scope.memos, []⟩

/-- A part and the scope that is entered for it. -/
structure Entry.WellScoped (room : Room) (a : Around) (e : Entry) : Prop where
  scope : e.scope.WellScoped room (a.enter e.outputs ⟨[]⟩)
  op : e.op.WellScoped room (a.enter e.outputs e.scope)

/-! ### More is there -/

/-- A parameter keeps its position when others are added. -/
theorem Signature.indexOf?_append {signature : Signature} {name : String} {index : Nat}
    (h : signature.indexOf? name = some index) (more : Signature) :
    indexOf? (signature ++ more) name = some index := by
  rw [indexOf?, names, List.idxOf?, List.map_append, List.findIdx?_append]
  rw [indexOf?, names, List.idxOf?] at h
  rw [h]
  rfl

section Mono

variable {r r' : Room} {a b : Around}

theorem OpNode.InBounds.mono {node : OpNode Op} (h : node.InBounds r a) (hroom : r.Within r')
    (hab : a.Within b) : node.InBounds r' b := by
  cases node with
  | param index name =>
    obtain ⟨more, hparams⟩ := hroom.params
    rw [InBounds, ← hparams]
    exact Signature.indexOf?_append h more
  | memo binding definition => exact ⟨Nat.lt_of_lt_of_le h.1 hroom.slots, hab.memos h.2⟩
  | caught | setLabel | getLabel | register | guarded => exact Nat.lt_of_lt_of_le h hroom.slots
  | join =>
    exact ⟨Nat.lt_of_lt_of_le h.1 hroom.slots, Nat.lt_of_lt_of_le h.2 hroom.slots⟩
  | aggregate => exact ⟨Nat.lt_of_lt_of_le h.1 hroom.groups, h.2⟩
  | groupKey | slotValue =>
    obtain ⟨o, ho, hindex⟩ := h
    exact ⟨o, hab.outputs ho, hindex⟩
  | _ => trivial

theorem Op.WellScoped.mono {op : Op} (h : op.WellScoped r a) (hroom : r.Within r')
    (hab : a.Within b) : op.WellScoped r' b := by
  induction h generalizing b with
  | mk here slots _ _ definitions parts =>
    refine .mk (here.mono hroom hab) (fun e he m hm => ?_)
      (fun e he before m after hmemos => ?_) fun e he => ?_
    · exact Nat.lt_of_lt_of_le (slots e he m hm) hroom.slots
    · exact definitions e he before m after hmemos (hab.enter e.outputs ⟨before⟩)
    · exact parts e he (hab.enter e.outputs e.scope)

theorem Scope.WellScoped.mono {scope : Scope Op} (h : scope.WellScoped r a)
    (hroom : r.Within r') (hab : a.Within b) : scope.WellScoped r' b := by
  refine ⟨fun m hm => Nat.lt_of_lt_of_le (h.slots m hm) hroom.slots, ?_⟩
  intro before m after hmemos
  exact (h.definitions before m after hmemos).mono hroom (hab.enter [] ⟨before⟩)

/-- A scope with one more binding. -/
theorem Scope.WellScoped.concat {scope : Scope Op} {m : Memo Op} (h : scope.WellScoped r a)
    (hslot : m.binding.slot < r.slots)
    (hdefinition : m.definition.WellScoped r (a.enter [] scope)) :
    Scope.WellScoped r a ⟨scope.memos ++ [m]⟩ := by
  constructor
  · intro m' hm
    rcases List.mem_append.mp hm with hm | hm
    · exact h.slots m' hm
    · rw [List.mem_singleton.mp hm]
      exact hslot
  · intro before m' after hmemos
    dsimp only at hmemos
    rcases List.eq_nil_or_concat after with rfl | ⟨after, last, rfl⟩
    · obtain ⟨rfl, hlast⟩ := List.append_inj' hmemos rfl
      rw [← List.head_eq_of_cons_eq hlast]
      exact hdefinition
    · rw [List.concat_eq_append, ← List.cons_append, ← List.append_assoc] at hmemos
      exact h.definitions before m' after (List.append_inj' hmemos rfl).1

theorem Entry.WellScoped.mono {e : Entry} (h : e.WellScoped r a) (hroom : r.Within r')
    (hab : a.Within b) : e.WellScoped r' b :=
  ⟨h.scope.mono hroom (hab.enter _ _), h.op.mono hroom (hab.enter _ _)⟩

end Mono

theorem Entry.wellScoped_plain {room : Room} {a : Around} {op : Op} :
    (Entry.plain op).WellScoped room a ↔ op.WellScoped room a := by
  have hempty : a.enter [] ⟨[]⟩ = a := by simp [Around.enter]
  constructor
  · intro h
    have hop := h.op
    rwa [plain, hempty] at hop
  · intro h
    refine ⟨⟨fun _ h => absurd h List.not_mem_nil, fun before m after hmemos => ?_⟩, ?_⟩
    · exact absurd hmemos.symm (by simp [plain])
    · rwa [plain, hempty]

/-- A node whose entries are well scoped. -/
theorem Op.WellScoped.ofEntries {room : Room} {a : Around} {node : OpNode Op}
    (here : node.InBounds room a) (h : ∀ e ∈ node.entries, e.WellScoped room a) :
    (Op.mk node).WellScoped room a := by
  refine .mk here (fun e he => (h e he).scope.slots) (fun e he before m after hmemos => ?_)
    fun e he => (h e he).op
  have hdefinition := (h e he).scope.definitions before m after hmemos
  simpa [Around.enter] using hdefinition

/-! ### Slots of reducers -/

/-- A reducer that is valid has arguments and an initial value that its kind takes. -/
theorem Reducer.valid_of_validate {r : Reducer Expr} (h : r.validate = .ok ()) :
    r.kind.arity.1 ≤ r.args.length ∧ r.args.length ≤ r.kind.arity.2 ∧
      (r.initial.isSome = true → r.kind.acceptsInitial = true) := by
  unfold Reducer.validate at h
  dsimp only at h
  have harity : ¬(r.args.length < r.kind.arity.1 ∨ r.kind.arity.2 < r.args.length) := by
    intro hbad
    rw [if_pos (by simpa using hbad)] at h
    cases h
  have hinitial : ¬(r.initial.isSome && !r.kind.acceptsInitial) = true := by
    intro hbad
    rw [if_neg (by simpa using harity), if_pos hbad] at h
    cases h
  refine ⟨Nat.le_of_not_lt fun h => harity (.inl h), Nat.le_of_not_lt fun h => harity (.inr h), ?_⟩
  intro hsome
  simpa [hsome] using hinitial

namespace Lowering

variable {outer : Around} {env env' : Env} {s s₁ s₂ s' : State} {ps ps' : List Entry}

def State.room (s : State) : Room := ⟨s.supply.slots, s.supply.groups, s.supply.signature⟩

/-- What is there in a scope, given what is there around it. -/
def State.around (s : State) (outer : Around) : Around := outer.enter [] s.scope

theorem Extends.room (h : Extends s s') : s.room.Within s'.room :=
  ⟨h.slots, h.groups, h.signature⟩

theorem Extends.around (h : Extends s s') : (s.around outer).Within (s'.around outer) := by
  refine ⟨fun m hm => ?_, List.Subset.refl _⟩
  rcases List.mem_append.mp hm with hm | hm
  · exact List.mem_append_left _ hm
  · obtain ⟨b, hb, rfl⟩ := List.mem_map.mp hm
    exact List.mem_append_right _ (List.mem_map_of_mem (h.mem_bound hb))

/-- The surroundings refer to what is there. -/
structure Env.InBounds (env : Env) (room : Room) (a : Around) : Prop where
  input : ∀ producer, env.input = .inline producer → producer.WellScoped room a
  aggregate : ∀ g, env.aggregate = some g → ⟨g.group, g.keys.length, g.slots.length⟩ ∈ a.outputs
  join : ∀ j, env.join = some j → j.left.slot < room.slots ∧ j.right.slot < room.slots
  caught : ∀ b, env.caught = some b → b.slot < room.slots

theorem Env.InBounds.mono {r r' : Room} {a b : Around} (h : env.InBounds r a)
    (hroom : r.Within r') (hab : a.Within b) : env.InBounds r' b where
  input producer hinput := (h.input producer hinput).mono hroom hab
  aggregate g hg := hab.outputs (h.aggregate g hg)
  join j hj :=
    ⟨Nat.lt_of_lt_of_le (h.join j hj).1 hroom.slots, Nat.lt_of_lt_of_le (h.join j hj).2 hroom.slots⟩
  caught b hb := Nat.lt_of_lt_of_le (h.caught b hb) hroom.slots

/-- What a state has handed out is there. -/
structure State.InBounds (s : State) (outer : Around) : Prop where
  labels : ∀ l ∈ s.supply.labels, l.2.slot < s.supply.slots
  scope : s.scope.WellScoped s.room outer

theorem State.InBounds.assign (h : s.InBounds outer) (names : NameSet) :
    State.InBounds { s with assigned := names } outer := ⟨h.labels, h.scope⟩

/-- A step that gives some operations with what is entered for them: if what was there before is
    in bounds, so is all that is there afterwards. -/
structure Scoped (outer : Around) (env : Env) (s : State) (ps : List Entry) (s' : State) :
    Prop where
  extends' : Extends s s'
  gives : s.InBounds outer → env.InBounds s.room (s.around outer) →
    s'.InBounds outer ∧ ∀ e ∈ ps, e.WellScoped s'.room (s'.around outer)

namespace Scoped

/-- A step that makes no binding, has no new labels and gives nothing. -/
theorem idle (h : Extends s s') (hbound : s'.bound = s.bound)
    (hlabels : s'.supply.labels = s.supply.labels) : Scoped outer env s [] s' := by
  refine ⟨h, fun hs _ => ⟨⟨fun l hl => ?_, ?_⟩, fun _ h => absurd h List.not_mem_nil⟩⟩
  · rw [hlabels] at hl
    exact Nat.lt_of_lt_of_le (hs.labels l hl) h.slots
  · have hscope : s'.scope = s.scope := by rw [State.scope, State.scope, hbound]
    rw [hscope]
    exact hs.scope.mono h.room (.refl _)

theorem refl (s : State) : Scoped outer env s [] s := idle (.refl s) rfl rfl

theorem freshSlot {stem : String} {b : Binding} (h : Gives (freshSlot stem) s b s') :
    Scoped outer env s [] s' := by
  have hextends := Extends.closed.slot h
  obtain ⟨-, n, rfl⟩ := gives_freshSlot h
  exact idle hextends rfl rfl

theorem freshName {stem name : String} (h : Gives (freshName stem) s name s') :
    Scoped outer env s [] s' := by
  have hextends := Extends.closed.name h
  obtain ⟨n, rfl⟩ := gives_freshName h
  exact idle hextends rfl rfl

theorem freshGroup {g : Nat} (h : Gives freshGroup s g s') : Scoped outer env s [] s' := by
  have hextends := Extends.closed.group h
  obtain ⟨-, rfl⟩ := gives_freshGroup h
  exact idle hextends rfl rfl

theorem constantName {value : Value} {name : String} (h : Gives (constantName value) s name s') :
    Scoped outer env s [] s' := by
  have hextends := Extends.closed.constant h
  obtain ⟨n, cs, rfl⟩ := gives_constantName h
  exact idle hextends rfl rfl

theorem paramIndex {name : String} {index : Nat} (h : Gives (paramIndex name) s index s') :
    Scoped outer env s [] s' := by
  have hextends := Extends.closed.parameter h
  rcases gives_paramIndex h with ⟨-, rfl⟩ | ⟨-, -, rfl⟩ <;> exact idle hextends rfl rfl

theorem labelSlot {name : String} {b : Binding} (h : Gives (labelSlot name) s b s') :
    Scoped outer env s [] s' := by
  have hextends := Extends.closed.label h
  rcases gives_labelSlot h with ⟨-, rfl⟩ | ⟨rfl, -, rfl⟩
  · exact idle hextends rfl rfl
  · refine ⟨hextends, fun hs _ => ⟨⟨fun l hl => ?_, ?_⟩, fun _ h => absurd h List.not_mem_nil⟩⟩
    · rcases List.mem_append.mp hl with hl | hl
      · exact Nat.lt_of_lt_of_le (hs.labels l hl) hextends.slots
      · rw [List.mem_singleton.mp hl]
        exact Nat.lt_succ_self _
    · exact hs.scope.mono hextends.room (.refl _)

/-- Two steps, of which the second goes on with what the first one gives. -/
theorem andThen (h : Scoped outer env s ps s₁) (hextends : Extends s₁ s₂)
    (h' : (∀ e ∈ ps, e.WellScoped s₁.room (s₁.around outer)) → Scoped outer env s₁ ps' s₂) :
    Scoped outer env s (ps ++ ps') s₂ := by
  refine ⟨h.extends'.trans hextends, fun hs henv => ?_⟩
  obtain ⟨hs₁, hps⟩ := h.gives hs henv
  obtain ⟨hs₂, hps'⟩ := (h' hps).gives hs₁ (henv.mono h.extends'.room h.extends'.around)
  refine ⟨hs₂, fun e he => ?_⟩
  rcases List.mem_append.mp he with he | he
  · exact (hps e he).mono hextends.room hextends.around
  · exact hps' e he

theorem trans (h : Scoped outer env s ps s₁) (h' : Scoped outer env s₁ ps' s₂) :
    Scoped outer env s (ps ++ ps') s₂ := h.andThen h'.extends' fun _ => h'

theorem both {ops ops' : List Op} (h : Scoped outer env s (ops.map .plain) s₁)
    (h' : Scoped outer env s₁ (ops'.map .plain) s₂) :
    Scoped outer env s ((ops ++ ops').map .plain) s₂ := by
  simpa using h.trans h'

/-- A step in other surroundings. -/
theorem within (h : Scoped outer env' s ps s')
    (henv : env.InBounds s.room (s.around outer) → env'.InBounds s.room (s.around outer)) :
    Scoped outer env s ps s' :=
  ⟨h.extends', fun hs hin => h.gives hs (henv hin)⟩

theorem subset (h : Scoped outer env s ps s') (hsub : ∀ e ∈ ps', e ∈ ps) :
    Scoped outer env s ps' s' := by
  refine ⟨h.extends', fun hs henv => ?_⟩
  obtain ⟨hs', hps⟩ := h.gives hs henv
  exact ⟨hs', fun e he => hps e (hsub e he)⟩

theorem assign (h : Scoped outer env s ps s₁) (names : NameSet) :
    Scoped outer env s ps { s₁ with assigned := names } :=
  ⟨h.extends'.trans (Extends.closed.assign _ _), fun hs henv =>
    ⟨(h.gives hs henv).1.assign names, (h.gives hs henv).2⟩⟩

/-- Labels that are known before have no part in this. -/
theorem assignBefore {names : NameSet} (h : Scoped outer env { s with assigned := names } ps s') :
    Scoped outer env s ps s' :=
  ⟨(Extends.closed.assign s names).trans h.extends', fun hs => h.gives (hs.assign names)⟩

/-- A scope with the bindings that its parts make. -/
theorem scope {outputs : List Shape} {ops : List Op}
    (h : Scoped ((s.around outer).enter outputs ⟨[]⟩) env' s.enter (ops.map .plain) s₁)
    (henv : env.InBounds s.room (s.around outer) →
      env'.InBounds s.room ((s.around outer).enter outputs ⟨[]⟩)) :
    Scoped outer env s (ops.map (⟨outputs, s₁.scope, ·⟩)) (s₁.leave s) := by
  have hextends : Extends s (s₁.leave s) := Extends.closed.scope h.extends'
  refine ⟨hextends, fun hs hin => ?_⟩
  have henter : s.enter.InBounds ((s.around outer).enter outputs ⟨[]⟩) := by
    refine ⟨hs.labels, fun _ h => absurd h List.not_mem_nil, fun before m after hmemos => ?_⟩
    exact absurd hmemos.symm (by simp [State.enter, State.scope])
  have haround : s.enter.around ((s.around outer).enter outputs ⟨[]⟩) =
      (s.around outer).enter outputs ⟨[]⟩ := by
    simp [State.around, State.enter, State.scope, Around.enter]
  obtain ⟨hs₁, hops⟩ := h.gives henter (by rw [haround]; exact henv hin)
  refine ⟨⟨hs₁.labels, hs.scope.mono hextends.room (.refl _)⟩, fun e he => ?_⟩
  obtain ⟨op, hop, rfl⟩ := List.mem_map.mp he
  refine ⟨hs₁.scope, ?_⟩
  have hplain := Entry.wellScoped_plain.mp (hops (.plain op) (List.mem_map_of_mem hop))
  refine hplain.mono (.refl _) ⟨fun m hm => ?_, fun o ho => ho⟩
  simpa [State.around, State.leave, State.scope, Around.enter] using hm

/-- A node of parts that are there. -/
theorem node {node : OpNode Op} (h : Scoped outer env s ps s')
    (hnode : s'.InBounds outer → env.InBounds s'.room (s'.around outer) →
      node.InBounds s'.room (s'.around outer))
    (hentries : ∀ e ∈ node.entries, e ∈ ps) : Scoped outer env s [.plain (.mk node)] s' := by
  refine ⟨h.extends', fun hs henv => ?_⟩
  obtain ⟨hs', hps⟩ := h.gives hs henv
  refine ⟨hs', fun e he => ?_⟩
  rw [List.mem_singleton.mp he]
  refine Entry.wellScoped_plain.mpr (.ofEntries ?_ fun e he => hps e (hentries e he))
  exact hnode hs' (henv.mono h.extends'.room h.extends'.around)

theorem ofInput {op : Op} (h : InputGives env op) (s : State) :
    Scoped outer env s [.plain op] s := by
  cases h with
  | value =>
    refine (refl s).node (fun _ _ => trivial) fun e he => ?_
    exact absurd he List.not_mem_nil
  | inline h =>
    refine ⟨.refl s, fun hs henv => ⟨hs, fun e he => ?_⟩⟩
    rw [List.mem_singleton.mp he]
    exact Entry.wellScoped_plain.mpr (henv.input _ h)

/-- The definition of a binding of the scope is well scoped, and more so in the whole scope. -/
theorem definition {b : Bound} (hs : s.InBounds outer) (hb : b ∈ s.bound) :
    b.binding.slot < s.room.slots ∧ b.definition.WellScoped s.room (s.around outer) := by
  obtain ⟨before, after, hsplit⟩ := List.append_of_mem hb
  have hmemos : s.scope.memos = before.map (fun b => ⟨b.binding, b.definition⟩) ++
      ⟨b.binding, b.definition⟩ :: after.map fun b => ⟨b.binding, b.definition⟩ := by
    simp [State.scope, hsplit]
  refine ⟨hs.scope.slots ⟨b.binding, b.definition⟩ (by simp [hmemos]), ?_⟩
  refine (hs.scope.definitions _ _ _ hmemos).mono (.refl _) ⟨fun m hm => ?_, fun o ho => ho⟩
  rcases List.mem_append.mp hm with hm | hm
  · exact List.mem_append_left _ hm
  · refine List.mem_append_right _ ?_
    rw [hmemos]
    exact List.mem_append_left _ hm

/-- A binding of the scope is read. -/
theorem hit {b : Bound} (hb : b ∈ s.bound) :
    Scoped outer env s [.plain (.mk (.memo b.binding b.definition))] s := by
  refine ⟨.refl s, fun hs _ => ⟨hs, fun e he => ?_⟩⟩
  rw [List.mem_singleton.mp he]
  obtain ⟨hslot, hdefinition⟩ := definition hs hb
  refine Entry.wellScoped_plain.mpr (.ofEntries ⟨hslot, ?_⟩ fun e he => ?_)
  · exact List.mem_append_right _ (List.mem_map_of_mem (f := fun b : Bound => Memo.mk _ _) hb)
  · rw [List.mem_singleton.mp he]
    exact Entry.wellScoped_plain.mpr hdefinition

/-- A new binding of the scope. -/
theorem bind {definition : Op} {binding : Binding} {site : Site} {reads writes : NameSet}
    (h : Scoped outer env s [.plain definition] s₁)
    (hslot : Gives (Lowering.freshSlot "v") s₁ binding s₂) :
    Scoped outer env s [.plain (.mk (.memo binding definition))]
      { s₂ with bound := s₂.bound ++ [⟨site, binding, definition, reads, writes⟩] } := by
  have hslots := Extends.closed.slot hslot
  have hbind := Extends.closed.bind s₂ ⟨site, binding, definition, reads, writes⟩
  obtain ⟨hfirst, n, hs₂⟩ := gives_freshSlot hslot
  have hlt : binding.slot < s₂.supply.slots := by
    rw [hs₂, hfirst]
    exact Nat.lt_succ_self _
  have hscope : s₂.scope = s₁.scope := by rw [hs₂]; rfl
  refine ⟨h.extends'.trans (hslots.trans hbind), fun hs henv => ?_⟩
  obtain ⟨hs₁, hdefinition⟩ := h.gives hs henv
  replace hdefinition := Entry.wellScoped_plain.mp (hdefinition _ List.mem_cons_self)
  replace hdefinition := hdefinition.mono hslots.room hslots.around
  have hmemos : (State.scope { s₂ with
      bound := s₂.bound ++ [⟨site, binding, definition, reads, writes⟩] }) =
        ⟨s₂.scope.memos ++ [⟨binding, definition⟩]⟩ := by
    simp [State.scope]
  refine ⟨⟨fun l hl => ?_, ?_⟩, fun e he => ?_⟩
  · refine Nat.lt_of_lt_of_le (hs₁.labels l ?_) hslots.slots
    simpa [hs₂] using hl
  · rw [hmemos]
    refine Scope.WellScoped.concat ?_ hlt hdefinition
    rw [hscope]
    exact hs₁.scope.mono hslots.room (.refl _)
  · rw [List.mem_singleton.mp he]
    refine Entry.wellScoped_plain.mpr (.ofEntries ⟨hlt, ?_⟩ fun e he => ?_)
    · refine List.mem_append_right _ ?_
      rw [hmemos]
      exact List.mem_append_right _ List.mem_cons_self
    · rw [List.mem_singleton.mp he]
      exact Entry.wellScoped_plain.mpr (hdefinition.mono hbind.room hbind.around)

end Scoped

/-! ### What lowering refers to is there -/

theorem Env.InBounds.enter {r : Room} {a : Around} (h : env.InBounds r a) (context : Context)
    (input : Input) (outputs : List Shape) (hinput : input = env.input ∨ ∀ p, input ≠ .inline p) :
    (env.enter context input).InBounds r (a.enter outputs ⟨[]⟩) := by
  have wide := h.mono (.refl r) (a.within_enter outputs ⟨[]⟩)
  refine ⟨fun producer hp => ?_, wide.aggregate, wide.join, wide.caught⟩
  rcases hinput with rfl | hinput
  · exact wide.input producer hp
  · exact absurd hp (hinput producer)

/-- What is lowered below a root is well scoped. -/
def ScopedBelow (root : Expr) : Prop :=
  ∀ (c : Smaller root) {outer : Around} {env : Env} {s s' : State} {op : Op}, env.pass = .emit →
    Lowers env c s op s' → Scoped outer env s [.plain op] s'

theorem slot_lt_of_labelSlot {name : String} {b : Binding} (h : Gives (labelSlot name) s b s')
    (hs : s'.InBounds outer) : b.slot < s'.supply.slots := by
  rcases gives_labelSlot h with ⟨hmem, rfl⟩ | ⟨rfl, -, rfl⟩
  · exact hs.labels _ hmem
  · exact Nat.lt_succ_self _

theorem slot_lt_of_freshSlot {stem : String} {b : Binding} (h : Gives (freshSlot stem) s b s') :
    b.slot < s'.supply.slots := by
  obtain ⟨hslot, n, rfl⟩ := gives_freshSlot h
  rw [hslot]
  exact Nat.lt_succ_self _

/-- The parameter that a reference has found. -/
theorem indexOf?_of_paramIndex {name : String} {index : Nat}
    (h : Gives (paramIndex name) s index s') :
    s'.supply.signature.indexOf? name = some index := by
  rcases gives_paramIndex h with ⟨hindex, rfl⟩ | ⟨hnone, rfl, rfl⟩
  · exact hindex
  · rw [Signature.indexOf?, Signature.names, List.idxOf?] at hnone ⊢
    rw [List.map_append, List.findIdx?_append, hnone]
    simp

theorem Sequence.length_eq {α β : Type} {R : α → State → β → State → Prop} {as : List α}
    {bs : List β}
    (h : Sequence R as s bs s') : bs.length = as.length := by
  induction h with
  | nil => rfl
  | cons _ _ ih => rw [List.length_cons, List.length_cons, ih]

/-- Each result of a sequence of steps comes from one of them. -/
theorem Sequence.exists_of_mem {α β : Type} {R : α → State → β → State → Prop} {as : List α}
    {bs : List β}
    (h : Sequence R as s bs s') {b : β} (hb : b ∈ bs) : ∃ a ∈ as, ∃ s s', R a s b s' := by
  induction h with
  | nil => exact absurd hb List.not_mem_nil
  | cons head _ ih =>
    rcases List.mem_cons.mp hb with rfl | hb
    · exact ⟨_, List.mem_cons_self, _, _, head⟩
    · obtain ⟨a, ha, h⟩ := ih hb
      exact ⟨a, List.mem_cons_of_mem _ ha, h⟩

theorem Optional.isSome_eq {α β : Type} {R : α → State → β → State → Prop} {a : Option α}
    {b : Option β}
    (h : Optional R a s b s') : b.isSome = a.isSome := by
  cases h <;> rfl

/-- The slot of a valid reducer is fed with what its kind takes. -/
theorem SlotGives.valid {root : Expr} {r : Reducer (Smaller root)} {slot : SlotOp Op}
    (h : SlotGives env r s slot s') (hr : (Smaller.plain r).validate = .ok ()) : slot.Valid := by
  obtain ⟨hkind, -, s₁, s₂, -, hargs, hinitial⟩ := h
  obtain ⟨hleast, hgreatest, haccepts⟩ := Reducer.valid_of_validate hr
  have hlength : slot.args.length = (Smaller.plain r).args.length := by
    simp [Smaller.plain, Reducer.map, hargs.length_eq]
  refine ⟨?_, ?_, fun hsome => ?_⟩
  · rw [hkind, hlength]
    exact hleast
  · rw [hkind, hlength]
    exact hgreatest
  · rw [hkind]
    refine haccepts ?_
    rw [hinitial.isSome_eq] at hsome
    simpa [Smaller.plain, Reducer.map] using hsome

theorem lt_of_keyPositions {aggregate : AggregateEnv} {e : Expr} {index : Nat}
    (h : aggregate.keyPositions e = [index]) : index < aggregate.keys.length := by
  obtain ⟨k, hk, -⟩ := mem_keyPositions.mp (h ▸ List.mem_singleton_self index)
  exact (List.getElem?_eq_some_iff.mp hk).1

section Node

variable {e : Expr} {key : NodeKey} {op : Op} (ih : ScopedBelow e) (hpass : env.pass = .emit)
include ih hpass

theorem ScopedBelow.steps (outer : Around) :
    NodeSteps env fun s (_ : List (Smaller e)) ops s' =>
      Scoped outer env s (ops.map .plain) s' where
  lowers h := ih _ hpass h
  refl := .refl
  trans := Scoped.both
  assign names _ h := h.assign names
  constant h := .constantName h
  node hplain h := by
    refine h.node (fun _ _ => OpNode.inBounds_of_plain hplain _ _) fun e he => ?_
    rwa [OpNode.entries_of_plain hplain] at he

theorem ScopedBelow.side {context : Context} {join : JoinEnv} {keys filter : List (Smaller e)}
    {side : JoinSideOp Op} (h : SideGives context join keys filter env s side s')
    (hjoin : join.left.slot < s.supply.slots ∧ join.right.slot < s.supply.slots) :
    Scoped outer env s (side.parts.map (⟨[], side.scope, ·⟩)) s' := by
  obtain ⟨s₁, s₂, hkeys, hfilter, hscope, rfl⟩ := h
  have inside := ih.steps (@Env.pass_side _ hpass context join) ((s.around outer).enter [] ⟨[]⟩)
  rw [hscope]
  refine ((inside.all hkeys).both (inside.conjunction hfilter)).scope fun henv => ?_
  have entered := henv.enter context env.input [] (.inl rfl)
  exact { entered with join := fun j hj => by cases hj; exact hjoin }

/-- The operations of an aggregate refer to what is there. -/
theorem ScopedBelow.aggregate {keys : List (Smaller e)} {output : Smaller e}
    (h : NodeGives e env key (.aggregate keys output) s op s') :
    Scoped outer env s [.plain op] s' := by
  cases h with
  | @aggregate _ _ reducers _ _ s₂ _ s₄ _ _ _ group _ keyOps slots hsource hreducers hgroup hrow
      hkeys hslots houtput =>
    have inside := ih.steps (@Env.pass_row _ hpass key) ((s₂.around outer).enter [] ⟨[]⟩)
    have rows : Scoped outer env s₂ _ _ :=
      ((inside.all hkeys).both (inside.slots hslots)).scope fun henv =>
        { henv.enter env.context .value [] (.inr (by simp)) with
          aggregate := fun _ h => by cases h }
    have outputs : Scoped outer env (s₄.leave s₂) (List.map _ [_]) _ :=
      Scoped.scope (ih _ (Env.pass_output hpass) houtput) fun henv => by
        have entered := henv.enter env.context .unavailable
          [⟨group, keyOps.length, slots.length⟩] (.inr (by simp))
        refine ⟨entered.input, fun g hg => ?_, entered.join, entered.caught⟩
        cases hg
        simp [AggregateEnv.of, Around.enter, hkeys.length_eq, hslots.length_eq]
    refine (((((Scoped.ofInput hsource _).trans (.freshGroup hgroup)).trans (.freshName hrow)).trans
      rows).trans outputs).node (fun _ _ => ⟨?_, fun slot hslot => ?_⟩) fun e he => ?_
    · obtain ⟨hg, rfl⟩ := gives_freshGroup hgroup
      have later := (Extends.closed.name hrow).trans (rows.extends'.trans outputs.extends')
      refine Nat.lt_of_lt_of_le ?_ later.groups
      rw [hg]
      exact Nat.lt_succ_self _
    · obtain ⟨r, hr, _, _, hgives⟩ := hslots.exists_of_mem hslot
      exact hgives.valid (Smaller.forall_mem_slots hreducers _ (fun _ _ h => h) r hr)
    · simpa [OpNode.entries] using he

/-- The operations of a join refer to what is there. -/
theorem ScopedBelow.join {left right : Smaller e} {condition : Option (Smaller e)}
    {kind : JoinKind} (h : NodeGives e env key (.join left right condition kind) s op s') :
    Scoped outer env s [.plain op] s' := by
  cases h with
  | @join _ _ _ _ _ _ _ _ s₃ s₄ s₅ s₆ s₇ _ _ _ leftRow rightRow _ _ _ _ hleft hright hleftRow
      hrightRow _ hpreFilter hleftSide hrightSide hresidual =>
    have rows : Scoped outer env _ _ _ := (((ih _ hpass hleft).trans (ih _ hpass hright)).trans
      (.freshSlot hleftRow)).trans (.freshSlot hrightRow)
    have hrows : leftRow.slot < s₄.supply.slots ∧ rightRow.slot < s₄.supply.slots := by
      refine ⟨Nat.lt_of_lt_of_le (slot_lt_of_freshSlot hleftRow) ?_, slot_lt_of_freshSlot hrightRow⟩
      exact (Extends.closed.slot hrightRow).slots
    have later {t : State} (h : Extends s₄ t) :
        leftRow.slot < t.supply.slots ∧ rightRow.slot < t.supply.slots :=
      ⟨Nat.lt_of_lt_of_le hrows.1 h.slots, Nat.lt_of_lt_of_le hrows.2 h.slots⟩
    have pre := (ih.steps hpass outer).conjunction hpreFilter
    have left : Scoped outer env s₅ _ s₆ := ih.side hpass hleftSide (later pre.extends')
    have right : Scoped outer env s₆ _ s₇ :=
      ih.side hpass hrightSide (later (pre.trans left).extends')
    have sides := (pre.trans left).trans right
    have residual := (ih.steps (@Env.pass_pair _ hpass key ⟨leftRow, rightRow⟩)
      ((s₇.around outer).enter [] ⟨[]⟩)).conjunction hresidual
    have pairs : Scoped outer env s₇ _ _ := residual.scope fun henv =>
      { henv.enter env.context _ [] (.inl rfl) with
        join := fun j hj => by
          cases hj
          exact later sides.extends' }
    refine ((rows.trans sides).trans pairs).node (fun _ _ => ?_) fun e he => ?_
    · exact later (sides.trans pairs).extends'
    · simpa [OpNode.entries] using he

/-- Lowering a node in place refers to what is there. -/
theorem ScopedBelow.node {node : Node (Smaller e)} (h : NodeGives e env key node s op s') :
    Scoped outer env s [.plain op] s' := by
  have here := ih.steps hpass outer
  -- A plain node opens no scope; the others extend what is around their parts.
  by_cases hplain : node.plain = true
  · exact here.plain hplain h
  cases h with
  | input h => exact .ofInput h _
  | parameter h =>
    exact (Scoped.paramIndex h).node (fun _ _ => indexOf?_of_paramIndex h) fun _ h => h
  | @comprehension _ _ _ _ _ _ _ s₂ _ _ _ _ _ _ _ _ hsource hvar hfilter hkeyed helement =>
    have inside := ih.steps (@Env.pass_enter _ hpass (.part env.context key .item) .value)
      ((s₂.around outer).enter [] ⟨[]⟩)
    have entered : Scoped outer env s₂ _ _ :=
      (((inside.option hfilter).both (inside.option hkeyed)).both (inside.lowers helement)).scope
        fun henv => henv.enter _ _ _ (.inr (by simp))
    refine (((ih _ hpass hsource).trans (.freshName hvar)).trans entered).node
      (fun _ _ => trivial) fun e he => ?_
    simpa [OpNode.entries] using he
  | @sort _ _ _ _ _ s₂ _ _ _ _ hsource hvar hkeys =>
    have inside := ih.steps (@Env.pass_enter _ hpass (.part env.context key .sortItem) .value)
      ((s₂.around outer).enter [] ⟨[]⟩)
    have entered : Scoped outer env s₂ _ _ :=
      (inside.sortKeys hkeys).scope fun henv => henv.enter _ _ _ (.inr (by simp))
    refine (((ih _ hpass hsource).trans (.freshName hvar)).trans entered).node
      (fun _ _ => trivial) fun e he => ?_
    simpa [OpNode.entries] using he
  | unguarded h => exact ih _ hpass h
  | @guarded _ _ _ _ s₂ s₃ _ caught lowered _ hbody hcaught hhandlers =>
    have handlers := (ih.steps (@Env.pass_handler _ hpass caught) outer).handlers
      Scoped.assignBefore hhandlers
    have inside : Scoped outer env s₂ _ s₃ := handlers.within fun henv =>
      { henv with caught := fun b hb => by cases hb; exact slot_lt_of_freshSlot hcaught }
    refine ((((ih _ hpass hbody).trans (.freshSlot hcaught)).trans inside).assign _).node
      (fun _ _ => ?_) fun e he => ?_
    · exact Nat.lt_of_lt_of_le (slot_lt_of_freshSlot hcaught) handlers.extends'.slots
    · simpa [OpNode.entries, OpNode.parts, List.flatMap_map] using he
  | caught h => exact (Scoped.refl _).node (fun _ henv => henv.caught _ h) fun _ h => h
  | leftRow h => exact (Scoped.refl _).node (fun _ henv => (henv.join _ h).1) fun _ h => h
  | rightRow h => exact (Scoped.refl _).node (fun _ henv => (henv.join _ h).2) fun _ h => h
  | inlined _ hproducer hconsumer =>
    have consumer : Scoped outer _ _ _ _ := ih _ (Env.pass_consumer hpass) hconsumer
    have both := (ih _ hpass hproducer).andThen consumer.extends' fun hp =>
      consumer.within fun henv => { henv with
        input := fun producer h => by
          cases h
          exact Entry.wellScoped_plain.mp (hp _ List.mem_cons_self) }
    exact both.subset fun _ h => List.mem_append_right _ h
  | piped _ hproducer hconsumer =>
    have consumer : Scoped outer env _ _ _ :=
      (ih _ (Env.pass_consumer hpass) hconsumer).within fun henv =>
        { henv with input := fun _ h => by cases h }
    exact ((ih _ hpass hproducer).trans consumer).node (fun _ _ => trivial) fun _ h => h
  | label hvalue hslot =>
    refine ((ih _ hpass hvalue).trans (Scoped.labelSlot hslot).assignBefore).node
      (fun hs _ => ?_) fun _ h => h
    exact slot_lt_of_labelSlot hslot hs
  | labelRef _ hslot =>
    exact (Scoped.labelSlot hslot).node (fun hs _ => slot_lt_of_labelSlot hslot hs) fun _ h => h
  | reducer haggregate hindex hfallback =>
    obtain ⟨_, fallback⟩ := here.fallback hfallback
    refine fallback.node (fun _ henv => ?_) fun _ h => h
    refine ⟨_, henv.aggregate _ haggregate, rfl, ?_⟩
    exact (List.findIdx?_eq_some_iff_getElem.mp hindex).1
  | aggregate hsource hreducers hgroup hrow hkeys hslots houtput =>
    exact ih.aggregate hpass (.aggregate hsource hreducers hgroup hrow hkeys hslots houtput)
  | join hleft hright hleftRow hrightRow hplan hpreFilter hleftSide hrightSide hresidual =>
    exact ih.join hpass (.join hleft hright hleftRow hrightRow hplan hpreFilter hleftSide
      hrightSide hresidual)
  | _ => exact absurd rfl hplain

end Node

/-- **What lowering refers to is there.** -/
theorem lower_scoped {outer : Around} {e : Expr} {env : Env} {s s' : State} {op : Op}
    (hpass : env.pass = .emit) (h : Gives (lower e env) s op s') :
    Scoped outer env s [.plain op] s' := by
  have ih : ScopedBelow e := fun c _ _ _ _ _ hpass h => lower_scoped hpass h
  cases lower_cases hpass h with
  | groupKey hkey =>
    obtain ⟨aggregate, index, haggregate, -, hindex, rfl⟩ := groupKey_eq hkey
    refine (Scoped.refl _).node (fun _ henv => ?_) fun _ h => h
    exact ⟨_, henv.aggregate _ haggregate, rfl, lt_of_keyPositions hindex⟩
  | inPlace _ _ hnode => exact ih.node hpass hnode
  | hit _ _ hmem _ _ => exact (Scoped.hit hmem).assign _
  | bind _ _ _ hnode hslot => exact (ih.node hpass hnode).bind hslot
termination_by sizeOf e
decreasing_by exact c.2

end Lowering

/-- What a program refers to is there. -/
theorem Lowering.start_wellScoped {e : Expr} {threshold : Weight.Threshold} {signature : Signature}
    {counts : Occurrences} {body : Op} {s : Lowering.State}
    (h : Gives (lower e (.start .emit threshold)) (.start signature counts) body s) :
    (s.program body).WellScoped := by
  have start : (State.start signature counts).InBounds ⟨[], []⟩ := by
    refine ⟨fun _ h => absurd h List.not_mem_nil, fun _ h => absurd h List.not_mem_nil, ?_⟩
    intro before m after hmemos
    exact absurd hmemos.symm (by simp [State.start, State.scope])
  have around : (Env.start .emit threshold).InBounds (State.start signature counts).room
      ((State.start signature counts).around ⟨[], []⟩) := by
    constructor <;> intro _ h <;> cases h
  obtain ⟨hs, hbody⟩ := (lower_scoped rfl h).gives start around
  refine ⟨hs.scope, ?_⟩
  exact Entry.wellScoped_plain.mp (hbody _ List.mem_cons_self)

/-- **Lowered programs are well scoped.** -/
theorem Program.ofExpr_wellScoped {e : Expr} {signature : Signature} {threshold : Weight.Threshold}
    {program : Program} (h : Program.ofExpr e signature threshold = .ok program) :
    program.WellScoped := by
  obtain ⟨-, counts, body, s, -, hlower, rfl⟩ := Lowering.ofExpr_cases h
  exact Lowering.start_wellScoped hlower

theorem exists_of_isSome {ε α : Type} {r : Except ε α} (h : r.toOption.isSome = true) :
    ∃ a, r = .ok a := by
  cases r with
  | error err => cases h
  | ok a => exact ⟨a, rfl⟩

/-- One divided by the input. -/
def quotient : Expr := .mk 2 (.binary .div (.mk 3 (.constant (.int 1))) (.mk 4 .input))

/-- The reciprocal of the input, or the message of the error. -/
def reciprocal : Expr := .mk 1 (.guarded quotient [⟨[], .mk 5 .caught, none⟩])

theorem ofExpr_wellScoped_reciprocal : ∃ program,
    Program.ofExpr reciprocal [] Weight.bindingThreshold = .ok program ∧ program.WellScoped := by
  obtain ⟨program, h⟩ := exists_of_isSome
    (r := Program.ofExpr reciprocal [] Weight.bindingThreshold) (by decide +kernel)
  exact ⟨program, h, Program.ofExpr_wellScoped h⟩

end DataExpr
