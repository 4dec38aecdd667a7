import DataExpr.Program.Fold

/-!
# Parts of operations

The operations that an operation evaluates, and what can be collected from all of them:
the slots that an evaluation may overwrite without telling anyone (`Op.scratch`).  The functions
that fold the parts of a node are maps.
-/

namespace DataExpr

variable {ω : Type}

def Step.parts : Step ω → List ω
  | .key op => [op]
  | .attr _ => []

def HandlerOp.parts (h : HandlerOp ω) : List ω := h.reraiseIf.toList ++ [h.value]

def SlotOp.parts (s : SlotOp ω) : List ω := s.filter.toList ++ s.args ++ s.initial.toList

def JoinSideOp.parts (side : JoinSideOp ω) : List ω := side.keys ++ side.filter.toList

namespace OpNode

/-- The operations that a node is made of. -/
def parts : OpNode ω → List ω
  | input | const .. | param .. | caught _ | getLabel _ | register _ | groupKey .. => []
  | access source steps default => source :: (steps.flatMap Step.parts ++ default.toList)
  | call _ _ args | builtin _ args => args
  | binary _ left right => [left, right]
  | unary _ operand => [operand]
  | and items | or items | collection _ items => items
  | dict pairs => pairs.flatMap fun p => [p.1, p.2]
  | loop op => op.source :: (op.filter.toList ++ op.key.toList ++ [op.element])
  | sort op => op.source :: op.keys.map SortKeyOp.op
  | guarded op => op.body :: op.handlers.flatMap HandlerOp.parts
  | cond condition yes no => [condition, yes, no]
  | pipe producer consumer => [producer, consumer]
  | memo _ definition => [definition]
  | setLabel _ value => [value]
  | aggregate op => op.source :: (op.keys ++ op.slots.flatMap SlotOp.parts ++ [op.output])
  | join op =>
    op.left :: op.right :: (op.preFilter.toList ++ op.leftSide.parts ++ op.rightSide.parts ++
      op.residual.toList)
  | slotValue _ _ default => [default]

/-- The slots that a node sets or forgets for its own use. -/
def places : OpNode ω → List Nat
  | loop op => op.scope.resets
  | sort op => op.scope.resets
  | guarded op => [op.caught.slot]
  | aggregate op => op.rowScope.resets ++ op.outputScope.resets
  | join op =>
    op.leftRow.slot :: op.rightRow.slot :: (op.leftSide.scope.resets ++ op.rightSide.scope.resets ++
      op.pairScope.resets)
  | _ => []

end OpNode

/-! ### Size -/

theorem sizeOf_lt_of_mem_optional {op : Op} {o : Option Op} (h : op ∈ o.toList) :
    sizeOf op < sizeOf o := by
  cases o with
  | none => exact absurd h List.not_mem_nil
  | some a =>
    obtain rfl := List.mem_singleton.mp h
    rw [Option.some.sizeOf_spec]
    omega

theorem sizeOf_lt_of_mem_flatMap {α : Type} [SizeOf α] {f : α → List Op} {op : Op} {as : List α}
    (hf : ∀ a, op ∈ f a → sizeOf op < sizeOf a) (h : op ∈ as.flatMap f) :
    sizeOf op < sizeOf as := by
  obtain ⟨a, ha, h⟩ := List.mem_flatMap.mp h
  exact Nat.lt_trans (hf a h) (List.sizeOf_lt_of_mem ha)

variable {op : Op}

theorem Step.sizeOf_lt_of_mem (step : Step Op) (h : op ∈ step.parts) :
    sizeOf op < sizeOf step := by
  cases step with
  | key o =>
    obtain rfl := List.mem_singleton.mp h
    rw [Step.key.sizeOf_spec]
    omega
  | attr name => exact absurd h List.not_mem_nil

theorem HandlerOp.sizeOf_lt_of_mem (handler : HandlerOp Op) (h : op ∈ handler.parts) :
    sizeOf op < sizeOf handler := by
  obtain ⟨kinds, value, reraiseIf⟩ := handler
  rw [HandlerOp.mk.sizeOf_spec]
  simp only [HandlerOp.parts, List.mem_append, List.mem_singleton] at h
  rcases h with h | rfl
  · have := sizeOf_lt_of_mem_optional h
    omega
  · omega

theorem SlotOp.sizeOf_lt_of_mem (slot : SlotOp Op) (h : op ∈ slot.parts) :
    sizeOf op < sizeOf slot := by
  obtain ⟨kind, args, filter, initial, seedEmpty⟩ := slot
  rw [SlotOp.mk.sizeOf_spec]
  simp only [SlotOp.parts, List.mem_append] at h
  rcases h with (h | h) | h
  · have := sizeOf_lt_of_mem_optional h
    omega
  · have := List.sizeOf_lt_of_mem h
    omega
  · have := sizeOf_lt_of_mem_optional h
    omega

theorem JoinSideOp.sizeOf_lt_of_mem (side : JoinSideOp Op) (h : op ∈ side.parts) :
    sizeOf op < sizeOf side := by
  obtain ⟨scope, keys, filter⟩ := side
  rw [JoinSideOp.mk.sizeOf_spec]
  simp only [JoinSideOp.parts, List.mem_append] at h
  rcases h with h | h
  · have := List.sizeOf_lt_of_mem h
    omega
  · have := sizeOf_lt_of_mem_optional h
    omega

theorem SortKeyOp.sizeOf_lt (key : SortKeyOp Op) : sizeOf key.op < sizeOf key := by
  obtain ⟨op, order⟩ := key
  rw [SortKeyOp.mk.sizeOf_spec]
  dsimp only
  omega

namespace OpNode

theorem sizeOf_lt_loop {o : LoopOp Op} (h : op ∈ (loop o).parts) : sizeOf op < sizeOf o := by
  obtain ⟨kind, var, source, scope, filter, key, element⟩ := o
  rw [LoopOp.mk.sizeOf_spec]
  change op ∈ source :: (filter.toList ++ key.toList ++ [element]) at h
  simp only [List.mem_cons, List.mem_append, List.not_mem_nil, or_false] at h
  rcases h with rfl | (h | h) | rfl
  · omega
  · have := sizeOf_lt_of_mem_optional h
    omega
  · have := sizeOf_lt_of_mem_optional h
    omega
  · omega

theorem sizeOf_lt_aggregate {o : AggregateOp Op} (h : op ∈ (aggregate o).parts) :
    sizeOf op < sizeOf o := by
  obtain ⟨group, row, source, rowScope, keys, slots, outputScope, output⟩ := o
  rw [AggregateOp.mk.sizeOf_spec]
  change op ∈ source :: (keys ++ slots.flatMap SlotOp.parts ++ [output]) at h
  simp only [List.mem_cons, List.mem_append, List.not_mem_nil, or_false] at h
  rcases h with rfl | (h | h) | rfl
  · omega
  · have := List.sizeOf_lt_of_mem h
    omega
  · have := sizeOf_lt_of_mem_flatMap SlotOp.sizeOf_lt_of_mem h
    omega
  · omega

theorem sizeOf_lt_join {o : JoinOp Op} (h : op ∈ (join o).parts) : sizeOf op < sizeOf o := by
  obtain ⟨kind, left, right, leftRow, rightRow, preFilter, leftSide, rightSide, pairScope,
    residual⟩ := o
  rw [JoinOp.mk.sizeOf_spec]
  change op ∈ left :: right :: (preFilter.toList ++ leftSide.parts ++ rightSide.parts ++
    residual.toList) at h
  simp only [List.mem_cons, List.mem_append] at h
  rcases h with rfl | rfl | ((h | h) | h) | h
  · omega
  · omega
  · have := sizeOf_lt_of_mem_optional h
    omega
  · have := leftSide.sizeOf_lt_of_mem h
    omega
  · have := rightSide.sizeOf_lt_of_mem h
    omega
  · have := sizeOf_lt_of_mem_optional h
    omega

/-- The parts of a node are smaller than the node. -/
theorem sizeOf_lt_of_mem {node : OpNode Op} (h : op ∈ node.parts) : sizeOf op < sizeOf node := by
  cases node with
  | input | const | param | caught | getLabel | register | groupKey =>
    exact absurd h List.not_mem_nil
  | access source steps default =>
    rw [access.sizeOf_spec]
    simp only [parts, List.mem_cons, List.mem_append] at h
    rcases h with rfl | h | h
    · omega
    · have := sizeOf_lt_of_mem_flatMap Step.sizeOf_lt_of_mem h
      omega
    · have := sizeOf_lt_of_mem_optional h
      omega
  | call | builtin | and | or | collection =>
    simp only [call.sizeOf_spec, builtin.sizeOf_spec, and.sizeOf_spec, or.sizeOf_spec,
      collection.sizeOf_spec]
    have := List.sizeOf_lt_of_mem (by simpa only [parts] using h)
    omega
  | binary | pipe =>
    simp only [binary.sizeOf_spec, pipe.sizeOf_spec]
    simp only [parts, List.mem_cons, List.not_mem_nil, or_false] at h
    rcases h with rfl | rfl <;> omega
  | cond condition yes no =>
    rw [cond.sizeOf_spec]
    simp only [parts, List.mem_cons, List.not_mem_nil, or_false] at h
    rcases h with rfl | rfl | rfl <;> omega
  | unary | memo | setLabel | slotValue =>
    simp only [unary.sizeOf_spec, memo.sizeOf_spec, setLabel.sizeOf_spec, slotValue.sizeOf_spec]
    obtain rfl := List.mem_singleton.mp h
    omega
  | dict pairs =>
    rw [dict.sizeOf_spec]
    have := sizeOf_lt_of_mem_flatMap (f := fun p : Op × Op => [p.1, p.2]) (fun p h => by
      obtain ⟨k, v⟩ := p
      rw [Prod.mk.sizeOf_spec]
      simp only [List.mem_cons, List.not_mem_nil, or_false] at h
      rcases h with rfl | rfl <;> omega) h
    omega
  | loop o =>
    have := sizeOf_lt_loop h
    rw [loop.sizeOf_spec]
    omega
  | sort o =>
    rw [sort.sizeOf_spec]
    obtain ⟨var, source, scope, keys, reverse⟩ := o
    rw [SortOp.mk.sizeOf_spec]
    simp only [parts, List.mem_cons, List.mem_map] at h
    rcases h with rfl | ⟨key, hk, rfl⟩
    · omega
    · have := List.sizeOf_lt_of_mem hk
      have := key.sizeOf_lt
      omega
  | guarded o =>
    rw [guarded.sizeOf_spec]
    obtain ⟨body, handlers, caught⟩ := o
    rw [GuardOp.mk.sizeOf_spec]
    simp only [parts, List.mem_cons] at h
    rcases h with rfl | h
    · omega
    · have := sizeOf_lt_of_mem_flatMap HandlerOp.sizeOf_lt_of_mem h
      omega
  | aggregate o =>
    have := sizeOf_lt_aggregate h
    rw [aggregate.sizeOf_spec]
    omega
  | join o =>
    have := sizeOf_lt_join h
    rw [join.sizeOf_spec]
    omega

end OpNode

namespace Op

def parts (op : Op) : List Op := op.node.parts

theorem sizeOf_lt_of_mem {op part : Op} (h : part ∈ op.parts) : sizeOf part < sizeOf op := by
  cases op with
  | mk node =>
    have := OpNode.sizeOf_lt_of_mem (show part ∈ node.parts from h)
    rw [mk.sizeOf_spec]
    omega

/-! ### Collecting -/

variable {α : Type}

/-- What an operation and all its parts have of their own. -/
def gather (own : OpNode Op → List α) (op : Op) : List α :=
  own op.node ++ op.parts.attach.flatMap fun part => gather own part.1
termination_by sizeOf op
decreasing_by exact sizeOf_lt_of_mem part.2

theorem mem_gather {own : OpNode Op → List α} {node : OpNode Op} {a : α} :
    a ∈ gather own (.mk node) ↔ a ∈ own node ∨ ∃ part ∈ node.parts, a ∈ gather own part := by
  rw [gather, List.mem_append, List.mem_flatMap]
  constructor
  · rintro (h | ⟨part, -, h⟩)
    · exact .inl h
    · exact .inr ⟨part.1, part.2, h⟩
  · rintro (h | ⟨part, hpart, h⟩)
    · exact .inl h
    · exact .inr ⟨⟨part, hpart⟩, List.mem_attach _ _, h⟩

/-- The slots that an evaluation sets or forgets, apart from labels and from lazy bindings of
    the current scope. -/
def scratch (op : Op) : List Nat := op.gather OpNode.places

/-! ### Folding the parts -/

section Fold

variable {β : Type} (combine : OpNode β → β)

theorem foldAll_eq (ops : List Op) : foldAll combine ops = ops.map (fold combine) := by
  induction ops with
  | nil => rfl
  | cons op ops ih => rw [foldAll, ih, List.map_cons]

theorem foldOption_eq (op : Option Op) : foldOption combine op = op.map (fold combine) := by
  cases op <;> rfl

theorem foldPairs_eq (pairs : List (Op × Op)) :
    foldPairs combine pairs = pairs.map fun p => (fold combine p.1, fold combine p.2) := by
  induction pairs with
  | nil => rfl
  | cons p pairs ih =>
    obtain ⟨k, v⟩ := p
    rw [foldPairs, foldPair, ih, List.map_cons]

theorem foldSteps_eq (steps : List (Step Op)) :
    foldSteps combine steps = steps.map (foldStep combine) := by
  induction steps with
  | nil => rfl
  | cons step steps ih => rw [foldSteps, ih, List.map_cons]

theorem foldSortKeys_eq (keys : List (SortKeyOp Op)) :
    foldSortKeys combine keys = keys.map fun k => ⟨fold combine k.op, k.order⟩ := by
  induction keys with
  | nil => rfl
  | cons key keys ih =>
    obtain ⟨op, order⟩ := key
    rw [foldSortKeys, foldSortKey, ih, List.map_cons]

theorem foldHandlers_eq (handlers : List (HandlerOp Op)) :
    foldHandlers combine handlers = handlers.map (foldHandler combine) := by
  induction handlers with
  | nil => rfl
  | cons h handlers ih => rw [foldHandlers, ih, List.map_cons]

theorem foldSlots_eq (slots : List (SlotOp Op)) :
    foldSlots combine slots = slots.map (foldSlot combine) := by
  induction slots with
  | nil => rfl
  | cons slot slots ih => rw [foldSlots, ih, List.map_cons]

/-- Folding leaves the slots of a scope alone. -/
theorem resets_foldScope (scope : Scope Op) : (foldScope combine scope).resets = scope.resets := by
  obtain ⟨memos⟩ := scope
  rw [foldScope, Scope.resets, Scope.resets]
  induction memos with
  | nil => rfl
  | cons memo memos ih =>
    obtain ⟨binding, definition⟩ := memo
    rw [foldMemos, foldMemo, List.map_cons, List.map_cons, ih]

theorem foldLoop_eq (p : LoopOp Op) : foldLoop combine p =
    ⟨p.kind, p.var, fold combine p.source, foldScope combine p.scope, foldOption combine p.filter,
      foldOption combine p.key, fold combine p.element⟩ := by
  cases p
  rfl

theorem foldSort_eq (p : SortOp Op) : foldSort combine p =
    ⟨p.var, fold combine p.source, foldScope combine p.scope,
      p.keys.map fun k => ⟨fold combine k.op, k.order⟩, p.reverse⟩ := by
  rw [← foldSortKeys_eq]
  cases p
  rfl

theorem foldHandler_eq (p : HandlerOp Op) : foldHandler combine p =
    ⟨p.kinds, fold combine p.value, foldOption combine p.reraiseIf⟩ := by
  cases p
  rfl

theorem foldGuard_eq (p : GuardOp Op) : foldGuard combine p =
    ⟨fold combine p.body, p.handlers.map (foldHandler combine), p.caught⟩ := by
  rw [← foldHandlers_eq]
  cases p
  rfl

theorem foldSlot_eq (p : SlotOp Op) : foldSlot combine p =
    ⟨p.kind, foldAll combine p.args, foldOption combine p.filter, foldOption combine p.initial,
      p.seedEmpty⟩ := by
  cases p
  rfl

theorem foldAggregate_eq (p : AggregateOp Op) : foldAggregate combine p =
    ⟨p.group, p.row, fold combine p.source, foldScope combine p.rowScope, foldAll combine p.keys,
      p.slots.map (foldSlot combine), foldScope combine p.outputScope, fold combine p.output⟩ := by
  rw [← foldSlots_eq]
  cases p
  rfl

theorem foldSide_eq (p : JoinSideOp Op) : foldSide combine p =
    ⟨foldScope combine p.scope, foldAll combine p.keys, foldOption combine p.filter⟩ := by
  cases p
  rfl

theorem foldJoin_eq (p : JoinOp Op) : foldJoin combine p =
    ⟨p.kind, fold combine p.left, fold combine p.right, p.leftRow, p.rightRow,
      foldOption combine p.preFilter, foldSide combine p.leftSide, foldSide combine p.rightSide,
      foldScope combine p.pairScope, foldOption combine p.residual⟩ := by
  cases p
  rfl

/-! The parts of a folded node are the results of its parts. -/

theorem toList_foldOption (op : Option Op) :
    (foldOption combine op).toList = op.toList.map (fold combine) := by
  cases op <;> rfl

theorem flatMap_parts_map {α γ : Type} {f : α → γ} {p : α → List Op} {q : γ → List β}
    (h : ∀ a, q (f a) = (p a).map (fold combine)) (as : List α) :
    (as.map f).flatMap q = (as.flatMap p).map (fold combine) := by
  rw [List.flatMap_map, List.map_flatMap]
  exact congrArg (List.flatMap · as) (funext h)

theorem parts_foldStep (step : Step Op) :
    (foldStep combine step).parts = step.parts.map (fold combine) := by
  cases step <;> rfl

theorem parts_foldHandler (handler : HandlerOp Op) :
    (foldHandler combine handler).parts = handler.parts.map (fold combine) := by
  rw [foldHandler_eq, HandlerOp.parts, HandlerOp.parts, toList_foldOption, List.map_append]
  rfl

theorem parts_foldSlot (slot : SlotOp Op) :
    (foldSlot combine slot).parts = slot.parts.map (fold combine) := by
  rw [foldSlot_eq, SlotOp.parts, SlotOp.parts, toList_foldOption, toList_foldOption, foldAll_eq,
    List.map_append, List.map_append]

theorem parts_foldSide (side : JoinSideOp Op) :
    (foldSide combine side).parts = side.parts.map (fold combine) := by
  rw [foldSide_eq, JoinSideOp.parts, JoinSideOp.parts, toList_foldOption, foldAll_eq,
    List.map_append]

/-- Folding the parts of a node gives a node whose parts are their results. -/
theorem parts_foldNode (node : OpNode Op) :
    (foldNode combine node).parts = node.parts.map (fold combine) := by
  cases node with
  | input | const | param | caught | getLabel | register | groupKey => rfl
  | binary | unary | cond | pipe | memo | setLabel | slotValue => rfl
  | call | builtin | and | or | collection => exact foldAll_eq combine _
  | access source steps default =>
    change fold combine source :: ((foldSteps combine steps).flatMap Step.parts ++
      (foldOption combine default).toList) = _
    rw [foldSteps_eq, flatMap_parts_map combine (parts_foldStep combine), toList_foldOption,
      ← List.map_append]
    rfl
  | dict pairs =>
    change (foldPairs combine pairs).flatMap (fun p => [p.1, p.2]) = _
    rw [foldPairs_eq]
    exact flatMap_parts_map combine (p := fun p : Op × Op => [p.1, p.2])
      (q := fun p : β × β => [p.1, p.2]) (fun _ => rfl) pairs
  | loop op =>
    change (OpNode.loop (foldLoop combine op)).parts = _
    simp only [foldLoop_eq, OpNode.parts, toList_foldOption, List.map_cons, List.map_append,
      List.map_nil]
  | sort op =>
    change (OpNode.sort (foldSort combine op)).parts = _
    simp only [foldSort_eq, OpNode.parts, List.map_cons, List.map_map, Function.comp_def]
  | guarded op =>
    change (OpNode.guarded (foldGuard combine op)).parts = _
    simp only [foldGuard_eq, OpNode.parts, List.map_cons,
      flatMap_parts_map combine (parts_foldHandler combine)]
  | aggregate op =>
    change (OpNode.aggregate (foldAggregate combine op)).parts = _
    simp only [foldAggregate_eq, OpNode.parts, foldAll_eq, List.map_cons, List.map_append,
      List.map_nil, flatMap_parts_map combine (parts_foldSlot combine)]
  | join op =>
    change (OpNode.join (foldJoin combine op)).parts = _
    simp only [foldJoin_eq, OpNode.parts, toList_foldOption, parts_foldSide, List.map_cons,
      List.map_append]

end Fold

end Op
end DataExpr
