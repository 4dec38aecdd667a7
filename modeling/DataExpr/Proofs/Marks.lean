import DataExpr.Expr.Analysis
import DataExpr.Expr.Traverse.Lemmas

/-!
# Marks of the analysis

What the analysis knows of a node comes from the node or from its parts.  A single statement about
one mark at a time serves all that it knows: a node has a mark if it is marked itself or one of the
parts has it that pass it on (`Analysis.Mark.on_node`).  These are all parts, except that handlers
keep to themselves that they read their error and the condition of a join that it reads the rows,
that only the parts with the input of the whole pass on that it is used, and only those in the same
aggregate that a reducer belongs to an enclosing one.
-/

namespace DataExpr

/-! ### Members of sets of names -/

namespace NameSet

theorem mem_insert {n m : String} {s : NameSet} : n ∈ NameSet.insert m s ↔ n = m ∨ n ∈ s := by
  induction s with
  | nil => simp [NameSet.insert]
  | cons k rest ih =>
    simp only [NameSet.insert]
    split
    · rename_i h
      subst h
      simp
    · split
      · simp
      · simp only [List.mem_cons, ih]
        exact or_left_comm

theorem mem_union {n : String} {s t : NameSet} : n ∈ NameSet.union s t ↔ n ∈ s ∨ n ∈ t := by
  induction t generalizing s with
  | nil => simp [NameSet.union]
  | cons m rest ih =>
    have step : NameSet.union s (m :: rest) = NameSet.union (NameSet.insert m s) rest := rfl
    rw [step, ih, mem_insert, List.mem_cons, or_assoc, or_left_comm]

theorem mem_inter {n : String} {s t : NameSet} : n ∈ NameSet.inter s t ↔ n ∈ s ∧ n ∈ t := by
  simp [NameSet.inter]

theorem mem_diff {n : String} {s t : NameSet} : n ∈ NameSet.diff s t ↔ n ∈ s ∧ n ∉ t := by
  simp [NameSet.diff]

end NameSet

/-! ### Parts of nodes -/

theorem Reducer.children_map {ε δ : Type} (f : ε → δ) (r : Reducer ε) :
    (r.map f).children = r.children.map f := by
  obtain ⟨kind, args, filter, default, initial⟩ := r
  cases filter <;> cases default <;> cases initial <;> simp [Reducer.map, Reducer.children]

namespace Node

variable {ε δ : Type}

/-- The parts that read an error only as the whole does: all but those of handlers. -/
def unhandled : Node ε → List ε
  | guarded body _ => [body]
  | node => node.children

/-- The parts that read rows only as the whole does: all but the condition of a join. -/
def besideRows : Node ε → List ε
  | join left right _ _ => [left, right]
  | node => node.children

/-- The parts whose reducers belong to the same aggregate as those of the whole. -/
def sameAggregate : Node ε → List ε
  | aggregate .. => []
  | reducer r => r.default.toList
  | node => node.children

/-- Whether a node reads its input itself. -/
def readsInput : Node ε → Bool
  | input | aggregate .. => true
  | _ => false

/-- The parts that have the input of the whole.  The default of a reducer is evaluated for a group,
    so it does not count. -/
def sameInput : Node ε → List ε
  | comprehension _ _ _ source _ | sort source _ _ => [source]
  | pipe producer _ => [producer]
  | aggregate .. | reducer _ => []
  | node => node.children

theorem map_map {γ : Type} (f : ε → δ) (g : δ → γ) (node : Node ε) :
    (node.map f).map g = node.map fun e => g (f e) := by
  cases node with
  | reducer r => simp [map, Reducer.map, Function.comp_def]
  | access | call | builtin | and | or | collection | dict | comprehension | sort | guarded
  | aggregate | join =>
    simp [map, Function.comp_def, PathStep.map_map, Handler.map_map, SortKey.map]
  | _ => rfl

theorem children_map (f : ε → δ) (node : Node ε) :
    (node.map f).children = node.children.map f := by
  have steps (path : List (PathStep ε)) :
      (path.map (PathStep.map f)).flatMap PathStep.children =
        (path.flatMap PathStep.children).map f := by
    induction path with
    | nil => rfl
    | cons step rest ih => cases step <;> simp [PathStep.map, PathStep.children, ih]
  have handled (handlers : List (Handler ε)) :
      (handlers.map (Handler.map f)).flatMap Handler.children =
        (handlers.flatMap Handler.children).map f := by
    induction handlers with
    | nil => rfl
    | cons handler rest ih =>
      obtain ⟨kinds, value, reraiseIf⟩ := handler
      cases reraiseIf <;> simp [Handler.map, Handler.children, ih]
  cases node with
  | access source path default => cases default <;> simp [map, children, steps]
  | dict pairs => simp [map, children, List.flatMap_map, List.map_flatMap]
  | comprehension kind key element source filter =>
    cases key <;> cases filter <;> rfl
  | sort source keys reverse => simp [map, children, SortKey.map]
  | guarded body handlers => simp [map, children, handled]
  | reducer r => exact r.children_map f
  | aggregate keys output => simp [map, children]
  | join left right condition kind => cases condition <;> rfl
  | _ => rfl

theorem unhandled_map (f : ε → δ) (node : Node ε) :
    (node.map f).unhandled = node.unhandled.map f := by
  have h := children_map f node
  cases node <;> first | exact h | rfl

theorem sameInput_map (f : ε → δ) (node : Node ε) :
    (node.map f).sameInput = node.sameInput.map f := by
  have h := children_map f node
  cases node <;> first | exact h | rfl

theorem sameAggregate_map (f : ε → δ) (node : Node ε) :
    (node.map f).sameAggregate = node.sameAggregate.map f := by
  have h := children_map f node
  cases node with
  | reducer r => exact Option.toList_map ..
  | _ => first | exact h | rfl

theorem besideRows_map (f : ε → δ) (node : Node ε) :
    (node.map f).besideRows = node.besideRows.map f := by
  have h := children_map f node
  cases node <;> first | exact h | rfl

theorem mem_children_of_mem_sameInput {node : Node ε} {c : ε} (h : c ∈ node.sameInput) :
    c ∈ node.children := by
  cases node with
  | comprehension | sort | pipe =>
    obtain rfl := List.mem_singleton.mp h
    simp [children]
  | aggregate | reducer => exact absurd h List.not_mem_nil
  | _ => exact h

theorem mem_children_of_mem_sameAggregate {node : Node ε} {c : ε} (h : c ∈ node.sameAggregate) :
    c ∈ node.children := by
  cases node with
  | aggregate => exact absurd h List.not_mem_nil
  | reducer r => exact List.mem_append_right _ h
  | _ => exact h

/-- A part with the input of the whole belongs to the same aggregate. -/
theorem mem_sameAggregate_of_mem_sameInput {node : Node ε} {c : ε} (h : c ∈ node.sameInput) :
    c ∈ node.sameAggregate := by
  cases node with
  | comprehension | sort | pipe =>
    obtain rfl := List.mem_singleton.mp h
    simp [sameAggregate, children]
  | aggregate | reducer => exact absurd h List.not_mem_nil
  | _ => exact h

end Node

namespace Analysis

theorem bind_eq_ok {ε α β : Type} {x : Except ε α} {f : α → Except ε β} {b : β} :
    (x >>= f) = .ok b ↔ ∃ a, x = .ok a ∧ f a = .ok b := by
  cases x with
  | error e =>
    constructor
    · intro h
      cases h
    · rintro ⟨a, h, -⟩
      cases h
  | ok a =>
    constructor
    · intro h
      exact ⟨a, rfl, h⟩
    · rintro ⟨a', h, hf⟩
      cases h
      exact hf

/-! ### Marks -/

/-- Something that the analysis knows of an expression. -/
inductive Mark where
  | param (name : String)
  | labelRead (name : String)
  | labelWritten (name : String)
  | impure
  | caught
  | left
  | right
  | used
  | free

namespace Mark

/-- The analysis knows it. -/
def On (m : Mark) (a : Analysis) : Prop :=
  match m with
  | param name => name ∈ a.params
  | labelRead name => name ∈ a.labelsRead
  | labelWritten name => name ∈ a.labelsWritten
  | impure => a.impure = true
  | caught => a.readsCaught = true
  | left => a.sides.left = true
  | right => a.sides.right = true
  | used => a.inputUses ≠ 0
  | free => a.freeReducers ≠ 0

/-- The node has it whatever its parts are. -/
def Owns {ε : Type} (m : Mark) (node : Node ε) : Prop :=
  match m with
  | param name => node = .parameter name
  | labelRead name => node = .labelRef name
  | labelWritten name => ∃ c, node = .label name c
  | impure => ∃ f args, node = .call f args ∧ f.isPure = false
  | caught => node = .caught
  | left => node = .joinRow .left
  | right => node = .joinRow .right
  | used => node.readsInput = true
  | free => ∃ r, node = .reducer r

/-- The parts that pass it on to the node. -/
def parts {ε : Type} (m : Mark) (node : Node ε) : List ε :=
  match m with
  | caught => node.unhandled
  | left | right => node.besideRows
  | used => node.sameInput
  | free => node.sameAggregate
  | _ => node.children

/-! ### Nodes with other parts -/

section Replaced

variable {ε δ : Type}

theorem parts_map (m : Mark) (f : ε → δ) (node : Node ε) :
    m.parts (node.map f) = (m.parts node).map f := by
  cases m with
  | caught => exact Node.unhandled_map f node
  | left | right => exact Node.besideRows_map f node
  | used => exact Node.sameInput_map f node
  | free => exact Node.sameAggregate_map f node
  | _ => exact Node.children_map f node

theorem owns_map (m : Mark) (f : ε → δ) (node : Node ε) : m.Owns (node.map f) ↔ m.Owns node := by
  cases m <;> cases node <;> simp [Owns, Node.map, Node.readsInput]

theorem mem_children (m : Mark) {node : Node ε} {c : ε} (h : c ∈ m.parts node) :
    c ∈ node.children := by
  cases m with
  | caught =>
    cases node with
    | guarded body handlers => exact List.mem_cons.mpr (.inl (List.mem_singleton.mp h))
    | _ => exact h
  | left | right =>
    cases node with
    | join left right condition kind => exact List.mem_append_left condition.toList h
    | _ => exact h
  | used => exact Node.mem_children_of_mem_sameInput h
  | free => exact Node.mem_children_of_mem_sameAggregate h
  | _ => exact h

end Replaced

/-! ### Marks of results -/

/-- It is known of the whole if a part with an input of its own has it. -/
def Crosses (m : Mark) : Prop := m ≠ used

/-- The result for a part has it. -/
def OnResult (m : Mark) (child : AnalysisResult) : Prop := ∃ c, child = .ok c ∧ m.On c

/-- One of the results has it. -/
def Among (m : Mark) (children : List AnalysisResult) : Prop := ∃ child ∈ children, m.OnResult child

variable {m : Mark} {a b r : Analysis} {child : AnalysisResult} {children : List AnalysisResult}

@[simp] theorem among_nil : ¬ m.Among [] := by
  simp [Among]

@[simp] theorem among_cons : m.Among (child :: children) ↔ m.OnResult child ∨ m.Among children := by
  simp [Among]

@[simp] theorem among_append {others : List AnalysisResult} :
    m.Among (children ++ others) ↔ m.Among children ∨ m.Among others := by
  simp [Among, or_and_right, exists_or]

@[simp] theorem among_flatMap {γ : Type} {f : γ → List AnalysisResult} {xs : List γ} :
    m.Among (xs.flatMap f) ↔ ∃ x ∈ xs, m.Among (f x) := by
  induction xs with
  | nil => simp
  | cons x xs ih => simp [ih]

theorem not_on_empty (m : Mark) : ¬ m.On empty := by
  cases m <;> simp [On, empty]

theorem onResult_ok : m.OnResult (.ok a) ↔ m.On a := by
  constructor
  · rintro ⟨c, hc, h⟩
    cases hc
    exact h
  · intro h
    exact ⟨a, rfl, h⟩

/-! ### Steps of the analysis -/

theorem ne_zero_of_add {x y z : UInt64} (h : Word.add x y = .ok z) : z ≠ 0 ↔ x ≠ 0 ∨ y ≠ 0 := by
  have sum := Word.add_eq_ok_iff.mp h
  simp only [ne_eq, ← UInt64.toNat_inj, UInt64.toNat_zero]
  omega

theorem on_merge (h : a.merge b = .ok r) : m.On r ↔ m.On a ∨ m.On b := by
  simp only [merge, bind_eq_ok] at h
  obtain ⟨constants, -, uses, huses, free, hfree, h⟩ := h
  cases h
  cases m with
  | used => exact ne_zero_of_add huses
  | free => exact ne_zero_of_add hfree
  | _ => simp [On, NameSet.mem_union, Sides.union]

theorem on_absorb (h : a.absorb child = .ok r) : m.On r ↔ m.On a ∨ m.OnResult child := by
  simp only [absorb, bind_eq_ok] at h
  obtain ⟨c, rfl, h⟩ := h
  rw [onResult_ok]
  exact on_merge h

theorem on_absorbScoped (h : a.absorbScoped child = .ok r) :
    m.On r ↔ m.On a ∨ m.Crosses ∧ m.OnResult child := by
  simp only [absorbScoped, bind_eq_ok] at h
  obtain ⟨s, hs, h⟩ := h
  cases h
  have whole := on_absorb (m := m) hs
  cases m with
  | used => simp [On, Crosses]
  | _ => simpa [On, Crosses] using whole

/-- A fold of steps has what it starts with and what each step adds. -/
theorem on_foldlM {γ : Type} {f : Analysis → γ → AnalysisResult} {P : γ → Prop}
    (step : ∀ {a x r}, f a x = .ok r → (m.On r ↔ m.On a ∨ P x)) {xs : List γ}
    (h : xs.foldlM f a = .ok r) : m.On r ↔ m.On a ∨ ∃ x ∈ xs, P x := by
  induction xs generalizing a with
  | nil =>
    cases h
    simp
  | cons x xs ih =>
    rw [List.foldlM_cons, bind_eq_ok] at h
    obtain ⟨b, hb, h⟩ := h
    rw [ih h, step hb, or_assoc]
    simp

theorem on_absorbAll (h : a.absorbAll children = .ok r) : m.On r ↔ m.On a ∨ m.Among children :=
  on_foldlM (f := absorb) on_absorb h

/-- A fold over parts with inputs of their own. -/
theorem on_foldlM_scoped {f : Analysis → AnalysisResult → AnalysisResult}
    (step : ∀ {a x r}, f a x = .ok r → (m.On r ↔ m.On a ∨ m.Crosses ∧ m.OnResult x))
    (h : children.foldlM f a = .ok r) : m.On r ↔ m.On a ∨ m.Crosses ∧ m.Among children := by
  rw [on_foldlM (m := m) (f := f) step h]
  refine or_congr_right ⟨?_, ?_⟩
  · rintro ⟨x, hx, crosses, hon⟩
    exact ⟨crosses, x, hx, hon⟩
  · rintro ⟨crosses, x, hx, hon⟩
    exact ⟨x, hx, crosses, hon⟩

theorem on_absorbAllScoped (h : a.absorbAllScoped children = .ok r) :
    m.On r ↔ m.On a ∨ m.Crosses ∧ m.Among children :=
  on_foldlM_scoped (f := absorbScoped) on_absorbScoped h

/-- Costs have no marks. -/
theorem on_withWeight (w : UInt64) : m.On { a with weight := w } ↔ m.On a := by
  cases m <;> exact Iff.rfl

theorem on_cost {weight : UInt64} (h : a.cost weight = .ok r) : m.On r ↔ m.On a := by
  simp only [cost, bind_eq_ok] at h
  obtain ⟨w, -, h⟩ := h
  cases h
  exact on_withWeight w

theorem on_costUnpredictable : m.On a.costUnpredictable ↔ m.On a := by
  rw [costUnpredictable]
  exact on_withWeight _

theorem on_absorbStep {step : PathStep AnalysisResult} (h : a.absorbStep step = .ok r) :
    m.On r ↔ m.On a ∨ m.Among step.children := by
  cases step with
  | key k =>
    simp only [absorbStep, bind_eq_ok] at h
    obtain ⟨b, hb, h⟩ := h
    rw [on_cost h, on_absorb hb]
    simp [PathStep.children]
  | attr name =>
    rw [on_cost h]
    simp [PathStep.children]

theorem on_absorbHandler {handler : Handler AnalysisResult}
    (h : a.absorbHandler handler = .ok r) :
    m.On r ↔ m.On a ∨ m.Among handler.children := by
  simp only [absorbHandler, bind_eq_ok] at h
  obtain ⟨b, hb, h⟩ := h
  rw [on_absorb h, on_absorbAll hb]
  simp [Handler.children, or_assoc]

theorem on_absorbReducerPart (h : a.absorbReducerPart child = .ok r) :
    m.On r ↔ m.On a ∨ m.Crosses ∧ m.OnResult child := by
  simp only [absorbReducerPart, bind_eq_ok] at h
  obtain ⟨part, -, h⟩ := h
  rw [on_absorbScoped h]
  cases m <;> exact Iff.rfl

/-! ### Nodes -/

/-- Nothing is known at the start. -/
theorem on_absorbAll_empty (h : empty.absorbAll children = .ok r) :
    m.On r ↔ m.Among children := by
  rw [on_absorbAll h]
  exact or_iff_right m.not_on_empty

theorem on_absorb_empty (h : empty.absorb child = .ok r) : m.On r ↔ m.OnResult child := by
  rw [on_absorb h]
  exact or_iff_right m.not_on_empty

/-- Only the uses of the producer count, once for each use of the consumer, but at least once. -/
theorem on_produced {uses x y : UInt64} (h : Word.mul x (max y 1) = .ok uses) :
    uses ≠ 0 ↔ x ≠ 0 := by
  have product := Word.mul_eq_ok_iff.mp h
  have atLeast : (max y 1).toNat ≠ 0 := by
    intro hz
    have hle : (1 : UInt64) ≤ max y 1 := by
      rw [UInt64.le_iff_toNat_le]
      unfold max instMaxUInt64 maxOfLe
      dsimp only
      split
      · exact Nat.le_refl _
      · rename_i hle
        rw [UInt64.le_iff_toNat_le] at hle
        omega
    rw [UInt64.le_iff_toNat_le, hz] at hle
    exact absurd hle (by decide)
  simp only [ne_eq, ← UInt64.toNat_inj, UInt64.toNat_zero, ← product, Nat.mul_eq_zero,
    or_iff_left atLeast]

section Nodes

variable {m : Mark} {a b c : Analysis}

/-- A node that owns nothing and keeps nothing to itself. -/
theorem on_plain {node : Node AnalysisResult} (owns : ¬ m.Owns node)
    (parts : m.parts node = node.children) (ha : m.On a ↔ m.Among node.children) :
    m.On a ↔ m.Owns node ∨ m.Among (m.parts node) := by
  rw [parts, ha]
  exact (or_iff_right owns).symm

/-- A node some of whose parts have inputs of their own. -/
theorem on_parted {node : Node AnalysisResult} (inside others : List AnalysisResult)
    (owns : ¬ m.Owns node)
    (parts : m.Among (m.parts node) ↔ m.Among inside ∨ m.Crosses ∧ m.Among others)
    (ha : m.On a ↔ m.Among inside ∨ m.Crosses ∧ m.Among others) :
    m.On a ↔ m.Owns node ∨ m.Among (m.parts node) := by
  rw [parts, ha]
  exact (or_iff_right owns).symm

theorem on_call {f : Function} {args : List AnalysisResult} {constants weight : UInt64}
    (hb : empty.absorbAll args = .ok b)
    (h : cost { b with constants, impure := b.impure || !f.isPure } weight = .ok a) :
    m.On a ↔ m.Owns (Node.call f args) ∨ m.Among (m.parts (Node.call f args)) := by
  have own : m.On { b with constants, impure := b.impure || !f.isPure } ↔
      m.Owns (Node.call f args) ∨ m.On b := by
    cases m <;> simp [On, Owns, Node.readsInput, or_comm]
  have parts : m.parts (Node.call f args) = args := by cases m <;> rfl
  rw [on_cost h, own, on_absorbAll_empty hb, parts]

theorem on_label {name : String} {e : AnalysisResult} {weight : UInt64}
    (hb : empty.absorb e = .ok b)
    (h : cost { b with labelsWritten := NameSet.insert name b.labelsWritten } weight = .ok a) :
    m.On a ↔ m.Owns (Node.label name e) ∨ m.Among (m.parts (Node.label name e)) := by
  have own : m.On { b with labelsWritten := NameSet.insert name b.labelsWritten } ↔
      m.Owns (Node.label name e) ∨ m.On b := by
    cases m <;> simp [On, Owns, Node.readsInput, NameSet.mem_insert, @eq_comm String]
  have parts : m.parts (Node.label name e) = [e] := by cases m <;> rfl
  rw [on_cost h, own, on_absorb_empty hb, parts]
  simp

theorem on_access {source : AnalysisResult} {path : List (PathStep AnalysisResult)}
    {default : Option AnalysisResult}
    (h : (Node.access source path default).analysis = .ok a) :
    m.On a ↔ m.Owns (Node.access source path default) ∨
      m.Among (m.parts (Node.access source path default)) := by
  apply on_plain (by cases m <;> simp [Owns, Node.readsInput]) (by cases m <;> rfl)
  simp only [Node.analysis, bind_eq_ok] at h
  obtain ⟨b, hb, steps, hsteps, h⟩ := h
  have path := on_foldlM (m := m) (f := absorbStep) on_absorbStep hsteps
  rw [on_absorb_empty hb] at path
  have last : m.On a ↔ m.On steps ∨ m.Among default.toList := by
    cases default with
    | none =>
      cases h
      simp
    | some d =>
      simp only [bind_eq_ok] at h
      obtain ⟨c, hc, h⟩ := h
      rw [on_cost h, on_absorb hc]
      simp
  rw [last, path]
  simp [Node.children, or_assoc]

theorem on_comprehension {kind : ComprehensionKind} {key filter : Option AnalysisResult}
    {element source : AnalysisResult} (hb : empty.absorb source = .ok b)
    (hc : b.absorbAllScoped (key.toList ++ filter.toList ++ [element]) = .ok c) :
    m.On c.costUnpredictable ↔ m.Owns (Node.comprehension kind key element source filter) ∨
      m.Among (m.parts (Node.comprehension kind key element source filter)) := by
  apply on_parted [source] (key.toList ++ filter.toList ++ [element])
    (by cases m <;> simp [Owns, Node.readsInput])
  · -- the analysis and the list of children name the key and the filter in different orders
    cases m <;> simp [Crosses, parts, Node.unhandled, Node.besideRows, Node.sameInput,
      Node.sameAggregate, Node.children, or_left_comm]
  · rw [on_costUnpredictable, on_absorbAllScoped hc, on_absorb_empty hb]
    simp

theorem on_sort {source : AnalysisResult} {keys : List (SortKey AnalysisResult)}
    {reverse : Bool} (hb : empty.absorb source = .ok b)
    (hc : b.absorbAllScoped (keys.map SortKey.key) = .ok c) :
    m.On c.costUnpredictable ↔ m.Owns (Node.sort source keys reverse) ∨
      m.Among (m.parts (Node.sort source keys reverse)) := by
  apply on_parted [source] (keys.map SortKey.key) (by cases m <;> simp [Owns, Node.readsInput])
  · cases m <;> simp [Crosses, parts, Node.unhandled, Node.besideRows, Node.sameInput,
      Node.sameAggregate, Node.children]
  · rw [on_costUnpredictable, on_absorbAllScoped hc, on_absorb_empty hb]
    simp

theorem on_pipe {consumer : AnalysisResult} {uses most : UInt64}
    (hb : empty.absorb (.ok a) = .ok b) (hc : b.absorbScoped consumer = .ok c)
    (huses : Word.mul a.inputUses (max most 1) = .ok uses) :
    m.On { c with inputUses := uses } ↔ m.Owns (Node.pipe (.ok a) consumer) ∨
      m.Among (m.parts (Node.pipe (.ok a) consumer)) := by
  apply on_parted [.ok a] [consumer] (by cases m <;> simp [Owns, Node.readsInput])
  · cases m <;> simp [Crosses, parts, Node.unhandled, Node.besideRows, Node.sameInput,
      Node.sameAggregate, Node.children]
  · have whole := on_absorbScoped (m := m) hc
    rw [on_absorb_empty hb] at whole
    cases m with
    | used => simpa [On, Crosses, onResult_ok] using on_produced huses
    | _ => simpa [On] using whole

theorem on_reducer {r : Reducer AnalysisResult} {weight : UInt64}
    (hb : r.children.foldlM absorbReducerPart empty = .ok b)
    (h : cost { b with freeReducers := 1 } weight = .ok a) :
    m.On a ↔ m.Owns (Node.reducer r) ∨ m.Among (m.parts (Node.reducer r)) := by
  have whole := on_foldlM_scoped (m := m) (f := absorbReducerPart) on_absorbReducerPart hb
  rw [on_cost h]
  cases m with
  | free => simp [On, Owns]
  | used => simpa [On, Owns, Crosses, parts, Node.sameInput, Node.readsInput, empty] using whole
  | _ => simpa [On, Owns, Crosses, parts, Node.unhandled, Node.besideRows, Node.children, empty]
      using whole

theorem on_aggregate {keys : List AnalysisResult} {output : AnalysisResult}
    (hb : empty.absorbAllScoped keys = .ok b) (hc : b.absorbScoped output = .ok c) :
    m.On (costUnpredictable { c with freeReducers := 0, inputUses := 1, hasAggregate := true }) ↔
      m.Owns (Node.aggregate keys output) ∨ m.Among (m.parts (Node.aggregate keys output)) := by
  have whole := on_absorbScoped (m := m) hc
  rw [on_absorbAllScoped hb] at whole
  rw [on_costUnpredictable]
  cases m with
  | used => simp [On, Owns, Node.readsInput]
  | free => simp [On, Owns, parts, Node.sameAggregate]
  | _ => simpa [On, Owns, Crosses, parts, Node.unhandled, Node.besideRows, Node.children, empty]
      using whole

theorem on_guarded {handlers : List (Handler AnalysisResult)} {weight : UInt64} {all : Analysis}
    (hb : empty.merge a = .ok b) (hall : handlers.foldlM absorbHandler b = .ok all)
    (h : cost { all with readsCaught := a.readsCaught } weight = .ok c) :
    m.On c ↔ m.Owns (Node.guarded (.ok a) handlers) ∨
      m.Among (m.parts (Node.guarded (.ok a) handlers)) := by
  have whole : m.On all ↔ m.Among (Node.guarded (.ok a) handlers).children := by
    rw [on_foldlM (m := m) (f := absorbHandler) on_absorbHandler hall, on_merge hb]
    simp [Node.children, onResult_ok, m.not_on_empty]
  rw [on_cost h]
  cases m with
  | caught =>
    -- what the handlers read of an error is their own
    simp [On, Owns, parts, Node.unhandled, onResult_ok]
  | used => simpa [On, Owns, parts, Node.sameInput, Node.readsInput] using whole
  | _ => simpa [On, Owns, parts, Node.besideRows, Node.sameAggregate] using whole

theorem on_join {left right : AnalysisResult} {condition : Option AnalysisResult}
    {kind : JoinKind} (hb : empty.absorbAll [left, right] = .ok b)
    (hc : b.absorbAll condition.toList = .ok c) :
    m.On (costUnpredictable { c with sides := b.sides }) ↔
      m.Owns (Node.join left right condition kind) ∨
        m.Among (m.parts (Node.join left right condition kind)) := by
  have sides := on_absorbAll_empty (m := m) hb
  have whole : m.On c ↔ m.Among (Node.join left right condition kind).children := by
    rw [on_absorbAll hc, sides]
    simp [Node.children, or_assoc]
  rw [on_costUnpredictable]
  cases m with
  -- what the condition reads of the rows is the join's own
  | left | right => simpa [On, Owns, parts, Node.besideRows] using sides
  | used => simpa [On, Owns, parts, Node.sameInput, Node.readsInput] using whole
  | _ => simpa [On, Owns, parts, Node.unhandled, Node.sameAggregate] using whole

end Nodes

/-- **Knowledge of a node comes from the node or from a part.** -/
theorem on_node (m : Mark) {node : Node AnalysisResult} {a : Analysis}
    (h : node.analysis = .ok a) : m.On a ↔ m.Owns node ∨ m.Among (m.parts node) := by
  -- Each constructor absorbs its children and then costs: only absorbing changes a mark, apart
  -- from what the node owns itself.
  cases node with
  | input | constant | parameter | labelRef | caught =>
    cases h
    cases m <;> simp [On, Owns, parts, empty, Node.unhandled, Node.besideRows, Node.sameInput,
      Node.sameAggregate, Node.readsInput, Node.children, @eq_comm String]
  | joinRow side =>
    cases side <;> cases h <;> cases m <;>
      simp [On, Owns, parts, empty, Node.unhandled, Node.besideRows, Node.sameInput,
        Node.sameAggregate, Node.readsInput, Node.children]
  | call =>
    simp only [Node.analysis, bind_eq_ok] at h
    obtain ⟨b, hb, constants, -, h⟩ := h
    exact on_call hb h
  | label =>
    simp only [Node.analysis, bind_eq_ok] at h
    obtain ⟨b, hb, h⟩ := h
    exact on_label hb h
  | access => exact on_access h
  | builtin | binary | collection | dict | conditional =>
    apply on_plain (by cases m <;> simp [Owns, Node.readsInput]) (by cases m <;> rfl)
    simp only [Node.analysis, bind_eq_ok] at h
    obtain ⟨b, hb, h⟩ := h
    rw [on_cost h, on_absorbAll_empty hb]
    rfl
  | and | or =>
    apply on_plain (by cases m <;> simp [Owns, Node.readsInput]) (by cases m <;> rfl)
    simp only [Node.analysis, bind_eq_ok] at h
    obtain ⟨b, hb, weight, -, h⟩ := h
    rw [on_cost h, on_absorbAll_empty hb]
    rfl
  | unary op operand =>
    apply on_plain (by cases m <;> simp [Owns, Node.readsInput]) (by cases m <;> rfl)
    simp only [Node.analysis, bind_eq_ok] at h
    obtain ⟨b, hb, h⟩ := h
    rw [on_cost h, on_absorb_empty hb]
    simp [Node.children]
  | comprehension =>
    simp only [Node.analysis, bind_eq_ok] at h
    obtain ⟨b, hb, c, hc, h⟩ := h
    obtain rfl := Except.ok.inj h
    exact on_comprehension hb hc
  | sort =>
    simp only [Node.analysis, bind_eq_ok] at h
    obtain ⟨b, hb, c, hc, h⟩ := h
    obtain rfl := Except.ok.inj h
    exact on_sort hb hc
  | pipe =>
    simp only [Node.analysis, bind_eq_ok] at h
    obtain ⟨p, rfl, c, -, b, hb, r, hr, uses, huses, h⟩ := h
    cases h
    exact on_pipe hb hr huses
  | reducer =>
    simp only [Node.analysis, bind_eq_ok] at h
    obtain ⟨b, hb, h⟩ := h
    exact on_reducer hb h
  | aggregate =>
    simp only [Node.analysis, bind_eq_ok] at h
    obtain ⟨b, hb, c, hc, h⟩ := h
    obtain rfl := Except.ok.inj h
    exact on_aggregate hb hc
  | guarded =>
    simp only [Node.analysis, bind_eq_ok] at h
    obtain ⟨b, rfl, c, hc, r, hr, h⟩ := h
    exact on_guarded hc hr h
  | join =>
    simp only [Node.analysis, bind_eq_ok] at h
    obtain ⟨b, hb, c, hc, h⟩ := h
    obtain rfl := Except.ok.inj h
    exact on_join hb hc

end Mark

/-! ### Failures of parts -/

/-- A part has been analyzed. -/
def Known (child : AnalysisResult) : Prop := ∃ c, child = .ok c

variable {a r : Analysis} {child : AnalysisResult} {children : List AnalysisResult}

theorem known_absorb (h : a.absorb child = .ok r) : Known child := by
  simp only [absorb, bind_eq_ok] at h
  obtain ⟨c, hc, -⟩ := h
  exact ⟨c, hc⟩

theorem known_absorbScoped (h : a.absorbScoped child = .ok r) : Known child := by
  simp only [absorbScoped, bind_eq_ok] at h
  obtain ⟨m, hm, -⟩ := h
  exact known_absorb hm

theorem known_foldlM {γ : Type} {f : Analysis → γ → AnalysisResult} {P : γ → Prop}
    (step : ∀ {a x r}, f a x = .ok r → P x) {xs : List γ} (h : xs.foldlM f a = .ok r) :
    ∀ x ∈ xs, P x := by
  induction xs generalizing a with
  | nil => exact fun x hx => absurd hx List.not_mem_nil
  | cons x xs ih =>
    rw [List.foldlM_cons, bind_eq_ok] at h
    obtain ⟨b, hb, h⟩ := h
    exact List.forall_mem_cons.mpr ⟨step hb, ih h⟩

theorem known_absorbAll (h : a.absorbAll children = .ok r) : ∀ child ∈ children, Known child :=
  known_foldlM (f := absorb) known_absorb h

theorem known_absorbAllScoped (h : a.absorbAllScoped children = .ok r) :
    ∀ child ∈ children, Known child := known_foldlM (f := absorbScoped) known_absorbScoped h

theorem known_absorbStep {step : PathStep AnalysisResult} (h : a.absorbStep step = .ok r) :
    ∀ child ∈ step.children, Known child := by
  cases step with
  | key k =>
    simp only [absorbStep, bind_eq_ok] at h
    obtain ⟨b, hb, -⟩ := h
    exact List.forall_mem_singleton.mpr (known_absorb hb)
  | attr name => exact fun child hchild => absurd hchild List.not_mem_nil

theorem known_absorbHandler {handler : Handler AnalysisResult}
    (h : a.absorbHandler handler = .ok r) : ∀ child ∈ handler.children, Known child := by
  simp only [absorbHandler, bind_eq_ok] at h
  obtain ⟨b, hb, h⟩ := h
  exact List.forall_mem_append.mpr
    ⟨known_absorbAll hb, List.forall_mem_singleton.mpr (known_absorb h)⟩

theorem known_absorbReducerPart (h : a.absorbReducerPart child = .ok r) : Known child := by
  simp only [absorbReducerPart, bind_eq_ok] at h
  obtain ⟨part, hpart, -⟩ := h
  exact ⟨part, hpart⟩

/-- A node has been analyzed only if all its parts have been. -/
theorem known_of_node {node : Node AnalysisResult} {a : Analysis} (h : node.analysis = .ok a) :
    ∀ child ∈ node.children, Known child := by
  -- An analysis that succeeds has absorbed every child, and absorbing a failure fails.
  cases node with
  | input | constant | parameter | labelRef | caught | joinRow =>
    exact fun child hchild => absurd hchild List.not_mem_nil
  | access source path default =>
    simp only [Node.analysis, bind_eq_ok] at h
    obtain ⟨b, hb, steps, hsteps, h⟩ := h
    have path := known_foldlM (f := absorbStep) known_absorbStep hsteps
    refine List.forall_mem_cons.mpr ⟨known_absorb hb, List.forall_mem_append.mpr ⟨?_, ?_⟩⟩
    · intro child hchild
      obtain ⟨step, hstep, hchild⟩ := List.mem_flatMap.mp hchild
      exact path step hstep child hchild
    · cases default with
      | none => exact fun child hchild => absurd hchild List.not_mem_nil
      | some d =>
        simp only [bind_eq_ok] at h
        obtain ⟨m, hm, -⟩ := h
        exact List.forall_mem_singleton.mpr (known_absorb hm)
  | call | builtin | binary | collection | dict | conditional | and | or =>
    simp only [Node.analysis, bind_eq_ok] at h
    obtain ⟨b, hb, -⟩ := h
    exact known_absorbAll hb
  | unary | label =>
    simp only [Node.analysis, bind_eq_ok] at h
    obtain ⟨b, hb, -⟩ := h
    exact List.forall_mem_singleton.mpr (known_absorb hb)
  | comprehension kind key element source filter =>
    simp only [Node.analysis, bind_eq_ok] at h
    obtain ⟨b, hb, m, hm, -⟩ := h
    have others := known_absorbAllScoped hm
    refine List.forall_mem_cons.mpr ⟨known_absorb hb, fun child hchild => others child ?_⟩
    simp only [List.append_eq, List.mem_append] at hchild ⊢
    exact hchild.imp_left Or.symm
  | sort source keys reverse =>
    simp only [Node.analysis, bind_eq_ok] at h
    obtain ⟨b, hb, m, hm, -⟩ := h
    exact List.forall_mem_cons.mpr ⟨known_absorb hb, known_absorbAllScoped hm⟩
  | guarded body handlers =>
    simp only [Node.analysis, bind_eq_ok] at h
    obtain ⟨b, hb, m, -, r, hr, -⟩ := h
    have all := known_foldlM (f := absorbHandler) known_absorbHandler hr
    refine List.forall_mem_cons.mpr ⟨⟨b, hb⟩, fun child hchild => ?_⟩
    obtain ⟨handler, hmem, hchild⟩ := List.mem_flatMap.mp hchild
    exact all handler hmem child hchild
  | pipe producer consumer =>
    simp only [Node.analysis, bind_eq_ok] at h
    obtain ⟨p, hp, c, hc, -⟩ := h
    exact List.forall_mem_cons.mpr ⟨⟨p, hp⟩, List.forall_mem_singleton.mpr ⟨c, hc⟩⟩
  | reducer r =>
    simp only [Node.analysis, bind_eq_ok] at h
    obtain ⟨b, hb, -⟩ := h
    exact known_foldlM (f := absorbReducerPart) known_absorbReducerPart hb
  | aggregate keys output =>
    simp only [Node.analysis, bind_eq_ok] at h
    obtain ⟨b, hb, m, hm, -⟩ := h
    exact List.forall_mem_append.mpr
      ⟨known_absorbAllScoped hb, List.forall_mem_singleton.mpr (known_absorbScoped hm)⟩
  | join left right condition kind =>
    simp only [Node.analysis, bind_eq_ok] at h
    obtain ⟨b, hb, m, hm, -⟩ := h
    obtain ⟨hleft, hright⟩ := List.forall_mem_cons.mp (known_absorbAll hb)
    exact List.forall_mem_cons.mpr ⟨hleft, List.forall_mem_cons.mpr
      ⟨hright _ List.mem_cons_self, known_absorbAll hm⟩⟩

end Analysis
end DataExpr
