import DataExpr.Expr.Smaller
import DataExpr.Lowering.JoinPlan
import DataExpr.Lowering.Slots
import DataExpr.Proofs.Marks
import Mathlib.Data.List.Nodup

/-!
# What the analysis knows about subexpressions

Whatever a subexpression does, the analysis of the whole knows: the functions it calls, the
labels it reads and writes, the error it reads unless a handler of its own has caught it,
and the rows it reads unless a join of its own has placed them.  All of this is known one mark at
a time (`Expr.Analyzed.on_iff`).
-/

namespace DataExpr

/-- The parts of a reducer that feed its slot of an aggregate, row by row. -/
def Reducer.fed {ε : Type} (r : Reducer ε) : List ε :=
  r.filter.toList ++ r.args ++ r.initial.toList

/-! ### Coverage -/

namespace Analysis

/-- An analysis knows the calls and the labels of another one. -/
structure CoversEffects (a c : Analysis) : Prop where
  impure : c.impure = true → a.impure = true
  labelsRead : ∀ n ∈ c.labelsRead, n ∈ a.labelsRead
  labelsWritten : ∀ n ∈ c.labelsWritten, n ∈ a.labelsWritten

/-- An analysis knows whether another one reads an error. -/
def CoversCaught (a c : Analysis) : Prop := c.readsCaught = true → a.readsCaught = true

/-- An analysis knows the rows that another one reads. -/
structure CoversRows (a c : Analysis) : Prop where
  left : c.sides.left = true → a.sides.left = true
  right : c.sides.right = true → a.sides.right = true

/-- An analysis knows all that another one knows. -/
structure Covers (a c : Analysis) : Prop where
  effects : CoversEffects a c
  caught : CoversCaught a c
  rows : CoversRows a c

theorem CoversEffects.refl (a : Analysis) : CoversEffects a a := ⟨id, fun _ => id, fun _ => id⟩

theorem CoversEffects.trans {a b c : Analysis} (hab : CoversEffects a b)
    (hbc : CoversEffects b c) : CoversEffects a c :=
  ⟨fun h => hab.impure (hbc.impure h), fun n h => hab.labelsRead n (hbc.labelsRead n h),
    fun n h => hab.labelsWritten n (hbc.labelsWritten n h)⟩

theorem hasSideEffects_eq_false {a : Analysis} :
    a.hasSideEffects = false ↔ a.impure = false ∧ ∀ n, n ∉ a.labelsWritten := by
  simp [hasSideEffects, List.eq_nil_iff_forall_not_mem]

theorem readsLabels_eq_false {a : Analysis} : a.readsLabels = false ↔ ∀ n, n ∉ a.labelsRead := by
  simp [readsLabels, List.eq_nil_iff_forall_not_mem]

/-- Parts of what has no effects have none. -/
theorem CoversEffects.effectFree {a c : Analysis} (h : a.CoversEffects c)
    (ha : a.hasSideEffects = false) : c.hasSideEffects = false := by
  obtain ⟨himpure, hwritten⟩ := hasSideEffects_eq_false.mp ha
  refine hasSideEffects_eq_false.mpr ⟨?_, fun n hn => hwritten n (h.labelsWritten n hn)⟩
  exact Bool.eq_false_iff.mpr fun hi => by simp [h.impure hi] at himpure

theorem CoversRows.trans {a b c : Analysis} (hab : CoversRows a b) (hbc : CoversRows b c) :
    CoversRows a c :=
  ⟨fun h => hab.left (hbc.left h), fun h => hab.right (hbc.right h)⟩

namespace Covers

theorem refl (a : Analysis) : Covers a a := ⟨.refl a, id, ⟨id, id⟩⟩

theorem trans {a b c : Analysis} (hab : Covers a b) (hbc : Covers b c) : Covers a c :=
  ⟨hab.effects.trans hbc.effects, fun h => hab.caught (hbc.caught h), hab.rows.trans hbc.rows⟩

end Covers

/-! ### Uses of the input -/

/-- Neither the input nor the group of an enclosing aggregate is used. -/
def Idle (a : Analysis) : Prop := a.inputUses = 0 ∧ a.freeReducers = 0

/-- No reducer belongs to an enclosing aggregate. -/
def Quiet (a : Analysis) : Prop := a.freeReducers = 0

/-- An analysis knows all about another one with the same input. -/
structure CoversInPlace (a c : Analysis) : Prop extends Covers a c where
  idle : a.Idle → c.Idle
  quiet : a.Quiet → c.Quiet

namespace CoversInPlace

theorem refl (a : Analysis) : CoversInPlace a a := ⟨.refl a, id, id⟩

theorem trans {a b c : Analysis} (hab : CoversInPlace a b) (hbc : CoversInPlace b c) :
    CoversInPlace a c :=
  ⟨hab.toCovers.trans hbc.toCovers, fun h => hbc.idle (hab.idle h),
    fun h => hbc.quiet (hab.quiet h)⟩

end CoversInPlace

end Analysis

/-! ### Expressions -/

namespace Expr

theorem analyze_eq (e : Expr) : e.analyze = (e.node.map analyze).analysis := by
  have h : e.node.attach.map (fun c => analyze c.1) = e.node.map analyze := by
    conv => rhs; rw [← Node.attach_map_val e.node, Node.map_map]
  rw [analyze, h]

/-- The analysis of an expression succeeds. -/
def Analyzed (e : Expr) : Prop := ∃ a, e.analyze = .ok a

theorem analyze_of_analyzed {e : Expr} (h : e.Analyzed) : e.analyze = .ok e.analysis := by
  obtain ⟨a, ha⟩ := h
  rw [analysis, ha]
  rfl

theorem analyzed_of_ok {e : Expr} {a : Analysis} (h : e.analyze = .ok a) :
    e.Analyzed ∧ e.analysis = a := by
  refine ⟨⟨a, h⟩, ?_⟩
  rw [analysis, h]
  rfl

namespace Analyzed

variable {e c : Expr}

theorem analysis_eq (h : e.Analyzed) : (e.node.map analyze).analysis = .ok e.analysis := by
  rw [← analyze_eq, analyze_of_analyzed h]

/-- The parts of what has been analyzed have been analyzed. -/
theorem of_child (h : e.Analyzed) (hc : c ∈ e.children) : c.Analyzed := by
  apply Analysis.known_of_node h.analysis_eq
  rw [Node.children_map]
  exact List.mem_map_of_mem hc

/-- An expression has a mark if it owns it or a part passes it on. -/
theorem on_iff (h : e.Analyzed) (m : Analysis.Mark) :
    m.On e.analysis ↔ m.Owns e.node ∨ ∃ c ∈ m.parts e.node, m.On c.analysis := by
  rw [m.on_node h.analysis_eq, m.owns_map, m.parts_map]
  refine or_congr_right ⟨?_, ?_⟩
  · rintro ⟨child, hchild, a, ha, hon⟩
    obtain ⟨c, hc, rfl⟩ := List.mem_map.mp hchild
    obtain ⟨-, rfl⟩ := analyzed_of_ok ha
    exact ⟨c, hc, hon⟩
  · rintro ⟨c, hc, hon⟩
    have ha := analyze_of_analyzed (h.of_child (m.mem_children hc))
    exact ⟨c.analyze, List.mem_map_of_mem hc, c.analysis, ha, hon⟩

theorem own (h : e.Analyzed) {m : Analysis.Mark} (own : m.Owns e.node) : m.On e.analysis :=
  (h.on_iff m).mpr (.inl own)

theorem labelWritten (h : e.Analyzed) {name : String} (hnode : e.node = .label name c) :
    name ∈ e.analysis.labelsWritten := h.own (m := .labelWritten name) ⟨c, hnode⟩

theorem labelRead (h : e.Analyzed) {name : String} (hnode : e.node = .labelRef name) :
    name ∈ e.analysis.labelsRead := h.own (m := .labelRead name) hnode

theorem part (h : e.Analyzed) (m : Analysis.Mark) (hc : c ∈ m.parts e.node)
    (hon : m.On c.analysis) : m.On e.analysis :=
  (h.on_iff m).mpr (.inr ⟨c, hc, hon⟩)

theorem child (h : e.Analyzed) (hc : c ∈ e.children) :
    c.Analyzed ∧ e.analysis.CoversEffects c.analysis :=
  ⟨h.of_child hc, h.part .impure hc, fun n => h.part (.labelRead n) hc,
    fun n => h.part (.labelWritten n) hc⟩

theorem unhandled (h : e.Analyzed) (hc : c ∈ e.node.unhandled) :
    e.analysis.CoversCaught c.analysis := h.part .caught hc

theorem besideRows (h : e.Analyzed) (hc : c ∈ e.node.besideRows) :
    e.analysis.CoversRows c.analysis := ⟨h.part .left hc, h.part .right hc⟩

/-- A part that belongs to the same aggregate has no free reducer if the whole has none. -/
theorem sameAggregate (h : e.Analyzed) (hc : c ∈ e.node.sameAggregate)
    (hquiet : e.analysis.Quiet) : c.analysis.Quiet :=
  Classical.byContradiction fun free => h.part .free hc free hquiet

theorem sameInput (h : e.Analyzed) (hc : c ∈ e.node.sameInput) (hidle : e.analysis.Idle) :
    c.analysis.Idle := by
  refine ⟨?_, h.sameAggregate (Node.mem_sameAggregate_of_mem_sameInput hc) hidle.2⟩
  exact Classical.byContradiction fun used => h.part .used hc used hidle.1

end Analyzed

/-- An expression occurs in another one. -/
inductive Within : Expr → Expr → Prop
  | refl (e : Expr) : Within e e
  | under {d c e : Expr} (hc : c ∈ e.children) (h : Within d c) : Within d e

namespace Within

variable {c d e : Expr}

theorem trans (hcd : Within c d) (hde : Within d e) : Within c e := by
  induction hde with
  | refl => exact hcd
  | under hmem _ ih => exact .under hmem ih

theorem child (h : c ∈ e.children) : Within c e := .under h (.refl c)

theorem cases (h : Within d e) : d = e ∨ ∃ c ∈ e.children, Within d c := by
  cases h with
  | refl => exact .inl rfl
  | under hc h => exact .inr ⟨_, hc, h⟩

theorem analyzed (h : Within d e) (he : e.Analyzed) :
    d.Analyzed ∧ e.analysis.CoversEffects d.analysis := by
  induction h with
  | refl => exact ⟨he, .refl _⟩
  | under hmem _ ih =>
    obtain ⟨hc, hcovers⟩ := he.child hmem
    obtain ⟨hd, hcd⟩ := ih hc
    exact ⟨hd, hcovers.trans hcd⟩

end Within

/-- One identity belongs to one expression. -/
def Coherent (root : Expr) : Prop :=
  ∀ c d, Within c root → Within d root → c.id = d.id → c = d

/-- One identity belongs to one expression if the nodes, closed under subexpressions, have
    distinct identities. -/
theorem coherent_of_nodes {e : Expr} (nodes : List Expr) (root : e ∈ nodes)
    (closed : ∀ c ∈ nodes, ∀ d ∈ c.children, d ∈ nodes) (distinct : (nodes.map Expr.id).Nodup) :
    e.Coherent := by
  have reached {c d : Expr} (h : Within d c) (hc : c ∈ nodes) : d ∈ nodes := by
    induction h with
    | refl => exact hc
    | under hmem _ ih => exact ih (closed _ hc _ hmem)
  exact fun c d hc hd same =>
    List.inj_on_of_nodup_map distinct (reached hc root) (reached hd root) same

/-- What holds inside a node holds of it and inside its children. -/
theorem forall_within_mk {P : Expr → Prop} {i : Nat} {node : Node Expr} :
    (∀ d, Within d (.mk i node) → P d) ↔
      P (.mk i node) ∧ ∀ c ∈ node.children, ∀ d, Within d c → P d := by
  constructor
  · intro h
    exact ⟨h _ (.refl _), fun c hc d hd => h d (hd.trans (.child hc))⟩
  · rintro ⟨here, below⟩ d hd
    rcases hd.cases with rfl | ⟨c, hc, hd⟩
    · exact here
    · exact below c hc d hd

/-- An expression belongs to the same aggregate as another one, in which it occurs. -/
inductive Beside : Expr → Expr → Prop
  | refl (e : Expr) : Beside e e
  | under {d c e : Expr} (hc : c ∈ e.node.sameAggregate) (h : Beside d c) : Beside d e

namespace Beside

variable {c d e : Expr}

theorem trans (hcd : Beside c d) (hde : Beside d e) : Beside c e := by
  induction hde with
  | refl => exact hcd
  | under hmem _ ih => exact .under hmem ih

theorem part (h : c ∈ e.node.sameAggregate) : Beside c e := .under h (.refl c)

theorem within (h : Beside d e) : Within d e := by
  induction h with
  | refl => exact .refl _
  | under hmem _ ih => exact .under (Node.mem_children_of_mem_sameAggregate hmem) ih

end Beside

theorem map_parts (e : Expr) : (e.parts.map fun c => c.1) = e.node := by
  have h := Node.map_map (fun c : { c // c ∈ e.node.children } =>
    (⟨c.1, Expr.sizeOf_lt_of_mem c.2⟩ : Smaller e)) (fun c => c.1) e.node.attach
  rw [parts, h]
  exact Node.attach_map_val e.node

theorem mem_parts {e : Expr} {c : Smaller e} (h : c ∈ e.parts.children) : c.1 ∈ e.children := by
  have : c.1 ∈ (e.parts.map fun c => c.1).children := by
    rw [Node.children_map]
    exact List.mem_map_of_mem h
  rwa [map_parts] at this

end Expr

/-! ### Conjuncts and reducers -/

namespace Smaller

variable {root : Expr}

theorem map_parts (e : Smaller root) : (e.parts.map fun c => c.1.1) = e.1.node := by
  rw [parts, Node.map_map]
  exact e.1.map_parts

theorem mem_parts {e : Smaller root} {c : { c : Smaller root // sizeOf c.1 < sizeOf e.1 }}
    (h : c ∈ e.parts.children) : c.1.1 ∈ e.1.children := by
  have : c.1.1 ∈ (e.parts.map fun c => c.1.1).children := by
    rw [Node.children_map]
    exact List.mem_map_of_mem (f := fun c => c.1.1) h
  rwa [map_parts] at this

/-- A conjunct belongs to its condition, and the analysis of the condition covers it. -/
theorem beside_of_mem_conjuncts (e : Smaller root) :
    ∀ c ∈ e.conjuncts, Expr.Beside c.1 e.1 ∧
      (e.1.Analyzed → e.1.analysis.CoversInPlace c.1.analysis) := by
  intro c hc
  rw [conjuncts] at hc
  split at hc
  · rename_i items hparts
    obtain ⟨d, hd, hc⟩ := List.mem_flatMap.mp hc
    have hmem : d.1.1 ∈ e.1.children := mem_parts (by rw [hparts]; exact hd)
    have hnode : e.1.node = .and (items.map fun c => c.1.1) := by
      rw [← map_parts, hparts]
      rfl
    obtain ⟨hbeside, hcovers⟩ := beside_of_mem_conjuncts d.1 c hc
    have hchildren : e.1.children = items.map fun c => c.1.1 := by
      rw [Expr.children, hnode]
      rfl
    refine ⟨.under (by rw [hnode]; exact hchildren ▸ hmem) hbeside, fun h => ?_⟩
    obtain ⟨hd, heffects⟩ := h.child hmem
    have hcaught := h.unhandled (c := d.1.1) (by rw [hnode]; exact hchildren ▸ hmem)
    have hrows := h.besideRows (c := d.1.1) (by rw [hnode]; exact hchildren ▸ hmem)
    have hidle := h.sameInput (c := d.1.1) (by rw [hnode]; exact hchildren ▸ hmem)
    have hquiet := h.sameAggregate (c := d.1.1) (by rw [hnode]; exact hchildren ▸ hmem)
    exact Analysis.CoversInPlace.trans ⟨⟨heffects, hcaught, hrows⟩, hidle, hquiet⟩ (hcovers hd)
  · obtain rfl := List.mem_singleton.mp hc
    exact ⟨.refl _, fun _ => .refl _⟩
termination_by sizeOf e.1
decreasing_by exact d.2

/-- The reducers of an output stand in it. -/
theorem exists_of_mem_reducers (e : Smaller root) :
    ∀ r ∈ e.reducers, ∃ d, Expr.Within d e.1 ∧ d.node = .reducer (plain r) := by
  intro r hr
  rw [reducers] at hr
  split at hr
  · exact absurd hr List.not_mem_nil
  · rename_i r' hparts
    rcases List.mem_cons.mp hr with rfl | hr
    · refine ⟨e.1, .refl _, ?_⟩
      rw [← map_parts, hparts]
      simp [plain, Node.map, Reducer.map, Function.comp_def]
    · cases hdefault : r'.default with
      | none =>
        rw [hdefault] at hr
        exact absurd hr List.not_mem_nil
      | some d =>
        rw [hdefault] at hr
        obtain ⟨c, hc, hnode⟩ := exists_of_mem_reducers d.1 r hr
        refine ⟨c, .under (mem_parts ?_) hc, hnode⟩
        rw [hparts]
        simp [Node.children, Reducer.children, hdefault]
  · obtain ⟨d, hd, hr⟩ := List.mem_flatMap.mp hr
    obtain ⟨c, hc, hnode⟩ := exists_of_mem_reducers d.1 r hr
    exact ⟨c, .under (mem_parts hd) hc, hnode⟩
termination_by sizeOf e.1
decreasing_by
  · exact d.2
  · exact d.2

/-- The reducers of an output are those that belong to its aggregate. -/
theorem exists_mem_reducers (e : Smaller root) {d : Expr} (hd : Expr.Beside d e.1)
    {r : Reducer Expr} (hnode : d.node = .reducer r) : ∃ r' ∈ e.reducers, plain r' = r := by
  have inside {c : Expr} (hc : c ∈ e.1.node.sameAggregate) (hdc : Expr.Beside d c) :
      ∃ c' ∈ e.parts.sameAggregate, Expr.Beside d c'.1.1 := by
    rw [← map_parts, Node.sameAggregate_map] at hc
    obtain ⟨c', hc', rfl⟩ := List.mem_map.mp hc
    exact ⟨c', hc', hdc⟩
  -- The walk stops at an aggregate, follows the default of a reducer, and every part elsewhere.
  rw [reducers]
  split
  · rename_i hparts
    cases hd with
    | refl =>
      rw [← map_parts, hparts] at hnode
      cases hnode
    | under hc hdc =>
      obtain ⟨c', hc', -⟩ := inside hc hdc
      rw [hparts] at hc'
      exact absurd hc' List.not_mem_nil
  · rename_i s hparts
    cases hd with
    | refl =>
      rw [← map_parts, hparts] at hnode
      refine ⟨_, List.mem_cons_self, ?_⟩
      rw [← Node.reducer.inj hnode]
      simp [plain, Reducer.map, Function.comp_def]
    | under hc hdc =>
      obtain ⟨c', hc', hdc⟩ := inside hc hdc
      rw [hparts] at hc'
      have hdefault : s.default = some c' := Option.mem_toList.mp hc'
      obtain ⟨r', hr', hplain⟩ := exists_mem_reducers c'.1 hdc hnode
      refine ⟨r', List.mem_cons_of_mem _ ?_, hplain⟩
      rw [hdefault]
      exact hr'
  · rename_i hreducer haggregate
    cases hd with
    | refl =>
      exfalso
      rw [← map_parts] at hnode
      generalize e.parts = node at hnode haggregate
      cases node
      case reducer r' => exact haggregate r' rfl
      all_goals cases hnode
    | under hc hdc =>
      obtain ⟨c', hc', hdc⟩ := inside hc hdc
      obtain ⟨r', hr', hplain⟩ := exists_mem_reducers c'.1 hdc hnode
      refine ⟨r', List.mem_flatMap.mpr ⟨c', ?_, hr'⟩, hplain⟩
      generalize e.parts = node at hc' hreducer haggregate
      cases node
      case reducer r' => exact absurd rfl (haggregate r')
      case aggregate keys output => exact absurd rfl (hreducer keys output)
      all_goals exact hc'
termination_by sizeOf e.1
decreasing_by
  · exact c'.2
  · exact c'.2

/-- The parts of a reducer occur where the reducer does. -/
theorem within_of_mem_reducers (e : Smaller root) :
    ∀ r ∈ e.reducers, ∀ c ∈ r.children, Expr.Within c.1 e.1 := by
  intro r hr c hc
  obtain ⟨d, hd, hnode⟩ := exists_of_mem_reducers e r hr
  refine .trans (.child ?_) hd
  rw [Expr.children, hnode]
  change c.1 ∈ (plain r).children
  rw [plain, Reducer.children_map]
  exact List.mem_map_of_mem hc

/-- What holds of every valid reducer of an output holds of the slots. -/
theorem forall_mem_slots {output : Smaller root} {slots : List (Reducer (Smaller root))}
    (h : output.slots = .ok slots) (P : Reducer (Smaller root) → Prop)
    (hP : ∀ r ∈ output.reducers, (plain r).validate = .ok () → P r) : ∀ r ∈ slots, P r := by
  have grow : ∀ (rs start done : List (Reducer (Smaller root))),
      (∀ r ∈ rs, (plain r).validate = .ok () → P r) → (∀ r ∈ start, P r) →
      rs.foldlM (fun slots r => do
        (plain r).validate
        return if slots.any fun s => (plain s).sameSlot (plain r) then slots else slots ++ [r])
        start = .ok done → ∀ r ∈ done, P r := by
    intro rs
    induction rs with
    | nil =>
      intro start done _ hstart h
      cases h
      exact hstart
    | cons r₀ rs ih =>
      intro start done hrs hstart h
      simp only [List.foldlM_cons, Analysis.bind_eq_ok] at h
      obtain ⟨next, ⟨⟨⟩, hvalid, hnext⟩, h⟩ := h
      cases hnext
      refine ih _ _ (fun r hr => hrs r (List.mem_cons_of_mem _ hr)) (fun r hr => ?_) h
      split at hr
      · exact hstart r hr
      · rcases List.mem_append.mp hr with hr | hr
        · exact hstart r hr
        · rw [List.mem_singleton.mp hr]
          exact hrs r₀ List.mem_cons_self hvalid
  exact grow _ _ _ hP (fun _ h => absurd h List.not_mem_nil) h

/-- The slots of an aggregate come from its reducers. -/
theorem mem_reducers_of_mem_slots {output : Smaller root} {slots : List (Reducer (Smaller root))}
    (h : output.slots = .ok slots) : ∀ r ∈ slots, r ∈ output.reducers :=
  forall_mem_slots h _ fun _ hr _ => hr

end Smaller

/-! ### Parts of a join condition -/

namespace Smaller

variable {root : Expr}

/-- A conjunct always holds, or it is an equality of operands that read one row each, or its
    use is told by the rows it reads. -/
theorem role_cases (c : Smaller root) :
    c.role = .trivial ∨
      (∃ l r : Smaller root, c.role = .key l r ∧
        (c.1.node = .binary .eq l.1 r.1 ∨ c.1.node = .binary .eq r.1 l.1) ∧
        l.1.analysis.sides = ⟨true, false⟩ ∧ r.1.analysis.sides = ⟨false, true⟩) ∨
      c.role = c.1.analysis.sides.role := by
  have onlyLeft (s : Sides) (h : s.onlyLeft = true) : s = ⟨true, false⟩ := by
    obtain ⟨sl, sr⟩ := s
    cases sl <;> cases sr <;> first | rfl | cases h
  have onlyRight (s : Sides) (h : s.onlyRight = true) : s = ⟨false, true⟩ := by
    obtain ⟨sl, sr⟩ := s
    cases sl <;> cases sr <;> first | rfl | cases h
  unfold role
  split
  · exact .inl rfl
  · rename_i a b hparts
    have hnode : c.1.node = .binary .eq a.1.1 b.1.1 := by
      rw [← map_parts, hparts]
      rfl
    dsimp only
    split
    · rename_i hab
      rw [Bool.and_eq_true] at hab
      exact .inr (.inl ⟨_, _, rfl, .inl hnode, onlyLeft _ hab.1, onlyRight _ hab.2⟩)
    · split
      · rename_i hba
        rw [Bool.and_eq_true] at hba
        exact .inr (.inl ⟨_, _, rfl, .inr hnode, onlyLeft _ hba.2, onlyRight _ hba.1⟩)
      · exact .inr (.inr rfl)
  · exact .inr (.inr rfl)

/-- What a conjunct on some side reads. -/
theorem sides_of_role {c : Smaller root} {s : Sides} (h : c.role = s.role) :
    c.1.analysis.sides = s := by
  have injective (t : Sides) (h : (t.role : ConjunctRole (Smaller root)) = s.role) : t = s := by
    obtain ⟨tl, tr⟩ := t
    obtain ⟨sl, sr⟩ := s
    cases tl <;> cases tr <;> cases sl <;> cases sr <;> first | rfl | cases h
  have plain : (s.role : ConjunctRole (Smaller root)) ≠ .trivial ∧
      ∀ l r, (s.role : ConjunctRole (Smaller root)) ≠ .key l r := by
    obtain ⟨sl, sr⟩ := s
    cases sl <;> cases sr <;> exact ⟨fun h => (by cases h), fun l r h => (by cases h)⟩
  rcases c.role_cases with hc | ⟨l, r, hc, -⟩ | hc
  · exact (plain.1 (h.symm.trans hc)).elim
  · exact (plain.2 l r (h.symm.trans hc)).elim
  · exact injective _ (hc.symm.trans h)

/-- The two operands of a key read one row each, and the conjunct is their equality. -/
theorem operands_of_role {c l r : Smaller root} (h : c.role = .key l r) :
    (c.1.node = .binary .eq l.1 r.1 ∨ c.1.node = .binary .eq r.1 l.1) ∧
      l.1.analysis.sides = ⟨true, false⟩ ∧ r.1.analysis.sides = ⟨false, true⟩ := by
  rcases c.role_cases with hc | ⟨l', r', hc, hparts⟩ | hc
  · rw [h] at hc
    cases hc
  · rw [h] at hc
    cases hc
    exact hparts
  · rw [h] at hc
    generalize c.1.analysis.sides = s at hc
    obtain ⟨sl, sr⟩ := s
    cases sl <;> cases sr <;> cases hc

end Smaller

namespace JoinPlan

variable {root : Expr} {condition : Option (Smaller root)} {kind : JoinKind} {c : Smaller root}

/-- A part of a join condition, which the analysis of the condition covers. -/
def PartOf (condition : Option (Smaller root)) (c : Smaller root) : Prop :=
  ∃ e ∈ condition, Expr.Beside c.1 e.1 ∧ (e.1.Analyzed → e.1.analysis.CoversInPlace c.1.analysis)

theorem partOf_conjunct (h : c ∈ condition.toList.flatMap Smaller.conjuncts) :
    PartOf condition c := by
  obtain ⟨e, he, hc⟩ := List.mem_flatMap.mp h
  exact ⟨e, Option.mem_toList.mp he, e.beside_of_mem_conjuncts c hc⟩

theorem of_mem_select {conjuncts : List (Smaller root)}
    {wanted : ConjunctRole (Smaller root) → Bool} (h : c ∈ select conjuncts wanted) :
    c ∈ conjuncts ∧ wanted c.role = true := List.mem_filter.mp h

theorem of_mem_ite {b : Prop} [Decidable b] {cs ds : List (Smaller root)}
    (h : c ∈ if b then cs else ds) : c ∈ cs ∨ c ∈ ds := by
  split at h
  · exact .inl h
  · exact .inr h

theorem mem_preFilter (h : c ∈ (ofCondition condition kind).preFilter) :
    PartOf condition c ∧ c.1.analysis.sides = ⟨false, false⟩ := by
  delta ofCondition at h
  dsimp only at h
  obtain ⟨hc, hrole⟩ := of_mem_select h
  refine ⟨partOf_conjunct hc, Smaller.sides_of_role (s := ⟨false, false⟩) ?_⟩
  split at hrole
  · assumption
  · cases hrole

theorem mem_leftFilter (h : c ∈ (ofCondition condition kind).leftFilter) :
    PartOf condition c ∧ c.1.analysis.sides = ⟨true, false⟩ := by
  delta ofCondition at h
  dsimp only at h
  rcases of_mem_ite h with h | h
  · exact absurd h List.not_mem_nil
  · obtain ⟨hc, hrole⟩ := of_mem_select h
    refine ⟨partOf_conjunct hc, Smaller.sides_of_role (s := ⟨true, false⟩) ?_⟩
    split at hrole
    · assumption
    · cases hrole

theorem mem_rightFilter (h : c ∈ (ofCondition condition kind).rightFilter) :
    PartOf condition c ∧ c.1.analysis.sides = ⟨false, true⟩ := by
  delta ofCondition at h
  dsimp only at h
  rcases of_mem_ite h with h | h
  · exact absurd h List.not_mem_nil
  · obtain ⟨hc, hrole⟩ := of_mem_select h
    refine ⟨partOf_conjunct hc, Smaller.sides_of_role (s := ⟨false, true⟩) ?_⟩
    split at hrole
    · assumption
    · cases hrole

theorem mem_residual (h : c ∈ (ofCondition condition kind).residual) : PartOf condition c := by
  have selected {wanted : ConjunctRole (Smaller root) → Bool}
      (h : c ∈ select (condition.toList.flatMap Smaller.conjuncts) wanted) :
      PartOf condition c := partOf_conjunct (of_mem_select h).1
  delta ofCondition at h
  simp only [List.mem_append] at h
  rcases h with (h | h) | h
  · exact selected h
  · rcases of_mem_ite h with h | h
    · exact selected h
    · exact absurd h List.not_mem_nil
  · rcases of_mem_ite h with h | h
    · exact selected h
    · exact absurd h List.not_mem_nil

theorem mem_keys {l r : Smaller root} (h : (l, r) ∈ (ofCondition condition kind).keys) :
    (PartOf condition l ∧ l.1.analysis.sides = ⟨true, false⟩) ∧
      PartOf condition r ∧ r.1.analysis.sides = ⟨false, true⟩ := by
  delta ofCondition at h
  simp only [List.mem_filterMap] at h
  obtain ⟨c, hc, hrole⟩ := h
  have hkey : c.role = .key l r := by
    cases hcr : c.role <;> rw [hcr] at hrole <;> cases hrole
    rfl
  obtain ⟨hnode, hleft, hright⟩ := Smaller.operands_of_role hkey
  obtain ⟨e, he, hbeside, hcovers⟩ := partOf_conjunct hc
  have part {d : Smaller root} (hd : d.1 ∈ c.1.children)
      (hunhandled : d.1 ∈ c.1.node.unhandled) (hrows : d.1 ∈ c.1.node.besideRows)
      (hinput : d.1 ∈ c.1.node.sameInput) (haggregate : d.1 ∈ c.1.node.sameAggregate) :
      PartOf condition d := by
    refine ⟨e, he, .trans (.part haggregate) hbeside, fun hanalyzed => ?_⟩
    have hanalyzedc := (hbeside.within.analyzed hanalyzed).1
    exact (hcovers hanalyzed).trans
      ⟨⟨(hanalyzedc.child hd).2, hanalyzedc.unhandled hunhandled, hanalyzedc.besideRows hrows⟩,
        hanalyzedc.sameInput hinput, hanalyzedc.sameAggregate haggregate⟩
  rcases hnode with hnode | hnode
  all_goals
    refine ⟨⟨part ?_ ?_ ?_ ?_ ?_, hleft⟩, part ?_ ?_ ?_ ?_ ?_, hright⟩
    all_goals
      simp [Expr.children, hnode, Node.children, Node.unhandled, Node.besideRows, Node.sameInput,
        Node.sameAggregate]

end JoinPlan
end DataExpr
