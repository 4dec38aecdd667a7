import DataExpr.Proofs.Dependence
import DataExpr.Proofs.ExactAnalysis

/-!
# Parameters that an expression mentions

An expression mentions a parameter if one of its nodes is a reference to it; these are the
parameters that its analysis lists (`Expr.mem_params`).  What lowering takes instead of an
expression mentions the same: an expression of equal structure (`Expr.mentions_of_beq`), the slot
of a reducer, and the parts into which the condition of a join is taken apart
(`JoinPlan.among_parts`).
-/

namespace DataExpr

open Analysis (Mark)

namespace Expr

variable {e f : Expr} {es fs : List Expr} {n : String}

/-- A node of the expression is a reference to this parameter. -/
def Mentions (e : Expr) (n : String) : Prop := ∃ d, Within d e ∧ d.node = .parameter n

/-- One of these expressions mentions the parameter. -/
def Among (es : List Expr) (n : String) : Prop := ∃ e ∈ es, e.Mentions n

@[simp] theorem not_among_nil : ¬ Among [] n := by
  simp [Among]

@[simp] theorem among_cons : Among (e :: es) n ↔ e.Mentions n ∨ Among es n := by
  simp [Among]

@[simp] theorem among_append : Among (es ++ fs) n ↔ Among es n ∨ Among fs n := by
  simp [Among, or_and_right, exists_or]

theorem mentions_iff : e.Mentions n ↔ e.node = .parameter n ∨ Among e.children n := by
  constructor
  · rintro ⟨d, hd, hnode⟩
    rcases hd.cases with rfl | ⟨c, hc, hdc⟩
    · exact .inl hnode
    · exact .inr ⟨c, hc, d, hdc, hnode⟩
  · rintro (hnode | ⟨c, hc, d, hd, hnode⟩)
    · exact ⟨e, .refl e, hnode⟩
    · exact ⟨d, .under hc hd, hnode⟩

theorem Mentions.within (h : e.Mentions n) (hef : Within e f) : f.Mentions n := by
  obtain ⟨d, hd, hnode⟩ := h
  exact ⟨d, hd.trans hef, hnode⟩

/-- **The analysis lists the parameters that are mentioned.** -/
theorem mem_params {a : Analysis} (h : e.analyze = .ok a) : n ∈ a.params ↔ e.Mentions n := by
  obtain ⟨he, rfl⟩ := analyzed_of_ok h
  exact (on_analysis (.param n) e he).trans (exists_congr fun d => and_congr_left' through_children)

/-! ### Expressions of equal structure -/

theorem among_of_zipList {p : Expr → Expr → Bool}
    (hp : ∀ e ∈ es, ∀ f, p e f = true → (e.Mentions n ↔ f.Mentions n))
    (h : zipList p es fs = true) : Among es n ↔ Among fs n := by
  induction es generalizing fs with
  | nil =>
    cases fs with
    | nil => exact Iff.rfl
    | cons f fs => cases h
  | cons e es ih =>
    cases fs with
    | nil => cases h
    | cons f fs =>
      simp only [zipList, Bool.and_eq_true] at h
      rw [among_cons, among_cons, hp e List.mem_cons_self f h.1,
        ih (fun x hx => hp x (List.mem_cons_of_mem e hx)) h.2]

theorem parameter_of_zip {ε δ : Type} {constants : Value → Value → Bool} {p : ε → δ → Bool}
    {a : Node ε} {b : Node δ} (h : a.zip constants p b = true) :
    a = .parameter n ↔ b = .parameter n := by
  cases a <;> cases b <;> try exact Bool.noConfusion h
  case parameter.parameter m m' =>
    obtain rfl : m = m' := eq_of_beq h
    simp
  all_goals simp

/-- Expressions of the same structure mention the same parameters. -/
theorem mentions_of_sameBy {constants : Value → Value → Bool} {e f : Expr}
    (h : sameBy constants e f = true) : e.Mentions n ↔ f.Mentions n := by
  rw [sameBy_eq] at h
  rw [mentions_iff, mentions_iff, parameter_of_zip h]
  exact or_congr_right
    (among_of_zipList (fun c hc d hd => mentions_of_sameBy hd) (Node.zip_children h))
termination_by sizeOf e
decreasing_by exact Expr.sizeOf_lt_of_mem hc

theorem mentions_of_beq (h : (e == f) = true) : e.Mentions n ↔ f.Mentions n := mentions_of_sameBy h

end Expr

/-! ### Slots of reducers -/

/-- Reducers that share a slot feed it with the same parameters. -/
theorem Reducer.among_fed {r s : Reducer Expr} (h : r.sameSlot s = true) {n : String} :
    Expr.Among r.fed n ↔ Expr.Among s.fed n := by
  simp only [sameSlot, zipSlot, Bool.and_eq_true] at h
  obtain ⟨⟨⟨-, args⟩, filter⟩, initial⟩ := h
  refine Expr.among_of_zipList (fun c _ d hd => Expr.mentions_of_beq hd)
    (zipList_append (zipList_append (zipList_toList filter) args) (zipList_toList initial))

/-! ### Parts of a join condition -/

namespace Smaller

variable {root : Expr} {n : String}

/-- The expressions themselves. -/
def exprs (cs : List (Smaller root)) : List Expr := cs.map (·.1)

variable {c : Smaller root} {cs ds : List (Smaller root)}

@[simp] theorem exprs_nil : exprs ([] : List (Smaller root)) = [] := rfl

@[simp] theorem exprs_cons : exprs (c :: cs) = c.1 :: exprs cs := rfl

@[simp] theorem exprs_append : exprs (cs ++ ds) = exprs cs ++ exprs ds := List.map_append

theorem exprs_flatMap {γ : Type} (xs : List γ) (f : γ → List (Smaller root)) :
    exprs (xs.flatMap f) = xs.flatMap fun x => exprs (f x) := List.map_flatMap

theorem among_exprs : Expr.Among (exprs cs) n ↔ ∃ c ∈ cs, c.1.Mentions n := by
  simp [exprs, Expr.Among]

theorem exprs_fed (r : Reducer (Smaller root)) : exprs r.fed = (plain r).fed := by
  obtain ⟨kind, args, filter, default, initial⟩ := r
  cases filter <;> cases initial <;> simp [exprs, plain, Reducer.map, Reducer.fed]

/-- A conjunction mentions what its conjuncts mention. -/
theorem among_conjuncts (e : Smaller root) :
    Expr.Among (exprs e.conjuncts) n ↔ e.1.Mentions n := by
  rw [conjuncts]
  split
  · rename_i items hparts
    have hnode : e.1.node = .and (items.map fun c => c.1.1) := by
      rw [← map_parts, hparts]
      rfl
    have each : ∀ c ∈ items, Expr.Among (exprs c.1.conjuncts) n ↔ c.1.1.Mentions n :=
      fun c _ => among_conjuncts c.1
    simp only [among_exprs] at each
    rw [Expr.mentions_iff, Expr.children, hnode, among_exprs]
    simp only [Expr.Among, List.mem_flatMap, Node.children, List.mem_map, reduceCtorEq, false_or]
    constructor
    · rintro ⟨d, ⟨c, hc, hd⟩, hn⟩
      exact ⟨_, ⟨c, hc, rfl⟩, (each c hc).1 ⟨d, hd, hn⟩⟩
    · rintro ⟨_, ⟨c, hc, rfl⟩, hn⟩
      obtain ⟨d, hd, hn⟩ := (each c hc).2 hn
      exact ⟨d, ⟨c, hc, hd⟩, hn⟩
  · simp
termination_by sizeOf e.1
decreasing_by exact c.2

/-- What always holds is a constant. -/
theorem node_of_trivial {c : Smaller root} (h : c.role = .trivial) :
    c.1.node = .constant (.bool true) := by
  have sides (s : Sides) : (s.role : ConjunctRole (Smaller root)) ≠ .trivial := by
    obtain ⟨l, r⟩ := s
    cases l <;> cases r <;> simp [Sides.role]
  unfold role at h
  split at h
  · rename_i hparts
    rw [← map_parts, hparts]
    rfl
  · dsimp only at h
    split at h
    · cases h
    · split at h
      · cases h
      · exact absurd h (sides _)
  · exact absurd h (sides _)

end Smaller

namespace JoinPlan

variable {root : Expr} {condition : Option (Smaller root)} {kind : JoinKind} {n : String}

/-- All parts of a plan. -/
def parts {α : Type} (plan : JoinPlan α) : List α := plan.preFilter ++ plan.onRows

theorem partOf_of_mem_parts {c : Smaller root} (h : c ∈ (ofCondition condition kind).parts) :
    PartOf condition c := by
  simp only [parts, onRows, List.mem_append, List.mem_map] at h
  rcases h with h | (((⟨⟨l, r⟩, h, rfl⟩ | ⟨⟨l, r⟩, h, rfl⟩) | h) | h) | h
  · exact (mem_preFilter h).1
  · exact (mem_keys h).1.1
  · exact (mem_keys h).2.1
  · exact (mem_leftFilter h).1
  · exact (mem_rightFilter h).1
  · exact mem_residual h

/-- A conjunct is a part of the plan, or the equality of two parts, or it always holds. -/
theorem parts_of_conjunct {c : Smaller root}
    (h : c ∈ condition.toList.flatMap Smaller.conjuncts) :
    c ∈ (ofCondition condition kind).parts ∨ c.1.node = .constant (.bool true) ∨
      ∃ l ∈ (ofCondition condition kind).parts, ∃ r ∈ (ofCondition condition kind).parts,
        c.1.node = .binary .eq l.1 r.1 ∨ c.1.node = .binary .eq r.1 l.1 := by
  have chosen {wanted : ConjunctRole (Smaller root) → Bool} (hc : wanted c.role = true) :
      c ∈ select (condition.toList.flatMap Smaller.conjuncts) wanted :=
    List.mem_filter.2 ⟨h, hc⟩
  cases hrole : c.role with
  | trivial => exact .inr (.inl (Smaller.node_of_trivial hrole))
  | key l r =>
    have key : (l, r) ∈ (ofCondition condition kind).keys :=
      List.mem_filterMap.2 ⟨c, h, by rw [hrole]⟩
    refine .inr (.inr ⟨l, ?_, r, ?_, (Smaller.operands_of_role hrole).1⟩)
    · have left := List.mem_map_of_mem (f := (·.1)) key
      simp only [parts, onRows, List.mem_append, left, true_or, or_true]
    · have right := List.mem_map_of_mem (f := (·.2)) key
      simp only [parts, onRows, List.mem_append, right, true_or, or_true]
  | neither =>
    refine .inl (List.mem_append_left _ ?_)
    delta ofCondition
    dsimp only
    refine chosen ?_
    rw [hrole]
  | left =>
    -- on a side whose rows are preserved a conjunct is checked for each pair
    have single : c ∈ (ofCondition condition .inner).leftFilter := by
      delta ofCondition
      simp only [Bool.false_eq_true, ↓reduceIte]
      refine chosen ?_
      rw [hrole]
    refine .inl (List.mem_append_right _ ?_)
    cases kind with
    | left | outer =>
      exact List.mem_append_right _ (List.mem_append_left _ (List.mem_append_right _ single))
    | inner | right | cross =>
      exact List.mem_append_left _ (List.mem_append_left _ (List.mem_append_right _ single))
  | right =>
    have single : c ∈ (ofCondition condition .inner).rightFilter := by
      delta ofCondition
      simp only [Bool.false_eq_true, ↓reduceIte]
      refine chosen ?_
      rw [hrole]
    refine .inl (List.mem_append_right _ ?_)
    cases kind with
    | right | outer => exact List.mem_append_right _ (List.mem_append_right _ single)
    | inner | left | cross => exact List.mem_append_left _ (List.mem_append_right _ single)
  | both =>
    refine .inl (List.mem_append_right _ (List.mem_append_right _ ?_))
    refine List.mem_append_left _ (List.mem_append_left _ ?_)
    refine chosen ?_
    rw [hrole]

/-- **The plan of a join leaves no parameter out.** -/
theorem among_parts (condition : Option (Smaller root)) (kind : JoinKind) (n : String) :
    Expr.Among (Smaller.exprs (ofCondition condition kind).parts) n ↔
      Expr.Among (Smaller.exprs condition.toList) n := by
  rw [Smaller.among_exprs, Smaller.among_exprs]
  constructor
  · rintro ⟨c, hc, hn⟩
    obtain ⟨e, he, hbeside, -⟩ := partOf_of_mem_parts hc
    exact ⟨e, Option.mem_toList.2 he, hn.within hbeside.within⟩
  · rintro ⟨e, he, hn⟩
    obtain ⟨c, hc, hn⟩ := Smaller.among_exprs.1 (e.among_conjuncts.2 hn)
    rcases parts_of_conjunct (List.mem_flatMap.2 ⟨e, he, hc⟩) with
      hc | hnode | ⟨l, hl, r, hr, hnode⟩
    · exact ⟨c, hc, hn⟩
    · rw [Expr.mentions_iff, Expr.children, hnode] at hn
      simp [Node.children] at hn
    · have operand : l.1.Mentions n ∨ r.1.Mentions n := by
        rw [Expr.mentions_iff, Expr.children] at hn
        rcases hnode with hnode | hnode <;> rw [hnode] at hn
        · simpa [Node.children] using hn
        · simpa [Node.children, or_comm] using hn
      exact operand.elim (fun hn => ⟨l, hl, hn⟩) fun hn => ⟨r, hr, hn⟩

end JoinPlan
end DataExpr
