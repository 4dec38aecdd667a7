import DataExpr.Proofs.HashKeys
import DataExpr.Proofs.NestedLoops
import DataExpr.Proofs.ProgramMeaning

/-!
# Joins as planned

The plan of a join sorts the conjuncts of its condition: some are checked once, some for each row
of a side, some for each pair, and equalities between the sides are looked up by the keys of their
operands.  If every conjunct and every operand of an equality has a value for each choice of the
rows that it reads, then a pair of rows passes all these checks just if the whole condition holds
for it (`Expr.conditionHolds_eq`), so the join is the nested loop over its sides with this
condition (`Program.call_join`).

An aggregate in the condition that hides from the analysis which error it reads is not checked
right (`Program.sameMessages_stale`).
-/

namespace DataExpr

open Eval Lowering

variable {σ : Type}

/-! ### Conditions that have values -/

/-- Whether a result is a value that counts as true. -/
def holds (r : Result) : Bool :=
  match r with
  | .ok v => v.isTruthy
  | .error _ => false

theorem allHold_of_values {rs : List Result} (h : ∀ r ∈ rs, ∃ v, r = .ok v) :
    allHold rs = .ok (rs.all holds) := by
  induction rs with
  | nil => rfl
  | cons r rest ih =>
    obtain ⟨⟨v, rfl⟩, hrest⟩ := List.forall_mem_cons.mp h
    rw [allHold, List.all_cons, ih hrest]
    change (if v.isTruthy then _ else _) = Except.ok (v.isTruthy && _)
    cases v.isTruthy <;> rfl

theorem Expr.meaning_and {S : Semantics} {s : Scene} {e : Expr} {items : List (Smaller e)}
    (hkey : s.key? e = none) (hnode : e.parts = .and items) :
    e.meaning S s = firstDeciding false (.bool true) (items.map fun c => c.1.meaning S s) := by
  rw [meaning_of_node hkey, hnode]
  rfl

namespace Smaller

variable {root : Expr} {S : Semantics} {s : Scene}

/-- A condition whose conjuncts have values holds just if they all do. -/
theorem meaning_conjuncts (x : Smaller root) (hkey : ∀ e, s.key? e = none)
    (h : ∀ c ∈ x.conjuncts, ∃ v, c.1.meaning S s = .ok v) :
    (∃ v, x.1.meaning S s = .ok v) ∧
      holds (x.1.meaning S s) = x.conjuncts.all fun c => holds (c.1.meaning S s) := by
  rw [conjuncts] at h ⊢
  split at h
  · rename_i items hparts
    obtain ⟨operands, hnode, rfl⟩ : ∃ operands, x.1.parts = .and operands ∧
        items = operands.map fun c => ⟨⟨c.1, Nat.lt_trans c.2 x.2⟩, c.2⟩ := by
      rw [parts] at hparts
      generalize x.1.parts = node at hparts ⊢
      cases node with
      | and operands => exact ⟨operands, rfl, (Node.and.inj hparts).symm⟩
      | _ => cases hparts
    have each : ∀ c ∈ operands, (∃ v, c.1.meaning S s = .ok v) ∧
        holds (c.1.meaning S s) = (conjuncts ⟨c.1, Nat.lt_trans c.2 x.2⟩ : List (Smaller root)).all
          fun c => holds (c.1.meaning S s) := by
      intro c hc
      refine meaning_conjuncts ⟨c.1, Nat.lt_trans c.2 x.2⟩ hkey fun d hd => h d ?_
      exact List.mem_flatMap.mpr ⟨_, List.mem_map_of_mem hc, hd⟩
    have all : allHold (operands.map fun c => c.1.meaning S s) =
        .ok ((operands.map fun c => c.1.meaning S s).all holds) := by
      refine allHold_of_values fun r hr => ?_
      obtain ⟨c, hc, rfl⟩ := List.mem_map.mp hr
      exact (each c hc).1
    rw [allHold_eq _ (.bool true) rfl, ← Expr.meaning_and (hkey x.1) hnode] at all
    obtain ⟨v, hv, htruthy⟩ := Analysis.bind_eq_ok.mp all
    refine ⟨⟨v, hv⟩, ?_⟩
    rw [hv]
    refine (Except.ok.inj htruthy).trans ?_
    rw [List.all_map, List.all_flatMap, List.all_map, Bool.eq_iff_iff, List.all_eq_true,
      List.all_eq_true]
    exact forall₂_congr fun c hc => by rw [Function.comp_apply, (each c hc).2]; rfl
  · obtain ⟨v, hv⟩ := h x List.mem_cons_self
    refine ⟨⟨v, hv⟩, ?_⟩
    rw [List.all_cons, List.all_nil, Bool.and_true]
termination_by sizeOf x.1
decreasing_by exact c.2

end Smaller

/-! ### The conjuncts in a plan -/

namespace Smaller

variable {root : Expr} {c : Smaller root}

theorem parts_of_trivial (h : c.role = .trivial) : c.1.node = .constant (.bool true) := by
  have notTrivial (s : Sides) : (s.role : ConjunctRole (Smaller root)) ≠ .trivial := by
    obtain ⟨sl, sr⟩ := s
    cases sl <;> cases sr <;> nofun
  unfold role at h
  split at h
  · rename_i hparts
    rw [← map_parts, hparts]
    rfl
  · dsimp only at h
    split at h
    · cases h
    · split at h
      · cases h
      · exact absurd h (notTrivial _)
  · exact absurd h (notTrivial _)

end Smaller

namespace JoinPlan

variable {root : Expr} {condition : Option (Smaller root)} {kind : JoinKind} {c : Smaller root}

/-- A conjunct that may fail is checked somewhere in the plan. -/
theorem mem_of_conjunct (kind : JoinKind) (h : c ∈ condition.toList.flatMap Smaller.conjuncts) :
    let plan := ofCondition condition kind
    c.role = .trivial ∨ (∃ l r, c.role = .key l r ∧ (l, r) ∈ plan.keys) ∨ c ∈ plan.preFilter ∨
      c ∈ plan.leftFilter ∨ c ∈ plan.rightFilter ∨ c ∈ plan.residual := by
  delta ofCondition
  dsimp only
  generalize condition.toList.flatMap Smaller.conjuncts = conjuncts at h ⊢
  have chosen {wanted : ConjunctRole (Smaller root) → Bool} (hw : wanted c.role = true) :
      c ∈ select conjuncts wanted := List.mem_filter.mpr ⟨h, hw⟩
  have kept {b : Prop} [Decidable b] {wanted : ConjunctRole (Smaller root) → Bool} (hb : b)
      (hw : wanted c.role = true) : c ∈ if b then select conjuncts wanted else [] := by
    rw [if_pos hb]
    exact chosen hw
  have dropped {b : Prop} [Decidable b] {wanted : ConjunctRole (Smaller root) → Bool} (hb : ¬b)
      (hw : wanted c.role = true) : c ∈ if b then [] else select conjuncts wanted := by
    rw [if_neg hb]
    exact chosen hw
  cases hrole : c.role with
  | trivial => exact .inl rfl
  | key l r =>
    refine .inr (.inl ⟨l, r, rfl, List.mem_filterMap.mpr ⟨c, h, ?_⟩⟩)
    rw [hrole]
  | neither => exact .inr (.inr (.inl (chosen (by rw [hrole]))))
  | both =>
    exact .inr (.inr (.inr (.inr (.inr
      (List.mem_append_left _ (List.mem_append_left _ (chosen (by rw [hrole]))))))))
  -- A side whose rows are preserved is filtered with the pairs.
  | left =>
    refine .inr (.inr (.inr ?_))
    cases kind with
    | left | outer =>
      exact .inr (.inr (List.mem_append_left _
        (List.mem_append_right _ (kept rfl (by rw [hrole])))))
    | _ => exact .inl (dropped Bool.false_ne_true (by rw [hrole]))
  | right =>
    refine .inr (.inr (.inr (.inr ?_)))
    cases kind with
    | right | outer => exact .inr (List.mem_append_right _ (kept rfl (by rw [hrole])))
    | _ => exact .inl (dropped Bool.false_ne_true (by rw [hrole]))

/-- What a plan checks as a whole are conjuncts. -/
theorem conjunct_of_mem
    (h : c ∈ (ofCondition condition kind).preFilter ∨ c ∈ (ofCondition condition kind).leftFilter ∨
      c ∈ (ofCondition condition kind).rightFilter ∨ c ∈ (ofCondition condition kind).residual) :
    c ∈ condition.toList.flatMap Smaller.conjuncts := by
  have unselected {b : Prop} [Decidable b] {wanted : ConjunctRole (Smaller root) → Bool}
      (h : c ∈ if b then select (condition.toList.flatMap Smaller.conjuncts) wanted else []) :
      c ∈ condition.toList.flatMap Smaller.conjuncts :=
    (of_mem_ite h).elim (fun h => (of_mem_select h).1) fun h => absurd h List.not_mem_nil
  have unselected' {b : Prop} [Decidable b] {wanted : ConjunctRole (Smaller root) → Bool}
      (h : c ∈ if b then [] else select (condition.toList.flatMap Smaller.conjuncts) wanted) :
      c ∈ condition.toList.flatMap Smaller.conjuncts :=
    (of_mem_ite h).elim (fun h => absurd h List.not_mem_nil) fun h => (of_mem_select h).1
  delta ofCondition at h
  dsimp only at h
  rcases h with h | h | h | h
  · exact (of_mem_select h).1
  · exact unselected' h
  · exact unselected' h
  · rcases List.mem_append.mp h with h | h
    · rcases List.mem_append.mp h with h | h
      · exact (of_mem_select h).1
      · exact unselected h
    · exact unselected h

/-- The keys of a plan are the operands of an equality among the conjuncts. -/
theorem conjunct_of_mem_keys {l r : Smaller root} (h : (l, r) ∈ (ofCondition condition kind).keys) :
    ∃ c ∈ condition.toList.flatMap Smaller.conjuncts, c.role = .key l r := by
  obtain ⟨c, hc, hrole⟩ := List.mem_filterMap.mp h
  refine ⟨c, hc, ?_⟩
  cases hcr : c.role <;> rw [hcr] at hrole <;> cases hrole
  rfl

end JoinPlan

/-! ### Keys -/

namespace Value

theorem Proper.hashKey {v : Value} (h : Proper v) : Proper v.hashKey := by
  cases v with
  | float x =>
    rw [hashKey_float]
    split <;> trivial
  | _ => exact h

theorem Proper.equals_comm {v w : Value} (hv : Proper v) (hw : Proper w) :
    v.equals w = w.equals v := by
  have comm : (v == w) = (w == v) := hv.beq_comm hw
  unfold equals
  cases v.number? with
  | none =>
    cases w.number? with
    | none => exact comm
    | some n => cases n <;> exact comm
  | some m =>
    cases w.number? with
    | none => cases m <;> exact comm
    | some n => cases m <;> cases n <;> exact BEq.comm

/-- Tuples are equal place by place. -/
theorem tuple_map_beq {α : Type} (f g : α → Value) (as : List α) :
    (tuple (as.map f) == tuple (as.map g)) = as.all fun a => f a == g a := by
  change beqAll (as.map f) (as.map g) = _
  induction as with
  | nil => rfl
  | cons a rest ih =>
    rw [List.map_cons, List.map_cons, beqAll, ih]
    rfl

end Value

/-! ### Rows that are read -/

/-- The rows of a side for which an expression is evaluated: each of them if it reads the side. -/
def Sides.choices (read : Bool) (rows : List Value) : List (Option Value) :=
  if read then rows.map some else [none]

theorem Sides.exists_row {read : Bool} (hread : read = true) {rows : List Value} {x : Option Value}
    (h : x ∈ choices read rows) : ∃ row ∈ rows, x = some row := by
  rw [choices, if_pos hread] at h
  obtain ⟨row, hrow, rfl⟩ := List.mem_map.mp h
  exact ⟨row, hrow, rfl⟩

namespace Expr

variable {S : Semantics} {s : Scene} {left right : List Value} {e : Expr}

variable (S s left right) in
/-- An expression has a value for each choice of the rows that it reads. -/
def HasValues (e : Expr) : Prop :=
  ∀ l ∈ Sides.choices e.analysis.sides.left left, ∀ r ∈ Sides.choices e.analysis.sides.right right,
    ∃ v, e.meaning S (s.withRows l r) = .ok v

theorem meaning_withRows (he : e.Analyzed) (candid : e.Candid) {l l' r r' : Option Value}
    (hl : e.analysis.sides.left = true → l' = l) (hr : e.analysis.sides.right = true → r' = r) :
    e.meaning S (s.withRows l' r') = e.meaning S (s.withRows l r) :=
  e.meaning_congr he candid ⟨rfl, .inl rfl, .inl rfl, fun _ => rfl, hl, hr⟩

theorem meaning_withRows_unread (he : e.Analyzed) (candid : e.Candid) (houtput : s.output = none)
    (h : e.analysis.sides = ⟨false, false⟩) (l r : Option Value) :
    e.meaning S (s.withRows l r) = e.meaning S s := by
  refine e.meaning_congr he candid ⟨rfl, .inl ?_, .inl rfl, fun _ => rfl, ?_, ?_⟩
  · rw [Scene.withRows, houtput]
    rfl
  · simp [h]
  · simp [h]

namespace HasValues

variable (h : e.HasValues S s left right) {l r : Value}
include h

theorem neither (hsides : e.analysis.sides = ⟨false, false⟩) :
    ∃ v, e.meaning S (s.withRows none none) = .ok v :=
  h none (by simp [Sides.choices, hsides]) none (by simp [Sides.choices, hsides])

theorem onLeft (hsides : e.analysis.sides = ⟨true, false⟩) (hl : l ∈ left) :
    ∃ v, e.meaning S (s.withRows (some l) none) = .ok v :=
  h (some l) (by simp [Sides.choices, hsides, hl]) none (by simp [Sides.choices, hsides])

theorem onRight (hsides : e.analysis.sides = ⟨false, true⟩) (hr : r ∈ right) :
    ∃ v, e.meaning S (s.withRows none (some r)) = .ok v :=
  h none (by simp [Sides.choices, hsides]) (some r) (by simp [Sides.choices, hsides, hr])

theorem onBoth (he : e.Analyzed) (candid : e.Candid) (hl : l ∈ left) (hr : r ∈ right) :
    ∃ v, e.meaning S (s.withRows (some l) (some r)) = .ok v := by
  have chosen (read : Bool) {row : Value} {rows : List Value} (hrow : row ∈ rows) :
      ∃ x ∈ Sides.choices read rows, read = true → some row = x := by
    cases read with
    | false => exact ⟨none, List.mem_singleton_self none, nofun⟩
    | true => exact ⟨some row, List.mem_map_of_mem hrow, fun _ => rfl⟩
  obtain ⟨l', hl', hleft⟩ := chosen e.analysis.sides.left hl
  obtain ⟨r', hr', hright⟩ := chosen e.analysis.sides.right hr
  rw [meaning_withRows he candid hleft hright]
  exact h l' hl' r' hr'

end HasValues

/-! ### What a plan checks -/

section Plan

variable {registry : Registry} {condition : Option (Smaller e)} {kind : JoinKind}

variable (S s) in
/-- Whether the condition of a join holds for a left and a right row. -/
def conditionHolds (condition : Option (Smaller e)) (l r : Value) : Bool :=
  condition.all fun c => holds (c.1.meaning S (s.withRows (some l) (some r)))

variable (S s left right) in
/-- The conjuncts of a condition have values, so have the operands of equalities among them, and
    the operands that are looked up by their keys are equal just if their keys are. -/
structure Checkable (condition : Option (Smaller e)) (kind : JoinKind) : Prop where
  conjuncts : ∀ c ∈ condition.toList.flatMap Smaller.conjuncts, c.1.HasValues S s left right
  operands : ∀ c ∈ condition.toList.flatMap Smaller.conjuncts, ∀ a b,
    c.1.node = .binary .eq a b → a.HasValues S s left right ∧ b.HasValues S s left right
  keys : ∀ k ∈ (JoinPlan.ofCondition condition kind).keys, ∀ l ∈ left, ∀ r ∈ right, ∀ v w,
    k.1.1.meaning S (s.withRows (some l) none) = .ok v →
    k.2.1.meaning S (s.withRows none (some r)) = .ok w →
      v.Proper ∧ w.Proper ∧ v.equals w = (v.hashKey == w.hashKey)

/-- The value that is looked up for the value of an operand. -/
def keyOf (r : Result) : Value := (r.toOption.getD .null).hashKey

variable (S s) in
/-- The key of a row, or none if its side rejects it. -/
def rowKey (keys filter : List (Smaller e)) : Option Value :=
  if filter.all fun c => holds (c.1.meaning S s) then
    some (.tuple (keys.map fun c => keyOf (c.1.meaning S s)))
  else none

theorem sideKey_eq {keys filter : List (Smaller e)}
    (hfilter : ∀ c ∈ filter, ∃ v, c.1.meaning S s = .ok v)
    (hkeys : ∀ c ∈ keys, ∃ v, c.1.meaning S s = .ok v) :
    sideKey (fun c => c.1.meaning S) s keys filter = .ok (rowKey S s keys filter) := by
  have values : (keys.mapM fun c => return (← c.1.meaning S s).hashKey) =
      Except.ok (ε := Error) (keys.map fun c => keyOf (c.1.meaning S s)) := by
    induction keys with
    | nil => rfl
    | cons c rest ih =>
      obtain ⟨⟨v, hv⟩, hrest⟩ := List.forall_mem_cons.mp hkeys
      rw [List.mapM_cons, ih hrest, hv, List.map_cons, hv]
      rfl
  rw [sideKey, values, allHold_of_values fun x hx => ?_, List.all_map]
  · change (if _ then _ else _) = Except.ok (if _ then _ else _)
    exact (apply_ite ..).symm
  · obtain ⟨c, hc, rfl⟩ := List.mem_map.mp hx
    exact hfilter c hc

/-- Two sides accept their rows with the same key. -/
theorem sameKey_rowKey {α : Type} (f g : α → Smaller e) (keys : List α)
    (filter filter' : List (Smaller e)) (t t' : Scene) :
    JoinMeaning.sameKey (rowKey S t (keys.map f) filter) (rowKey S t' (keys.map g) filter') =
      ((filter.all fun c => holds (c.1.meaning S t)) &&
        (filter'.all fun c => holds (c.1.meaning S t')) &&
        keys.all fun k => keyOf ((f k).1.meaning S t) == keyOf ((g k).1.meaning S t')) := by
  rw [rowKey, rowKey, List.map_map, List.map_map, ← Value.tuple_map_beq]
  cases filter.all fun c => holds (c.1.meaning S t) <;>
    cases filter'.all fun c => holds (c.1.meaning S t') <;> rfl

theorem tame_operands {c a b : Smaller e} (hc : c.1.Tame registry) (hrole : c.role = .key a b) :
    a.1.Tame registry ∧ b.1.Tame registry := by
  have child {d : Expr} (hd : d ∈ c.1.children) : d.Tame registry := hc.within (.child hd)
  rcases (Smaller.operands_of_role hrole).1 with hnode | hnode
  all_goals
    constructor <;> refine child ?_ <;> simp [children, hnode, Node.children]

theorem tame_of_conjunct {left' right' : Smaller e} (he : e.Tame registry)
    (hnode : e.parts = .join left' right' condition kind) {c : Smaller e}
    (h : c ∈ condition.toList.flatMap Smaller.conjuncts) : c.1.Tame registry := by
  obtain ⟨d, hd, hbeside, -⟩ := JoinPlan.partOf_conjunct h
  refine he.within (.trans hbeside.within (.child (mem_parts ?_)))
  rw [hnode]
  exact List.mem_append_right [left', right'] (Option.mem_toList.mpr hd)

namespace Checkable

variable (h : Checkable S s left right condition kind)
  (tame : ∀ c ∈ condition.toList.flatMap Smaller.conjuncts, c.1.Tame registry)
  {l r : Value} (hl : l ∈ left) (hr : r ∈ right)
include h

/-- The operands of a key have values on their sides. -/
theorem values_of_mem_keys {a b : Smaller e}
    (hkey : (a, b) ∈ (JoinPlan.ofCondition condition kind).keys) :
    a.1.HasValues S s left right ∧ b.1.HasValues S s left right := by
  obtain ⟨c, hc, hrole⟩ := JoinPlan.conjunct_of_mem_keys hkey
  rcases (Smaller.operands_of_role hrole).1 with hnode | hnode
  · exact h.operands c hc _ _ hnode
  · exact (h.operands c hc _ _ hnode).symm

include tame hl hr

/-- The condition holds for two rows just if all its conjuncts do. -/
theorem conditionHolds_eq_all (keyless : ∀ e, (s.withRows (some l) (some r)).key? e = none) :
    conditionHolds S s condition l r = (condition.toList.flatMap Smaller.conjuncts).all fun c =>
      holds (c.1.meaning S (s.withRows (some l) (some r))) := by
  cases condition with
  | none => rfl
  | some x =>
    have conjuncts : ([x].flatMap Smaller.conjuncts) = x.conjuncts := by simp
    have hconjuncts := h.conjuncts
    rw [Option.toList_some, conjuncts] at tame hconjuncts ⊢
    exact (x.meaning_conjuncts keyless fun c hc =>
      (hconjuncts c hc).onBoth (tame c hc).analyzed (tame c hc).candid hl hr).2


omit hl hr in
/-- What the plan of a join evaluates for its rows. -/
theorem evaluatesRows (houtput : s.output = none) :
    let plan := JoinPlan.ofCondition condition kind
    (joinMeaning (fun c => c.1.meaning S) s kind plan).EvaluatesRows left right
      (plan.preFilter.all fun c => holds (c.1.meaning S s))
      (fun l => rowKey S (s.withRows (some l) none) (plan.keys.map (·.1)) plan.leftFilter)
      (fun r => rowKey S (s.withRows none (some r)) (plan.keys.map (·.2)) plan.rightFilter)
      (fun l r => plan.residual.all fun c =>
        holds (c.1.meaning S (s.withRows (some l) (some r)))) := by
  intro plan
  -- Each part of the plan holds conjuncts that read just the rows it is given.
  have conjunct {c : Smaller e} (hc : c ∈ plan.preFilter ∨ c ∈ plan.leftFilter ∨
      c ∈ plan.rightFilter ∨ c ∈ plan.residual) := JoinPlan.conjunct_of_mem hc
  constructor
  case enabled =>
    change allHold _ = _
    rw [allHold_of_values fun x hx => ?_, List.all_map]
    · rfl
    · obtain ⟨c, hc, rfl⟩ := List.mem_map.mp hx
      have hmem := conjunct (.inl hc)
      have hsides := (JoinPlan.mem_preFilter hc).2
      change ∃ v, c.1.meaning S s = .ok v
      rw [← meaning_withRows_unread (tame c hmem).analyzed (tame c hmem).candid houtput hsides
        none none]
      exact (h.conjuncts c hmem).neither hsides
  case leftKey =>
    intro l hl
    refine sideKey_eq (fun c hc => ?_) fun c hc => ?_
    · exact (h.conjuncts c (conjunct (.inr (.inl hc)))).onLeft (JoinPlan.mem_leftFilter hc).2 hl
    · obtain ⟨⟨a, b⟩, hk, rfl⟩ := List.mem_map.mp hc
      exact (h.values_of_mem_keys hk).1.onLeft (JoinPlan.mem_keys hk).1.2 hl
  case rightKey =>
    intro r hr
    refine sideKey_eq (fun c hc => ?_) fun c hc => ?_
    · exact (h.conjuncts c (conjunct (.inr (.inr (.inl hc))))).onRight
        (JoinPlan.mem_rightFilter hc).2 hr
    · obtain ⟨⟨a, b⟩, hk, rfl⟩ := List.mem_map.mp hc
      exact (h.values_of_mem_keys hk).2.onRight (JoinPlan.mem_keys hk).2.2 hr
  case residual =>
    intro l hl r hr
    change allHold _ = _
    rw [allHold_of_values fun x hx => ?_, List.all_map]
    · rfl
    · obtain ⟨c, hc, rfl⟩ := List.mem_map.mp hx
      have hmem := conjunct (.inr (.inr (.inr hc)))
      exact (h.conjuncts c hmem).onBoth (tame c hmem).analyzed (tame c hmem).candid hl hr

omit tame in
/-- An equality whose operands are looked up holds just if their keys are equal. -/
theorem holds_key {c a b : Smaller e} (hrole : c.role = .key a b)
    (hkey : (a, b) ∈ (JoinPlan.ofCondition condition kind).keys)
    (ha : a.1.Tame registry) (hb : b.1.Tame registry)
    (keyless : ∀ e, (s.withRows (some l) (some r)).key? e = none) :
    holds (c.1.meaning S (s.withRows (some l) (some r))) =
      (keyOf (a.1.meaning S (s.withRows (some l) none)) ==
        keyOf (b.1.meaning S (s.withRows none (some r)))) := by
  obtain ⟨hnode, hleft, hright⟩ := Smaller.operands_of_role hrole
  obtain ⟨hva, hvb⟩ := h.values_of_mem_keys hkey
  obtain ⟨v, hv⟩ := hva.onLeft hleft hl
  obtain ⟨w, hw⟩ := hvb.onRight hright hr
  obtain ⟨hproper, hproper', heq⟩ := h.keys _ hkey l hl r hr v w hv hw
  rw [hv, hw]
  change _ = (v.hashKey == w.hashKey)
  rw [← heq]
  have hv' : a.1.meaning S (s.withRows (some l) (some r)) = .ok v := by
    rw [← hv]
    exact meaning_withRows ha.analyzed ha.candid (fun _ => rfl) (by simp [hleft])
  have hw' : b.1.meaning S (s.withRows (some l) (some r)) = .ok w := by
    rw [← hw]
    exact meaning_withRows hb.analyzed hb.candid (by simp [hright]) fun _ => rfl
  rcases hnode with hnode | hnode
  · rw [meaning_binary (keyless c.1) hnode, hv', hw']
    rfl
  · rw [meaning_binary (keyless c.1) hnode, hv', hw', hproper.equals_comm hproper']
    rfl


omit tame in
/-- Keys are the same in both directions. -/
theorem sameKey_comm (filter filter' : List (Smaller e)) :
    let plan := JoinPlan.ofCondition condition kind
    JoinMeaning.sameKey (rowKey S (s.withRows none (some r)) (plan.keys.map (·.2)) filter')
        (rowKey S (s.withRows (some l) none) (plan.keys.map (·.1)) filter) =
      JoinMeaning.sameKey (rowKey S (s.withRows (some l) none) (plan.keys.map (·.1)) filter)
        (rowKey S (s.withRows none (some r)) (plan.keys.map (·.2)) filter') := by
  intro plan
  rw [sameKey_rowKey, sameKey_rowKey, Bool.and_comm (List.all filter' _)]
  congr 1
  rw [Bool.eq_iff_iff, List.all_eq_true, List.all_eq_true]
  refine forall₂_congr fun k hk => ?_
  obtain ⟨v, hv⟩ := (h.values_of_mem_keys hk).1.onLeft (JoinPlan.mem_keys hk).1.2 hl
  obtain ⟨w, hw⟩ := (h.values_of_mem_keys hk).2.onRight (JoinPlan.mem_keys hk).2.2 hr
  obtain ⟨hproper, hproper', -⟩ := h.keys k hk l hl r hr v w hv hw
  rw [hv, hw]
  exact Bool.eq_iff_iff.mp (hproper'.hashKey.beq_comm hproper.hashKey)

/-- **The plan checks the condition.**  The condition holds for two rows just if what the plan
    checks for them holds. -/
theorem conditionHolds_eq (houtput : s.output = none) :
    let plan := JoinPlan.ofCondition condition kind
    conditionHolds S s condition l r =
      ((plan.preFilter.all fun c => holds (c.1.meaning S s)) &&
        JoinMeaning.sameKey
          (rowKey S (s.withRows (some l) none) (plan.keys.map (·.1)) plan.leftFilter)
          (rowKey S (s.withRows none (some r)) (plan.keys.map (·.2)) plan.rightFilter) &&
        plan.residual.all fun c => holds (c.1.meaning S (s.withRows (some l) (some r)))) := by
  intro plan
  have keyless : ∀ e, (s.withRows (some l) (some r)).key? e = none :=
    Scene.Keyless.withRows _ _
  have conjunct {c : Smaller e} (hc : c ∈ plan.preFilter ∨ c ∈ plan.leftFilter ∨
      c ∈ plan.rightFilter ∨ c ∈ plan.residual) := JoinPlan.conjunct_of_mem hc
  -- What a conjunct is on the scene where it is checked.
  have preFilter {c : Smaller e} (hc : c ∈ plan.preFilter) :
      c.1.meaning S (s.withRows (some l) (some r)) = c.1.meaning S s :=
    meaning_withRows_unread (tame c (conjunct (.inl hc))).analyzed
      (tame c (conjunct (.inl hc))).candid houtput (JoinPlan.mem_preFilter hc).2 _ _
  have leftFilter {c : Smaller e} (hc : c ∈ plan.leftFilter) :
      c.1.meaning S (s.withRows (some l) (some r)) =
        c.1.meaning S (s.withRows (some l) none) := by
    have hmem := conjunct (.inr (.inl hc))
    exact meaning_withRows (tame c hmem).analyzed (tame c hmem).candid (fun _ => rfl)
      (by simp [(JoinPlan.mem_leftFilter hc).2])
  have rightFilter {c : Smaller e} (hc : c ∈ plan.rightFilter) :
      c.1.meaning S (s.withRows (some l) (some r)) =
        c.1.meaning S (s.withRows none (some r)) := by
    have hmem := conjunct (.inr (.inr (.inl hc)))
    exact meaning_withRows (tame c hmem).analyzed (tame c hmem).candid
      (by simp [(JoinPlan.mem_rightFilter hc).2]) fun _ => rfl
  have keyed {c a b : Smaller e} (hc : c ∈ condition.toList.flatMap Smaller.conjuncts)
      (hrole : c.role = .key a b) (hkey : (a, b) ∈ plan.keys) :=
    h.holds_key hl hr hrole hkey (tame_operands (tame c hc) hrole).1
      (tame_operands (tame c hc) hrole).2 keyless
  rw [h.conditionHolds_eq_all tame hl hr keyless, sameKey_rowKey, Bool.eq_iff_iff]
  simp only [Bool.and_eq_true, List.all_eq_true]
  constructor
  · intro all
    refine ⟨⟨fun c hc => ?_, ⟨fun c hc => ?_, fun c hc => ?_⟩, fun k hk => ?_⟩, fun c hc => ?_⟩
    · exact preFilter hc ▸ all c (conjunct (.inl hc))
    · exact leftFilter hc ▸ all c (conjunct (.inr (.inl hc)))
    · exact rightFilter hc ▸ all c (conjunct (.inr (.inr (.inl hc))))
    · obtain ⟨c, hc, hrole⟩ := JoinPlan.conjunct_of_mem_keys hk
      exact keyed hc hrole hk ▸ all c hc
    · exact all c (conjunct (.inr (.inr (.inr hc))))
  · rintro ⟨⟨hpre, ⟨hleft, hright⟩, hkeys⟩, hresidual⟩ c hc
    rcases JoinPlan.mem_of_conjunct kind hc with
      hrole | ⟨a, b, hrole, hk⟩ | hc | hc | hc | hc
    · rw [meaning_constant (keyless c.1) (Smaller.parts_of_trivial hrole)]
      rfl
    · exact (keyed hc hrole hk).trans (hkeys _ hk)
    · exact preFilter hc ▸ hpre c hc
    · exact leftFilter hc ▸ hleft c hc
    · exact rightFilter hc ▸ hright c hc
    · exact hresidual c hc

end Checkable
end Plan

variable {registry : Registry} {condition : Option (Smaller e)} {kind : JoinKind}
  {leftSide rightSide : Smaller e}

/-- **A planned join is a nested loop.** -/
theorem meaning_join (he : e.Tame registry)
    (hnode : e.parts = .join leftSide rightSide condition kind) (houtput : s.output = none)
    (hleft : (leftSide.1.meaning S s >>= Value.elements) = .ok left)
    (hright : (rightSide.1.meaning S s >>= Value.elements) = .ok right)
    (h : Checkable S s left right condition kind) :
    e.meaning S s = .ok (.list (kind.nestedLoop (conditionHolds S s condition) left right)) := by
  have tame : ∀ c ∈ condition.toList.flatMap Smaller.conjuncts, c.1.Tame registry :=
    fun c hc => tame_of_conjunct he hnode hc
  have hkey : s.key? e = none := by rw [Scene.key?, houtput]; rfl
  obtain ⟨v, hv, hl⟩ := Analysis.bind_eq_ok.mp hleft
  obtain ⟨w, hw, hr⟩ := Analysis.bind_eq_ok.mp hright
  rw [meaning_of_node hkey, hnode, Node.meaning, hv, hw]
  change (v.elements >>= fun l => w.elements >>= fun r => _) = _
  rw [hl, hr]
  refine (JoinMeaning.run_eq_nestedLoop (h.evaluatesRows tame houtput)
    fun l hl r hr => h.sameKey_comm hl hr _ _).trans ?_
  refine congrArg (fun pairs => Except.ok (Value.list pairs)) ?_
  exact JoinKind.nestedLoop_congr fun l hl r hr => (h.conditionHolds_eq tame hl hr houtput).symm

end Expr

/-! ### Programs of joins -/

namespace Program

variable {S : Semantics} {host : Host σ} {registry : Registry} {e : Expr} {signature : Signature}
  {threshold : Weight.Threshold} {program : Program} {params : Params} {values : List Value}

/-- **The program of a join is a nested loop.**  If the conjuncts of the condition and the operands
    of the equalities among them have values for the rows of the sides that they read, and the
    operands that are looked up are equal just if their keys are, then the condition has a value
    for each pair of rows, and the program gives the pairs for which it holds, with the rows that
    the kind of the join preserves. -/
theorem call_join (hS : S.Describes host) (he : e.Tame registry) {leftSide rightSide : Smaller e}
    {condition : Option (Smaller e)} {kind : JoinKind}
    (hnode : e.parts = .join leftSide rightSide condition kind)
    (h : Program.ofExpr e signature threshold = .ok program)
    (hvalues : program.params.bind params = .ok values) (input : Value) (state : σ)
    {left right : List Value} :
    let scene := Scene.start input (program.params.valueOf values)
    (leftSide.1.meaning S scene >>= Value.elements) = .ok left →
    (rightSide.1.meaning S scene >>= Value.elements) = .ok right →
    Expr.Checkable S scene left right condition kind →
    (∀ c ∈ condition, ∀ l ∈ left, ∀ r ∈ right,
      ∃ v, c.1.meaning S (scene.withRows (some l) (some r)) = .ok v) ∧
    (program.call host input params state).1 =
      .ok (.list (kind.nestedLoop (Expr.conditionHolds S scene condition) left right)) := by
  intro scene hleft hright checkable
  have tame {c : Smaller e} (hc : c ∈ condition.toList.flatMap Smaller.conjuncts) :=
    Expr.tame_of_conjunct he hnode hc
  constructor
  · intro c hc l hl r hr
    refine (c.meaning_conjuncts (Scene.Keyless.withRows _ _) fun d hd => ?_).1
    have hmem : d ∈ condition.toList.flatMap Smaller.conjuncts :=
      List.mem_flatMap.mpr ⟨c, Option.mem_toList.mpr hc, hd⟩
    exact (checkable.conjuncts d hmem).onBoth (tame hmem).analyzed (tame hmem).candid hl hr
  · rw [call_eq_of_bind hS he h hvalues]
    exact Expr.meaning_join he hnode rfl hleft hright checkable

/-- The rows of both sides are the same. -/
def sameRow : Expr := .mk 7 (.binary .eq (.mk 8 (.joinRow .left)) (.mk 9 (.joinRow .right)))

/-- The items of the input beside the numbers two and three. -/
def besideTwoAndThree : Expr :=
  .mk 0 (.join (.mk 1 .input) (.mk 2 (.constant (.list [.int 2, .int 3]))) (some sameRow) .outer)

theorem tame_besideTwoAndThree (r : Registry) : besideTwoAndThree.Tame r := by
  have nodes : ∀ d, Expr.Within d besideTwoAndThree →
      (∀ keys output, d.node ≠ .aggregate keys output) ∧ d.node.Exact r ∧
        (∀ s, d.node ≠ .reducer s) ∧ ∀ p c, d.node ≠ .pipe p c := by
    simp [besideTwoAndThree, sameRow, Expr.forall_within_mk, Node.children, Expr.node,
      Node.Exact, Value.Exact, Value.AllExact, Option.toList]
  refine ⟨exists_of_isSome (by decide +kernel), Expr.candid_of_noAggregate fun d hd =>
    (nodes d hd).1, fun d hd => (nodes d hd).2.1, ?_, ?_, ?_, ?_⟩
  · decide +kernel
  · decide +kernel
  · exact fun d hd s hs => absurd hs ((nodes d hd).2.2.1 s)
  · exact fun d hd => (nodes d hd).2.2.2

theorem meaning_leftRow (i : Nat) (s : Scene) (l : Value) (r : Option Value) :
    (Expr.mk i (.joinRow .left)).meaning S (s.withRows (some l) r) = .ok l :=
  Expr.meaning_of_node (Scene.Keyless.withRows _ _ _)

theorem meaning_rightRow (i : Nat) (s : Scene) (l : Option Value) (r : Value) :
    (Expr.mk i (.joinRow .right)).meaning S (s.withRows l (some r)) = .ok r :=
  Expr.meaning_of_node (Scene.Keyless.withRows _ _ _)

theorem meaning_sameRow (s : Scene) (l r : Value) :
    sameRow.meaning S (s.withRows (some l) (some r)) = .ok (.bool (l.equals r)) := by
  rw [Expr.meaning_binary (Scene.Keyless.withRows _ _ _) rfl, meaning_leftRow, meaning_rightRow]
  rfl

/-- The rows of both sides are compared as a key. -/
theorem checkable_sameRow {e : Expr} (h : sizeOf sameRow < sizeOf e) (s : Scene)
    {left right : List Value} {kind : JoinKind}
    (keys : ∀ l ∈ left, ∀ r ∈ right,
      l.Proper ∧ r.Proper ∧ l.equals r = (l.hashKey == r.hashKey)) :
    Expr.Checkable S s left right (some (⟨sameRow, h⟩ : Smaller e)) kind := by
  -- The condition is one equality of the two rows, and it is the key of the plan.
  have conjuncts : (some (⟨sameRow, h⟩ : Smaller e)).toList.flatMap Smaller.conjuncts =
      [⟨sameRow, h⟩] := by
    rw [Option.toList_some, List.flatMap_singleton, Smaller.conjuncts]
    rfl
  have leftRow : (Expr.mk 8 (.joinRow .left)).HasValues S s left right := by
    intro l hl r hr
    obtain ⟨l, -, rfl⟩ := Sides.exists_row (by decide +kernel) hl
    exact ⟨l, meaning_leftRow 8 s l r⟩
  have rightRow : (Expr.mk 9 (.joinRow .right)).HasValues S s left right := by
    intro l hl r hr
    obtain ⟨r, -, rfl⟩ := Sides.exists_row (by decide +kernel) hr
    exact ⟨r, meaning_rightRow 9 s l r⟩
  constructor
  case conjuncts =>
    rw [conjuncts]
    refine List.forall_mem_singleton.mpr fun l hl r hr => ?_
    have both : sameRow.analysis.sides = ⟨true, true⟩ := by decide +kernel
    obtain ⟨l, -, rfl⟩ := Sides.exists_row (congrArg Sides.left both) hl
    obtain ⟨r, -, rfl⟩ := Sides.exists_row (congrArg Sides.right both) hr
    exact ⟨_, meaning_sameRow s l r⟩
  case operands =>
    rw [conjuncts]
    refine List.forall_mem_singleton.mpr fun a b hnode => ?_
    obtain ⟨-, rfl, rfl⟩ := Node.binary.inj hnode
    exact ⟨leftRow, rightRow⟩
  case keys =>
    rintro ⟨a, b⟩ hk l hl r hr v w hv hw
    obtain ⟨c, hc, hrole⟩ := JoinPlan.conjunct_of_mem_keys hk
    rw [conjuncts] at hc
    obtain rfl := List.mem_singleton.mp hc
    obtain ⟨hnode, hleft, -⟩ := Smaller.operands_of_role hrole
    rcases hnode with hnode | hnode
    · obtain ⟨-, ha, hb⟩ := Node.binary.inj hnode
      rw [← ha, meaning_leftRow] at hv
      rw [← hb, meaning_rightRow] at hw
      obtain rfl := Except.ok.inj hv
      obtain rfl := Except.ok.inj hw
      exact keys l hl r hr
    · obtain ⟨-, -, ha⟩ := Node.binary.inj hnode
      rw [← ha] at hleft
      exact absurd hleft (by decide +kernel)

theorem call_join_besideTwoAndThree : ∃ program,
    Program.ofExpr besideTwoAndThree [] Weight.bindingThreshold = .ok program ∧
      (program.call Host.none (.list [.int 1, .int 2]) .none ()).1 =
        .ok (.list (JoinKind.outer.nestedLoop Value.equals [.int 1, .int 2] [.int 2, .int 3])) := by
  obtain ⟨program, h, hparams⟩ := exists_closed (e := besideTwoAndThree) (by decide +kernel)
  have hvalues : program.params.bind .none = .ok [] := by
    rw [hparams]
    rfl
  refine ⟨program, h, ?_⟩
  have tame := tame_besideTwoAndThree ⟨fun i => ⟨i, "", true⟩, fun _ => ("", [])⟩
  have input (s : Scene) (hs : s.output = none) :
      (Expr.mk 1 .input).meaning Semantics.none s = s.input := by
    rw [Expr.meaning_of_node (by rw [Scene.key?, hs]; rfl)]
    rfl
  have numbers (s : Scene) (hs : s.output = none) :
      (Expr.mk 2 (.constant (.list [.int 2, .int 3]))).meaning Semantics.none s =
        .ok (.list [.int 2, .int 3]) :=
    Expr.meaning_constant (by rw [Scene.key?, hs]; rfl) rfl
  let scene := Scene.start (.list [.int 1, .int 2]) (program.params.valueOf [])
  have left : ((Expr.mk 1 .input).meaning Semantics.none scene >>= Value.elements) =
      .ok [.int 1, .int 2] := by
    rw [input _ rfl]
    rfl
  have right : ((Expr.mk 2 (.constant (.list [.int 2, .int 3]))).meaning Semantics.none scene >>=
      Value.elements) = .ok [.int 2, .int 3] := by
    rw [numbers _ rfl]
    rfl
  have keys : ∀ l ∈ [Value.int 1, .int 2], ∀ r ∈ [Value.int 2, .int 3],
      l.Proper ∧ r.Proper ∧ l.equals r = (l.hashKey == r.hashKey) := by
    simp only [List.forall_mem_cons, List.not_mem_nil, false_imp_iff, implies_true, and_true,
      Value.Proper, true_and]
    decide +kernel
  refine (call_join describes_none tame rfl h hvalues (.list [.int 1, .int 2]) () left right
    (checkable_sameRow (by decide) scene keys)).2.trans ?_
  refine congrArg (fun pairs => Except.ok (Value.list pairs)) ?_
  refine JoinKind.nestedLoop_congr fun l hl r hr => ?_
  change holds (sameRow.meaning _ _) = _
  rw [meaning_sameRow]
  rfl

example : JoinKind.outer.nestedLoop Value.equals [.int 1, .int 2] [.int 2, .int 3] =
    [.tuple [.int 1, .null], .tuple [.int 2, .int 2], .tuple [.null, .int 3]] := rfl

/-- An attribute of a number, or the error of another handler. -/
def attributeOrError (i : Nat) (name : String) : Expr :=
  .mk i (.guarded (.mk (i + 1) (.access (.mk (i + 2) (.constant (.int 1))) [.attr name] none))
    [⟨[], outerError (i + 3), none⟩])

/-- The message that the attribute `a` of a number is missing. -/
def missingA (i : Nat) : Expr := .mk i (.constant (.str "int has no attribute 'a'"))

/-- Pairs of items, if the messages that `a` and that `b` is missing are the same. -/
def sameMessages : Expr :=
  .mk 0 (.join (inputItem 1 (.int 0)) (inputItem 4 (.int 1)) (some (.mk 7 (.binary .eq
    (.mk 8 (.collection .tuple [attributeOrError 20 "a", attributeOrError 40 "b"]))
    (.mk 9 (.collection .tuple [missingA 10, missingA 11]))))) .inner)

/-- A pair is found although the second message is another one. -/
theorem sameMessages_stale :
    (match Program.ofExpr sameMessages [] Weight.bindingThreshold,
        Program.ofExpr (attributeOrError 40 "b") [] Weight.bindingThreshold with
      | .ok program, .ok alone =>
        match (program.call Host.none (.list [.list [.int 1], .list [.int 2]]) .none ()).1,
          (alone.call Host.none (.list [.list [.int 1], .list [.int 2]]) .none ()).1 with
        | .ok v, .ok w => v == .list [.tuple [.int 1, .int 2]] &&
            w == .str "int has no attribute 'b'"
        | _, _ => false
      | _, _ => false) = true := by
  decide +kernel

end Program
end DataExpr
