import DataExpr.Proofs.ComparisonOrder
import DataExpr.Value.Order
import Mathlib.Data.String.Basic
import Mathlib.Order.Compare

/-!
# The order of values

Between values without floats the comparison is an order wherever it succeeds.  Two values that
compare are of one type, so that each law has one case for every type that has an order.  For lists
and tuples the first elements that differ decide: the laws of the elements carry over, and with
them that two values compare which both compare with a third one between them.
-/

namespace DataExpr

/-! ### Linear orders -/

section Linear

variable {α : Type} [LinearOrder α]

theorem orderOf_eq_cmp (a b : α) : orderOf (decide (a < b)) (a == b) = cmp a b := by
  rcases lt_trichotomy a b with h | rfl | h
  · rw [(cmp_eq_lt_iff a b).2 h]
    simp [orderOf, h]
  · rw [cmp_self_eq_eq]
    simp [orderOf]
  · rw [(cmp_eq_gt_iff a b).2 h]
    simp [orderOf, h.not_gt, h.ne']

/-- If neither of two steps goes down, then the way does not go down either, and it is level only if
    both steps are. -/
theorem cmp_then {a b c : α} (hab : cmp a b ≠ .gt) (hbc : cmp b c ≠ .gt) :
    cmp a c = (cmp a b).then (cmp b c) := by
  have hab : a ≤ b := not_lt.1 fun h => hab ((cmp_eq_gt_iff a b).2 h)
  have hbc : b ≤ c := not_lt.1 fun h => hbc ((cmp_eq_gt_iff b c).2 h)
  rcases hab.lt_or_eq with h | rfl
  · rw [(cmp_eq_lt_iff a b).2 h, (cmp_eq_lt_iff a c).2 (h.trans_le hbc)]; rfl
  · rw [cmp_self_eq_eq]; rfl

end Linear

namespace Value

mutual

/-- No float occurs at any depth. -/
def FloatFree : Value → Prop
  | .float _ => False
  | .list items | .tuple items | .set items => FloatFreeAll items
  | .dict entries => FloatFreeEntries entries
  | .null | .bool _ | .int _ | .str _ | .function _ | .object .. => True

def FloatFreeAll : List Value → Prop
  | [] => True
  | v :: rest => FloatFree v ∧ FloatFreeAll rest

def FloatFreeEntries : List (Value × Value) → Prop
  | [] => True
  | (k, v) :: rest => FloatFree k ∧ FloatFree v ∧ FloatFreeEntries rest

end

/-! ### Which values compare -/

theorem compare_int (m n : Int64) : compare (.int m) (.int n) = .ok (cmp m.toInt n.toInt) := by
  rw [← orderOf_eq_cmp, compare]
  simp only [Int64.lt_iff_toInt_lt, ← Int64.toInt_inj, beq_eq_decide]

theorem compare_bool (p q : Bool) : compare (.bool p) (.bool q) = .ok (cmp p q) := by
  rw [← orderOf_eq_cmp, compare]
  cases p <;> cases q <;> rfl

theorem compare_str (s t : String) : compare (.str s) (.str t) = .ok (cmp s t) := by
  rw [← orderOf_eq_cmp, compare]

/-- The types in which values without floats compare. -/
inductive Kindred : Value → Value → Prop
  | int (m n : Int64) : Kindred (.int m) (.int n)
  | bool (p q : Bool) : Kindred (.bool p) (.bool q)
  | str (s t : String) : Kindred (.str s) (.str t)
  | list (as bs : List Value) : Kindred (.list as) (.list bs)
  | tuple (as bs : List Value) : Kindred (.tuple as) (.tuple bs)

theorem kindred_of_compare {a b : Value} (ha : FloatFree a) (hb : FloatFree b) {order : Ordering}
    (h : compare a b = .ok order) : Kindred a b := by
  cases a <;> cases b <;>
    first
    | constructor
    | (revert ha hb h; simp [FloatFree, compare, number?])

/-- The first elements decide unless they are equal. -/
theorem compareAll_cons {a b : Value} {as bs : List Value} {order : Ordering} :
    compareAll (a :: as) (b :: bs) = .ok order ↔
      (compare a b = .ok order ∧ order ≠ .eq) ∨
        (compare a b = .ok .eq ∧ compareAll as bs = .ok order) := by
  rw [compareAll]
  cases compare a b with
  | error e => simp [bind, Except.bind]
  | ok o => cases o <;> cases order <;> simp [bind, Except.bind]

/-! ### The laws of an order -/

mutual

/-- Swapping two values swaps the answer. -/
theorem compare_swap (a b : Value) (ha : FloatFree a) (hb : FloatFree b) {order : Ordering}
    (h : compare a b = .ok order) : compare b a = .ok order.swap := by
  match a, b, kindred_of_compare ha hb h with
  | _, _, .int m n =>
    rw [compare_int, Except.ok.injEq] at h ⊢
    rw [← h, cmp_swap]
  | _, _, .bool p q =>
    rw [compare_bool, Except.ok.injEq] at h ⊢
    rw [← h, cmp_swap]
  | _, _, .str s t =>
    rw [compare_str, Except.ok.injEq] at h ⊢
    rw [← h, cmp_swap]
  | _, _, .list as bs =>
    simp only [FloatFree, compare] at ha hb h ⊢
    exact compareAll_swap as bs ha hb h
  | _, _, .tuple as bs =>
    simp only [FloatFree, compare] at ha hb h ⊢
    exact compareAll_swap as bs ha hb h

theorem compareAll_swap (as bs : List Value) (ha : FloatFreeAll as) (hb : FloatFreeAll bs)
    {order : Ordering} (h : compareAll as bs = .ok order) :
    compareAll bs as = .ok order.swap := by
  match as, bs with
  | [], [] | [], _ :: _ | _ :: _, [] =>
    simp only [compareAll, Except.ok.injEq] at h ⊢
    rw [← h]; rfl
  | a :: as, b :: bs =>
    simp only [FloatFreeAll] at ha hb
    rw [compareAll_cons] at h ⊢
    rcases h with ⟨hab, hne⟩ | ⟨hab, hrest⟩
    · refine .inl ⟨compare_swap a b ha.1 hb.1 hab, ?_⟩
      cases order <;> simp_all
    · exact .inr ⟨compare_swap a b ha.1 hb.1 hab, compareAll_swap as bs ha.2 hb.2 hrest⟩

end

mutual

/-- Two steps that do not go down are one such step. -/
theorem compare_step (a b c : Value) (ha : FloatFree a) (hb : FloatFree b) (hc : FloatFree c)
    {order order' : Ordering} (hab : compare a b = .ok order) (hbc : compare b c = .ok order')
    (hne : order ≠ .gt) (hne' : order' ≠ .gt) : compare a c = .ok (order.then order') := by
  match a, b, kindred_of_compare ha hb hab, c, kindred_of_compare hb hc hbc with
  | _, _, .int m n, _, .int _ k =>
    rw [compare_int, Except.ok.injEq] at hab hbc ⊢
    subst hab hbc
    exact cmp_then hne hne'
  | _, _, .bool p q, _, .bool _ r =>
    rw [compare_bool, Except.ok.injEq] at hab hbc ⊢
    subst hab hbc
    exact cmp_then hne hne'
  | _, _, .str s t, _, .str _ u =>
    rw [compare_str, Except.ok.injEq] at hab hbc ⊢
    subst hab hbc
    exact cmp_then hne hne'
  | _, _, .list as bs, _, .list _ cs =>
    simp only [FloatFree, compare] at ha hb hc hab hbc ⊢
    exact compareAll_step as bs cs ha hb hc hab hbc hne hne'
  | _, _, .tuple as bs, _, .tuple _ cs =>
    simp only [FloatFree, compare] at ha hb hc hab hbc ⊢
    exact compareAll_step as bs cs ha hb hc hab hbc hne hne'

theorem compareAll_step (as bs cs : List Value) (ha : FloatFreeAll as) (hb : FloatFreeAll bs)
    (hc : FloatFreeAll cs) {order order' : Ordering} (hab : compareAll as bs = .ok order)
    (hbc : compareAll bs cs = .ok order') (hne : order ≠ .gt) (hne' : order' ≠ .gt) :
    compareAll as cs = .ok (order.then order') := by
  match as, bs, cs with
  | [], [], cs =>
    have level : order = .eq := by simpa only [compareAll, Except.ok.injEq, eq_comm] using hab
    rw [level]
    exact hbc
  | [], b :: bs, [] => simp_all [compareAll]
  | [], b :: bs, c :: cs =>
    simp only [compareAll, Except.ok.injEq] at hab ⊢
    rw [← hab]; rfl
  | a :: as, [], _ => simp_all [compareAll]
  | a :: as, b :: bs, [] => simp_all [compareAll]
  | a :: as, b :: bs, c :: cs =>
    simp only [FloatFreeAll] at ha hb hc
    rw [compareAll_cons] at hab hbc ⊢
    have head {p q : Ordering} (hp : compare a b = .ok p) (hq : compare b c = .ok q)
        (h : p ≠ .gt) (h' : q ≠ .gt) : compare a c = .ok (p.then q) :=
      compare_step a b c ha.1 hb.1 hc.1 hp hq h h'
    rcases hab with ⟨hab, hlt⟩ | ⟨hab, hab'⟩ <;> rcases hbc with ⟨hbc, hlt'⟩ | ⟨hbc, hbc'⟩
    · refine .inl ⟨head hab hbc hne hne', ?_⟩
      cases order <;> simp_all [Ordering.then]
    · -- the tails play no part, since the first elements of the first two lists differ
      refine .inl ⟨?_, ?_⟩
      · rw [head hab hbc hne (by decide)]
        cases order <;> simp_all [Ordering.then]
      · cases order <;> simp_all [Ordering.then]
    · refine .inl ⟨?_, ?_⟩
      · rw [head hab hbc (by decide) hne']
        cases order' <;> cases order <;> simp_all [Ordering.then]
      · cases order' <;> cases order <;> simp_all [Ordering.then]
    · refine .inr ⟨head hab hbc (by decide) (by decide), ?_⟩
      exact compareAll_step as bs cs ha.2 hb.2 hc.2 hab' hbc' hne hne'

end

/-- Values without floats are ordered where they compare. -/
theorem compare_ordersOn : Comparison.OrdersOn compare FloatFree where
  swap ha hb h := compare_swap _ _ ha hb h
  step ha hb hc hab hbc hne hne' := compare_step _ _ _ ha hb hc hab hbc hne hne'

/-! ### Equality -/

mutual

/-- Values that are level in the order are the same. -/
theorem eq_of_compare (a b : Value) (ha : FloatFree a) (hb : FloatFree b)
    (h : compare a b = .ok .eq) : a = b := by
  match a, b, kindred_of_compare ha hb h with
  | _, _, .int m n =>
    rw [compare_int, Except.ok.injEq, cmp_eq_eq_iff, Int64.toInt_inj] at h
    rw [h]
  | _, _, .bool p q =>
    rw [compare_bool, Except.ok.injEq, cmp_eq_eq_iff] at h
    rw [h]
  | _, _, .str s t =>
    rw [compare_str, Except.ok.injEq, cmp_eq_eq_iff] at h
    rw [h]
  | _, _, .list as bs =>
    simp only [FloatFree, compare] at ha hb h
    rw [eqAll_of_compareAll as bs ha hb h]
  | _, _, .tuple as bs =>
    simp only [FloatFree, compare] at ha hb h
    rw [eqAll_of_compareAll as bs ha hb h]

theorem eqAll_of_compareAll (as bs : List Value) (ha : FloatFreeAll as) (hb : FloatFreeAll bs)
    (h : compareAll as bs = .ok .eq) : as = bs := by
  match as, bs with
  | [], [] => rfl
  | [], _ :: _ | _ :: _, [] => simp [compareAll] at h
  | a :: as, b :: bs =>
    simp only [FloatFreeAll] at ha hb
    rcases compareAll_cons.1 h with ⟨_, hne⟩ | ⟨hab, hrest⟩
    · exact absurd rfl hne
    · rw [eq_of_compare a b ha.1 hb.1 hab, eqAll_of_compareAll as bs ha.2 hb.2 hrest]

end

/-- So they are equal. -/
theorem beq_of_compare (a b : Value) (ha : FloatFree a) (hb : FloatFree b)
    (h : compare a b = .ok .eq) : beq a b = true := by
  rw [eq_of_compare a b ha hb h]
  exact beq_self b

mutual

/-- If equal values compare, then they are level in the order. -/
theorem compare_of_beq (a b : Value) (ha : FloatFree a) (hb : FloatFree b) {order : Ordering}
    (h : compare a b = .ok order) (heq : beq a b = true) : order = .eq := by
  match a, b, kindred_of_compare ha hb h with
  | _, _, .int m n =>
    rw [compare_int, Except.ok.injEq] at h
    rw [beq, beq_iff_eq] at heq
    rw [← h, heq, cmp_self_eq_eq]
  | _, _, .bool p q =>
    rw [compare_bool, Except.ok.injEq] at h
    rw [beq, beq_iff_eq] at heq
    rw [← h, heq, cmp_self_eq_eq]
  | _, _, .str s t =>
    rw [compare_str, Except.ok.injEq] at h
    rw [beq, beq_iff_eq] at heq
    rw [← h, heq, cmp_self_eq_eq]
  | _, _, .list as bs =>
    simp only [FloatFree, compare, beq] at ha hb h heq
    exact compareAll_of_beqAll as bs ha hb h heq
  | _, _, .tuple as bs =>
    simp only [FloatFree, compare, beq] at ha hb h heq
    exact compareAll_of_beqAll as bs ha hb h heq

theorem compareAll_of_beqAll (as bs : List Value) (ha : FloatFreeAll as) (hb : FloatFreeAll bs)
    {order : Ordering} (h : compareAll as bs = .ok order) (heq : beqAll as bs = true) :
    order = .eq := by
  match as, bs with
  | [], [] => simpa [compareAll] using h.symm
  | [], _ :: _ | _ :: _, [] => simp [beqAll] at heq
  | a :: as, b :: bs =>
    simp only [FloatFreeAll] at ha hb
    simp only [beqAll, Bool.and_eq_true] at heq
    rcases compareAll_cons.1 h with ⟨hab, hne⟩ | ⟨_, hrest⟩
    · exact absurd (compare_of_beq a b ha.1 hb.1 hab heq.1) hne
    · exact compareAll_of_beqAll as bs ha.2 hb.2 hrest heq.2

end

mutual

/-- A value compares as any value does that it equals. -/
theorem compare_congr (a b c : Value) (ha : FloatFree a) (hc : FloatFree c)
    (heq : beq a b = true) {order : Ordering} (h : compare a c = .ok order) :
    compare b c = .ok order := by
  match a, c, kindred_of_compare ha hc h, b with
  | _, _, .int m k, b | _, _, .bool p r, b | _, _, .str s u, b =>
    cases b <;> simp only [beq, Bool.false_eq_true, beq_iff_eq] at heq
    rwa [← heq]
  | _, _, .list as cs, b | _, _, .tuple as cs, b =>
    cases b <;> simp only [beq, Bool.false_eq_true] at heq
    simp only [FloatFree, compare] at ha hc h ⊢
    exact compareAll_congr as _ cs ha hc heq h

theorem compareAll_congr (as bs cs : List Value) (ha : FloatFreeAll as) (hc : FloatFreeAll cs)
    (heq : beqAll as bs = true) {order : Ordering} (h : compareAll as cs = .ok order) :
    compareAll bs cs = .ok order := by
  match as, bs, cs with
  | [], [], _ => exact h
  | [], _ :: _, _ | _ :: _, [], _ => simp [beqAll] at heq
  | _ :: _, _ :: _, [] => exact h
  | a :: as, b :: bs, c :: cs =>
    simp only [FloatFreeAll] at ha hc
    simp only [beqAll, Bool.and_eq_true] at heq
    rw [compareAll_cons] at h ⊢
    have head {p : Ordering} (hp : compare a c = .ok p) : compare b c = .ok p :=
      compare_congr a b c ha.1 hc.1 heq.1 hp
    rcases h with ⟨hac, hne⟩ | ⟨hac, hrest⟩
    · exact .inl ⟨head hac, hne⟩
    · exact .inr ⟨head hac, compareAll_congr as bs cs ha.2 hc.2 heq.2 hrest⟩

end

/-- **The comparison is an order where it is defined.**  It is defined in both directions or in
    neither, and then with opposite answers; it is level between equal values only, and between
    equal values it has no other answer; and what is at most a value that is at most a third one
    compares with that one and is at most it, level only if both steps are. -/
theorem compare_partial_order (a b c : Value) (ha : FloatFree a) (hb : FloatFree b)
    (hc : FloatFree c) :
    ((∃ e, compare a b = .error e) ↔ ∃ e, compare b a = .error e) ∧
      (∀ order, compare a b = .ok order → compare b a = .ok order.swap) ∧
      (compare a b = .ok .eq → (a == b) = true) ∧
      ((a == b) = true → compare a b = .ok .eq ∨ ∃ e, compare a b = .error e) ∧
      ∀ order order', compare a b = .ok order → compare b c = .ok order' →
        order ≠ .gt → order' ≠ .gt →
          ∃ order'', compare a c = .ok order'' ∧ order'' ≠ .gt ∧
            (order'' = .eq → order = .eq ∧ order' = .eq) := by
  have laws := compare_ordersOn
  refine ⟨⟨?_, ?_⟩, fun _ h => laws.swap ha hb h, beq_of_compare a b ha hb, ?_, ?_⟩
  · rintro ⟨e, h⟩
    exact laws.error_swap ha hb h
  · rintro ⟨e, h⟩
    exact laws.error_swap hb ha h
  · intro heq
    cases h : compare a b with
    | error e => exact .inr ⟨e, rfl⟩
    | ok order => exact .inl (by rw [compare_of_beq a b ha hb h heq])
  · intro order order' hab hbc hne hne'
    refine ⟨_, laws.step ha hb hc hab hbc hne hne', ?_, ?_⟩
    · cases order <;> simp_all [Ordering.then]
    · cases order <;> simp_all [Ordering.then]

/-- The first list compares with the last one through the list between them, although the second
    elements of those two do not compare. -/
theorem compare_partial_order_lists :
    compare (.list [.int 1]) (.list [.int 1, .set []]) = .ok .lt ∧
      compare (.list [.int 1, .set []]) (.list [.int 2, .null]) = .ok .lt ∧
      ∃ order, compare (.list [.int 1]) (.list [.int 2, .null]) = .ok order ∧ order ≠ .gt := by
  have first : compare (.list [.int 1]) (.list [.int 1, .set []]) = .ok .lt := by rfl
  have second : compare (.list [.int 1, .set []]) (.list [.int 2, .null]) = .ok .lt := by rfl
  have chain := (compare_partial_order (.list [.int 1]) (.list [.int 1, .set []])
    (.list [.int 2, .null]) (by simp [FloatFree, FloatFreeAll])
    (by simp [FloatFree, FloatFreeAll]) (by simp [FloatFree, FloatFreeAll])).2.2.2.2
  obtain ⟨order, h, hne, -⟩ := chain .lt .lt first second (by decide) (by decide)
  exact ⟨first, second, order, h, hne⟩

end Value
end DataExpr
