import DataExpr.Proofs.ProperValues
import DataExpr.Proofs.StableSorting
import DataExpr.Proofs.ValueOrder
import DataExpr.Value.Sort

/-!
# Sorting by keys

The components of two keys are compared by the place of nulls first, then by equality and then by
their order.  Each of these comparisons is an order where it succeeds, and so is the comparison that
asks one after the other.  Equality needs an argument of its own, since values may be equal that
do not compare.
-/

namespace DataExpr

theorem NullOrder.ordersOn_place (nulls : NullOrder) :
    Comparison.OrdersOn (fun a b => .ok (nulls.place a b)) fun _ => True where
  swap {a b order} _ _ h := by
    simp only [Except.ok.injEq] at h ⊢
    subst h
    unfold place
    cases nulls <;> cases a.isNull <;> cases b.isNull <;> rfl
  step {a b c order order'} _ _ _ h h' hne hne' := by
    simp only [Except.ok.injEq] at h h' ⊢
    subst h h'
    unfold place at *
    generalize a.isNull = x, b.isNull = y, c.isNull = z at *
    cases nulls <;> revert x y z <;> decide

namespace Value

/-! ### Components of keys -/

/-- A component of a key: without floats, and with distinct elements in its sets. -/
structure IsKey (v : Value) : Prop where
  floatFree : FloatFree v
  proper : Proper v

theorem equals_eq_beq {a b : Value} (ha : FloatFree a) (hb : FloatFree b) :
    a.equals b = (a == b) := by
  unfold equals
  cases a <;> cases b <;> first | rfl | exact absurd ha id | exact absurd hb id

/-- Values that are equal are level, and others are compared. -/
def compareUnequal : Comparison Value := fun a b =>
  if a.equals b then .ok .eq else compare a b

theorem compareUnequal_eq_ok {a b : Value} (ha : IsKey a) (hb : IsKey b) {order : Ordering} :
    compareUnequal a b = .ok order ↔
      (a == b) = true ∧ order = .eq ∨ (a == b) = false ∧ compare a b = .ok order := by
  rw [compareUnequal, equals_eq_beq ha.floatFree hb.floatFree]
  cases a == b <;> simp [eq_comm]

/-- Unequal values that compare are not level. -/
theorem compare_ne_eq {a b : Value} (ha : IsKey a) (hb : IsKey b) (hne : (a == b) = false) :
    compare a b ≠ .ok .eq := by
  intro h
  have heq : (a == b) = true := beq_of_compare a b ha.floatFree hb.floatFree h
  simp [hne] at heq

theorem compareUnequal_ordersOn : compareUnequal.OrdersOn IsKey where
  swap {a b order} ha hb h := by
    rw [compareUnequal_eq_ok hb ha, ← Proper.beq_comm ha.proper hb.proper]
    rcases (compareUnequal_eq_ok ha hb).1 h with ⟨heq, rfl⟩ | ⟨hne, h⟩
    · exact .inl ⟨heq, rfl⟩
    · exact .inr ⟨hne, compare_swap a b ha.floatFree hb.floatFree h⟩
  step {a b c order order'} ha hb hc hab hbc hne hne' := by
    rw [compareUnequal_eq_ok ha hc]
    rcases (compareUnequal_eq_ok ha hb).1 hab with ⟨eab, rfl⟩ | ⟨nab, cab⟩ <;>
      rcases (compareUnequal_eq_ok hb hc).1 hbc with ⟨ebc, rfl⟩ | ⟨nbc, cbc⟩
    · exact .inl ⟨beq_trans a b c eab ebc, rfl⟩
    · -- equal values compare alike
      have eba : (b == a) = true := beq_symm a b ha.proper eab
      refine .inr ⟨Bool.eq_false_iff.2 fun eac => ?_,
        compare_congr b a c hb.floatFree hc.floatFree eba cbc⟩
      have ebc : (b == c) = true := beq_trans b a c eba eac
      simp [nbc] at ebc
    · have ecb : (c == b) = true := beq_symm b c hb.proper ebc
      refine .inr ⟨Bool.eq_false_iff.2 fun eac => ?_, ?_⟩
      · have eab : (a == b) = true := beq_trans a c b eac ecb
        simp [nab] at eab
      · have cba := compare_swap a b ha.floatFree hb.floatFree cab
        have cca := compare_congr b c a hb.floatFree ha.floatFree ebc cba
        have cac := compare_swap c a hc.floatFree ha.floatFree cca
        cases order <;> exact cac
    · have cac := compare_step a b c ha.floatFree hb.floatFree hc.floatFree cab cbc hne hne'
      refine .inr ⟨Bool.eq_false_iff.2 fun eac => ?_, cac⟩
      have level := compare_of_beq a c ha.floatFree hc.floatFree cac eac
      have := compare_ne_eq ha hb nab
      cases order <;> simp_all [Ordering.then]

/-- Compares two components of a key. -/
def compareComponent (order : KeyOrder) : Comparison Value :=
  Comparison.thenBy (fun a b => .ok (order.nulls.place a b))
    (compareUnequal.reversed order.descending)

theorem compareComponent_ordersOn (order : KeyOrder) : (compareComponent order).OrdersOn IsKey :=
  .thenBy (order.nulls.ordersOn_place.mono fun _ _ => trivial) (compareUnequal_ordersOn.reversed _)

/-! ### Keys -/

/-- A key with a component for each of the orders. -/
def IsKeyFor (orders : List KeyOrder) (key : List Value) : Prop :=
  key.length = orders.length ∧ ∀ v ∈ key, IsKey v

/-- Components that the place of nulls does not decide and that are not equal are compared. -/
theorem compareComponent_eq_ok (order : KeyOrder) {a b : Value} (ha : IsKey a) (hb : IsKey b)
    {o : Ordering} :
    compareComponent order a b = .ok o ↔
      order.nulls.place a b ≠ .eq ∧ order.nulls.place a b = o ∨
        order.nulls.place a b = .eq ∧
          compareUnequal a b = .ok (if order.descending then o.swap else o) := by
  have reversed : compareUnequal.reversed order.descending a b = .ok o ↔
      compareUnequal a b = .ok (if order.descending then o.swap else o) := by
    cases order.descending with
    | false => exact .rfl
    | true => exact compareUnequal_ordersOn.ok_iff_swap hb ha
  rw [compareComponent, Comparison.thenBy_eq_ok, reversed]
  simp only [Except.ok.injEq]
  constructor
  · rintro (⟨rfl, hne⟩ | h)
    · exact .inl ⟨hne, rfl⟩
    · exact .inr h
  · rintro (⟨hne, rfl⟩ | h)
    · exact .inl ⟨rfl, hne⟩
    · exact .inr h

/-- The first components decide unless they are level. -/
theorem compareKeys_cons {order : KeyOrder} {orders : List KeyOrder} {a b : Value}
    {as bs : List Value} (ha : IsKey a) (hb : IsKey b) {o : Ordering} :
    compareKeys (order :: orders) (a :: as) (b :: bs) = .ok o ↔
      compareComponent order a b = .ok o ∧ o ≠ .eq ∨
        compareComponent order a b = .ok .eq ∧ compareKeys orders as bs = .ok o := by
  rw [compareComponent_eq_ok order ha hb, compareComponent_eq_ok order ha hb,
    compareUnequal_eq_ok ha hb, compareUnequal_eq_ok ha hb, compareKeys,
    equals_eq_beq ha.floatFree hb.floatFree]
  have unequal := compare_ne_eq ha hb
  cases order.nulls.place a b with
  | lt | gt => cases o <;> simp
  | eq =>
    cases heq : a == b with
    | true => cases order.descending <;> cases o <;> simp
    | false =>
      have unequal := unequal heq
      cases hcompare : compare a b with
      | error e => simp [bind, Except.bind]
      | ok o' =>
        cases order.descending <;> cases o <;> cases o' <;>
          simp_all [bind, Except.bind, pure, Except.pure]

theorem IsKeyFor.cons {order : KeyOrder} {orders : List KeyOrder} {key : List Value}
    (h : IsKeyFor (order :: orders) key) :
    ∃ v rest, key = v :: rest ∧ IsKey v ∧ IsKeyFor orders rest := by
  obtain ⟨hlength, hkey⟩ := h
  cases key with
  | nil => simp at hlength
  | cons v rest =>
    obtain ⟨hv, hrest⟩ := List.forall_mem_cons.1 hkey
    exact ⟨v, rest, rfl, hv, by simpa using hlength, hrest⟩

/-- Keys are ordered where they compare. -/
theorem compareKeys_ordersOn (orders : List KeyOrder) :
    (compareKeys orders).OrdersOn (IsKeyFor orders) := by
  induction orders with
  | nil =>
    have level {k l : List Value} {o : Ordering} : compareKeys [] k l = .ok o ↔ o = .eq := by
      rw [compareKeys, Except.ok.injEq, eq_comm]
      simp
    refine ⟨fun _ _ h => ?_, fun _ _ _ h h' _ _ => ?_⟩
    · rw [level] at h ⊢
      rw [h]; rfl
    · rw [level] at h h' ⊢
      rw [h, h']; rfl
  | cons order orders ih =>
    have laws : Comparison.OrdersOn
        (Comparison.thenBy
          (fun k l => compareComponent order (k.headD .null) (l.headD .null))
          (fun k l => compareKeys orders k.tail l.tail)) (IsKeyFor (order :: orders)) := by
      refine .thenBy ((compareComponent_ordersOn order).comap (List.headD · .null) fun key h => ?_)
        (ih.comap List.tail fun key h => ?_)
      · obtain ⟨v, rest, rfl, hv, -⟩ := h.cons
        exact hv
      · obtain ⟨v, rest, rfl, -, hrest⟩ := h.cons
        exact hrest
    refine laws.of_ok_iff fun {k l o} hk hl => ?_
    obtain ⟨a, as, rfl, ha, -⟩ := hk.cons
    obtain ⟨b, bs, rfl, hb, -⟩ := hl.cons
    rw [compareKeys_cons ha hb, Comparison.thenBy_eq_ok]
    rfl

/-! ### Failures -/

mutual

theorem compare_error (a b : Value) {e : Error} (h : compare a b = .error e) :
    e.kind? = some .notComparable := by
  unfold compare at h
  split at h
  · cases h
  · cases h
  · cases h
  · exact compareAll_error _ _ h
  · exact compareAll_error _ _ h
  · split at h
    · cases h
    · cases h
      rfl

theorem compareAll_error (as bs : List Value) {e : Error} (h : compareAll as bs = .error e) :
    e.kind? = some .notComparable := by
  match as, bs with
  | [], [] | [], _ :: _ | _ :: _, [] => simp [compareAll] at h
  | a :: as, b :: bs =>
    rw [compareAll] at h
    cases hab : compare a b with
    | error e' =>
      rw [hab] at h
      obtain rfl : e' = e := Except.error.inj h
      exact compare_error a b hab
    | ok order =>
      rw [hab] at h
      cases order with
      | eq => exact compareAll_error as bs h
      | lt | gt => cases h

end

theorem compareKeys_error (orders : List KeyOrder) (as bs : List Value) {e : Error}
    (h : compareKeys orders as bs = .error e) : e.kind? = some .notComparable := by
  induction orders generalizing as bs with
  | nil => cases h
  | cons order orders ih =>
    match as, bs with
    | [], _ | _ :: _, [] => cases h
    | a :: as, b :: bs =>
      rw [compareKeys] at h
      split at h
      · split at h
        · exact ih as bs h
        · cases hab : compare a b with
          | error e' =>
            rw [hab] at h
            obtain rfl : e' = e := Except.error.inj h
            exact compare_error a b hab
          | ok result =>
            rw [hab] at h
            cases h
      · cases h

/-! ### Sorting -/

theorem sortByKeys_eq_map (orders : List KeyOrder) (keyed : List (List Value × Value))
    (reverse : Bool) :
    sortByKeys orders keyed reverse =
      (Comparison.sort (Comparison.reversed (fun a b => compareKeys orders a.1 b.1) reverse)
        keyed).map (List.map (·.2)) := by
  show (Comparison.sort (Comparison.reversed (fun a b => compareKeys orders a.1 b.1) reverse)
    keyed >>= fun rows => pure (rows.map (·.2))) = _
  generalize Comparison.sort _ keyed = result
  cases result <;> rfl

/-- **Sorting is stable sorting, or it fails**, by keys and by the order of values.  It fails just
    if two rows at different positions do not compare.  The error says so, unless more than 20 rows
    are sorted and it comes to light that what counts as a tie is no order. -/
theorem sorts_stably_or_fails (reverse : Bool) :
    (∀ (orders : List KeyOrder) (keyed : List (List Value × Value)),
      (∀ row ∈ keyed, IsKeyFor orders row.1) →
        ∃ result, sortByKeys orders keyed reverse = result.map (List.map (·.2)) ∧
          Comparison.SortsOrFails (fun a b => compareKeys orders a.1 b.1) reverse keyed result) ∧
    ∀ items : List Value, (∀ v ∈ items, FloatFree v) →
      Comparison.SortsOrFails compare reverse items (sort items reverse) := by
  refine ⟨fun orders keyed h => ⟨_, sortByKeys_eq_map orders keyed reverse,
    Comparison.sort_sortsOrFails ?_ reverse fun a b e => compareKeys_error orders a.1 b.1⟩,
    fun items h => Comparison.sort_sortsOrFails ?_ reverse fun a b e => compare_error a b⟩
  · exact (compareKeys_ordersOn orders).comap Prod.fst h
  · exact compare_ordersOn.mono h

/-- The rows with null as their key tie and come last; a number and a string do not compare. -/
theorem sorts_stably_or_fails_rows :
    (∃ result, sortByKeys [⟨true, .last⟩] [([.null], .str "c"), ([.int 1], .str "b"),
        ([.null], .str "d"), ([.int 2], .str "a")] false = result.map (List.map (·.2)) ∧
      Comparison.SortsOrFails (fun a b => compareKeys [⟨true, .last⟩] a.1 b.1) false
        [([.null], .str "c"), ([.int 1], .str "b"), ([.null], .str "d"), ([.int 2], .str "a")]
        result) ∧
    sortByKeys [⟨true, .last⟩] [([.null], .str "c"), ([.int 1], .str "b"), ([.null], .str "d"),
      ([.int 2], .str "a")] false = .ok [.str "a", .str "b", .str "c", .str "d"] ∧
    Comparison.SortsOrFails compare false [.int 1, .str "b", .int 0]
      (sort [.int 1, .str "b", .int 0] false) ∧
    sort [.int 1, .str "b", .int 0] false = .error (.notComparable "str" "int") := by
  have null : IsKeyFor [⟨true, .last⟩] [.null] := ⟨rfl, by simpa using ⟨trivial, trivial⟩⟩
  have int (n : Int64) : IsKeyFor [⟨true, .last⟩] [.int n] :=
    ⟨rfl, by simpa using ⟨trivial, trivial⟩⟩
  refine ⟨(sorts_stably_or_fails false).1 _ _ ?_, rfl, (sorts_stably_or_fails false).2 _ ?_, rfl⟩
  · simp [null, int]
  · simp [FloatFree]

/-- There is a list of which not all elements compare, and of which sorting does not say so. -/
theorem exists_sort_disorder : ∃ items : List Value, (∀ v ∈ items, FloatFree v) ∧
    (∃ e, Comparison.Clash compare items e) ∧ sort items false = .error .disorder ∧
    Error.disorder.kind? ≠ some .notComparable := by
  refine ⟨[.int 0, .int 0, .int 1, .int 0, .str "b"] ++ List.replicate 7 (.int 0) ++
    .int 1 :: List.replicate 6 (.int 0) ++ [.int 1, .int 0], by simp [FloatFree],
    ⟨.notComparable "int" "str", .int 0, .str "b", ?_, rfl⟩, rfl, by decide⟩
  exact List.Sublist.subperm (by simp)

end Value
end DataExpr
