import Mathlib.Data.Nat.Find
import DataExpr.Proofs.KeyOrder

/-!
# The components that decide between keys

Of two keys the first components that are not equal decide (`Value.compareKeys_of_unequal`).
Equality promotes numbers at the top only, and the order promotes them in lists and tuples too, so
that a list of integers may be level with a list of floats without being equal to it.  Where such
components come first, the keys are level and the components that follow are not asked.
-/

namespace DataExpr

/-- What two components of keys decide: the place of nulls if it is given and just one of them is
    null, and otherwise their order, in the direction of the key. -/
def KeyOrder.decision (order : KeyOrder) (a b : Value) : Except Error Ordering :=
  match order.nulls, a.isNull, b.isNull with
  | .first, true, false | .last, false, true => .ok .lt
  | .first, false, true | .last, true, false => .ok .gt
  | _, _, _ =>
    (Value.compare a b).map fun result => if order.descending then result.swap else result

namespace Value

/-- Components that do not tell two keys apart. -/
inductive Ties (a b : Value) : Prop
  | null (ha : a.isNull = true) (hb : b.isNull = true)
  | level (h : compare a b = .ok .eq)
  | equal (h : a.equals b = true)

variable {a b : Value} {order : KeyOrder} {orders : List KeyOrder} {as bs : List Value}

/-! ### Components -/

theorem eq_null_of_isNull (h : a.isNull = true) : a = .null := by
  cases a <;> first | rfl | cases h

theorem isNull_of_equals (h : a.equals b = true) : a.isNull = b.isNull := by
  cases a <;> cases b <;> first | rfl | cases h

/-- A null has no order. -/
theorem isNull_of_level (h : compare a b = .ok .eq) : a.isNull = false ∧ b.isNull = false := by
  cases a <;> cases b <;> first | exact ⟨rfl, rfl⟩ | cases h

theorem Ties.equal_or_level (h : Ties a b) : a.equals b = true ∨ compare a b = .ok .eq := by
  cases h with
  | null ha hb =>
    rw [eq_null_of_isNull ha, eq_null_of_isNull hb]
    exact .inl rfl
  | level h => exact .inr h
  | equal h => exact .inl h

theorem decision_eq (order : KeyOrder) (a b : Value) :
    order.decision a b = match order.nulls.place a b with
      | .eq => (compare a b).map fun result => if order.descending then result.swap else result
      | placed => .ok placed := by
  unfold KeyOrder.decision NullOrder.place
  cases order.nulls <;> cases a.isNull <;> cases b.isNull <;> rfl

/-- Components decide that the keys are level just if they are. -/
theorem decision_eq_level : order.decision a b = .ok .eq ↔ compare a b = .ok .eq := by
  constructor
  · intro h
    rw [decision_eq] at h
    cases hplace : order.nulls.place a b with
    | lt | gt =>
      rw [hplace] at h
      cases h
    | eq =>
      rw [hplace] at h
      cases hab : compare a b with
      | error e =>
        rw [hab] at h
        cases h
      | ok result =>
        rw [hab] at h
        have level := Except.ok.inj h
        cases result <;> cases hd : order.descending <;> simp [hd] at level ⊢
  · intro h
    obtain ⟨ha, hb⟩ := isNull_of_level h
    rw [KeyOrder.decision, ha, hb, h]
    cases order.nulls <;> cases order.descending <;> rfl

theorem decision_of_not_ties (h : ¬ Ties a b) : order.decision a b ≠ .ok .eq :=
  fun level => h (.level (decision_eq_level.mp level))

/-- Lists and tuples have no floats in them. -/
def FloatsOnTop : Value → Prop
  | .list items | .tuple items => FloatFreeAll items
  | _ => True

theorem beq_of_level {x y : Double} (h : x.compare y = .eq) : (x.toFloat == y.toFloat) = true := by
  unfold Double.compare at h
  split at h
  · cases h
  · split at h
    · assumption
    · cases h

/-- The order promotes what equality does not promote only in lists and tuples. -/
theorem equal_of_level (ha : FloatsOnTop a) (hb : FloatsOnTop b) (h : compare a b = .ok .eq) :
    a.equals b = true := by
  have floatFree (ha : FloatFree a) (hb : FloatFree b) : a.equals b = true := by
    rw [equals_eq_beq ha hb]
    exact beq_of_compare a b ha hb h
  cases a with
  | int m =>
    cases b with
    | int n => exact floatFree trivial trivial
    | float y => exact beq_of_level (Except.ok.inj h)
    | _ => cases h
  | float x =>
    cases b with
    | int _ | float _ => exact beq_of_level (Except.ok.inj h)
    | _ => cases h
  | list | tuple => cases b <;> first | exact floatFree ha hb | cases h
  | bool | str => cases b <;> first | exact floatFree trivial trivial | cases h
  | null | set | dict | function | object => cases b <;> cases h

theorem equal_of_ties (h : Ties a b) (ha : FloatsOnTop a) (hb : FloatsOnTop b) :
    a.equals b = true :=
  h.equal_or_level.elim id (equal_of_level ha hb)

/-! ### Keys -/

theorem compareKeys_cons_of_equal (h : a.equals b = true) :
    compareKeys (order :: orders) (a :: as) (b :: bs) = compareKeys orders as bs := by
  have place : order.nulls.place a b = .eq := by
    unfold NullOrder.place
    rw [isNull_of_equals h]
    cases order.nulls <;> cases b.isNull <;> rfl
  rw [compareKeys, place]
  exact if_pos h

theorem compareKeys_cons_of_unequal (h : a.equals b = false) :
    compareKeys (order :: orders) (a :: as) (b :: bs) = order.decision a b := by
  rw [compareKeys, decision_eq, h]
  cases order.nulls.place a b with
  | lt | gt => rfl
  | eq => cases compare a b <;> rfl

theorem compareKeys_of_equal (has : as.length = orders.length) (hbs : bs.length = orders.length)
    (equal : ∀ i (hi : i < orders.length), as[i].equals bs[i] = true) :
    compareKeys orders as bs = .ok .eq := by
  induction orders generalizing as bs with
  | nil => rfl
  | cons order orders ih =>
    cases as with
    | nil => cases has
    | cons a as =>
      cases bs with
      | nil => cases hbs
      | cons b bs =>
        have first : a.equals b = true := equal 0 (Nat.zero_lt_succ _)
        rw [compareKeys_cons_of_equal first]
        exact ih (Nat.succ.inj has) (Nat.succ.inj hbs) fun i hi =>
          equal (i + 1) (Nat.succ_lt_succ hi)

/-- **The first components that are not equal decide.** -/
theorem compareKeys_of_unequal (has : as.length = orders.length) (hbs : bs.length = orders.length)
    {i : Nat} (hi : i < orders.length) (equal : ∀ j (hj : j < i), as[j].equals bs[j] = true)
    (unequal : as[i].equals bs[i] = false) :
    compareKeys orders as bs = orders[i].decision as[i] bs[i] := by
  induction orders generalizing as bs i with
  | nil => cases hi
  | cons order orders ih =>
    cases as with
    | nil => cases has
    | cons a as =>
      cases bs with
      | nil => cases hbs
      | cons b bs =>
        cases i with
        | zero => exact compareKeys_cons_of_unequal unequal
        | succ i =>
          have first : a.equals b = true := equal 0 (Nat.zero_lt_succ _)
          rw [compareKeys_cons_of_equal first]
          exact ih (Nat.succ.inj has) (Nat.succ.inj hbs) (Nat.lt_of_succ_lt_succ hi)
            (fun j hj => equal (j + 1) (Nat.succ_lt_succ hj)) unequal

/-- Keys are level if their components tie up to some that are not equal. -/
theorem compareKeys_of_level (has : as.length = orders.length) (hbs : bs.length = orders.length)
    {n : Nat} (hn : n ≤ orders.length) (ties : ∀ i (hi : i < n), Ties as[i] bs[i])
    (unequal : ∃ i, ∃ hi : i < n, as[i].equals bs[i] = false) :
    compareKeys orders as bs = .ok .eq := by
  classical
  obtain ⟨hi, here⟩ := Nat.find_spec unequal
  have before : ∀ j (hj : j < Nat.find unequal), as[j].equals bs[j] = true := by
    intro j hj
    have notFirst := Nat.find_min unequal hj
    by_contra here
    exact notFirst ⟨hj.trans hi, Bool.eq_false_iff.mpr here⟩
  rw [compareKeys_of_unequal has hbs (by omega) before here, decision_eq_level]
  exact (ties _ hi).equal_or_level.resolve_left (ne_true_of_eq_false here)

/-- Where lists and tuples have no floats in them, the first components that do not tie decide. -/
theorem compareKeys_of_not_ties (has : as.length = orders.length) (hbs : bs.length = orders.length)
    (onTop : ∀ v ∈ as ++ bs, FloatsOnTop v) {i : Nat} (hi : i < orders.length)
    (ties : ∀ j (hj : j < i), Ties as[j] bs[j]) (untied : ¬ Ties as[i] bs[i]) :
    compareKeys orders as bs = orders[i].decision as[i] bs[i] := by
  apply compareKeys_of_unequal has hbs hi
  · intro j hj
    apply equal_of_ties (ties j hj)
    · exact onTop _ (List.mem_append_left bs (List.getElem_mem _))
    · exact onTop _ (List.mem_append_right as (List.getElem_mem _))
  · exact Bool.eq_false_iff.mpr fun h => untied (.equal h)

/-- **The order of keys is lexicographic, up to components that are level without being equal.**
    Where all components before the first that do not tie are equal, these decide; where some are
    not, the keys are level, although the first that do not tie never decide so. -/
theorem compareKeys_lexicographic (orders : List KeyOrder) (as bs : List Value)
    (has : as.length = orders.length) (hbs : bs.length = orders.length) :
    ((∀ i (hi : i < orders.length), Ties as[i] bs[i]) → compareKeys orders as bs = .ok .eq) ∧
    ∀ i (hi : i < orders.length), (∀ j (hj : j < i), Ties as[j] bs[j]) → ¬ Ties as[i] bs[i] →
      ((∀ j (hj : j < i), as[j].equals bs[j] = true) →
        compareKeys orders as bs = orders[i].decision as[i] bs[i]) ∧
      ((∃ j, ∃ hj : j < i, as[j].equals bs[j] = false) → compareKeys orders as bs = .ok .eq) ∧
      orders[i].decision as[i] bs[i] ≠ .ok .eq := by
  constructor
  · intro ties
    by_cases equal : ∀ i (hi : i < orders.length), as[i].equals bs[i] = true
    · exact compareKeys_of_equal has hbs equal
    · push Not at equal
      obtain ⟨i, hi, unequal⟩ := equal
      exact compareKeys_of_level has hbs le_rfl ties ⟨i, hi, Bool.eq_false_iff.mpr unequal⟩
  · intro i hi ties untied
    constructor
    · intro equal
      apply compareKeys_of_unequal has hbs hi equal
      exact Bool.eq_false_iff.mpr fun h => untied (.equal h)
    · exact ⟨compareKeys_of_level has hbs hi.le ties, decision_of_not_ties untied⟩

/-- Two nulls, an integer and the float of its value, and two tuples tie; an integer and a string
    have no order. -/
theorem compareKeys_lexicographic_error :
    compareKeys [⟨false, .last⟩, ⟨true, .natural⟩, ⟨false, .first⟩, ⟨true, .natural⟩]
      [.null, .int 1, .tuple [.int 1, .str "x"], .int 3]
      [.null, .float ⟨0x3ff0000000000000, rfl⟩, .tuple [.int 1, .str "x"], .str "a"] =
      .error (.notComparable "int" "str") := by
  have untied : ¬ Ties (.int 3) (.str "a") := by
    rintro (⟨ha, -⟩ | h | h)
    · cases ha
    · cases h
    · cases h
  apply ((compareKeys_lexicographic _ _ _ rfl rfl).2 3 (by decide) ?_ untied).1
  · decide +kernel
  · intro j hj
    apply Ties.equal
    revert j
    decide +kernel

/-- A list of an integer and one of a float are level, but they are not equal, so that the integers
    after them are not compared. -/
theorem compareKeys_not_lexicographic :
    Ties (.list [.int 1]) (.list [.float ⟨0x3ff0000000000000, rfl⟩]) ∧
    ¬ Ties (.int 2) (.int 1) ∧
    KeyOrder.decision ⟨false, .natural⟩ (.int 2) (.int 1) = .ok .gt ∧
    compareKeys [⟨false, .natural⟩, ⟨false, .natural⟩] [.list [.int 1], .int 2]
      [.list [.float ⟨0x3ff0000000000000, rfl⟩], .int 1] = .ok .eq := by
  have untied : ¬ Ties (.int 2) (.int 1) := by
    rintro (⟨ha, -⟩ | h | h)
    · cases ha
    · cases h
    · cases h
  exact ⟨.level (by decide +kernel), untied, by decide +kernel, by decide +kernel⟩

end Value
end DataExpr
