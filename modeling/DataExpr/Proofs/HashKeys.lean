import DataExpr.Proofs.ExactDoubles
import DataExpr.Proofs.KeyedReducers
import DataExpr.Value.Lookup
import DataExpr.Value.Order

/-!
# Which values meet under their keys

A key stands for the value that it is made from.  Two values are equal just if their keys are, but
for an integer and a float of a magnitude beyond which a float keeps its own key.  In a set or a
dictionary the stored keys are taken as they are, so that a float which is stored is not found by an
integer.
-/

namespace DataExpr.Value

/-! ### Keys of floats -/

/-- The magnitude below which an integral float has the key of an integer. -/
def keyBound : Nat := 9000000000000000

/-- Whether a float has the key of an integer. -/
def hasIntKey (x : Double) : Bool := x.isIntegral && decide (x.truncate.natAbs < keyBound)

theorem hashKey_float (x : Double) :
    hashKey (.float x) =
      if hasIntKey x then .int (Int64.ofInt x.truncate) else .float x := rfl

theorem toInt_ofInt {n : Int} (small : n.natAbs < keyBound) : (Int64.ofInt n).toInt = n := by
  rw [keyBound] at small
  exact Int64.toInt_ofInt_of_le (by show -2 ^ 63 ≤ n; omega) (by omega)

/-- The floats that equal an integer of modest size are those with its key. -/
theorem promote_eq_iff {n : Int64} (small : n.toInt.natAbs < keyBound) {x : Double} :
    promote n = x ↔ hasIntKey x = true ∧ Int64.ofInt x.truncate = n := by
  rw [hasIntKey, Bool.and_eq_true, decide_eq_true_eq]
  constructor
  · rintro rfl
    have bounded : n.toInt.natAbs < 2 ^ 53 := Nat.lt_trans small (by decide)
    obtain ⟨integral, value⟩ := Double.truncate_ofInt bounded
    rw [promote, value]
    exact ⟨⟨integral, small⟩, Int64.ofInt_toInt n⟩
  · rintro ⟨⟨integral, bounded⟩, rfl⟩
    rw [promote, toInt_ofInt bounded]
    exact Double.ofInt_truncate integral (by rw [keyBound] at bounded; omega)

theorem hasIntKey_small {n : Int64} {x : Double} (h : hasIntKey x = true)
    (value : Int64.ofInt x.truncate = n) : n.toInt.natAbs < keyBound := by
  rw [hasIntKey, Bool.and_eq_true, decide_eq_true_eq] at h
  rw [← value, toInt_ofInt h.2]
  exact h.2

/-! ### Equality of numbers -/

theorem equals_int_float (n : Int64) (x : Double) :
    equals (.int n) (.float x) = (promote n == x) :=
  Double.toFloat_beq (promote n) x

theorem equals_float_int (x : Double) (n : Int64) :
    equals (.float x) (.int n) = (x == promote n) :=
  Double.toFloat_beq x (promote n)

theorem equals_float (x y : Double) : equals (.float x) (.float y) = (x == y) :=
  Double.toFloat_beq x y

/-! ### Keys and equality -/

/-- An integer of a magnitude beyond the bound of the keys, and a float. -/
def wideMix : Value → Value → Bool
  | .int n, .float _ | .float _, .int n => decide (keyBound ≤ n.toInt.natAbs)
  | _, _ => false

/-- An integer has the key of a float just if they are equal and the integer is of modest size. -/
theorem int_beq_hashKey (n : Int64) (x : Double) :
    (Value.int n == hashKey (.float x)) =
      (equals (.int n) (.float x) && decide (n.toInt.natAbs < keyBound)) := by
  have same : (Value.int n == hashKey (.float x)) = true ↔
      hasIntKey x = true ∧ Int64.ofInt x.truncate = n := by
    rw [hashKey_float]
    cases hasIntKey x with
    | false =>
      simp only [Bool.false_eq_true, if_false, false_and, iff_false]
      exact Bool.false_ne_true
    | true =>
      show (n == Int64.ofInt x.truncate) = true ↔ _
      rw [beq_iff_eq, eq_comm]
      simp
  rw [Bool.eq_iff_iff, same, equals_int_float, Bool.and_eq_true, beq_iff_eq, decide_eq_true_eq]
  constructor
  · intro h
    have small := hasIntKey_small h.1 h.2
    exact ⟨(promote_eq_iff small).2 h, small⟩
  · rintro ⟨h, small⟩
    exact (promote_eq_iff small).1 h

/-- Floats have the same key just if they are equal. -/
theorem hashKey_float_beq (x y : Double) :
    (hashKey (.float x) == hashKey (.float y)) = (x == y) := by
  cases hx : hasIntKey x with
  | true =>
    have small := hasIntKey_small hx rfl
    have value := (promote_eq_iff small).2 ⟨hx, rfl⟩
    have key : hashKey (.float x) = .int (Int64.ofInt x.truncate) := by
      rw [hashKey_float, if_pos hx]
    rw [key, int_beq_hashKey, equals_int_float, value, decide_eq_true small, Bool.and_true]
  | false =>
    have key : hashKey (.float x) = .float x := by rw [hashKey_float, hx]; rfl
    rw [key, hashKey_float y]
    split
    next hy =>
      refine (beq_eq_false_iff_ne.2 fun h => ?_).symm
      rw [h, hy] at hx
      exact Bool.noConfusion hx
    next => rfl

/-- **Two values have the same key just if they are equal**, unless one is a float and the other an
    integer beyond the bound of the keys; these never have the same key. -/
theorem hashKey_beq (a b : Value) :
    (a.hashKey == b.hashKey) = (a.equals b && !wideMix a b) := by
  cases a with
  | int n =>
    cases b with
    | int m => exact (Bool.and_true _).symm
    | float x =>
      refine (int_beq_hashKey n x).trans (congrArg _ ?_)
      rw [wideMix, ← decide_not, decide_eq_decide, Nat.not_le]
    | _ => rfl
  | float x =>
    cases b with
    | int n =>
      have proper : Proper (hashKey (.float x)) := by
        rw [hashKey_float]
        split <;> trivial
      have swapped : equals (.float x) (.int n) = equals (.int n) (.float x) := by
        rw [equals_float_int, equals_int_float, BEq.comm]
      rw [swapped]
      refine (Proper.beq_comm (b := .int n) proper trivial).trans ?_
      refine (int_beq_hashKey n x).trans (congrArg _ ?_)
      rw [wideMix, ← decide_not, decide_eq_decide, Nat.not_le]
    | float y =>
      rw [equals_float]
      exact (hashKey_float_beq x y).trans (Bool.and_true _).symm
    | _ =>
      rw [hashKey_float]
      split <;> rfl
  | _ =>
    cases b with
    | float y =>
      rw [hashKey_float y]
      split <;> rfl
    | _ => exact (Bool.and_true _).symm

/-- There are equal values with different keys: the least integer beyond the bound, as a float. -/
theorem exists_equals_hashKey_ne : ∃ a b : Value,
    a.equals b = true ∧ (a.hashKey == b.hashKey) = false :=
  ⟨.int 9000000000000000, .float (promote 9000000000000000), by decide +kernel, by decide +kernel⟩

/-! ### Membership -/

/-- Whether a stored element and an item meet under one of the item's keys if they are equal. -/
def meets : Value → Value → Bool
  | .float _, .int _ => false
  | .int n, .float _ => decide (n.toInt.natAbs < keyBound)
  | _, _ => true

/-- A stored element that is looked for under an item and under its key. -/
theorem stored_beq (x v : Value) : (x == v || x == v.hashKey) = (x.equals v && meets x v) := by
  cases x with
  | int n =>
    cases v with
    | int m => exact (Bool.or_self _).trans (Bool.and_true _).symm
    | float y => exact (Bool.false_or _).trans (int_beq_hashKey n y)
    | _ => rfl
  | float x =>
    cases v with
    | int n => exact (Bool.and_false _).symm
    | float y =>
      rw [equals_float]
      refine Eq.trans ?_ (Bool.and_true _).symm
      rw [hashKey_float]
      split
      · exact Bool.or_false _
      · exact Bool.or_self _
    | _ => rfl
  | _ =>
    cases v with
    | float y =>
      rw [hashKey_float]
      split <;> rfl
    | _ => exact (Bool.or_self _).trans (Bool.and_true _).symm

/-- Equal elements are found alike, so that it does not matter which of them has been kept. -/
theorem any_distinct (items : List Value) {p : Value → Bool}
    (respects : ∀ a b, (a == b) = true → p b = true → p a = true) :
    (distinct items).any p = items.any p := by
  have kept (seen : List Value) :
      (items.foldl (fun seen v => if seen.any (· == v) then seen else seen ++ [v]) seen).any p =
        (seen.any p || items.any p) := by
    induction items generalizing seen with
    | nil => simp
    | cons a rest ih =>
      rw [List.foldl_cons, ih]
      split
      next present =>
        obtain ⟨s, hs, hsa⟩ := List.any_eq_true.1 present
        have covered : (seen.any p || p a) = seen.any p := by
          rw [Bool.or_eq_left_iff_imp]
          exact fun ha => List.any_eq_true.2 ⟨s, hs, respects s a hsa ha⟩
        rw [List.any_cons, ← Bool.or_assoc, covered]
      next => simp [Bool.or_assoc]
  rw [distinct_eq_foldl, kept]
  rfl

theorem any_stored (items : List Value) (v : Value) :
    (items.any (· == v) || items.any (· == v.hashKey)) =
      items.any fun x => x.equals v && meets x v := by
  simp only [← stored_beq]
  rw [Bool.eq_iff_iff]
  simp only [Bool.or_eq_true, List.any_eq_true]
  constructor
  · rintro (⟨x, hx, h⟩ | ⟨x, hx, h⟩)
    · exact ⟨x, hx, .inl h⟩
    · exact ⟨x, hx, .inr h⟩
  · rintro ⟨x, hx, h | h⟩
    · exact .inl ⟨x, hx, h⟩
    · exact .inr ⟨x, hx, h⟩

/-- **Membership in lists, sets and dictionaries.**  In a list an item is found if it equals an
    element.  In a set of the same elements, and in a dictionary with these keys, it is found if it
    also meets that element: an integer is not found by way of a float, nor a float by way of an
    integer beyond the bound of the keys.  A dictionary has an entry for just the items found. -/
theorem contains_eq (v : Value) :
    (∀ xs, contains (.list xs) v = .ok (xs.any fun x => x.equals v)) ∧
    (∀ xs, contains (ofSet xs) v = .ok (xs.any fun x => x.equals v && meets x v)) ∧
    ∀ entries, contains (.dict entries) v =
        .ok ((entries.map (·.1)).any fun x => x.equals v && meets x v) ∧
      ((∃ value, getItem (.dict entries) v = .ok value) ↔
        contains (.dict entries) v = .ok true) := by
  refine ⟨fun xs => rfl, fun xs => ?_, fun entries => ⟨?_, ?_⟩⟩
  · have respects (w : Value) : (distinct xs).any (· == w) = xs.any (· == w) :=
      any_distinct xs fun a b hab hb => beq_trans a b w hab hb
    rw [← any_stored, ← respects, ← respects]
    rfl
  · rw [← any_stored, List.any_map, List.any_map]
    rfl
  · have found : contains (.dict entries) v =
        .ok ((Entries.get? entries v).or (Entries.get? entries v.hashKey)).isSome := by
      rw [Option.isSome_or, ← Entries.any_keys, ← Entries.any_keys, List.any_map, List.any_map]
      rfl
    rw [found, getItem]
    cases (Entries.get? entries v).or (Entries.get? entries v.hashKey) <;> simp

/-- A float that is stored in a set is not found by the integer that it equals. -/
theorem exists_contains_ne : ∃ (xs : List Value) (v : Value),
    contains (.list xs) v = .ok true ∧ contains (ofSet xs) v = .ok false :=
  ⟨[.float (promote 1)], .int 1, by decide +kernel, by decide +kernel⟩

end DataExpr.Value
