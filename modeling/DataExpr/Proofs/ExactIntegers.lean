import Mathlib.Algebra.Order.Field.Basic
import Mathlib.Data.Rat.Floor
import DataExpr.Value.Arithmetic

/-!
# Exact integer arithmetic

An operation on integers of 64 bits gives the exact result where that has 64 bits, and an overflow
where it has not.  The quotient is the floor of the rational one, and the remainder is what that
leaves.  Two kinds of results are missed although they fit: the remainder of the least integer by
minus one, whose quotient does not fit, and the powers of minus one, zero and one whose exponent has
more than 32 bits.
-/

namespace DataExpr.Value

/-- The result of an operation is this integer if it fits in 64 bits, and an overflow if not. -/
def IsExact (operation : String) (n : Int) (result : Except Error Value) : Prop :=
  (∃ k : Int64, k.toInt = n ∧ result = .ok (.int k)) ∨
    (∀ k : Int64, k.toInt ≠ n) ∧ result = .error (.overflow operation)

/-! ### Which integers fit -/

theorem exists_toInt_eq_iff (n : Int) :
    (∃ k : Int64, k.toInt = n) ↔ -2 ^ 63 ≤ n ∧ n < 2 ^ 63 := by
  constructor
  · rintro ⟨k, rfl⟩
    exact ⟨k.le_toInt, k.toInt_lt⟩
  · rintro ⟨least, greatest⟩
    exact ⟨Int64.ofInt n, Int64.toInt_ofInt_of_le least greatest⟩

theorem isExact_ofInt {operation : String} {n : Int} (least : -2 ^ 63 ≤ n)
    (greatest : n < 2 ^ 63) : IsExact operation n (.ok (.int (Int64.ofInt n))) :=
  .inl ⟨_, Int64.toInt_ofInt_of_le least greatest, rfl⟩

theorem isExact_overflow {operation : String} {n : Int} (large : 2 ^ 63 < n.natAbs) :
    IsExact operation n (.error (.overflow operation)) := by
  refine .inr ⟨fun k hk => ?_, rfl⟩
  have bounds := (exists_toInt_eq_iff n).1 ⟨k, hk⟩
  omega

theorem isExact_checked (operation : String) (n : Int) :
    IsExact operation n (checked operation n) := by
  unfold checked ofInt?
  by_cases fits : -0x8000000000000000 ≤ n ∧ n < 0x8000000000000000
  · rw [if_pos fits]
    exact isExact_ofInt fits.1 fits.2
  · rw [if_neg fits]
    refine .inr ⟨fun k hk => fits ?_, rfl⟩
    exact (exists_toInt_eq_iff n).1 ⟨k, hk⟩

/-! ### Quotients and remainders -/

theorem fdiv_eq_floor (n : Int) {d : Int} (hd : d ≠ 0) : n.fdiv d = ⌊(n / d : ℚ)⌋ := by
  symm
  rw [Int.floor_eq_iff]
  have split : n.fmod d + d * n.fdiv d = n := Int.fmod_add_mul_fdiv n d
  have splitQ : (n : ℚ) = n.fmod d + d * n.fdiv d := by exact_mod_cast split.symm
  rcases Int.lt_or_gt_of_ne hd with negative | positive
  · have negativeQ : (d : ℚ) < 0 := by exact_mod_cast negative
    obtain ⟨-, low, high⟩ := (Int.fdiv_fmod_unique' negative).1 ⟨rfl, rfl⟩
    have lowQ : (d : ℚ) < n.fmod d := by exact_mod_cast low
    have highQ : (n.fmod d : ℚ) ≤ 0 := by exact_mod_cast high
    rw [le_div_iff_of_neg negativeQ, div_lt_iff_of_neg negativeQ]
    constructor <;> linarith
  · have positiveQ : (0 : ℚ) < d := by exact_mod_cast positive
    have lowQ : (0 : ℚ) ≤ n.fmod d := by exact_mod_cast Int.fmod_nonneg_of_pos n positive
    have highQ : (n.fmod d : ℚ) < d := by exact_mod_cast Int.fmod_lt_of_pos n positive
    rw [le_div_iff₀ positiveQ, div_lt_iff₀ positiveQ]
    constructor <;> linarith

/-- A remainder is smaller than the divisor and has its sign. -/
theorem fmod_sign (n : Int) {d : Int} (hd : d ≠ 0) :
    (n.fmod d).natAbs < d.natAbs ∧ (n.fmod d = 0 ∨ (0 < n.fmod d ↔ 0 < d)) := by
  rcases Int.lt_or_gt_of_ne hd with negative | positive
  · obtain ⟨-, low, high⟩ := (Int.fdiv_fmod_unique' (a := n) negative).1 ⟨rfl, rfl⟩
    omega
  · have low := Int.fmod_nonneg_of_pos n positive
    have high := Int.fmod_lt_of_pos n positive
    omega

theorem toInt_ne_zero {b : Int64} (hb : b ≠ 0) : b.toInt ≠ 0 := fun h =>
  hb (Int64.toInt_inj.1 h)

theorem floorDiv_isExact (a : Int64) {b : Int64} (hb : b ≠ 0) :
    IsExact "//" ⌊(a.toInt / b.toInt : ℚ)⌋ (floorDiv (.int a) (.int b)) := by
  have quotient : floorDiv (.int a) (.int b) = checked "//" (a.toInt.fdiv b.toInt) := if_neg hb
  rw [quotient, ← fdiv_eq_floor _ (toInt_ne_zero hb)]
  exact isExact_checked _ _

theorem rem_exact (a : Int64) {b : Int64} (hb : b ≠ 0) (h : ¬(a = Int64.minValue ∧ b = -1)) :
    ∃ r : Int64, rem (.int a) (.int b) = .ok (.int r) ∧
      r.toInt = a.toInt - b.toInt * ⌊(a.toInt / b.toInt : ℚ)⌋ ∧ (r = 0 ∨ (0 < r ↔ 0 < b)) := by
  have other : ¬(a.toInt = -0x8000000000000000 ∧ b.toInt = -1) := fun ⟨ha, hb⟩ =>
    h ⟨Int64.toInt_inj.1 ha, Int64.toInt_inj.1 hb⟩
  have remainder : rem (.int a) (.int b) = .ok (.int (Int64.ofInt (a.toInt.fmod b.toInt))) :=
    (if_neg hb).trans (if_neg other)
  obtain ⟨small, sign⟩ := fmod_sign a.toInt (toInt_ne_zero hb)
  have least := b.le_toInt
  have greatest := b.toInt_lt
  have value : (Int64.ofInt (a.toInt.fmod b.toInt)).toInt = a.toInt.fmod b.toInt :=
    Int64.toInt_ofInt_of_le (by omega) (by omega)
  refine ⟨_, remainder, ?_, ?_⟩
  · rw [value, Int.fmod_def, fdiv_eq_floor _ (toInt_ne_zero hb)]
  · rw [← Int64.toInt_inj, Int64.lt_iff_toInt_lt, Int64.lt_iff_toInt_lt, value]
    exact sign

/-! ### Powers -/

/-- A power of two bits or more has at least as many bits as its exponent says. -/
theorem two_pow_le_natAbs_pow {base : Int} (large : 2 ≤ base.natAbs) (exponent : Nat) :
    2 ^ exponent ≤ (base ^ exponent).natAbs := by
  rw [Int.natAbs_pow]
  exact Nat.pow_le_pow_left large exponent

/-- A power is exact, and it is given up only when it does not fit. -/
theorem boundedPow?_cases (base : Int) (exponent : Nat) :
    boundedPow? base exponent = some (base ^ exponent) ∨
      boundedPow? base exponent = none ∧ 64 ≤ exponent ∧ 2 ≤ base.natAbs := by
  unfold boundedPow?
  split_ifs with zero none one minusOne even long
  · exact .inl (by rw [none, pow_zero])
  · exact .inl (by rw [zero, zero_pow none])
  · exact .inl (by rw [one, one_pow])
  · exact .inl (by rw [minusOne, Even.neg_one_pow (Nat.even_iff.2 even)])
  · exact .inl (by rw [minusOne, Odd.neg_one_pow (Nat.odd_iff.2 (by omega))])
  · exact .inr ⟨rfl, long, by omega⟩
  · exact .inl rfl

theorem isExact_long_pow (operation : String) {base : Int} {exponent : Nat}
    (large : 2 ≤ base.natAbs) (long : 64 ≤ exponent) :
    IsExact operation (base ^ exponent) (.error (.overflow operation)) := by
  have bits : 2 ^ 64 ≤ 2 ^ exponent := Nat.pow_le_pow_right (by decide) long
  have size := two_pow_le_natAbs_pow large exponent
  exact isExact_overflow (by omega)

/-- The power as it is computed, for exponents that are not negative. -/
theorem pow_eq (a : Int64) {b : Int64} (hb : 0 ≤ b) :
    pow (.int a) (.int b) =
      if 0x100000000 ≤ b.toInt then .error (.overflow "**")
      else
        match boundedPow? a.toInt b.toInt.toNat with
        | some p => checked "**" p
        | none => .error (.overflow "**") := if_pos hb

theorem pow_isExact (a : Int64) {b : Int64} (hb : 0 ≤ b)
    (h : b.toInt < 2 ^ 32 ∨ 2 ≤ a.toInt.natAbs) :
    IsExact "**" (a.toInt ^ b.toInt.toNat) (pow (.int a) (.int b)) := by
  rw [pow_eq a hb]
  split_ifs with long
  · exact isExact_long_pow "**" (by omega) (by omega)
  · rcases boundedPow?_cases a.toInt b.toInt.toNat with found | ⟨none, many, large⟩
    · rw [found]
      exact isExact_checked _ _
    · rw [none]
      exact isExact_long_pow "**" large many

/-! ### The operations on integers -/

/-- **Integer arithmetic is exact or reports an overflow.**  A quotient and a remainder need a
    divisor that is not zero.  The remainder always fits, but it is missed where the quotient does
    not fit; and so is a power of minus one, zero or one whose exponent has more than 32 bits. -/
theorem integer_arithmetic_exact (a b : Int64) :
    IsExact "+" (a.toInt + b.toInt) (add (.int a) (.int b)) ∧
    IsExact "-" (a.toInt - b.toInt) (sub (.int a) (.int b)) ∧
    IsExact "*" (a.toInt * b.toInt) (mul (.int a) (.int b)) ∧
    IsExact "unary -" (-a.toInt) (neg (.int a)) ∧
    (b = 0 → floorDiv (.int a) (.int b) = .error .divisionByZero ∧
      rem (.int a) (.int b) = .error .divisionByZero) ∧
    (b ≠ 0 → IsExact "//" ⌊(a.toInt / b.toInt : ℚ)⌋ (floorDiv (.int a) (.int b))) ∧
    (b ≠ 0 → if a = Int64.minValue ∧ b = -1
      then rem (.int a) (.int b) = .error (.overflow "%")
      else ∃ r : Int64, rem (.int a) (.int b) = .ok (.int r) ∧
        r.toInt = a.toInt - b.toInt * ⌊(a.toInt / b.toInt : ℚ)⌋ ∧ (r = 0 ∨ (0 < r ↔ 0 < b))) ∧
    (0 ≤ b → if b.toInt < 2 ^ 32 ∨ 2 ≤ a.toInt.natAbs
      then IsExact "**" (a.toInt ^ b.toInt.toNat) (pow (.int a) (.int b))
      else pow (.int a) (.int b) = .error (.overflow "**")) := by
  refine ⟨isExact_checked _ _, isExact_checked _ _, isExact_checked _ _, isExact_checked _ _,
    fun zero => ⟨if_pos zero, if_pos zero⟩, floorDiv_isExact a, fun hb => ?_, fun hb => ?_⟩
  · split_ifs with missed
    · obtain ⟨rfl, rfl⟩ := missed
      rfl
    · exact rem_exact a hb missed
  · split_ifs with kept
    · exact pow_isExact a hb kept
    · rw [pow_eq a hb, if_pos (by omega)]

/-- A quotient and a remainder of negative numbers, the least integer by minus one, a divisor that
    is zero, and a power of a sign with a long exponent. -/
theorem integer_arithmetic_exact_edges :
    (IsExact "//" ⌊((-7 : Int64).toInt / (3 : Int64).toInt : ℚ)⌋ (floorDiv (.int (-7)) (.int 3))) ∧
    (∃ r : Int64, rem (.int 7) (.int (-3)) = .ok (.int r) ∧
      r.toInt = (7 : Int64).toInt -
        (-3 : Int64).toInt * ⌊((7 : Int64).toInt / (-3 : Int64).toInt : ℚ)⌋ ∧
      (r = 0 ∨ (0 < r ↔ 0 < (-3 : Int64)))) ∧
    IsExact "//" ⌊(Int64.minValue.toInt / (-1 : Int64).toInt : ℚ)⌋
      (floorDiv (.int Int64.minValue) (.int (-1))) ∧
    rem (.int 5) (.int 0) = .error .divisionByZero ∧
    IsExact "**" ((-1 : Int64).toInt ^ (4294967295 : Int64).toInt.toNat)
      (pow (.int (-1)) (.int 4294967295)) := by
  obtain ⟨-, -, -, -, -, quotient, -⟩ := integer_arithmetic_exact (-7) 3
  obtain ⟨-, -, -, -, -, -, remainder, -⟩ := integer_arithmetic_exact 7 (-3)
  obtain ⟨-, -, -, -, -, wide, -⟩ := integer_arithmetic_exact Int64.minValue (-1)
  obtain ⟨-, -, -, -, zero, -⟩ := integer_arithmetic_exact 5 0
  obtain ⟨-, -, -, -, -, -, -, power⟩ := integer_arithmetic_exact (-1) 4294967295
  refine ⟨quotient (by decide), ?_, wide (by decide), (zero rfl).2, ?_⟩
  · exact (if_neg (by decide)).mp (remainder (by decide))
  · exact (if_pos (.inl (by decide))).mp (power (by decide))

/-- The least integer leaves zero by minus one, and one has the power one, but both are reported as
    overflows. -/
theorem exists_missed_results :
    ¬IsExact "%" (Int64.minValue.toInt - (-1) * ⌊(Int64.minValue.toInt / (-1 : Int64).toInt : ℚ)⌋)
      (rem (.int Int64.minValue) (.int (-1))) ∧
    ¬IsExact "**" ((1 : Int64).toInt ^ (4294967296 : Int64).toInt.toNat)
      (pow (.int 1) (.int 4294967296)) := by
  constructor
  · rintro (⟨k, -, given⟩ | ⟨missing, -⟩)
    · cases given
    · refine missing 0 ?_
      have quotient := fdiv_eq_floor Int64.minValue.toInt (d := (-1 : Int64).toInt) (by decide)
      rw [← quotient]
      decide
  · rintro (⟨k, -, given⟩ | ⟨missing, -⟩)
    · cases given
    · exact missing 1 (one_pow _).symm

end DataExpr.Value
