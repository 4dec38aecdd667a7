import DataExpr.Number.Double
import DataExpr.Proofs.FloatBits

/-!
# Doubles that stand for integers

A double is given by its sign, its exponent and its fraction, and equality of floats is equality of
these.  An integer below `2 ^ 53` has a double of the same value, and an integral double of that
size is the double of its integer part.
-/

namespace DataExpr.Double

open FloatBits
open Float.Model hiding pack unpack neg
open Float.Model.UnpackedFloat (Sign isNaNBits pack_unpack beq_iff_ne_notANumber_and_eq)

/-! ### Parts of the bits -/

theorem toNat_and_mask (b : UInt64) {mask : UInt64} (w : Nat) (h : mask.toNat = 2 ^ w - 1) :
    (b &&& mask).toNat = b.toNat % 2 ^ w := by
  rw [UInt64.toNat_and, h, Nat.and_two_pow_sub_one_eq_mod]

theorem isNumber_iff {bits : UInt64} :
    isNumber bits = true ↔
      bits.toNat % 2 ^ 63 ≤ 0x7ff0000000000000 ∧ bits.toNat ≠ 2 ^ 63 := by
  rw [isNumber, Bool.and_eq_true, decide_eq_true_eq, UInt64.le_iff_toNat_le,
    toNat_and_mask bits 63 rfl, bne_iff_ne, ne_eq, ← UInt64.toNat_inj]
  exact .rfl

theorem toNat_bits_bound (x : Double) :
    x.bits.toNat % 2 ^ 63 ≤ 0x7ff0000000000000 ∧ x.bits.toNat ≠ 2 ^ 63 :=
  isNumber_iff.1 x.number

theorem isNegative_iff (x : Double) : x.isNegative = true ↔ 2 ^ 63 ≤ x.bits.toNat := by
  rw [isNegative, decide_eq_true_eq, UInt64.le_iff_toNat_le]
  exact .rfl

theorem isFinite_iff (x : Double) :
    x.isFinite = true ↔ x.bits.toNat % 2 ^ 63 < 0x7ff0000000000000 := by
  rw [isFinite, decide_eq_true_eq, UInt64.lt_iff_toNat_lt, toNat_and_mask x.bits 63 rfl]
  exact .rfl

theorem biasedExponent_eq (x : Double) : x.biasedExponent = x.bits.toNat / 2 ^ 52 % 2 ^ 11 := by
  rw [biasedExponent, toNat_and_mask _ 11 rfl, UInt64.toNat_shiftRight, Nat.shiftRight_eq_div_pow]
  rfl

theorem fraction_eq (x : Double) : x.fraction = x.bits.toNat % 2 ^ 52 :=
  toNat_and_mask x.bits 52 rfl

/-- The three parts make up the bits. -/
theorem toNat_bits (x : Double) :
    x.bits.toNat =
      (if x.isNegative then 2 ^ 63 else 0) + x.biasedExponent * 2 ^ 52 + x.fraction := by
  have bound := x.bits.toNat_lt
  rw [biasedExponent_eq, fraction_eq]
  split
  next h =>
    have := (isNegative_iff x).1 h
    omega
  next h =>
    have := mt (isNegative_iff x).2 h
    omega

theorem ext_toNat {x y : Double} (h : x.bits.toNat = y.bits.toNat) : x = y := by
  obtain ⟨bits, _⟩ := x
  obtain ⟨bits', _⟩ := y
  obtain rfl : bits = bits' := UInt64.toNat_inj.1 h
  rfl

/-! ### Equality as floats -/

/-- The parts that a float sees. -/
def parts (x : Double) : Float.Model.UnpackedFloat :=
  Float.Model.UnpackedFloat.unpack Format.binary64 x.bits.toBitVec

theorem pack_parts (x : Double) :
    Float.Model.UnpackedFloat.pack Format.binary64 x.parts = x.bits.toBitVec := by
  have number : ¬ @isNaNBits Format.binary64 x.bits.toBitVec = true := by
    rw [isNaNBits, decide_eq_true_eq]
    rintro ⟨infinite, nonzero⟩
    refine nonzero (BitVec.eq_of_toNat_eq ?_)
    have bound := x.toNat_bits_bound.1
    have exponent := congrArg BitVec.toNat infinite
    rw [toNat_unpackExponent] at exponent
    have exponent : x.bits.toNat / 2 ^ 52 % 2 ^ 11 = 2047 := exponent
    rw [toNat_unpackMantissa]
    show x.bits.toNat % 2 ^ 52 = 0
    omega
  rw [parts, pack_unpack, if_neg number]

theorem toModel_unpack (x : Double) : x.toFloat.toModel.unpack = x.parts := by
  show Float.Model.UnpackedFloat.unpack Format.binary64
    (Float.Model.UnpackedFloat.pack Format.binary64 x.parts) = x.parts
  rw [pack_parts]
  rfl

theorem ext_pack {x y : Double}
    (h : Float.Model.UnpackedFloat.pack Format.binary64 x.parts =
      Float.Model.UnpackedFloat.pack Format.binary64 y.parts) : x = y := by
  rw [pack_parts, pack_parts] at h
  exact ext_toNat (congrArg BitVec.toNat h)

theorem parts_ne_notANumber (x : Double) : x.parts ≠ .notANumber := by
  intro h
  have bits := congrArg BitVec.toNat (h ▸ x.pack_parts)
  have bound := x.toNat_bits_bound.1
  have bits : 0x7ff8000000000000 = x.bits.toNat := bits
  omega

theorem sign_of_zero {x : Double} {s : Sign} (h : x.parts = .zero s) : s = .positive := by
  cases s with
  | positive => rfl
  | negative =>
    have bits := congrArg BitVec.toNat (h ▸ x.pack_parts)
    exact absurd bits.symm x.toNat_bits_bound.2

/-- As floats, doubles are equal only to themselves. -/
theorem toFloat_beq (x y : Double) : (x.toFloat == y.toFloat) = (x == y) := by
  have unfolded : (x.toFloat == y.toFloat) = x.parts.beq y.parts := by
    rw [← toModel_unpack, ← toModel_unpack]
    rfl
  rw [unfolded, Bool.eq_iff_iff, beq_iff_ne_notANumber_and_eq, beq_iff_eq]
  constructor
  · rintro ⟨-, -, same | ⟨-, negative⟩ | ⟨negative, -⟩⟩
    · exact ext_pack (by rw [same])
    · cases sign_of_zero negative
    · cases sign_of_zero negative
  · rintro rfl
    exact ⟨x.parts_ne_notANumber, x.parts_ne_notANumber, .inl rfl⟩

/-! ### Integers -/

theorem ofFloat?_of_number {f : Float} (h : isNumber f.toBits = true) :
    ofFloat? f = some ⟨f.toBits, h⟩ := by
  have nonzero : f.toBits ≠ 0x8000000000000000 := by
    rw [isNumber, Bool.and_eq_true, bne_iff_ne] at h
    exact h.2
  rw [ofFloat?, ofBits?, if_neg nonzero, dif_pos h]

/-- The float of a positive integer below `2 ^ 53`. -/
theorem toModel_toFloat {k : Nat} (positive : 0 < k) (small : k < 2 ^ 53)
    (h : 0 < k * 2 ^ (52 - k.log2)) :
    k.toUInt64.toFloat.toModel =
      .pack (.finite .positive (k * 2 ^ (52 - k.log2)) (k.log2 - 52) h) := by
  have value : k.toUInt64.toNat = k := by
    rw [Nat.toUInt64, UInt64.toNat_ofNat']
    omega
  have greater : Ord.compare (k : Int) 0 = .gt := by
    rw [Int.compare_eq_gt]
    omega
  show Float.Model.pack (Float.Model.UnpackedFloat.normalize Format.binary64
    (k.toUInt64.toNat : Int) 0 .positive) = _
  rw [value, ← round_of_lt positive small h]
  unfold Float.Model.UnpackedFloat.normalize
  rw [greater]
  rfl

/-- The bits of the double of an integer below `2 ^ 53`. -/
theorem toNat_bits_ofInt {n : Int} (nonzero : n ≠ 0) (small : n.natAbs < 2 ^ 53) :
    (ofInt n).bits.toNat = (if n < 0 then 2 ^ 63 else 0) + (n.natAbs.log2 + 1023) * 2 ^ 52 +
      (n.natAbs * 2 ^ (52 - n.natAbs.log2) - 2 ^ 52) := by
  have positive : 0 < n.natAbs := Int.natAbs_pos.2 nonzero
  obtain ⟨log, low, high⟩ := scaled_bounds positive small
  have h : 0 < n.natAbs * 2 ^ (52 - n.natAbs.log2) := by omega
  have magnitude := toModel_toFloat positive small h
  have bits : (if n < 0 then -n.natAbs.toUInt64.toFloat else n.natAbs.toUInt64.toFloat).toBits.toNat
      = (if n < 0 then 2 ^ 63 else 0) + (n.natAbs.log2 + 1023) * 2 ^ 52 +
        (n.natAbs * 2 ^ (52 - n.natAbs.log2) - 2 ^ 52) := by
    have packed (s : Sign) := toNat_pack_normal s h low high (e := n.natAbs.log2 - 52) (by omega)
      (by omega)
    have exponent : ((n.natAbs.log2 - 52 : Int) + 1075).toNat = n.natAbs.log2 + 1023 := by omega
    rw [exponent] at packed
    split
    next =>
      show (Float.Model.pack (Float.Model.UnpackedFloat.neg
        n.natAbs.toUInt64.toFloat.toModel.unpack)).toBits.toNat = _
      rw [magnitude]
      show (Float.Model.UnpackedFloat.pack Format.binary64 (Float.Model.UnpackedFloat.neg
        (Float.Model.UnpackedFloat.unpack Format.binary64
          (Float.Model.UnpackedFloat.pack Format.binary64 (.finite .positive _ _ h))))).toNat = _
      rw [unpack_normal .positive h low high (by omega) (by omega)]
      exact packed .negative
    next =>
      show n.natAbs.toUInt64.toFloat.toModel.toBits.toNat = _
      rw [magnitude]
      exact packed .positive
  have number : isNumber (if n < 0 then -n.natAbs.toUInt64.toFloat
      else n.natAbs.toUInt64.toFloat).toBits = true := by
    rw [isNumber_iff, bits]
    split <;> omega
  unfold ofInt
  simp only
  rw [ofFloat?_of_number number]
  exact bits

theorem ofInt_zero : ofInt 0 = zero := rfl

/-- A number without fractional bits. -/
theorem whole_of_scaled {x : Double} {k u : Nat} (hs : x.significand = k * 2 ^ u)
    (he : x.exponent = -u) : x.whole = k ∧ x.rest = 0 := by
  unfold whole rest unit
  rw [hs, he, Int.neg_neg, Int.toNat_natCast]
  split
  next h =>
    obtain rfl : u = 0 := by omega
    exact ⟨by simp, rfl⟩
  next h =>
    exact ⟨Nat.mul_div_cancel k (Nat.two_pow_pos u), Nat.mul_mod_left k (2 ^ u)⟩

theorem exponent_of_normal {x : Double} (h : x.biasedExponent ≠ 0) :
    x.exponent = x.biasedExponent - 1075 := by
  rw [exponent, if_neg h]

theorem significand_of_normal {x : Double} (h : x.biasedExponent ≠ 0) :
    x.significand = x.fraction + 2 ^ 52 := by
  rw [significand, if_neg h]
  rfl

theorem fraction_lt (x : Double) : x.fraction < 2 ^ 52 := by
  rw [fraction_eq]
  omega

/-- Numbers with the least exponent are below one. -/
theorem whole_of_subnormal {x : Double} (h : x.biasedExponent = 0) : x.whole = 0 := by
  have exponent : x.exponent = -1074 := by rw [exponent, if_pos h]
  have unit : 2 ^ 52 ≤ x.unit := Nat.pow_le_pow_right (by decide) (by omega)
  have bound := x.fraction_lt
  rw [whole, if_neg (by omega), significand, if_pos h]
  exact Nat.div_eq_of_lt (by omega)

theorem zero_parts : zero.whole = 0 ∧ zero.rest = 0 := by
  have significand : zero.significand = 0 := rfl
  refine ⟨whole_of_subnormal rfl, ?_⟩
  rw [rest, if_neg (by decide), significand, Nat.zero_mod]

/-- The double of an integer below `2 ^ 53` has that value. -/
theorem truncate_ofInt {n : Int} (small : n.natAbs < 2 ^ 53) :
    (ofInt n).isIntegral = true ∧ (ofInt n).truncate = n := by
  by_cases nonzero : n = 0
  · subst nonzero
    rw [ofInt_zero, isIntegral, truncate, zero_parts.1, zero_parts.2]
    exact ⟨rfl, rfl⟩
  have bits := toNat_bits_ofInt nonzero small
  obtain ⟨log, low, high⟩ := scaled_bounds (Int.natAbs_pos.2 nonzero) small
  generalize ofInt n = x at bits ⊢
  have exponent : x.biasedExponent = n.natAbs.log2 + 1023 := by
    rw [biasedExponent_eq, bits]
    split <;> omega
  have fraction : x.fraction = n.natAbs * 2 ^ (52 - n.natAbs.log2) - 2 ^ 52 := by
    rw [fraction_eq, bits]
    split <;> omega
  have negative : x.isNegative = decide (n < 0) := by
    rw [Bool.eq_iff_iff, isNegative_iff, bits, decide_eq_true_eq]
    split <;> omega
  have finite : x.isFinite = true := by
    rw [isFinite_iff, bits]
    split <;> omega
  obtain ⟨hwhole, hrest⟩ : x.whole = n.natAbs ∧ x.rest = 0 := by
    refine whole_of_scaled (u := 52 - n.natAbs.log2) ?_ ?_
    · rw [significand_of_normal (by omega), fraction]
      omega
    · rw [exponent_of_normal (by omega), exponent]
      omega
  constructor
  · rw [isIntegral, finite, hrest]
    rfl
  · rw [truncate, signed, hwhole, negative]
    simp only [decide_eq_true_eq]
    split <;> omega

theorem log2_mul_two_pow {k : Nat} (h : k ≠ 0) (u : Nat) : (k * 2 ^ u).log2 = k.log2 + u := by
  induction u with
  | zero => simp
  | succ u ih =>
    have nonzero : k * 2 ^ u ≠ 0 := Nat.mul_ne_zero h (Nat.ne_of_gt (Nat.two_pow_pos u))
    rw [Nat.pow_succ, ← Nat.mul_assoc, Nat.mul_comm, Nat.log2_two_mul nonzero, ih]
    rfl

/-- An integral number is its integer part, scaled. -/
theorem significand_of_integral {x : Double} (hr : x.rest = 0) (h : x.exponent < 0) :
    x.significand = x.whole * 2 ^ (-x.exponent).toNat := by
  rw [rest, if_neg (by omega)] at hr
  rw [whole, if_neg (by omega)]
  exact (Nat.div_mul_cancel (Nat.dvd_of_mod_eq_zero hr)).symm

theorem whole_of_nonneg {x : Double} (h : 0 ≤ x.exponent) :
    x.whole = x.significand * 2 ^ x.exponent.toNat := by
  rw [whole, if_pos h, Nat.shiftLeft_eq]

/-- An integral number without integer part is zero. -/
theorem eq_zero_of_whole {x : Double} (hw : x.whole = 0) (hr : x.rest = 0) : x = zero := by
  have significand : x.significand = 0 := by
    rcases Int.lt_or_le x.exponent 0 with h | h
    · rw [significand_of_integral hr h, hw, Nat.zero_mul]
    · rw [whole_of_nonneg h] at hw
      exact (Nat.mul_eq_zero.1 hw).resolve_right (Nat.ne_of_gt (Nat.two_pow_pos _))
  have small : x.biasedExponent = 0 := by
    refine Classical.not_not.1 fun h => ?_
    rw [significand_of_normal h] at significand
    omega
  rw [Double.significand, if_pos small] at significand
  have bits := x.toNat_bits
  have bound := x.toNat_bits_bound.2
  rw [small, significand] at bits
  refine ext_toNat ?_
  show _ = 0
  split at bits <;> omega

/-- The exponent and the fraction of an integral number below `2 ^ 53`. -/
theorem parts_of_whole {x : Double} (hr : x.rest = 0) (positive : 0 < x.whole)
    (small : x.whole < 2 ^ 53) :
    x.biasedExponent = x.whole.log2 + 1023 ∧
      x.fraction + 2 ^ 52 = x.whole * 2 ^ (52 - x.whole.log2) := by
  have normal : x.biasedExponent ≠ 0 := fun h => by
    rw [whole_of_subnormal h] at positive
    omega
  have exponent := exponent_of_normal normal
  have significand := significand_of_normal normal
  have bound := x.fraction_lt
  rcases Int.lt_or_le x.exponent 0 with h | h
  · have scaled := significand_of_integral hr h
    have log : x.whole.log2 + (-x.exponent).toNat = 52 := by
      rw [← log2_mul_two_pow (Nat.ne_of_gt positive), ← scaled, significand]
      exact log2_eq_52 (by omega) (by omega)
    have rest : 52 - x.whole.log2 = (-x.exponent).toNat := by omega
    rw [rest, ← scaled, significand]
    omega
  · have hw := whole_of_nonneg h
    have unscaled : x.exponent.toNat = 0 := by
      refine Classical.not_not.1 fun hne => ?_
      have two : 2 ^ 1 ≤ 2 ^ x.exponent.toNat := Nat.pow_le_pow_right (by decide) (by omega)
      have := Nat.mul_le_mul (by omega : 2 ^ 52 ≤ x.significand) two
      omega
    rw [unscaled, Nat.pow_zero, Nat.mul_one, significand] at hw
    have log : x.whole.log2 = 52 := log2_eq_52 (by omega) small
    rw [log, hw]
    omega

/-- An integral number below `2 ^ 53` is the double of its integer part. -/
theorem ofInt_truncate {x : Double} (integral : x.isIntegral = true)
    (small : x.truncate.natAbs < 2 ^ 53) : ofInt x.truncate = x := by
  rw [isIntegral, Bool.and_eq_true, beq_iff_eq] at integral
  have hr := integral.2
  have abs : x.truncate.natAbs = x.whole := by
    rw [truncate, signed]
    split <;> omega
  rw [abs] at small
  rcases Nat.eq_zero_or_pos x.whole with hw | positive
  · obtain rfl := eq_zero_of_whole hw hr
    rw [truncate, hw]
    rfl
  · have nonzero : x.truncate ≠ 0 := fun h => by
      rw [h] at abs
      omega
    have sign : x.truncate < 0 ↔ x.isNegative = true := by
      rw [truncate, signed]
      split <;> simp_all
    obtain ⟨exponent, fraction⟩ := parts_of_whole hr positive small
    refine ext_toNat ?_
    rw [toNat_bits_ofInt nonzero (abs ▸ small), toNat_bits x, abs, exponent, ← fraction]
    simp only [sign]
    omega

end DataExpr.Double
