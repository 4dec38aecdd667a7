import Mathlib

/-!
# Floats and their bits

The fields of a bit pattern are numbers that make it up.  A number with a significand of full length
is packed without the leading bit and unpacked to the same number.  Integers below `2 ^ 53` are
scaled to such a number and not rounded.
-/

namespace DataExpr.FloatBits

open Float.Model Float.Model.UnpackedFloat

/-! ### Fields -/

theorem toNat_packComponents (s : Sign) (e : BitVec 11) (m : BitVec 52) :
    (packComponents Format.binary64 s e m).toNat =
      s.toBitVec.toNat * 2 ^ 63 + e.toNat * 2 ^ 52 + m.toNat := by
  have he := e.isLt
  have hm := m.isLt
  unfold packComponents
  rw [BitVec.toNat_append, ← Nat.shiftLeft_add_eq_or_of_lt hm, BitVec.toNat_append,
    ← Nat.shiftLeft_add_eq_or_of_lt he, Nat.shiftLeft_eq, Nat.shiftLeft_eq]
  omega

theorem toNat_unpackMantissa (b : BitVec Format.binary64.numBits) :
    (@unpackMantissa Format.binary64 b).toNat = b.toNat % 2 ^ 52 := by
  simp [unpackMantissa]

theorem toNat_unpackExponent (b : BitVec Format.binary64.numBits) :
    (@unpackExponent Format.binary64 b).toNat = b.toNat / 2 ^ 52 % 2 ^ 11 := by
  simp [unpackExponent, Nat.shiftRight_eq_div_pow]

/-! ### Significands -/

theorem toNat_implicit_append (m : BitVec 52) : (1#1 ++ m).toNat = 2 ^ 52 + m.toNat := by
  rw [BitVec.toNat_append, ← Nat.shiftLeft_add_eq_or_of_lt m.isLt, Nat.shiftLeft_eq]
  rfl

theorem log2_eq_52 {m : Nat} (low : 2 ^ 52 ≤ m) (high : m < 2 ^ 53) : m.log2 = 52 :=
  (Nat.log2_eq_iff (by omega)).2 ⟨low, high⟩

/-- A normal number is packed without its leading bit. -/
theorem pack_normal (s : Sign) {m : Nat} {e : Int} (hm : 0 < m) (low : 2 ^ 52 ≤ m)
    (high : m < 2 ^ 53) (le : -1074 ≤ e) (ge : e ≤ 971) :
    UnpackedFloat.pack Format.binary64 (.finite s m e hm) =
      packComponents Format.binary64 s (BitVec.ofNat 11 (e + 1075).toNat) (BitVec.ofNat 52 m) := by
  have biased : (e + Format.binary64.exponentBias +
      Format.binary64.mantissaBitsWithoutImplicit).toNat = (e + 1075).toNat := by
    congr 1
    show e + 1023 + 52 = _
    omega
  have fits : ¬ 2 ^ Format.binary64.exponentBits ≤ (e + 1075).toNat + 1 := by
    show ¬ 2048 ≤ _
    omega
  unfold UnpackedFloat.pack
  simp only [biased]
  rw [if_neg fits, if_pos (by rw [log2_eq_52 low high]; rfl)]

theorem toNat_pack_normal (s : Sign) {m : Nat} {e : Int} (hm : 0 < m) (low : 2 ^ 52 ≤ m)
    (high : m < 2 ^ 53) (le : -1074 ≤ e) (ge : e ≤ 971) :
    (UnpackedFloat.pack Format.binary64 (.finite s m e hm)).toNat =
      s.toBitVec.toNat * 2 ^ 63 + (e + 1075).toNat * 2 ^ 52 + (m - 2 ^ 52) := by
  rw [pack_normal s hm low high le ge, toNat_packComponents, BitVec.toNat_ofNat, BitVec.toNat_ofNat]
  omega

theorem unpack_normal (s : Sign) {m : Nat} {e : Int} (hm : 0 < m) (low : 2 ^ 52 ≤ m)
    (high : m < 2 ^ 53) (le : -1074 ≤ e) (ge : e ≤ 971) :
    unpack Format.binary64 (UnpackedFloat.pack Format.binary64 (.finite s m e hm)) =
      .finite s m e hm := by
  have biased : (BitVec.ofNat 11 (e + 1075).toNat).toNat = (e + 1075).toNat := by
    rw [BitVec.toNat_ofNat]
    omega
  have finite : BitVec.ofNat 11 (e + 1075).toNat ≠ -1#11 := fun h => by
    have : (e + 1075).toNat = 2047 := biased.symm.trans (congrArg BitVec.toNat h)
    omega
  have normal : BitVec.ofNat 11 (e + 1075).toNat ≠ 0#11 := fun h => by
    have : (e + 1075).toNat = 0 := biased.symm.trans (congrArg BitVec.toNat h)
    omega
  have leading : (1#1 ++ BitVec.ofNat 52 m).toNat = m := by
    rw [toNat_implicit_append, BitVec.toNat_ofNat]
    omega
  rw [pack_normal s hm low high le ge]
  unfold UnpackedFloat.unpack
  simp only [unpackMantissa_packComponents, unpackExponent_packComponents,
    unpackSign_packComponents, Sign.ofBitVec_toBitVec]
  rw [if_neg finite, if_neg normal]
  simp only [leading, biased]
  congr 1
  show ((e + 1075).toNat : Int) - (1023 + 52) = e
  omega

/-! ### Integers -/

theorem targetExponent_eq (total : Int) :
    Format.binary64.targetExponent total = max (total - 53) (-1074) := rfl

/-- A significand of full length stays as it is. -/
theorem shift_of_normal {m : Nat} {e : Int} (low : 2 ^ 52 ≤ m) (high : m < 2 ^ 53)
    (le : -1074 ≤ e) :
    shiftToTargetExponent Format.binary64 m e .exact = (⟨m, false, false⟩, e) := by
  have stays : (Format.binary64.targetExponent (totalExponent m e) - e).toNat = 0 := by
    rw [targetExponent_eq, totalExponent, log2_eq_52 low high]
    omega
  unfold shiftToTargetExponent shiftToExponent
  simp only [stays]
  exact Prod.ext rfl (Int.add_zero e)

theorem roundWithAccuracy_of_normal (s : Sign) {m : Nat} {e : Int} (hm : 0 < m)
    (low : 2 ^ 52 ≤ m) (high : m < 2 ^ 53) (le : -1074 ≤ e) :
    roundWithAccuracy Format.binary64 s m e .exact = .finite s m e hm := by
  unfold roundWithAccuracy
  rw [shift_of_normal low high le]
  show (let final := shiftToTargetExponent Format.binary64 m e .exact;
    if h : final.1.mantissa = 0 then UnpackedFloat.zero s
    else .finite s final.1.mantissa final.2 (Nat.pos_of_ne_zero h)) = _
  rw [shift_of_normal low high le]
  exact dif_neg (Nat.ne_of_gt hm)

/-- Scaling a positive integer below `2 ^ 53` gives a significand of full length. -/
theorem scaled_bounds {k : Nat} (positive : 0 < k) (small : k < 2 ^ 53) :
    k.log2 ≤ 52 ∧ 2 ^ 52 ≤ k * 2 ^ (52 - k.log2) ∧ k * 2 ^ (52 - k.log2) < 2 ^ 53 := by
  have nonzero := Nat.ne_of_gt positive
  have log : k.log2 ≤ 52 := Nat.le_of_lt_succ ((Nat.log2_lt nonzero).2 small)
  have low : 2 ^ k.log2 ≤ k := Nat.log2_self_le nonzero
  have high : k < 2 ^ (k.log2 + 1) := Nat.lt_log2_self
  have full : 2 ^ k.log2 * 2 ^ (52 - k.log2) = 2 ^ 52 := by
    rw [← Nat.pow_add]
    congr 1
    omega
  refine ⟨log, ?_, ?_⟩
  · rw [← full]
    exact Nat.mul_le_mul_right _ low
  · calc k * 2 ^ (52 - k.log2) < 2 ^ (k.log2 + 1) * 2 ^ (52 - k.log2) :=
          Nat.mul_lt_mul_of_pos_right high (Nat.two_pow_pos _)
      _ = 2 ^ 52 * 2 := by rw [Nat.pow_succ, Nat.mul_right_comm, full]
      _ = 2 ^ 53 := rfl

/-- A positive integer below `2 ^ 53` is scaled and not rounded. -/
theorem round_of_lt {k : Nat} (positive : 0 < k) (small : k < 2 ^ 53)
    (h : 0 < k * 2 ^ (52 - k.log2)) :
    UnpackedFloat.round Format.binary64 .positive k 0 =
      .finite .positive (k * 2 ^ (52 - k.log2)) (k.log2 - 52) h := by
  obtain ⟨log, low, high⟩ := scaled_bounds positive small
  have target : Format.binary64.targetExponent (totalExponent k 0) = k.log2 - 52 := by
    rw [targetExponent_eq, totalExponent]
    omega
  have decreased : decreaseExponent k 0 (k.log2 - 52) =
      (k * 2 ^ (52 - k.log2), (k.log2 - 52 : Int)) := by
    have amount : ((0 : Int) - (k.log2 - 52)).toNat = 52 - k.log2 := by omega
    unfold decreaseExponent
    simp only [amount, Nat.shiftLeft_eq]
    exact Prod.ext rfl (by show (0 : Int) - _ = _; omega)
  unfold UnpackedFloat.round
  simp only [target, decreased]
  exact roundWithAccuracy_of_normal .positive h low high (by omega)

end DataExpr.FloatBits
