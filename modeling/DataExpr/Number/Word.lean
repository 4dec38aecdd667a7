/-!
# Counting with machine words

Counts and weights are words of 64 bits.  A sum or a product that needs more bits is
an overflow, not a smaller word; where a large count is as good as any larger one,
the sum stops at the largest word instead.
-/

namespace DataExpr.Word

/-- The operation whose exact result is no word. -/
inductive Overflow where
  | sum | product
deriving DecidableEq, Repr

def Overflow.message : Overflow → String
  | sum => "attempt to add with overflow"
  | product => "attempt to multiply with overflow"

/-- The exact sum. -/
def add (a b : UInt64) : Except Overflow UInt64 :=
  if a.toNat + b.toNat < UInt64.size then .ok (a + b) else .error .sum

/-- The exact product. -/
def mul (a b : UInt64) : Except Overflow UInt64 :=
  if a.toNat * b.toNat < UInt64.size then .ok (a * b) else .error .product

/-- The exact product with a number of items. -/
def scale (a : UInt64) (n : Nat) : Except Overflow UInt64 :=
  if a.toNat * n < UInt64.size then .ok (a * n.toUInt64) else .error .product

/-- The sum, or the largest word if that is less. -/
def saturatingAdd (a b : UInt64) : UInt64 :=
  if a.toNat + b.toNat < UInt64.size then a + b else 0xffffffffffffffff

/-- A sum is given exactly when it is a word. -/
theorem add_eq_ok_iff {a b c : UInt64} : add a b = .ok c ↔ a.toNat + b.toNat = c.toNat := by
  unfold add
  split
  · rename_i h
    rw [Except.ok.injEq, ← UInt64.toNat_inj, UInt64.toNat_add, Nat.mod_eq_of_lt h]
  · rename_i h
    have := c.toNat_lt_size
    simp only [reduceCtorEq, false_iff]
    omega

/-- A product is given exactly when it is a word. -/
theorem mul_eq_ok_iff {a b c : UInt64} : mul a b = .ok c ↔ a.toNat * b.toNat = c.toNat := by
  unfold mul
  split
  · rename_i h
    rw [Except.ok.injEq, ← UInt64.toNat_inj, UInt64.toNat_mul, Nat.mod_eq_of_lt h]
  · rename_i h
    have := c.toNat_lt_size
    simp only [reduceCtorEq, false_iff]
    omega

/-- So is a product with a number of items. -/
theorem scale_eq_ok_iff {a c : UInt64} {n : Nat} : scale a n = .ok c ↔ a.toNat * n = c.toNat := by
  unfold scale
  split
  · rename_i h
    rw [Except.ok.injEq, ← UInt64.toNat_inj, UInt64.toNat_mul, Nat.toUInt64,
      UInt64.toNat_ofNat', Nat.mul_mod_mod, Nat.mod_eq_of_lt h]
  · rename_i h
    have := c.toNat_lt_size
    simp only [reduceCtorEq, false_iff]
    omega

theorem toNat_saturatingAdd (a b : UInt64) :
    (saturatingAdd a b).toNat = min (a.toNat + b.toNat) (UInt64.size - 1) := by
  unfold saturatingAdd
  split
  · rename_i h
    rw [UInt64.toNat_add, Nat.mod_eq_of_lt h]
    omega
  · rename_i h
    have : (0xffffffffffffffff : UInt64).toNat = UInt64.size - 1 := rfl
    omega

end DataExpr.Word
