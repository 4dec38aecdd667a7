/-!
# Doubles with a total order

A `Double` is a double-precision number that is not NaN, and zero has a single
representation.  On these numbers the bit pattern decides equality, so they can
stand in keys of sets and dictionaries.

The exact parts of a number (sign, significand, binary exponent) are read off
its bits.  Rounding to an integer and the remainder of a division are computed
from them in exact integer arithmetic, so that no rounding happens on the way.
-/

namespace DataExpr

/-- Whether a bit pattern is that of a `Double`: no NaN, and no negative zero. -/
def Double.isNumber (bits : UInt64) : Bool :=
  decide (bits &&& 0x7fffffffffffffff ≤ 0x7ff0000000000000) && bits != 0x8000000000000000

/-- A double-precision number, finite or infinite, with one zero and without NaN. -/
structure Double where
  bits : UInt64
  number : Double.isNumber bits = true
deriving DecidableEq

namespace Double

def zero : Double := ⟨0, by decide⟩

instance : Inhabited Double := ⟨zero⟩

/-- The number with the given bits; patterns of NaN give `none` and both zeros are one. -/
def ofBits? (bits : UInt64) : Option Double :=
  if bits = 0x8000000000000000 then some zero
  else if h : isNumber bits = true then some ⟨bits, h⟩
  else none

def toFloat (x : Double) : Float := Float.ofBits x.bits

def ofFloat? (x : Float) : Option Double := ofBits? x.toBits

/-- The double nearest to an integer of magnitude below `2 ^ 64`, ties to even. -/
def ofInt (n : Int) : Double :=
  let magnitude := n.natAbs.toUInt64.toFloat
  (ofFloat? (if n < 0 then -magnitude else magnitude)).getD zero

/-! ### Exact parts -/

def isNegative (x : Double) : Bool := decide (0x8000000000000000 ≤ x.bits)

def isFinite (x : Double) : Bool := decide (x.bits &&& 0x7fffffffffffffff < 0x7ff0000000000000)

def isZero (x : Double) : Bool := x.bits == 0

def biasedExponent (x : Double) : Nat := ((x.bits >>> 52) &&& 0x7ff).toNat

def fraction (x : Double) : Nat := (x.bits &&& 0xfffffffffffff).toNat

/-- The magnitude of a finite number is `significand * 2 ^ exponent`. -/
def significand (x : Double) : Nat :=
  if x.biasedExponent = 0 then x.fraction else x.fraction + 0x10000000000000

/-- The binary exponent that belongs to `significand`. -/
def exponent (x : Double) : Int :=
  if x.biasedExponent = 0 then -1074 else x.biasedExponent - 1075

/-- The finite number `± significand * 2 ^ exponent`; it has to be representable. -/
def ofScaled (negative : Bool) (significand : Nat) (exponent : Int) : Double :=
  if significand = 0 then zero
  else
    let length : Int := significand.log2 + 1
    let target := max (exponent + length - 53) (-1074)
    let mantissa :=
      if target ≤ exponent then significand <<< (exponent - target).toNat
      else significand >>> (target - exponent).toNat
    let magnitude :=
      if mantissa < 0x10000000000000 then mantissa
      else ((target + 1075).toNat <<< 52) + (mantissa - 0x10000000000000)
    let sign := if negative then 0x8000000000000000 else 0
    (ofBits? (sign + magnitude).toUInt64).getD zero

/-! ### Integer parts of finite numbers -/

/-- Two to the number of fractional bits. -/
def unit (x : Double) : Nat := Nat.pow 2 (-x.exponent).toNat

def whole (x : Double) : Nat :=
  if 0 ≤ x.exponent then x.significand <<< x.exponent.toNat else x.significand / x.unit

def rest (x : Double) : Nat :=
  if 0 ≤ x.exponent then 0 else x.significand % x.unit

def signed (x : Double) (magnitude : Nat) : Int :=
  if x.isNegative then -(magnitude : Int) else magnitude

/-- Whether a number is finite and has no fractional part. -/
def isIntegral (x : Double) : Bool := x.isFinite && x.rest == 0

/-- The integer part, toward zero. -/
def truncate (x : Double) : Int := x.signed x.whole

/-- The largest integer that is not above the number. -/
def floorInt (x : Double) : Int :=
  x.signed (if x.isNegative && x.rest != 0 then x.whole + 1 else x.whole)

/-- The nearest integer; a half goes to the even neighbour. -/
def roundInt (x : Double) : Int :=
  let twice := 2 * x.rest
  let up := decide (x.unit < twice) || (twice == x.unit && x.whole % 2 == 1)
  x.signed (if up then x.whole + 1 else x.whole)

/-- `floorInt` as a double; infinities stay as they are. -/
def floor (x : Double) : Double := if x.isFinite && !x.isIntegral then ofInt x.floorInt else x

/-- `roundInt` as a double; infinities stay as they are. -/
def roundEven (x : Double) : Double := if x.isFinite && !x.isIntegral then ofInt x.roundInt else x

/-! ### Operations -/

def neg (x : Double) : Double := (ofFloat? (-x.toFloat)).getD zero

def abs (x : Double) : Double := if x.isNegative then x.neg else x

/-- The remainder of the division truncated toward zero, without rounding; it has
    the sign of the dividend.  There is none of an infinite dividend or for a zero divisor. -/
def rem? (x y : Double) : Option Double :=
  if !x.isFinite || y.isZero then none
  else if !y.isFinite then some x
  else
    let common := min x.exponent y.exponent
    let dividend := x.significand <<< (x.exponent - common).toNat
    let divisor := y.significand <<< (y.exponent - common).toNat
    some (ofScaled x.isNegative (dividend % divisor) common)

/-- Order by value; `none` never arises, since no operand is NaN. -/
def compare (x y : Double) : Ordering :=
  if x.toFloat < y.toFloat then .lt else if x.toFloat == y.toFloat then .eq else .gt

end Double
end DataExpr
