import DataExpr.Number.Double

/-!
# Rounding to decimal places

A number is scaled by a power of ten, rounded to the nearest integer and scaled
back, each step in double precision.
-/

namespace DataExpr

/-- The product of `product` and a power of `base`, by repeated squaring. -/
def powerTimes (product base : Float) (exponent : Nat) : Float :=
  if h : exponent = 0 then product
  else
    powerTimes (if exponent % 2 = 1 then product * base else product) (base * base)
      (exponent / 2)
termination_by exponent
decreasing_by omega

/-- A power of ten with an exponent that is first moved into the range of doubles. -/
def tenTo (exponent : Int) : Float :=
  let power := powerTimes 1.0 10.0 (min exponent.natAbs 308)
  if exponent < 0 then 1.0 / power else power

namespace Double

/-- The nearest number with the given number of decimal places, if there is one. -/
def roundTo? (x : Double) (places : Int) : Option Double := do
  let scale := tenTo places
  let scaled ← ofFloat? (x.toFloat * scale)
  ofFloat? (scaled.roundEven.toFloat / scale)

end Double
end DataExpr
