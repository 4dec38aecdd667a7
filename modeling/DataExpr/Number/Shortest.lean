import DataExpr.Number.Double

/-!
# Shortest decimal of a double

A finite double stands for all reals that round to it.  Its decimal is the one
with the fewest digits among those reals, and of two such decimals the nearer
one; an exact tie goes up.  All comparisons are made on natural numbers.
-/

namespace DataExpr.Shortest

/-- The number `coefficient * 10 ^ exponent`. -/
structure Decimal where
  coefficient : Nat
  exponent : Int
deriving DecidableEq, Repr

/-- A positive rational and the reals that round to it, over one denominator.
    The ends belong to it when `closed` holds. -/
structure Window where
  value : Nat
  low : Nat
  high : Nat
  denominator : Nat
  closed : Bool

/-- The reals that round to `significand * 2 ^ exponent`.  Below a power of two
    the neighbour is only half as far away. -/
def Window.around (significand : Nat) (exponent : Int) : Window :=
  let up := Nat.pow 2 (exponent - 2).toNat
  { value := 4 * significand * up
    low := (4 * significand - if significand = 0x10000000000000 then 1 else 2) * up
    high := (4 * significand + 2) * up
    denominator := Nat.pow 2 (2 - exponent).toNat
    closed := significand % 2 == 0 }

/-- The same window in units of `10 ^ exponent`. -/
def Window.inUnits (w : Window) (exponent : Int) : Window :=
  let up := Nat.pow 10 (-exponent).toNat
  { w with
    value := w.value * up
    low := w.low * up
    high := w.high * up
    denominator := w.denominator * Nat.pow 10 exponent.toNat }

/-- Whether a whole number of units lies in the window. -/
def Window.contains (w : Window) (units : Nat) : Bool :=
  let n := units * w.denominator
  if w.closed then decide (w.low ≤ n) && decide (n ≤ w.high)
  else decide (w.low < n) && decide (n < w.high)

/-- The whole number of units in the window that is nearest to its value, if any. -/
def Window.nearest? (w : Window) : Option Nat :=
  let below := w.value / w.denominator
  let above := below + 1
  let nearerAbove := decide (w.denominator ≤ 2 * (w.value % w.denominator))
  if w.contains above && (nearerAbove || !w.contains below) then some above
  else if w.contains below then some below
  else none

/-- The decimal exponent of the leading digit of a positive double's value. -/
def Window.lead (w : Window) : Int :=
  ((Nat.toDigits 10 (w.value * Nat.pow 10 340 / w.denominator)).length : Int) - 341

/-- The same number without trailing zeros in the coefficient. -/
def Decimal.trim (coefficient : Nat) (exponent : Int) : Nat → Decimal
  | 0 => ⟨coefficient, exponent⟩
  | fuel + 1 =>
    if coefficient % 10 = 0 then Decimal.trim (coefficient / 10) (exponent + 1) fuel
    else ⟨coefficient, exponent⟩

/-- The shortest decimal of a positive finite double. -/
def decimal (x : Double) : Decimal :=
  let w := Window.around x.significand x.exponent
  let lead := w.lead
  let found := (List.range 17).findSome? fun (n : Nat) =>
    let exponent := lead - (n : Int)
    (w.inUnits exponent).nearest?.map fun units => Decimal.trim units exponent 20
  found.getD ⟨0, 0⟩

/-- Positional notation: zeros up to the point, and no exponent mark. -/
def Decimal.positional (d : Decimal) : String :=
  let digits := Nat.toDigits 10 d.coefficient
  if 0 ≤ d.exponent then
    String.ofList (digits ++ List.replicate d.exponent.toNat '0')
  else
    let places := (-d.exponent).toNat
    let padded := List.replicate (places + 1 - digits.length) '0' ++ digits
    let point := padded.length - places
    String.ofList (padded.take point ++ '.' :: padded.drop point)

end DataExpr.Shortest

namespace DataExpr.Double

/-- Text of a double: an integral value below `10 ^ 16` has one decimal place,
    any other finite value its shortest decimal in positional notation. -/
def text (x : Double) : String :=
  let sign := if x.isNegative then "-" else ""
  if !x.isFinite then sign ++ "inf"
  else if x.isIntegral && decide (x.truncate.natAbs < 10000000000000000) then
    sign ++ toString x.truncate.natAbs ++ ".0"
  else sign ++ (Shortest.decimal x).positional

end DataExpr.Double
