import DataExpr.Expr.ReducerKind
import DataExpr.Value.Sort

/-!
# Percentiles

A percentile of samples is found at a position between two neighbours in their
order; the interpolation says how the two are combined.
-/

namespace DataExpr.Reduction

/-- A position in a sorted list: an index and what lies beyond it. -/
structure Position where
  index : Nat
  fraction : Float

/-- The position of a percentile in a list of the given length, which is not zero. -/
def Position.ofPercentile (p : Double) (length : Nat) : Position :=
  let share := p.toFloat / 100.0
  let bounded := if share < 0.0 then 0.0 else if 1.0 < share then 1.0 else share
  let place := bounded * (Double.ofInt (length - 1 : Nat)).toFloat
  let index := ((Double.ofFloat? place).getD .zero).floorInt.toNat
  ⟨index, place - (Double.ofInt index).toFloat⟩

/-- The value that lies between two neighbours by the given share of their distance. -/
def between (low high : Value) (share : Float) : Except Error Value := do
  low.add (← (← high.sub low).mul (Value.ofFloat share))

/-- The value at a position between two neighbours.  An exact half counts as near to the
    lower one; the linear kind always computes. -/
def interpolate (kind : Interpolation) (low high : Value) (fraction : Float) :
    Except Error Value :=
  match kind with
  | .lower => .ok low
  | .higher => .ok (if 0.0 < fraction then high else low)
  | .nearest => .ok (if 0.5 < fraction then high else low)
  | .midpoint => if fraction == 0.0 then .ok low else between low high 0.5
  | .linear => between low high fraction

/-- The percentile of some samples; null if there are none. -/
def percentile (samples : List Value) (p : Double) (kind : Interpolation) :
    Except Error Value := do
  let sorted ← Value.sort samples false
  let position := Position.ofPercentile p sorted.length
  match sorted[position.index]? with
  | none => return .null
  | some low =>
    let high := sorted[position.index + 1]?.getD low
    interpolate kind low high position.fraction

end DataExpr.Reduction
