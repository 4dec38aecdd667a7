/-!
# Weights

Relative costs of evaluation, in units in which a plain step costs 100, and the
rule by which a repeated evaluation is compared with binding the value once.
-/

namespace DataExpr.Weight

def step : UInt64 := 100
def logical : UInt64 := 97
def dictLookup : UInt64 := 139
def attrLookup : UInt64 := 132
def mathSimple : UInt64 := 165
def tupleInit : UInt64 := 246
def listInit : UInt64 := 310
def setInit : UInt64 := 573
def dictInit : UInt64 := 742
def functionCall : UInt64 := 358
def unpredictable : UInt64 := 74200

/-- A cost against which repeated evaluation is compared.  It is known by its bits, so
    that each NaN is a threshold of its own. -/
structure Threshold where
  bits : UInt64
deriving DecidableEq, Repr

namespace Threshold

def ofFloat (x : Float) : Threshold := ⟨x.toBits⟩

def toFloat (threshold : Threshold) : Float := Float.ofBits threshold.bits

end Threshold

/-- The cost of binding a value to a name and reading it back. -/
def bindingThreshold : Threshold := .ofFloat (358.0 * 1.33)

/-- Whether evaluating something of this weight at each of its uses costs less than
    binding it once. -/
def isSimple (weight uses : UInt64) (threshold : Threshold) : Bool :=
  decide (uses ≤ 1) || decide (weight.toFloat * (uses - 1).toFloat < threshold.toFloat)

end DataExpr.Weight
