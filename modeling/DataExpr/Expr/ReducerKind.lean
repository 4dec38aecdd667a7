import DataExpr.Number.Shortest
import DataExpr.Value.Basic

/-!
# Kinds of reducers

A reducer turns the rows of a group into one value.  The keyed kinds build a
dictionary and reduce the rows of each key with another kind.
-/

namespace DataExpr

/-- Where a percentile lies between two neighbouring samples. -/
inductive Interpolation where
  | linear | lower | higher | midpoint | nearest
deriving DecidableEq, Repr

namespace Interpolation

def name : Interpolation → String
  | linear => "Linear"
  | lower => "Lower"
  | higher => "Higher"
  | midpoint => "Midpoint"
  | nearest => "Nearest"

end Interpolation

inductive ReducerKind where
  /-- The sum, in which null counts as zero. -/
  | sum
  /-- The sum, or null as soon as there is a null. -/
  | sumOrNull
  | max
  | min
  /-- The row with the largest key. -/
  | maxRow
  /-- The row with the smallest key. -/
  | minRow
  /-- The number of rows, or of values that are not null. -/
  | count
  | countDistinct
  | first
  | last
  /-- The mean, possibly weighted; null counts as zero. -/
  | average
  | median
  | percentile (p : Double) (interpolation : Interpolation)
  /-- The most frequent value; of several the one that first came last. -/
  | mode
  /-- The most frequent values, most frequent first. -/
  | topK (k : Nat)
  | array
  | arrayDistinct
  | arraySorted (reverse : Bool)
  | dict
  | dictArray
  | dictArrayDistinct
  | dictSum
  | dictSumOrNull
  | dictMax
  | dictMin
  | dictCount
  | dictCountDistinct
  | dictFirst
  | dictLast
  /-- A fold with a function of the host. -/
  | reduce (f : Function)
deriving DecidableEq

namespace ReducerKind

/-- The kind that a keyed kind applies to the rows of each key. -/
def keyedInner : ReducerKind → Option ReducerKind
  | dict => some last
  | dictArray => some array
  | dictArrayDistinct => some arrayDistinct
  | dictSum => some sum
  | dictSumOrNull => some sumOrNull
  | dictMax => some max
  | dictMin => some min
  | dictCount => some count
  | dictCountDistinct => some countDistinct
  | dictFirst => some first
  | dictLast => some last
  | _ => none

/-- The value that is reported when no row qualified. -/
def staticDefault : ReducerKind → Value
  | sum | count | countDistinct => .int 0
  | _ => .null

/-- The largest number that stands for "any number of arguments". -/
def anyNumber : Nat := 0xffffffffffffffff

/-- The least and the greatest number of arguments. -/
def arity (kind : ReducerKind) : Nat × Nat :=
  match kind with
  | count => (0, 1)
  | average => (1, 2)
  | maxRow | minRow => (2, 2)
  | dictCount => (1, 2)
  | reduce _ => (1, anyNumber)
  | kind => if kind.keyedInner.isSome then (2, 2) else (1, 1)

/-- Whether an accumulator of this kind can start from a given value. -/
def acceptsInitial : ReducerKind → Bool
  | sum | sumOrNull | max | min | first | last | reduce _ => true
  | _ => false

def name : ReducerKind → String
  | sum => "sum"
  | sumOrNull => "sum_or_null"
  | max => "max"
  | min => "min"
  | maxRow => "max_row"
  | minRow => "min_row"
  | count => "count"
  | countDistinct => "count_distinct"
  | first => "first"
  | last => "last"
  | average => "average"
  | median => "median"
  | percentile .. => "percentile"
  | mode => "mode"
  | topK _ => "top_k"
  | array => "array"
  | arrayDistinct => "array_distinct"
  | arraySorted _ => "array_sorted"
  | dict => "dict"
  | dictArray => "dict_array"
  | dictArrayDistinct => "dict_array_distinct"
  | dictSum => "dict_sum"
  | dictSumOrNull => "dict_sum_or_null"
  | dictMax => "dict_max"
  | dictMin => "dict_min"
  | dictCount => "dict_count"
  | dictCountDistinct => "dict_count_distinct"
  | dictFirst => "dict_first"
  | dictLast => "dict_last"
  | reduce _ => "reduce"

/-- The name with what distinguishes the reducer from others of its kind. -/
def display : ReducerKind → String
  | percentile p interpolation => "percentile[" ++ p.text ++ ", " ++ interpolation.name ++ "]"
  | topK k => "top_k[" ++ toString k ++ "]"
  | arraySorted true => "array_sorted[reverse]"
  | reduce f => "reduce[" ++ f.name ++ "]"
  | kind => kind.name

/-- Likeness of kinds: functions are compared by identity. -/
def alike : ReducerKind → ReducerKind → Bool
  | reduce f, reduce g => f.id == g.id
  | a, b => a == b

end ReducerKind
end DataExpr
