import DataExpr.Error
import DataExpr.Text.Search
import DataExpr.Value.Arithmetic
import DataExpr.Value.Collection

/-!
# Comparison of values

The equality of the language promotes numbers at the top level; everything else
is compared as it is.  The order is partial: it exists between numbers, between
booleans, between strings, and between lists or tuples with comparable elements.
-/

namespace DataExpr

/-- The order of two operands of which it is known whether the first is less and
    whether they are equal. -/
def orderOf (less equal : Bool) : Ordering :=
  if less then .lt else if equal then .eq else .gt

namespace Value

/-- Equality of the language: numbers are equal by value, also across types. -/
def equals (a b : Value) : Bool :=
  match a.number?, b.number? with
  | some (.int m), some (.int n) => m == n
  | some x, some y => x.toFloat == y.toFloat
  | _, _ => a == b

/-- The key under which equal values meet in groups and indexes: an integral float of
    modest size is represented by the integer. -/
def hashKey : Value → Value
  | .float x =>
    if x.isIntegral && decide (x.truncate.natAbs < 9000000000000000) then
      .int (Int64.ofInt x.truncate)
    else .float x
  | v => v

mutual

/-- The order of two values, if they have one. -/
def compare : Value → Value → Except Error Ordering
  | .int m, .int n => .ok (orderOf (decide (m < n)) (m == n))
  | .bool p, .bool q => .ok (orderOf (!p && q) (p == q))
  | .str s, .str t => .ok (orderOf (decide (s < t)) (s == t))
  | .list as, .list bs => compareAll as bs
  | .tuple as, .tuple bs => compareAll as bs
  | a, b =>
    match a.number?, b.number? with
    | some x, some y => .ok (x.toDouble.compare y.toDouble)
    | _, _ => .error (.ofIncomparable a b)
termination_by structural a => a

/-- Lexicographic order: the first elements that differ decide, then the length. -/
def compareAll : List Value → List Value → Except Error Ordering
  | [], [] => .ok .eq
  | [], _ :: _ => .ok .lt
  | _ :: _, [] => .ok .gt
  | a :: as, b :: bs => do
    match ← compare a b with
    | .eq => compareAll as bs
    | order => .ok order
termination_by structural as => as

end

/-- Membership in a container.  Lists and tuples compare with `equals`; sets and
    dictionaries are probed with the item and with its key. -/
def contains (container item : Value) : Except Error Bool :=
  match container with
  | .list items | .tuple items => .ok (items.any fun v => v.equals item)
  | .set items => .ok (items.any (· == item) || items.any (· == item.hashKey))
  | .dict entries =>
    .ok (Entries.contains entries item || Entries.contains entries item.hashKey)
  | .str s =>
    match item with
    | .str needle => .ok (Text.occursIn needle.toList s.toList)
    | other => .error (.ofOperands "in" [other, container])
  | other => .error (.ofNotIterable other)

end Value
end DataExpr
