import DataExpr.Reduction.Percentile

/-!
# Accumulators

The state of a reducer while it goes over the rows.  A slot is empty until a row
comes that its kind accepts; that row gives the first accumulator and later rows are
combined with it.  In the end an accumulator is finished into a value.  A keyed
accumulator has one cell for each key.
-/

namespace DataExpr.Reduction

/-- The state of a reducer that is not keyed.  A row is the best one so far with its key, a
    list holds the values from the last one on, and a table holds the first representative of
    each distinct value, a counter also how often it came. -/
inductive Cell where
  | value (v : Value)
  | count (n : Nat)
  | row (key row : Value)
  | mean (total weight : Value)
  | list (values : List Value)
  | distinct (seen : Table Value)
  | counter (counts : Table (Value × Nat))

inductive Accumulator where
  | plain (cell : Cell)
  | keyed (cells : Table Cell)

/-- An accumulator does not belong to the kind of its reducer. -/
def mismatch (kind : ReducerKind) : Error :=
  .invalidArgument kind.name "accumulator does not match reducer kind"

/-- The value of a row, which is its first argument. -/
def rowValue (args : List Value) : Value := args.head?.getD .null

def orZero (v : Value) : Value := if v.isNull then .int 0 else v

/-- The value and the weight of a row in a mean; null counts as zero and the weight is
    one if it is not given. -/
def weighted (args : List Value) : Value × Value :=
  (orZero (rowValue args), match args[1]? with
    | some w => orZero w
    | none => .int 1)

namespace Cell

/-- The cell of a first row, or none if the row is skipped. -/
def first (kind : ReducerKind) (args : List Value) : Except Error (Option Cell) :=
  let v := rowValue args
  match kind with
  | .sum => .ok (some (.value (orZero v)))
  | .sumOrNull | .first | .last | .reduce _ => .ok (some (.value v))
  | .max | .min => .ok (if v.isNull then none else some (.value v))
  | .maxRow | .minRow => .ok (if v.isNull then none else some (.row v (args[1]?.getD .null)))
  | .count => .ok (if !args.isEmpty && v.isNull then none else some (.count 1))
  | .countDistinct | .arrayDistinct => .ok (some (.distinct (.single v.hashKey v)))
  | .average => do
    let (v, weight) := weighted args
    return some (.mean (← v.mul weight) weight)
  | .median | .percentile .. => .ok (if v.isNull then none else some (.list [v]))
  | .array | .arraySorted _ => .ok (some (.list [v]))
  | .mode => .ok (if v.isNull then none else some (.counter (.single v.hashKey (v, 1))))
  | .topK _ => .ok (some (.counter (.single v.hashKey (v, 1))))
  | keyed => .error (mismatch keyed)

/-- One more occurrence of a value. -/
def countOne (counts : Table (Value × Nat)) (v : Value) : Table (Value × Nat) :=
  match counts.get? v.hashKey with
  | some (representative, n) => counts.insert v.hashKey (representative, n + 1)
  | none => counts.insert v.hashKey (v, 1)

/-- The first representative of one more value. -/
def keepFirst (seen : Table Value) (v : Value) : Table Value :=
  match seen.get? v.hashKey with
  | some _ => seen
  | none => seen.insert v.hashKey v

/-- Whether a value replaces the best one so far.  Null never does, and null as the best
    one, which only an initial value can be, is always replaced. -/
def surpasses (wanted : Ordering) (v best : Value) : Except Error Bool := do
  if v.isNull then return false
  else if best.isNull then return true
  else return (← v.compare best) == wanted

/-- Whether the key of a row is better than the best one so far. -/
def surpassesKey (wanted : Ordering) (v best : Value) : Except Error Bool := do
  if v.isNull then return false else return (← v.compare best) == wanted

/-- The cell after one more row. -/
def combine (kind : ReducerKind) (cell : Cell) (args : List Value) : Except Error Cell :=
  let v := rowValue args
  match kind, cell with
  | .sum, .value total => do
    if v.isNull then return .value total else return .value (← total.add v)
  | .sumOrNull, .value total => do
    if total.isNull || v.isNull then return .value .null else return .value (← total.add v)
  | .max, .value best => do
    return .value (if ← surpasses .gt v best then v else best)
  | .min, .value best => do
    return .value (if ← surpasses .lt v best then v else best)
  | .maxRow, .row key kept => do
    if ← surpassesKey .gt v key then return .row v (args[1]?.getD .null) else return .row key kept
  | .minRow, .row key kept => do
    if ← surpassesKey .lt v key then return .row v (args[1]?.getD .null) else return .row key kept
  | .count, .count n => .ok (.count (if args.isEmpty || !v.isNull then n + 1 else n))
  | .countDistinct, .distinct seen | .arrayDistinct, .distinct seen =>
    .ok (.distinct (keepFirst seen v))
  | .first, .value kept => .ok (.value kept)
  | .last, .value _ => .ok (.value v)
  | .average, .mean total weight => do
    let (v, w) := weighted args
    let total ← total.add (← v.mul w)
    return .mean total (← weight.add w)
  | .median, .list values | .percentile .., .list values =>
    .ok (.list (if v.isNull then values else v :: values))
  | .array, .list values | .arraySorted _, .list values => .ok (.list (v :: values))
  | .mode, .counter counts => .ok (.counter (if v.isNull then counts else countOne counts v))
  | .topK _, .counter counts => .ok (.counter (countOne counts v))
  | kind, _ => .error (mismatch kind)

/-- The most frequent value; among equals the last one in the order of first occurrence. -/
def mostFrequent (counts : List (Value × Nat)) : Value :=
  let best := counts.foldl (fun best c => match best with
    | some (_, n) => if n ≤ c.2 then some c else best
    | none => some c) none
  match best with
  | some (v, _) => v
  | none => .null

/-- The most frequent values first; equally frequent ones in the order of first
    occurrence. -/
def byFrequency (counts : List (Value × Nat)) : List Value :=
  (counts.mergeSort fun a b => decide (b.2 ≤ a.2)).map (·.1)

def finish (kind : ReducerKind) (cell : Cell) : Except Error Value :=
  match kind, cell with
  | _, .value v => .ok v
  | _, .count n => .ok (.int (Int64.ofNat n))
  | _, .row _ kept => .ok kept
  | _, .mean total weight => total.div weight
  | .countDistinct, .distinct seen => .ok (.int (Int64.ofNat seen.toEntries.length))
  | _, .distinct seen => .ok (.list (seen.toEntries.map (·.2)))
  | .median, .list values => percentile values.reverse (Double.ofInt 50) .linear
  | .percentile p interpolation, .list values => percentile values.reverse p interpolation
  | .arraySorted reverse, .list values => do
    return .list (← Value.sort values.reverse reverse)
  | _, .list values => .ok (.list values.reverse)
  | .topK k, .counter counts => .ok (.list ((byFrequency (counts.toEntries.map (·.2))).take k))
  | _, .counter counts => .ok (mostFrequent (counts.toEntries.map (·.2)))

end Cell

/-- The key of a keyed row and its other arguments. -/
def splitKey (kind : ReducerKind) : List Value → Except Error (Value × List Value)
  | key :: rest => .ok (key, rest)
  | [] => .error (.invalidArgument kind.name "missing key argument")

namespace Accumulator

def seed (initial : Value) : Accumulator := .plain (.value initial)

/-- The accumulator of a first row, or none if the row is skipped. -/
def first (kind : ReducerKind) (args : List Value) : Except Error (Option Accumulator) := do
  match kind.keyedInner with
  | some inner =>
    let (key, rest) ← splitKey kind args
    return (← Cell.first inner rest).map fun cell => .keyed (.single key cell)
  | none => return (← Cell.first kind args).map .plain

/-- The accumulator after one more row. -/
def combine (kind : ReducerKind) (acc : Accumulator) (args : List Value) :
    Except Error Accumulator := do
  match kind.keyedInner with
  | some inner =>
    let (key, rest) ← splitKey kind args
    match acc with
    | .keyed cells =>
      match cells.get? key with
      | some cell => return .keyed (cells.insert key (← cell.combine inner rest))
      | none =>
        match ← Cell.first inner rest with
        | some cell => return .keyed (cells.insert key cell)
        | none => return .keyed cells
    | .plain _ => throw (mismatch kind)
  | none =>
    match acc with
    | .plain cell => return .plain (← cell.combine kind args)
    | .keyed _ => throw (mismatch kind)

def finish (kind : ReducerKind) (acc : Accumulator) : Except Error Value :=
  match kind.keyedInner, acc with
  | some inner, .keyed cells => do
    return .dict (← cells.toEntries.mapM fun c => do return (c.1, ← c.2.finish inner))
  | none, .plain cell => cell.finish kind
  | _, _ => .error (mismatch kind)

/-- Whether an accumulator is a mean over a total weight of zero, which has no value. -/
def isWeightless : Accumulator → Bool
  | .plain (.mean _ weight) => !weight.isTruthy
  | _ => false

end Accumulator

/-- The value of a slot, or none if the default applies. -/
def finishSlot (kind : ReducerKind) (slot : Option Accumulator) : Except Error (Option Value) :=
  match slot with
  | none => .ok none
  | some acc => if acc.isWeightless then .ok none else do return some (← acc.finish kind)

end DataExpr.Reduction
