import DataExpr.Lowering.Slots
import DataExpr.Lowering.State

/-!
# Lowering aggregates

An aggregate reads the rows of its input once.  For each row it evaluates the keys
and feeds the slots; its output is evaluated for each group, where a subexpression
that equals a key stands for the key of the group and a reducer for the value of
its slot.  A rule is given `go`, which lowers smaller expressions.
-/

namespace DataExpr.Lowering

variable {root : Expr}

/-- The input in the given surroundings. -/
def lowerInput (e : Expr) (env : Env) : M Op :=
  match env.input with
  | .value => return .mk .input
  | .inline producer => return producer
  | .unavailable => throw (.missingGroupByField e.node.kindName)

/-- The positions of the keys that an expression equals. -/
def AggregateEnv.keyPositions (aggregate : AggregateEnv) (e : Expr) : List Nat :=
  aggregate.keys.zipIdx.filterMap fun (key, i) => if key == e then some i else none

/-- Directly in the output of an aggregate, an expression that equals a key is the key
    of the group. -/
def groupKey? (e : Expr) (env : Env) : Except CompileError (Option Op) :=
  match env.aggregate with
  | none => .ok none
  | some aggregate =>
    if aggregate.context.same env.context then
      match aggregate.keyPositions e with
      | [] => .ok none
      | [i] => .ok (some (.mk (.groupKey aggregate.group i)))
      | found => .error (.ambiguousGroupByField found.length)
    else .ok none

/-- What a reducer reports when no row qualified: its default, else an initial value
    that does not read the row, else the default of its kind. -/
def lowerFallback (go : LowerSmaller root) (r : Reducer (Smaller root)) (env : Env) : M Op :=
  match r.default, r.initial.filter (·.1.analysis.inputUses == 0) with
  | some default, _ => contained (go default env)
  | none, some initial => contained (go initial env)
  | none, none => do
    let value := r.kind.staticDefault
    return .mk (.const (← constantName value) value)

/-- A reducer in the output of an aggregate is the value of its slot. -/
def lowerReducer (go : LowerSmaller root) (r : Reducer (Smaller root)) (env : Env) : M Op := do
  match env.aggregate with
  | none => throw (.reducerOutsideAggregate r.kind.display)
  | some aggregate =>
    match aggregate.slots.findIdx? fun slot => slot.sameSlot (Smaller.plain r) with
    | none => throw (.reducerOutsideAggregate r.kind.display)
    | some index =>
      let default ← lowerFallback go r env
      return .mk (.slotValue aggregate.group index default)

/-- The operations that feed a slot. -/
def lowerSlot (go : LowerSmaller root) (env : Env) (r : Reducer (Smaller root)) :
    M (SlotOp Op) := do
  let part (e : Smaller root) : M Op := contained (go e env)
  let filter ← r.filter.mapM part
  let args ← r.args.mapM part
  let initial ← r.initial.mapM part
  let seedEmpty := r.initial.any (·.1.analysis.inputUses == 0)
  return { kind := r.kind, args, filter, initial, seedEmpty }

/-- Lowers an aggregate `e`, which is known by `key`, with these keys and this output. -/
def lowerAggregate (go : LowerSmaller root) (e : Expr) (key : NodeKey)
    (keys : List (Smaller root)) (output : Smaller root) (env : Env) : M Op := do
  let source ← lowerInput e env
  let reducers ← output.slots
  let group ← freshGroup
  let row ← freshName "row"
  let rowContext := Context.part env.context key .row
  let outputContext := Context.part env.context key .output
  let (rowScope, keyOps, slots) ← inScope env rowContext .value fun inner => do
    let inner := { inner with aggregate := none }
    let keyOps ← keys.mapM (go · inner)
    let slots ← reducers.mapM (lowerSlot go inner)
    return (keyOps, slots)
  let aggregate : AggregateEnv :=
    { group, keys := keys.map (·.1), context := outputContext
      slots := reducers.map Smaller.plain }
  let (outputScope, outputOp) ← inScope env outputContext .unavailable fun inner =>
    go output { inner with aggregate := some aggregate }
  return .mk (.aggregate
    { group, row, source, rowScope, keys := keyOps, slots, outputScope, output := outputOp })

end DataExpr.Lowering
