import DataExpr.Eval.Basic
import DataExpr.Reduction.Accumulator
import DataExpr.Value.Lookup

/-!
# Evaluation of aggregates

One pass over the rows feeds the slots of each group.  Groups are told apart by the
keys under which equal values meet and appear in the order of their first rows.  In
the end the output is evaluated for each group.
-/

namespace DataExpr

open Reduction

variable {σ : Type}

/-- The rows of a group so far. -/
structure GroupRecord where
  /-- The key values of the group's first row. -/
  key : List Value
  slots : List (Option Accumulator)

/-- Groups in the order of their first rows. -/
abbrev GroupTable := Table GroupRecord

namespace SlotOp

/-- Combines an accumulator with the arguments of a row. -/
def combine (host : Host σ) (kind : ReducerKind) (acc : Accumulator) (args : List Value) :
    Eval σ Accumulator := do
  match kind, acc with
  | .reduce f, .plain (.value state) => return .seed (← Eval.call host f (state :: args))
  | kind, acc => acc.combine kind args

/-- Feeds a row to a slot.  An initial value is taken at the first row that the slot
    accepts. -/
def feed (host : Host σ) (op : SlotOp (Evaluator σ)) (slot : Option Accumulator) (row : Value) :
    Eval σ (Option Accumulator) := do
  if ← Eval.holds op.filter row then
    let args ← op.args.mapM (· row)
    match slot with
    | some acc => return some (← combine host op.kind acc args)
    | none =>
      match ← Accumulator.first op.kind args, op.initial with
      | none, _ => return none
      | some acc, none => return some acc
      | some _, some initial =>
        return some (← combine host op.kind (.seed (← initial row)) args)
  else return slot

/-- A slot that has seen no row. -/
def empty (op : SlotOp (Evaluator σ)) (input : Value) : Eval σ (Option Accumulator) := do
  match op.initial with
  | some initial => if op.seedEmpty then return some (.seed (← initial input)) else return none
  | none => return none

end SlotOp

namespace AggregateOp

/-- Feeds a row to the slots of its group. -/
def feed (host : Host σ) (op : AggregateOp (Evaluator σ)) (groups : GroupTable) (row : Value) :
    Eval σ GroupTable := do
  Eval.reset op.rowScope.resets
  let key ← op.keys.mapM (· row)
  let normal := Value.tuple (key.map Value.hashKey)
  let record := (groups.get? normal).getD ⟨key, op.slots.map fun _ => none⟩
  let slots ← (op.slots.zip record.slots).mapM fun (slot, acc) => slot.feed host acc row
  return groups.insert normal { record with slots }

/-- The output for a group. -/
def emit (op : AggregateOp (Evaluator σ)) (input : Value) (record : GroupRecord) :
    Eval σ Value := do
  let values ← (op.slots.zip record.slots).mapM fun (slot, acc) =>
    (finishSlot slot.kind acc : Eval σ (Option Value))
  Eval.withGroup op.group ⟨record.key, values⟩ do
    Eval.reset op.outputScope.resets
    op.output input

/-- The only group of an aggregate without keys that has seen no row. -/
def emptyRecord (op : AggregateOp (Evaluator σ)) (input : Value) : Eval σ GroupRecord := do
  Eval.reset op.rowScope.resets
  return ⟨[], ← op.slots.mapM (·.empty input)⟩

/-- The outputs of all groups, or the one output if there are no keys. -/
def collect (host : Host σ) (op : AggregateOp (Evaluator σ)) (input : Value) : Eval σ Value := do
  let rows ← (← op.source input).elements
  let groups ← rows.foldlM (op.feed host) Table.empty
  if op.keys.isEmpty then
    match groups.toEntries.getLast? with
    | some (_, record) => op.emit input record
    | none => op.emit input (← op.emptyRecord input)
  else return .list (← groups.toEntries.mapM fun g => op.emit input g.2)

end AggregateOp
end DataExpr
