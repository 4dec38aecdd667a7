import DataExpr.Eval.Aggregate
import DataExpr.Eval.Builtin
import DataExpr.Eval.Join
import DataExpr.Eval.Loop
import DataExpr.Program.Fold

/-!
# Evaluation of operations

The meaning of an operation is a fold: each node is given its meaning from the
meanings of its parts.
-/

namespace DataExpr

variable {σ : Type}

/-- Applies a binary operator. -/
def BinaryOp.apply (op : BinaryOp) (l r : Value) : Except Error Value := do
  match op with
  | .add => l.add r
  | .sub => l.sub r
  | .mul => l.mul r
  | .div => l.div r
  | .floorDiv => l.floorDiv r
  | .mod => l.rem r
  | .pow => l.pow r
  | .eq => return .bool (l.equals r)
  | .notEq => return .bool !(l.equals r)
  | .lt => return .bool ((← l.compare r) == .lt)
  | .ltE => return .bool ((← l.compare r) != .gt)
  | .gt => return .bool ((← l.compare r) == .gt)
  | .gtE => return .bool ((← l.compare r) != .lt)
  | .mem => return .bool (← r.contains l)
  | .notMem => return .bool !(← r.contains l)

/-- Applies a unary operator. -/
def UnaryOp.apply (op : UnaryOp) (v : Value) : Except Error Value :=
  match op with
  | .not => .ok (.bool !v.isTruthy)
  | .neg => v.neg
  | .isNull => .ok (.bool v.isNull)
  | .isNotNull => .ok (.bool !v.isNull)

/-- Builds a collection. -/
def CollectionKind.build (kind : CollectionKind) (items : List Value) : Value :=
  match kind with
  | .list => .list items
  | .tuple => .tuple items
  | .set => .ofSet items

/-- The first operand whose truth is `deciding`, else the last one, else `last`. -/
def shortCircuit (deciding : Bool) (input last : Value) : List (Evaluator σ) → Eval σ Value
  | [] => return last
  | item :: rest => do
    let v ← item input
    if v.isTruthy == deciding then return v else shortCircuit deciding input v rest

/-- Whether the default of an access replaces a failed step from this container. -/
def Error.isAbsent (e : Error) (container : Value) : Bool :=
  container.isNull || e.kind?.any ErrorKind.lookup.contains

namespace Step

/-- Takes a step of an access path. -/
def take (step : Step (Evaluator σ)) (input container : Value) :
    Eval σ (Except Error Value) := do
  match step with
  | .key op => return container.getItem (← op input)
  | .attr name => return container.getAttr name

end Step

/-- Follows a path from a container. -/
def follow (default : Option (Evaluator σ)) (input container : Value) :
    List (Step (Evaluator σ)) → Eval σ Value
  | [] => return container
  | step :: rest => do
    match ← step.take input container, default with
    | .ok v, _ => follow default input v rest
    | .error e, some default => if e.isAbsent container then default input else throw e
    | .error e, none => throw e

namespace HandlerOp

/-- Whether a handler catches an error.  Without kinds it catches errors of every kind. -/
def catches {ω : Type} (handler : HandlerOp ω) (e : Error) : Bool :=
  e.kind?.any fun kind => handler.kinds.isEmpty || handler.kinds.contains kind

/-- Handles an error that has been caught. -/
def handle (handler : HandlerOp (Evaluator σ)) (e : Error) (input : Value) : Eval σ Value := do
  match handler.reraiseIf with
  | some condition =>
    if (← condition input).isTruthy then throw e else handler.value input
  | none => handler.value input

end HandlerOp

/-- Evaluates a guarded expression. -/
def GuardOp.run (op : GuardOp (Evaluator σ)) (input : Value) : Eval σ Value := do
  match ← Eval.attempt (op.body input) with
  | .ok v => return v
  | .error e =>
    match op.handlers.find? (·.catches e) with
    | none => throw e
    | some handler =>
      Eval.setSlot op.caught.slot (.str e.message)
      handler.handle e input

/-- The meaning of a node, from the meanings of its parts. -/
def OpNode.evaluate (host : Host σ) : OpNode (Evaluator σ) → Evaluator σ
  | .input, x => return x
  | .const _ value, _ => return value
  | .param index _, _ => return (← Eval.frame).param index
  | .access source steps default, x => do follow default x (← source x) steps
  | .call _ f args, x => do Eval.call host f (← args.mapM (· x))
  | .builtin op args, x => do op.apply (← args.mapM (· x))
  | .binary op left right, x => do
    let l ← left x
    let r ← right x
    op.apply l r
  | .unary op operand, x => do op.apply (← operand x)
  | .and items, x => shortCircuit false x (.bool true) items
  | .or items, x => shortCircuit true x (.bool false) items
  | .collection kind items, x => return kind.build (← items.mapM (· x))
  | .dict pairs, x => do
    let entries ← pairs.mapM fun (key, value) => do
      let k ← key x
      let v ← value x
      return (k, v)
    return .ofDict entries
  | .loop op, x => op.collect x
  | .sort op, x => op.collect x
  | .guarded op, x => op.run x
  | .caught binding, _ => return (← Eval.slot? binding.slot).getD .null
  | .cond condition yes no, x => do
    if (← condition x).isTruthy then yes x else no x
  | .pipe producer consumer, x => do consumer (← producer x)
  | .memo binding definition, x => Eval.readMemo binding (definition x)
  | .setLabel label value, x => do
    let v ← value x
    Eval.setSlot label.slot v
    return v
  | .getLabel label, _ => Eval.readSlot label
  | .register row, _ => Eval.readSlot row
  | .aggregate op, x => op.collect host x
  | .join op, x => op.collect x
  | .groupKey group index, _ => return (← Eval.currentGroup group).key[index]?.getD .null
  | .slotValue group index default, x => do
    match (← Eval.currentGroup group).values[index]?.join with
    | some v => return v
    | none => default x

/-- The meaning of an operation. -/
def Op.eval (host : Host σ) (op : Op) : Evaluator σ := op.fold (OpNode.evaluate host)

end DataExpr
