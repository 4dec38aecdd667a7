import DataExpr.Lowering.Aggregate
import DataExpr.Lowering.Join

/-!
# Lowering expressions

Each kind of node has a rule, which lowers the subexpressions in the order of their
evaluation.  Lowering applies the rules from the root down; it runs once to count
how often each subexpression occurs, and a second time to emit the program.
-/

namespace DataExpr.Lowering

variable {root : Expr}

/-- Lowers operands of which only the first one is certain to be evaluated. -/
def lowerShortCircuit (go : LowerSmaller root) (items : List (Smaller root)) (env : Env) :
    M (List Op) := do
  match items with
  | [] => return []
  | first :: rest =>
    let op ← go first env
    let ops ← contained (rest.mapM (go · env))
    return op :: ops

/-- Lowers a step of an access path. -/
def lowerStep (go : LowerSmaller root) (env : Env) : PathStep (Smaller root) → M (Step Op)
  | .key e => return .key (← go e env)
  | .attr name => return .attr name

/-- Lowers a handler of a guarded expression. -/
def lowerHandler (go : LowerSmaller root) (env : Env) (h : Handler (Smaller root)) :
    M (HandlerOp Op) := do
  let reraiseIf ← h.reraiseIf.mapM (go · env)
  let value ← go h.value env
  return { kinds := h.kinds, value, reraiseIf }

/-- Lowers a guarded expression.  It may stop at any point, so the labels that are set
    afterwards are those that it sets itself and that every handler sets too.  Without
    handlers it is the expression alone. -/
def lowerGuarded (go : LowerSmaller root) (body : Smaller root)
    (handlers : List (Handler (Smaller root))) (env : Env) : M Op := do
  if handlers.isEmpty then go body env
  else
    let before ← assigned
    let bodyOp ← go body env
    let after ← assigned
    let caught ← freshSlot "exc"
    let inner := { env with caught := some caught }
    let lowered ← handlers.mapM fun h => do
      setAssigned before
      let op ← lowerHandler go inner h
      return (op, ← assigned)
    setAssigned (lowered.foldl (fun names h => NameSet.inter names h.2) after)
    return .mk (.guarded { body := bodyOp, handlers := lowered.map (·.1), caught })

/-- Lowers both branches of a conditional; the labels that both set count afterwards. -/
def lowerBranches (go : LowerSmaller root) (yes no : Smaller root) (env : Env) :
    M (Op × Op) := do
  let before ← assigned
  let yesOp ← go yes env
  let afterYes ← assigned
  setAssigned before
  let noOp ← go no env
  setAssigned (NameSet.inter (← assigned) afterYes)
  return (yesOp, noOp)

/-- Lowers a pipe.  A cheap producer without effects is evaluated at each use of the
    consumer's input, any other once before the consumer.  A label that the producer
    reads may change between two evaluations, so nothing is bound then. -/
def lowerPipe (go : LowerSmaller root) (producer consumer : Smaller root) (env : Env) :
    M Op := do
  let produced := producer.1.analysis
  let inline := !produced.hasSideEffects &&
    Weight.isSimple produced.weight consumer.1.analysis.inputUses env.threshold
  let producerOp ← go producer env
  let inner :=
    { env with
      context := .part env.context (.of producer.1 produced) .consumer
      mayBind := env.mayBind && !produced.readsLabels }
  if inline then go consumer { inner with input := .inline producerOp }
  else
    let consumerOp ← go consumer { inner with input := .value }
    return .mk (.pipe producerOp consumerOp)

/-- Lowers the node of an expression `e`, which is known by this key. -/
def lowerNode (go : LowerSmaller root) (e : Expr) (env : Env) (key : NodeKey) :
    Node (Smaller root) → M Op
  | .input => lowerInput e env
  | .constant value => return .mk (.const (← constantName value) value)
  | .parameter name => return .mk (.param (← paramIndex name) name)
  | .access source path default => do
    let source ← go source env
    let steps ← path.mapM (lowerStep go env)
    let default ← default.mapM fun d => contained (go d env)
    return .mk (.access source steps default)
  | .call f args => do
    let name ← constantName (.function f)
    return .mk (.call name f (← args.mapM (go · env)))
  | .builtin op args => return .mk (.builtin op (← args.mapM (go · env)))
  | .binary op left right => do
    let left ← go left env
    let right ← go right env
    return .mk (.binary op left right)
  | .unary op operand => return .mk (.unary op (← go operand env))
  | .and items => return .mk (.and (← lowerShortCircuit go items env))
  | .or items => return .mk (.or (← lowerShortCircuit go items env))
  | .collection kind items => return .mk (.collection kind (← items.mapM (go · env)))
  | .dict pairs => do
    let pairs ← pairs.mapM fun (name, value) => do
      let name ← go name env
      let value ← go value env
      return (name, value)
    return .mk (.dict pairs)
  | .comprehension kind keyed element source filter => do
    let source ← go source env
    let var ← freshName "item"
    let context := Context.part env.context key .item
    let (scope, filter, keyed, element) ← inScope env context .value fun inner => do
      let filter ← filter.mapM (go · inner)
      let keyed ← keyed.mapM (go · inner)
      let element ← go element inner
      return (filter, keyed, element)
    return .mk (.loop { kind, var, source, scope, filter, key := keyed, element })
  | .sort source keys reverse => do
    let source ← go source env
    let var ← freshName "item"
    let context := Context.part env.context key .sortItem
    let (scope, keys) ← inScope env context .value fun inner =>
      keys.mapM fun k => return { op := ← go k.key inner, order := k.order }
    return .mk (.sort { var, source, scope, keys, reverse })
  | .guarded body handlers => lowerGuarded go body handlers env
  | .caught =>
    match env.caught with
    | some binding => return .mk (.caught binding)
    | none => throw .caughtOutsideHandler
  | .conditional condition yes no => do
    let condition ← go condition env
    let (yes, no) ← lowerBranches go yes no env
    return .mk (.cond condition yes no)
  | .pipe producer consumer => lowerPipe go producer consumer env
  | .label name value => do
    let value ← go value env
    setAssigned (NameSet.insert name (← assigned))
    return .mk (.setLabel (← labelSlot name) value)
  | .labelRef name => do
    if env.pass = .emit && !(← assigned).contains name then throw (.unresolvedLabel name)
    return .mk (.getLabel (← labelSlot name))
  | .reducer r => lowerReducer go r env
  | .aggregate keys output => lowerAggregate go e key keys output env
  | .join left right condition kind => lowerJoin go key left right condition kind env
  | .joinRow side =>
    match env.join, side with
    | some join, .left => return .mk (.register join.left)
    | some join, .right => return .mk (.register join.right)
    | none, _ => throw .joinRowOutsideJoin

/-- The operation for an expression in its surroundings. -/
def lower (e : Expr) (env : Env) : M Op := do
  match ← groupKey? e env with
  | some op => return op
  | none =>
    shared env e e.analysis fun key =>
      lowerNode (fun c inner => lower c.1 inner) e env key e.parts
termination_by sizeOf e
decreasing_by exact c.2

/-! ### Programs -/

/-- The surroundings of the whole expression. -/
def Env.start (pass : Pass) (threshold : Weight.Threshold) : Env :=
  { pass, threshold, context := .root, input := .value, mayBind := true, aggregate := none
    join := none, caught := none }

/-- The state before an expression is entered. -/
def State.start (signature : Signature) (counts : Occurrences) : State :=
  { supply := .ofSignature signature, counts, bound := [], assigned := [] }

/-- How often each subexpression occurs. -/
def countOccurrences (e : Expr) (signature : Signature) (threshold : Weight.Threshold) :
    Except CompileError Occurrences := do
  let (_, state) ← (lower e (.start .count threshold)).run (.start signature ∅)
  return state.counts

end DataExpr.Lowering

namespace DataExpr

open Lowering in
/-- The program of an expression that can be analyzed.  Parameters that the signature does
    not declare are added as required ones. -/
def Program.ofExpr (e : Expr) (signature : Signature) (threshold : Weight.Threshold) :
    Except CompileError Program := do
  let _ ← e.analyze.mapError .overflow
  let counts ← countOccurrences e signature threshold
  let (body, state) ← (lower e (.start .emit threshold)).run (.start signature counts)
  let supply := state.supply
  return {
    params := supply.signature
    constants := supply.constants
    scope := ⟨state.bound.map fun b => ⟨b.binding, b.definition⟩⟩
    body
    layout := ⟨supply.slots, supply.groups⟩ }

end DataExpr
