import DataExpr.Eval.Op

/-!
# Running programs

A program is called on an input and gives one value, or it is started and its
results are taken one by one.  Taken one by one, the items of a lazy comprehension
and the pairs of a join are computed only when they are asked for; the elements of
any other result are there from the start.
-/

namespace DataExpr

variable {σ : Type}

namespace Program

/-- The frame of a call. -/
def frame (program : Program) (params : Params) : Except Error Frame := do
  return .ofLayout program.layout (← program.params.bind params)

/-- Runs an evaluation in a new frame. -/
def runFresh {α : Type} (program : Program) (params : Params) (body : Eval σ α) :
    StateM σ (Except Error (α × Frame)) := fun host =>
  match program.frame params with
  | .error e => (.error e, host)
  | .ok frame =>
    let (result, world) := body.run ⟨frame, host⟩
    (result.map fun a => (a, world.frame), world.host)

/-- The value of a program on an input. -/
def call (host : Host σ) (program : Program) (input : Value) (params : Params) :
    StateM σ (Except Error Value) := do
  return (← program.runFresh params (program.body.eval host input)).map (·.1)

end Program

/-- Results that are still to come. -/
inductive Cursor (σ : Type) where
  /-- Results that are known already. -/
  | values (rest : List Value)
  | loop (op : LoopOp (Evaluator σ)) (items : List Value) (frame : Frame)
  /-- Pairs that are waiting, and the primary rows after them. -/
  | join (op : JoinOp (Evaluator σ)) (input : Value) (waiting rows : List Value)
      (state : JoinState) (frame : Frame)

namespace Cursor

/-- There is nothing to come. -/
def done : Cursor σ := .values []

/-- Goes through the items of a loop up to the next result. -/
def nextItem (op : LoopOp (Evaluator σ)) :
    List Value → Eval σ (Option (Value × List Value))
  | [] => return none
  | item :: rest => do
    match ← op.step item with
    | some (_, v) => return some (v, rest)
    | none => nextItem op rest

/-- The next result, or none at the end, and the cursor after it.  After a failure
    nothing more comes. -/
def next (cursor : Cursor σ) : StateM σ (Option (Except Error Value) × Cursor σ) := fun host =>
  match cursor with
  | .values [] => ((none, done), host)
  | .values (v :: rest) => ((some (.ok v), .values rest), host)
  | .loop op items frame =>
    match (nextItem op items).run ⟨frame, host⟩ with
    | (.ok (some (v, rest)), world) => ((some (.ok v), .loop op rest world.frame), world.host)
    | (.ok none, world) => ((none, done), world.host)
    | (.error e, world) => ((some (.error e), done), world.host)
  | .join op input (v :: waiting) rows state frame =>
    ((some (.ok v), .join op input waiting rows state frame), host)
  | .join op input [] rows state frame =>
    match (op.next input rows state).run ⟨frame, host⟩ with
    | (.ok (v :: waiting, some (rows, state)), world) =>
      ((some (.ok v), .join op input waiting rows state world.frame), world.host)
    | (.ok (v :: waiting, none), world) => ((some (.ok v), .values waiting), world.host)
    | (.ok ([], _), world) => ((none, done), world.host)
    | (.error e, world) => ((some (.error e), done), world.host)

end Cursor

namespace Program

/-- Starts a program on an input. -/
def start (host : Host σ) (program : Program) (input : Value) (params : Params) :
    StateM σ (Except Error (Cursor σ)) := do
  let whole : StateM σ (Except Error (Cursor σ)) := do
    let result ← program.runFresh params do (← program.body.eval host input).elements
    return result.map fun (items, _) => .values items
  match program.body.node with
  | .loop op =>
    if op.kind = .lazy then
      let op := Op.foldLoop (OpNode.evaluate host) op
      let result ← program.runFresh params (op.items input)
      return result.map fun (items, frame) => .loop op items frame
    else whole
  | .join op =>
    let op := Op.foldJoin (OpNode.evaluate host) op
    let result ← program.runFresh params (op.start input)
    return result.map fun ((rows, state), frame) => .join op input [] rows state frame
  | _ => whole

end Program
end DataExpr
