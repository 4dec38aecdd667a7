import DataExpr.Eval.Frame

/-!
# Evaluation

An evaluation reads and changes a frame, calls functions of the host and may fail.
What it has done to the frame and to the host before a failure stays done.
-/

namespace DataExpr

/-- The functions that an expression can call.  A call may change the state of the host. -/
structure Host (σ : Type) where
  call : Function → List Value → StateM σ (Except Error Value)

/-- What an evaluation can change. -/
structure World (σ : Type) where
  frame : Frame
  host : σ

abbrev Eval (σ : Type) := ExceptT Error (StateM (World σ))

/-- An operation that has been given its meaning: from the current input it evaluates
    to a value. -/
abbrev Evaluator (σ : Type) := Value → Eval σ Value

namespace Eval

variable {σ α : Type}

/-- The result of an evaluation, with a failure as a result. -/
def attempt (body : Eval σ α) : Eval σ (Except Error α) :=
  ExceptT.mk do return .ok (← body.run)

/-- Calls a function of the host. -/
def call (host : Host σ) (f : Function) (args : List Value) : Eval σ Value :=
  ExceptT.mk fun world =>
    let (result, state) := host.call f args world.host
    (result, { world with host := state })

def frame : Eval σ Frame := return (← get).frame

def updateFrame (f : Frame → Frame) : Eval σ Unit :=
  modify fun world => { world with frame := f world.frame }

def slot? (slot : Nat) : Eval σ (Option Value) := return (← frame).slot? slot

def setSlot (slot : Nat) (value : Value) : Eval σ Unit := updateFrame (·.setSlot slot value)

/-- Forgets what some slots hold. -/
def reset (slots : List Nat) : Eval σ Unit := updateFrame (·.reset slots)

/-- The value of a slot that has to be set. -/
def readSlot (binding : Binding) : Eval σ Value := do
  match ← slot? binding.slot with
  | some v => return v
  | none => throw (.unboundLabel binding.name)

/-- The value of a lazy binding, which is evaluated at its first use. -/
def readMemo (binding : Binding) (definition : Eval σ Value) : Eval σ Value := do
  match ← slot? binding.slot with
  | some v => return v
  | none =>
    let v ← definition
    setSlot binding.slot v
    return v

/-- The group that an aggregate is emitting. -/
def currentGroup (group : Nat) : Eval σ Group := do
  match (← frame).group? group with
  | some view => return view
  | none =>
    throw (.invalidArgument "aggregate" "group state read outside of its aggregate")

/-- Evaluates with a group in place; afterwards the previous one is back. -/
def withGroup (group : Nat) (view : Group) (body : Eval σ α) : Eval σ α := do
  let previous := (← frame).group? group
  updateFrame (·.setGroup group (some view))
  let result ← attempt body
  updateFrame (·.setGroup group previous)
  result

/-- Whether an optional condition holds; none always does. -/
def holds (condition : Option (Evaluator σ)) (input : Value) : Eval σ Bool := do
  match condition with
  | some condition => return (← condition input).isTruthy
  | none => return true

end Eval
end DataExpr
