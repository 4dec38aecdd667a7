import DataExpr.Expr.Basic

/-!
# Building expressions

Every node that is built gets an identity of its own.  Using a handle twice makes
a shared subexpression; building the same node twice makes two copies.  Some
options fit only some nodes, and putting them on others is refused.
-/

namespace DataExpr

/-- Why an expression could not be built. -/
inductive BuildError where
  /-- An option was put on a node that does not have it. -/
  | unsupported (option kindName : String)
  | percentileNotANumber
deriving DecidableEq

namespace BuildError

def message : BuildError → String
  | unsupported option kindName => option ++ " is not supported on " ++ kindName
  | percentileNotANumber => "percentile must not be NaN: NanError"

end BuildError

/-- Building with a supply of identities. -/
abbrev Build := ExceptT BuildError (StateM Nat)

namespace Build

/-- A node with a new identity. -/
def new (node : Node Expr) : Build Expr := do
  let id ← get
  set (id + 1)
  return .mk id node

def this : Build Expr := new .input

def constant (value : Value) : Build Expr := new (.constant value)

/-- An access by several steps, with one default for any step that fails. -/
def path (source : Expr) (steps : List (PathStep Expr)) (default : Option Expr) : Build Expr :=
  new (.access source steps default)

/-- A built-in operation with its receiver in front. -/
def method (receiver : Expr) (op : Builtin) (args : List Expr) : Build Expr :=
  new (.builtin op (receiver :: args))

/-- The elements that satisfy a condition, lazily. -/
def filter (source condition : Expr) : Build Expr := do
  let element ← this
  new (.comprehension .lazy none element source (some condition))

/-- A row filter on a comprehension or a reducer. -/
def withFilter (e condition : Expr) : Build Expr :=
  match e.node with
  | .comprehension kind key element source _ =>
    new (.comprehension kind key element source (some condition))
  | .reducer r => new (.reducer { r with filter := some condition })
  | other => throw (.unsupported "where_" other.kindName)

/-- What a reducer or an access gives when nothing qualified. -/
def withDefault (e default : Expr) : Build Expr :=
  match e.node with
  | .reducer r => new (.reducer { r with default := some default })
  | .access source steps _ => new (.access source steps (some default))
  | other => throw (.unsupported "or_default" other.kindName)

/-- The starting accumulator of a reducer. -/
def withInitial (e initial : Expr) : Build Expr :=
  match e.node with
  | .reducer r => new (.reducer { r with initial := some initial })
  | other => throw (.unsupported "initial" other.kindName)

/-- One more handler, tried after those that are there. -/
def withHandler (e : Expr) (handler : Handler Expr) : Build Expr :=
  match e.node with
  | .guarded body handlers => new (.guarded body (handlers ++ [handler]))
  | other => throw (.unsupported "except_" other.kindName)

/-- The percentile of a real number in percent. -/
def percentileKind (p : Float) (interpolation : Interpolation) : Build ReducerKind :=
  match Double.ofFloat? p with
  | some p => return .percentile p interpolation
  | none => throw .percentileNotANumber

/-- A reducer.  The kinds that pick a row get the row as their second argument. -/
def reducer (kind : ReducerKind) (args : List Expr) : Build Expr := do
  match kind with
  | .maxRow | .minRow =>
    let row ← this
    new (.reducer (.ofKind kind (args ++ [row])))
  | _ => new (.reducer (.ofKind kind args))

end Build
end DataExpr
