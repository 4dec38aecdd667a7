import DataExpr.Expr.Smaller
import DataExpr.Lowering.Error
import DataExpr.Lowering.Occurrences
import DataExpr.Program.Basic

/-!
# State of lowering

What is handed out while an expression is lowered (names, constants, slots,
parameters), what is known about repeated subexpressions, and which labels are
certainly set.
-/

namespace DataExpr.Lowering

/-- What a program needs, as far as it is known. -/
structure Supply where
  counter : Nat
  constants : List (String × Value)
  signature : Signature
  labels : List (String × Binding)
  slots : Nat
  groups : Nat

def Supply.ofSignature (signature : Signature) : Supply :=
  { counter := 0, constants := [], signature, labels := [], slots := 0, groups := 0 }

/-- A subexpression that is bound in the current scope, with the labels that must be set
    before it is evaluated and those that are set after it. -/
structure Bound where
  site : Site
  binding : Binding
  definition : Op
  reads : NameSet
  writes : NameSet

/-- How often each subexpression occurs in each context, the bindings of the current scope
    in order, and the labels that are certainly set. -/
structure State where
  supply : Supply
  counts : Occurrences
  bound : List Bound
  assigned : NameSet

/-- Lowering goes over an expression twice, first to count repetitions and then to emit
    the program. -/
inductive Pass where
  | count | emit
deriving DecidableEq, Repr

/-- The input of an expression: the value that the operation is evaluated on, or the result
    of a producer that is computed anew at each use.  In the output of an aggregate there is
    no row any more. -/
inductive Input where
  | value
  | inline (producer : Op)
  | unavailable

structure AggregateEnv where
  group : Nat
  keys : List Expr
  context : Context
  slots : List (Reducer Expr)

structure JoinEnv where
  left : Binding
  right : Binding

/-- The surroundings of a subexpression; `caught` is where the innermost enclosing handler
    keeps its error. -/
structure Env where
  pass : Pass
  threshold : Weight.Threshold
  context : Context
  input : Input
  /-- Whether a pure subexpression may be bound here. -/
  mayBind : Bool
  aggregate : Option AggregateEnv
  join : Option JoinEnv
  caught : Option Binding

abbrev M := StateT State (Except CompileError)

/-- How the expressions smaller than a root are lowered. -/
abbrev LowerSmaller (root : Expr) := Smaller root → Env → M Op

/-! ### Handing out names and places -/

def updateSupply (f : Supply → Supply) : M Unit := modify fun s => { s with supply := f s.supply }

/-- A name that no other name of the program equals. -/
def freshName (stem : String) : M String := do
  let n := (← get).supply.counter + 1
  updateSupply fun s => { s with counter := n }
  return stem ++ "_" ++ toString n

def freshSlot (stem : String) : M Binding := do
  let slot := (← get).supply.slots
  updateSupply fun s => { s with slots := slot + 1 }
  return ⟨slot, ← freshName stem⟩

/-- The name of a constant; equal constants have one name. -/
def constantName (value : Value) : M String := do
  match (← get).supply.constants.find? fun c => c.2 == value with
  | some (name, _) => return name
  | none =>
    let name ← freshName "const"
    updateSupply fun s => { s with constants := s.constants ++ [(name, value)] }
    return name

/-- The slot that all reads and writes of a label share. -/
def labelSlot (name : String) : M Binding := do
  let supply := (← get).supply
  match supply.labels.find? fun l => l.1 == name with
  | some (_, binding) => return binding
  | none =>
    let binding : Binding := ⟨supply.slots, "label_" ++ name⟩
    updateSupply fun s =>
      { s with slots := s.slots + 1, labels := s.labels ++ [(name, binding)] }
    return binding

def freshGroup : M Nat := do
  let group := (← get).supply.groups
  updateSupply fun s => { s with groups := group + 1 }
  return group

/-- The position of a parameter; one that is not declared becomes a required one. -/
def paramIndex (name : String) : M Nat := do
  let signature := (← get).supply.signature
  match signature.indexOf? name with
  | some index => return index
  | none =>
    updateSupply fun s => { s with signature := s.signature ++ [⟨name, none⟩] }
    return signature.length

/-! ### Labels -/

def assigned : M NameSet := return (← get).assigned

def setAssigned (names : NameSet) : M Unit := modify fun s => { s with assigned := names }

/-- Runs a part that may not be evaluated: the labels it sets do not count. -/
def contained {α : Type} (part : M α) : M α := do
  let before ← assigned
  let a ← part
  setAssigned before
  return a

/-! ### Scopes -/

/-- Lowers parts with an input of their own in a new scope.  The labels that they set
    do not count outside. -/
def inScope {α : Type} (env : Env) (context : Context) (input : Input) (part : Env → M α) :
    M (Scope Op × α) := do
  let outer ← get
  set { outer with bound := [] }
  let a ← part { env with context, input, mayBind := true }
  let inner ← get
  set { inner with bound := outer.bound, assigned := outer.assigned }
  return (⟨inner.bound.map fun b => ⟨b.binding, b.definition⟩⟩, a)

/-! ### Repeated subexpressions -/

/-- Nodes that are never bound: reading them again costs as much as reading a binding,
    and reducers have their own slots. -/
def isAtomic : Node Expr → Bool
  | .input | .constant _ | .parameter _ | .labelRef _ | .joinRow _ | .caught | .reducer _ => true
  | _ => false

/-- Whether a subexpression with this analysis and number of occurrences is bound once.
    With effects it must be, otherwise it is when that is cheaper.  A caught error differs
    between the handlers of one scope. -/
def isBound (env : Env) (e : Expr) (a : Analysis) (count : Nat) : Bool :=
  if count < 2 || isAtomic e.node || a.readsCaught then false
  else if a.hasSideEffects then true
  else if !env.mayBind || a.readsLabels then false
  else !Weight.isSimple a.weight count.toUInt64 env.threshold

/-- The operation for a subexpression with this analysis, given how to lower it here.
    While counting, a repetition is not entered.  While emitting, a repetition becomes a
    lazy binding of the scope where that is called for. -/
def shared (env : Env) (e : Expr) (a : Analysis) (lowered : NodeKey → M Op) : M Op := do
  let key := NodeKey.of e a
  let site : Site := ⟨env.context, key⟩
  match env.pass with
  | .count =>
    let counts := (← get).counts.add site
    modify fun s => { s with counts }
    if 1 < counts.count site then return .mk .input else lowered key
  | .emit =>
    if !isBound env e a ((← get).counts.count site) then lowered key
    else
      match (← get).bound.find? fun b => b.site.same site with
      | some b =>
        match NameSet.diff b.reads (← assigned) with
        | name :: _ => throw (.unresolvedLabel name)
        | [] =>
          setAssigned (NameSet.union (← assigned) b.writes)
          return .mk (.memo b.binding b.definition)
      | none =>
        let before ← assigned
        let definition ← lowered key
        let writes := NameSet.diff (← assigned) before
        let binding ← freshSlot "v"
        let b : Bound := ⟨site, binding, definition, a.labelsRead, writes⟩
        modify fun s => { s with bound := s.bound ++ [b] }
        return .mk (.memo binding definition)

end DataExpr.Lowering
