import DataExpr.Error
import DataExpr.Expr.Operator
import DataExpr.Expr.ReducerKind
import DataExpr.Signature

/-!
# Lowered programs

A program is an expression in which every reference is resolved: constants and
parameters have their place, labels, join rows and caught errors have slots of a
frame, and repeated subexpressions are lazy bindings of a scope.
-/

namespace DataExpr

/-- A slot of the frame with a name. -/
structure Binding where
  slot : Nat
  name : String
deriving DecidableEq, Repr

/-- A step of an access path. -/
inductive Step (ω : Type) where
  | key (op : ω)
  | attr (name : String)

/-- A lazy binding with the operation that defines it. -/
structure Memo (ω : Type) where
  binding : Binding
  definition : ω

/-- The lazy bindings of a scope.  They are forgotten whenever the scope is entered. -/
structure Scope (ω : Type) where
  memos : List (Memo ω)

/-- The slots that a scope forgets when it is entered. -/
def Scope.resets {ω : Type} (scope : Scope ω) : List Nat := scope.memos.map (·.binding.slot)

structure LoopOp (ω : Type) where
  kind : ComprehensionKind
  var : String
  source : ω
  scope : Scope ω
  filter : Option ω
  key : Option ω
  element : ω

structure SortKeyOp (ω : Type) where
  op : ω
  order : KeyOrder

structure SortOp (ω : Type) where
  var : String
  source : ω
  scope : Scope ω
  keys : List (SortKeyOp ω)
  reverse : Bool

structure HandlerOp (ω : Type) where
  kinds : List ErrorKind
  value : ω
  reraiseIf : Option ω

structure GuardOp (ω : Type) where
  body : ω
  handlers : List (HandlerOp ω)
  /-- Holds the message of the error that is being handled. -/
  caught : Binding

structure SlotOp (ω : Type) where
  kind : ReducerKind
  args : List ω
  filter : Option ω
  initial : Option ω
  /-- The initial value does not read the row, so it also holds without rows. -/
  seedEmpty : Bool

structure AggregateOp (ω : Type) where
  group : Nat
  row : String
  source : ω
  rowScope : Scope ω
  keys : List ω
  slots : List (SlotOp ω)
  outputScope : Scope ω
  output : ω

/-- What a join evaluates for each row of one side. -/
structure JoinSideOp (ω : Type) where
  scope : Scope ω
  keys : List ω
  filter : Option ω

structure JoinOp (ω : Type) where
  kind : JoinKind
  left : ω
  right : ω
  leftRow : Binding
  rightRow : Binding
  /-- The part of the condition that reads neither side. -/
  preFilter : Option ω
  leftSide : JoinSideOp ω
  rightSide : JoinSideOp ω
  pairScope : Scope ω
  /-- The part of the condition that is checked for each pair of rows. -/
  residual : Option ω

/-- An operation, generic in what stands for the operations it is made of. -/
inductive OpNode (ω : Type) where
  | input
  | const (name : String) (value : Value)
  | param (index : Nat) (name : String)
  | access (source : ω) (steps : List (Step ω)) (default : Option ω)
  | call (name : String) (f : Function) (args : List ω)
  | builtin (op : Builtin) (args : List ω)
  | binary (op : BinaryOp) (left right : ω)
  | unary (op : UnaryOp) (operand : ω)
  | and (items : List ω)
  | or (items : List ω)
  | collection (kind : CollectionKind) (items : List ω)
  | dict (pairs : List (ω × ω))
  | loop (op : LoopOp ω)
  | sort (op : SortOp ω)
  | guarded (op : GuardOp ω)
  | caught (binding : Binding)
  | cond (condition yes no : ω)
  | pipe (producer consumer : ω)
  /-- A lazy binding of an enclosing scope, with its definition. -/
  | memo (binding : Binding) (definition : ω)
  | setLabel (label : Binding) (value : ω)
  | getLabel (label : Binding)
  /-- The current row of one side of a join. -/
  | register (row : Binding)
  | aggregate (op : AggregateOp ω)
  | join (op : JoinOp ω)
  | groupKey (group index : Nat)
  | slotValue (group index : Nat) (default : ω)

inductive Op where
  | mk (node : OpNode Op)

namespace Op

instance : Inhabited Op := ⟨.mk .input⟩

def node : Op → OpNode Op
  | mk node => node

end Op

/-- How much room the frame of a program has. -/
structure Layout where
  slots : Nat
  groups : Nat
deriving DecidableEq, Repr

structure Program where
  params : Signature
  constants : List (String × Value)
  scope : Scope Op
  body : Op
  layout : Layout

/-- Whether a join finds its pairs by key. -/
def JoinOp.isKeyed {ω : Type} (op : JoinOp ω) : Bool := !op.leftSide.keys.isEmpty

end DataExpr
