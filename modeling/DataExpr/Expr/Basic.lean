import DataExpr.Error
import DataExpr.Expr.Operator
import DataExpr.Expr.ReducerKind

/-!
# Expressions

An expression is a node with an identity.  Two occurrences of one identity are
occurrences of one shared subexpression; two nodes that look the same but have
different identities are copies.  Nodes are generic in what stands for their
subexpressions, so that a function that is defined node by node can be written
once over results for the subexpressions.
-/

namespace DataExpr

/-- One step of an access path: an item or an attribute.  The key of an item is evaluated
    against the same input as the access. -/
inductive PathStep (ε : Type) where
  | key (e : ε)
  | attr (name : String)

structure SortKey (ε : Type) where
  key : ε
  order : KeyOrder

/-- A handler of a guarded expression.  No kinds at all means every kind, and an error is
    raised again when `reraiseIf` is truthy. -/
structure Handler (ε : Type) where
  kinds : List ErrorKind
  value : ε
  reraiseIf : Option ε

/-- A reduction in the output of an aggregate.  Rows on which the filter is falsy are
    ignored, and the default is reported when no row qualified; the initial value is the
    accumulator before the first row. -/
structure Reducer (ε : Type) where
  kind : ReducerKind
  args : List ε
  filter : Option ε
  default : Option ε
  initial : Option ε

inductive Node (ε : Type) where
  | input
  | access (source : ε) (path : List (PathStep ε)) (default : Option ε)
  | constant (value : Value)
  | parameter (name : String)
  | call (f : Function) (args : List ε)
  | builtin (op : Builtin) (args : List ε)
  | binary (op : BinaryOp) (left right : ε)
  | unary (op : UnaryOp) (operand : ε)
  /-- The first falsy operand, or the last one. -/
  | and (items : List ε)
  /-- The first truthy operand, or the last one. -/
  | or (items : List ε)
  | collection (kind : CollectionKind) (items : List ε)
  | dict (pairs : List (ε × ε))
  | comprehension (kind : ComprehensionKind) (key : Option ε) (element source : ε)
      (filter : Option ε)
  /-- A stable sort; without keys the elements themselves are compared. -/
  | sort (source : ε) (keys : List (SortKey ε)) (reverse : Bool)
  /-- A guarded expression; an error goes to the first handler that catches it. -/
  | guarded (body : ε) (handlers : List (Handler ε))
  /-- The message of the error that the enclosing handler has caught. -/
  | caught
  | conditional (condition yes no : ε)
  /-- The consumer with the result of the producer as its input. -/
  | pipe (producer consumer : ε)
  /-- Evaluates an expression and stores the result under a name. -/
  | label (name : String) (e : ε)
  | labelRef (name : String)
  | reducer (r : Reducer ε)
  /-- Reduction of the rows of the current input, by group if there are keys. -/
  | aggregate (keys : List ε) (output : ε)
  | join (left right : ε) (condition : Option ε) (kind : JoinKind)
  /-- The row of one side inside the condition of a join. -/
  | joinRow (side : JoinSide)

inductive Expr where
  | mk (id : Nat) (node : Node Expr)

namespace Expr

def id : Expr → Nat
  | mk id _ => id

def node : Expr → Node Expr
  | mk _ node => node

end Expr

namespace PathStep

def children {ε : Type} : PathStep ε → List ε
  | key e => [e]
  | attr _ => []

end PathStep

namespace Handler

def children {ε : Type} (h : Handler ε) : List ε := h.reraiseIf.toList ++ [h.value]

end Handler

namespace Reducer

variable {ε : Type}

def ofKind (kind : ReducerKind) (args : List ε) : Reducer ε := ⟨kind, args, none, none, none⟩

def children (r : Reducer ε) : List ε :=
  r.filter.toList ++ r.args ++ r.initial.toList ++ r.default.toList

end Reducer

namespace Node

variable {ε : Type}

/-- The direct subexpressions, in the order of their evaluation. -/
def children : Node ε → List ε
  | input | constant _ | parameter _ | labelRef _ | joinRow _ | caught => []
  | access source path default => source :: path.flatMap PathStep.children ++ default.toList
  | call _ args | builtin _ args => args
  | binary _ left right => [left, right]
  | unary _ operand => [operand]
  | and items | or items | collection _ items => items
  | dict pairs => pairs.flatMap fun p => [p.1, p.2]
  | comprehension _ key element source filter =>
    source :: filter.toList ++ key.toList ++ [element]
  | sort source keys _ => source :: keys.map SortKey.key
  | guarded body handlers => body :: handlers.flatMap Handler.children
  | conditional condition yes no => [condition, yes, no]
  | pipe producer consumer => [producer, consumer]
  | label _ e => [e]
  | reducer r => r.children
  | aggregate keys output => keys ++ [output]
  | join left right condition _ => left :: right :: condition.toList

def kindName : Node ε → String
  | input => "input"
  | access .. => "access"
  | constant _ => "constant"
  | parameter _ => "parameter"
  | call .. => "call"
  | builtin .. => "builtin"
  | binary .. => "binary"
  | unary .. => "unary"
  | and _ => "and"
  | or _ => "or"
  | collection .. => "collection"
  | dict _ => "dict"
  | comprehension .. => "comprehension"
  | sort .. => "sort"
  | guarded .. => "try"
  | caught => "caught error"
  | conditional .. => "conditional"
  | pipe .. => "pipe"
  | label .. => "label"
  | labelRef _ => "label reference"
  | reducer _ => "reducer"
  | aggregate .. => "aggregate"
  | join .. => "join"
  | joinRow _ => "join row"

end Node

def Expr.children (e : Expr) : List Expr := e.node.children

end DataExpr
