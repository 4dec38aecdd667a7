/-!
# Operators of expressions

The operators, built-in operations and kinds of collections that expressions are
made of, with the names under which they are written.
-/

namespace DataExpr

inductive BinaryOp where
  | add | sub | mul | div | floorDiv | mod | pow
  | eq | notEq | lt | ltE | gt | gtE
  /-- Membership of the left operand in the right one. -/
  | mem
  | notMem
deriving DecidableEq, Repr

namespace BinaryOp

def all : List BinaryOp :=
  [add, sub, mul, div, floorDiv, mod, pow, eq, notEq, lt, ltE, gt, gtE, mem, notMem]

def isArithmetic : BinaryOp → Bool
  | add | sub | mul | div | floorDiv | mod | pow => true
  | _ => false

def symbol : BinaryOp → String
  | add => "+"
  | sub => "-"
  | mul => "*"
  | div => "/"
  | floorDiv => "//"
  | mod => "%"
  | pow => "**"
  | eq => "=="
  | notEq => "!="
  | lt => "<"
  | ltE => "<="
  | gt => ">"
  | gtE => ">="
  | mem => "in"
  | notMem => "not in"

def ofSymbol? (s : String) : Option BinaryOp := all.find? (·.symbol == s)

end BinaryOp

inductive UnaryOp where
  | not | neg | isNull | isNotNull
deriving DecidableEq, Repr

/-- Operations that need no function of the host.  The first argument is the receiver. -/
inductive Builtin where
  | len | str | int | float | bool | abs | round | lower | upper | strip | split | join
  | keys | values | items | sorted | reversed | sum | min | max | enumerate | zip | flatten
  | contains | startsWith | endsWith
deriving DecidableEq, Repr

namespace Builtin

def all : List Builtin :=
  [len, str, int, float, bool, abs, round, lower, upper, strip, split, join, keys, values, items,
    sorted, reversed, sum, min, max, enumerate, zip, flatten, contains, startsWith, endsWith]

def name : Builtin → String
  | len => "len"
  | str => "str"
  | int => "int"
  | float => "float"
  | bool => "bool"
  | abs => "abs"
  | round => "round"
  | lower => "lower"
  | upper => "upper"
  | strip => "strip"
  | split => "split"
  | join => "join"
  | keys => "keys"
  | values => "values"
  | items => "items"
  | sorted => "sorted"
  | reversed => "reversed"
  | sum => "sum"
  | min => "min"
  | max => "max"
  | enumerate => "enumerate"
  | zip => "zip"
  | flatten => "flatten"
  | contains => "contains"
  | startsWith => "startswith"
  | endsWith => "endswith"

def ofName? (s : String) : Option Builtin := all.find? (·.name == s)

end Builtin

inductive CollectionKind where
  | list | tuple | set
deriving DecidableEq, Repr

/-- What a comprehension builds.  A lazy one is consumed item by item when it is the
    whole expression, and is a list otherwise. -/
inductive ComprehensionKind where
  | lazy | list | tuple | set | dict
deriving DecidableEq, Repr

namespace ComprehensionKind

def name : ComprehensionKind → String
  | lazy => "iter"
  | list => "list"
  | tuple => "tuple"
  | set => "set"
  | dict => "dict"

def ofName? (s : String) : Option ComprehensionKind :=
  [lazy, list, tuple, set, dict].find? (·.name == s)

end ComprehensionKind

inductive JoinKind where
  | inner | left | right | outer | cross
deriving DecidableEq, Repr

namespace JoinKind

def name : JoinKind → String
  | inner => "inner"
  | left => "left"
  | right => "right"
  | outer => "outer"
  | cross => "cross"

def ofName? (s : String) : Option JoinKind := [inner, left, right, outer, cross].find? (·.name == s)

end JoinKind

inductive JoinSide where
  | left | right
deriving DecidableEq, Repr

/-- Where nulls go among the other values of a sort key. -/
inductive NullOrder where
  /-- Nulls are compared like any other value. -/
  | natural
  | first
  | last
deriving DecidableEq, Repr

/-- How the values of one sort key are ordered.  The place of nulls does not depend on
    the direction. -/
structure KeyOrder where
  descending : Bool
  nulls : NullOrder
deriving DecidableEq, Repr

end DataExpr
