import DataExpr.Number.Double

/-!
# Values

The dynamically typed values that flow through expressions.  Sets and
dictionaries keep the order in which their elements were inserted; functions and
objects are handles to what the host has registered and are known by identity.
-/

namespace DataExpr

/-- A handle to a function that the host has registered.  Each registration has an
    identity of its own; a function counts as having side effects unless it is
    declared pure. -/
structure Function where
  id : Nat
  name : String
  isPure : Bool
deriving DecidableEq, Repr

inductive Value where
  | null
  | bool (b : Bool)
  | int (n : Int64)
  | float (x : Double)
  | str (s : String)
  | list (items : List Value)
  | tuple (items : List Value)
  /-- Distinct elements, in insertion order. -/
  | set (items : List Value)
  /-- Entries with distinct keys, in insertion order. -/
  | dict (entries : List (Value × Value))
  | function (f : Function)
  /-- A host object, with its identity, the name of its type and its attributes. -/
  | object (id : Nat) (typeName : String) (attributes : List (String × Value))

namespace Value

instance : Inhabited Value := ⟨null⟩

/-- The value of a computed double; NaN is the absence of a value. -/
def ofFloat (x : Float) : Value :=
  match Double.ofFloat? x with
  | some d => .float d
  | none => .null

def isNull : Value → Bool
  | .null => true
  | _ => false

def typeName : Value → String
  | .null => "null"
  | .bool _ => "bool"
  | .int _ => "int"
  | .float _ => "float"
  | .str _ => "str"
  | .list _ => "list"
  | .tuple _ => "tuple"
  | .set _ => "set"
  | .dict _ => "dict"
  | .function _ => "function"
  | .object .. => "object"

def asStr? : Value → Option String
  | .str s => some s
  | _ => none

def asInt? : Value → Option Int64
  | .int n => some n
  | _ => none

/-- The double that an integer of 64 bits is promoted to. -/
def promote (n : Int64) : Double := Double.ofInt n.toInt

def asDouble? : Value → Option Double
  | .int n => some (promote n)
  | .float x => some x
  | _ => none

/-- Null, false, zero and the empty containers are falsy, all else is truthy. -/
def isTruthy : Value → Bool
  | .null => false
  | .bool b => b
  | .int n => n != 0
  | .float x => !x.isZero
  | .str s => !s.isEmpty
  | .list items | .tuple items | .set items => !items.isEmpty
  | .dict entries => !entries.isEmpty
  | .function _ | .object .. => true

end Value
end DataExpr
