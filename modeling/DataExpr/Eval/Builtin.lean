import DataExpr.Number.Places
import DataExpr.Number.Read
import DataExpr.Text.Blank
import DataExpr.Text.Case
import DataExpr.Value.Lookup
import DataExpr.Value.Sort

/-!
# Built-in operations

What the built-in operations do with their arguments.  The first argument is the
receiver; arguments beyond those that an operation knows are ignored.
-/

namespace DataExpr

namespace Builtin

/-- An argument that has to be present. -/
def argument (op : Builtin) (args : List Value) (index : Nat) : Except Error Value :=
  match args[index]? with
  | some v => .ok v
  | none =>
    .error (.invalidArgument op.name
      ("expected at least " ++ toString (index + 1) ++ " arguments"))

/-- The text of an argument that has to be a string. -/
def text (op : Builtin) (v : Value) : Except Error String :=
  match v with
  | .str s => .ok s
  | v => .error (.ofOperands op.name [v])

/-- The entries of an argument that has to be a dictionary. -/
def entries (op : Builtin) (v : Value) : Except Error (List (Value × Value)) :=
  match v with
  | .dict entries => .ok entries
  | v => .error (.ofOperands op.name [v])

end Builtin

namespace Value

/-- A length as a value. -/
def ofLength (n : Nat) : Value := .int (Int64.ofNat n)

/-- The number of characters or elements. -/
def length : Value → Except Error Value
  | .str s => .ok (ofLength s.length)
  | .list items | .tuple items | .set items => .ok (ofLength items.length)
  | .dict entries => .ok (ofLength entries.length)
  | v => .error (.ofOperands "len()" [v])

/-- The integer that a double has been rounded to.  Results are limited to magnitudes
    below 9.2e18. -/
def ofRounded (operation : String) (x : Double) (n : Int) : Except Error Value :=
  if x.isFinite && decide (n.natAbs < 9200000000000000000) then .ok (.int (Int64.ofInt n))
  else .error (.overflow operation)

/-- The integer that a value stands for. -/
def convertInt : Value → Except Error Value
  | .int n => .ok (.int n)
  | .bool b => .ok (.int (if b then 1 else 0))
  | .float x => ofRounded "int()" x x.truncate
  | .str s =>
    match (Read.integer? (Text.trim s).toList).bind ofInt? with
    | some v => .ok v
    | none => .error (.invalidArgument "int" ("invalid literal " ++ (str s).repr))
  | v => .error (.ofOperands "int()" [v])

/-- The float that a value stands for. -/
def convertFloat : Value → Except Error Value
  | .float x => .ok (.float x)
  | .int n => .ok (.float (promote n))
  | .bool b => .ok (.float (promote (if b then 1 else 0)))
  | .str s =>
    match Read.float? (Text.trim s).toList with
    | some x => .ok (ofFloat x)
    | none => .error (.invalidArgument "float" ("invalid literal " ++ (str s).repr))
  | v => .error (.ofOperands "float()" [v])

/-- The absolute value of a number. -/
def magnitude : Value → Except Error Value
  | .int n => checked "abs()" n.toInt.natAbs
  | .float x => .ok (.float x.abs)
  | v => .error (.ofOperands "abs()" [v])

/-- Rounds to an integer, or to a number of places if one is given.  A half goes to the
    even neighbour. -/
def roundTo (v : Value) (places : Option Value) : Except Error Value := do
  let places ← match places with
    | none | some .null => pure none
    | some (.int d) => pure (some d.toInt)
    | some other => throw (.ofOperands "round()" [v, other])
  match v, places with
  | .int n, _ => return .int n
  | .float x, none => ofRounded "round()" x x.roundInt
  | .float x, some d =>
    match x.roundTo? d with
    | some y => return .float y
    | none => return .null
  | v, _ => throw (.ofOperands "round()" [v])

/-- Splits at a separator, or into words if there is none. -/
def splitBy (s : String) (separator : Option Value) : Except Error Value := do
  let parts ← match separator with
    | none | some .null => pure (Text.words s)
    | some separator =>
      match Text.splitOn? (← Builtin.split.text separator) s with
      | some parts => pure parts
      | none => throw (.invalidArgument "split" "empty separator")
  return .list (parts.map .str)

/-- Joins the strings of a collection. -/
def joinBy (receiver : Value) (separator : Option Value) : Except Error Value := do
  let separator ← match separator with
    | some separator => Builtin.join.text separator
    | none => pure ""
  let parts ← (← receiver.elements).mapM Builtin.join.text
  return .str (separator.intercalate parts)

/-- The first of the elements that no later one surpasses. -/
def extreme (wanted : Ordering) : Value → List Value → Except Error Value
  | best, [] => .ok best
  | best, v :: rest => do
    if (← v.compare best) == wanted then extreme wanted v rest else extreme wanted best rest

/-- Tuples of the elements at the same position, as long as every column has one. -/
def transpose (columns : List (List Value)) : List Value :=
  let columns := columns.map List.toArray
  let rows := (columns.map Array.size).min?.getD 0
  (List.range rows).map fun i => .tuple (columns.filterMap fun column => column[i]?)

end Value

namespace Builtin

/-- The extreme of the elements of a collection. -/
def extreme (op : Builtin) (wanted : Ordering) (receiver : Value) : Except Error Value := do
  match ← receiver.elements with
  | [] => throw (.invalidArgument op.name "empty sequence")
  | first :: rest => Value.extreme wanted first rest

/-- Applies a built-in operation. -/
def apply (op : Builtin) (args : List Value) : Except Error Value := do
  let receiver ← op.argument args 0
  match op with
  | .len => receiver.length
  | .str => return .str receiver.display
  | .int => receiver.convertInt
  | .float => receiver.convertFloat
  | .bool => return .bool receiver.isTruthy
  | .abs => receiver.magnitude
  | .round => receiver.roundTo args[1]?
  | .lower => return .str (Text.lower (← op.text receiver))
  | .upper => return .str (Text.upper (← op.text receiver))
  | .strip => return .str (Text.trim (← op.text receiver))
  | .split => Value.splitBy (← op.text receiver) args[1]?
  | .join => receiver.joinBy args[1]?
  | .keys => return .list ((← op.entries receiver).map (·.1))
  | .values => return .list ((← op.entries receiver).map (·.2))
  | .items => return .list ((← op.entries receiver).map fun e => .tuple [e.1, e.2])
  | .sorted => return .list (← Value.sort (← receiver.elements) (args[1]?.any Value.isTruthy))
  | .reversed => return .list (← receiver.elements).reverse
  | .sum => (← receiver.elements).foldlM Value.add (args[1]?.getD (.int 0))
  | .min => op.extreme .lt receiver
  | .max => op.extreme .gt receiver
  | .enumerate =>
    return .list ((← receiver.elements).mapIdx fun i v => .tuple [Value.ofLength i, v])
  | .zip => return .list (Value.transpose (← args.mapM Value.elements))
  | .flatten => return .list (← (← receiver.elements).mapM Value.elements).flatten
  | .contains => return .bool (← receiver.contains (← op.argument args 1))
  | .startsWith =>
    let start ← op.text (← op.argument args 1)
    return .bool (start.toList.isPrefixOf (← op.text receiver).toList)
  | .endsWith =>
    let ending ← op.text (← op.argument args 1)
    return .bool (ending.toList.isSuffixOf (← op.text receiver).toList)

end Builtin
end DataExpr
