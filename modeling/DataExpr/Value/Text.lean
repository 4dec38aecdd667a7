import DataExpr.Number.Shortest
import DataExpr.Text.Quoted
import DataExpr.Value.Basic

/-!
# Text of values

The text of a value has every string inside quotes.  As a whole value, a string
is displayed as it is.
-/

namespace DataExpr.Value

mutual

/-- Text of a value, with strings quoted. -/
def repr : Value → String
  | .null => "null"
  | .bool b => if b then "true" else "false"
  | .int n => toString n.toInt
  | .float x => x.text
  | .str s => Text.quote s
  | .list items => "[" ++ ", ".intercalate (reprAll items) ++ "]"
  | .tuple items =>
    "(" ++ ", ".intercalate (reprAll items) ++ (if items.length = 1 then "," else "") ++ ")"
  | .set items => "\x7b" ++ ", ".intercalate (reprAll items) ++ "\x7d"
  | .dict entries => "\x7b" ++ ", ".intercalate (reprEntries entries) ++ "\x7d"
  | .function f => "<function " ++ f.name ++ ">"
  | .object _ typeName _ => "<" ++ typeName ++ ">"
termination_by structural v => v

def reprAll : List Value → List String
  | [] => []
  | v :: vs => repr v :: reprAll vs
termination_by structural vs => vs

def reprEntries : List (Value × Value) → List String
  | [] => []
  | e :: es => reprEntry e :: reprEntries es
termination_by structural es => es

def reprEntry : Value × Value → String
  | (k, v) => repr k ++ ": " ++ repr v
termination_by structural e => e

end

/-- Text of a whole value: a string stands for itself. -/
def display : Value → String
  | .str s => s
  | v => v.repr

end DataExpr.Value
