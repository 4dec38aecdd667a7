import DataExpr.Json.Basic
import DataExpr.Value.Collection
import DataExpr.Value.Text

/-!
# Values and JSON documents

A document becomes a value without loss, except that a float which is no number
becomes null and that the two zeros are one.  The way back loses more: tuples and
sets become arrays, the keys of dictionaries become strings, and functions and
objects are written as text.
-/

namespace DataExpr.Value

mutual

/-- The value of a document; an integer beyond 64 bits becomes a float. -/
def ofJson : Json → Value
  | .null => .null
  | .bool b => .bool b
  | .int n =>
    if -0x8000000000000000 ≤ n ∧ n < 0x8000000000000000 then .int (Int64.ofInt n)
    else .float (Double.ofInt n)
  | .float x => ofFloat x
  | .str s => .str s
  | .arr items => .list (ofJsonAll items)
  | .obj members => ofDict (ofJsonMembers members)
termination_by structural j => j

def ofJsonAll : List Json → List Value
  | [] => []
  | j :: js => ofJson j :: ofJsonAll js
termination_by structural js => js

def ofJsonMembers : List (String × Json) → List (Value × Value)
  | [] => []
  | m :: ms => ofJsonMember m :: ofJsonMembers ms
termination_by structural ms => ms

def ofJsonMember : String × Json → Value × Value
  | (name, j) => (.str name, ofJson j)
termination_by structural m => m

end

mutual

/-- The document that comes closest to a value. -/
def toJson : Value → Json
  | .null => .null
  | .bool b => .bool b
  | .int n => .int n.toInt
  | .float x => if x.isFinite then .float x.toFloat else .null
  | .str s => .str s
  | .list items | .tuple items | .set items => .arr (toJsonAll items)
  | .dict entries => .ofMembers (toJsonEntries entries)
  | .function f => .str (repr (.function f))
  | .object id typeName attributes => .str (repr (.object id typeName attributes))
termination_by structural v => v

def toJsonAll : List Value → List Json
  | [] => []
  | v :: vs => toJson v :: toJsonAll vs
termination_by structural vs => vs

def toJsonEntries : List (Value × Value) → List (String × Json)
  | [] => []
  | e :: es => toJsonEntry e :: toJsonEntries es
termination_by structural es => es

def toJsonEntry : Value × Value → String × Json
  | (k, v) => (display k, toJson v)
termination_by structural e => e

end

end DataExpr.Value
