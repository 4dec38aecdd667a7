import DataExpr.Value.Order
import DataExpr.Value.Text

/-!
# Iteration and lookup

The elements of a value, its items by key or position and its attributes by name.
-/

namespace DataExpr.Value

/-- The characters of a text, each as a string. -/
def characters (s : String) : List Value := s.toList.map fun c => .str (String.singleton c)

/-- What iteration over a value yields; a dictionary yields its keys. -/
def elements : Value → Except Error (List Value)
  | .list items | .tuple items | .set items => .ok items
  | .dict entries => .ok (entries.map (·.1))
  | .str s => .ok (characters s)
  | other => .error (.ofNotIterable other)

/-- The element at an index; a negative index counts from the end. -/
def atIndex (items : List Value) (index : Int64) : Except Error Value :=
  let position := if index < 0 then items.length + index.toInt else index.toInt
  let found := if position < 0 then none else items[position.toNat]?
  match found with
  | some v => .ok v
  | none => .error (.indexOutOfRange index items.length)

def attribute? (name : String) (attributes : List (String × Value)) : Option Value :=
  (attributes.find? fun a => a.1 == name).map (·.2)

/-- The item of a value under a key. -/
def getItem (container key : Value) : Except Error Value :=
  match container with
  | .dict entries =>
    match (Entries.get? entries key).or (Entries.get? entries key.hashKey) with
    | some v => .ok v
    | none => .error (.keyNotFound key.display)
  | .list items | .tuple items =>
    match key with
    | .int index => atIndex items index
    | _ => .error (.ofOperands "index" [container, key])
  | .str s =>
    match key with
    | .int index => atIndex (characters s) index
    | _ => .error (.ofOperands "index" [container, key])
  | .object _ _ attributes =>
    match key with
    | .str name =>
      match attribute? name attributes with
      | some v => .ok v
      | none => .error (.keyNotFound key.display)
    | _ => .error (.ofOperands "index" [container, key])
  | other => .error (.ofOperands "index" [other, key])

/-- An attribute: the entry of a dictionary under a string, or an object's attribute. -/
def getAttr (container : Value) (name : String) : Except Error Value :=
  match container with
  | .dict entries =>
    match Entries.get? entries (.str name) with
    | some v => .ok v
    | none => .error (.attributeNotFound name container.typeName)
  | .object _ typeName attributes =>
    match attribute? name attributes with
    | some v => .ok v
    | none => .error (.attributeNotFound name typeName)
  | other => .error (.attributeNotFound name other.typeName)

end DataExpr.Value
