import DataExpr.Value.Basic

/-!
# Evaluation errors

The causes for which evaluation fails, their kinds and their messages.
-/

namespace DataExpr

/-- The kinds by which a handler selects errors. -/
inductive ErrorKind where
  | keyNotFound
  | indexOutOfRange
  | attributeNotFound
  | typeMismatch
  | notComparable
  | divisionByZero
  | overflow
  | notIterable
  | missingParameter
  | unknownParameter
  | unboundLabel
  | invalidArgument
  | function
deriving DecidableEq, Repr

namespace ErrorKind

/-- Every kind. -/
def all : List ErrorKind :=
  [keyNotFound, indexOutOfRange, attributeNotFound, typeMismatch, notComparable, divisionByZero,
    overflow, notIterable, missingParameter, unknownParameter, unboundLabel, invalidArgument,
    function]

/-- Failed lookups of a key, an index or an attribute. -/
def lookup : List ErrorKind := [keyNotFound, indexOutOfRange, attributeNotFound]

/-- Failed arithmetic. -/
def arithmetic : List ErrorKind := [divisionByZero, overflow]

def name : ErrorKind → String
  | keyNotFound => "KeyNotFound"
  | indexOutOfRange => "IndexOutOfRange"
  | attributeNotFound => "AttributeNotFound"
  | typeMismatch => "TypeMismatch"
  | notComparable => "NotComparable"
  | divisionByZero => "DivisionByZero"
  | overflow => "Overflow"
  | notIterable => "NotIterable"
  | missingParameter => "MissingParameter"
  | unknownParameter => "UnknownParameter"
  | unboundLabel => "UnboundLabel"
  | invalidArgument => "InvalidArgument"
  | function => "Function"

/-- The kind with the given name. -/
def ofName? (s : String) : Option ErrorKind := all.find? (·.name == s)

end ErrorKind

/-- Why an evaluation failed. -/
inductive Error where
  | keyNotFound (key : String)
  | indexOutOfRange (index : Int64) (length : Nat)
  | attributeNotFound (name typeName : String)
  | typeMismatch (operation : String) (typeNames : List String)
  | notComparable (left right : String)
  | divisionByZero
  | overflow (operation : String)
  | notIterable (typeName : String)
  | missingParameter (name : String)
  | unknownParameter (name : String)
  | unboundLabel (name : String)
  | invalidArgument (callee reason : String)
  | function (name reason : String)
  /-- A comparison that is not an order came to light in a sort. -/
  | disorder
deriving DecidableEq

namespace Error

/-- The kind by which handlers select an error.  An error without a kind is out of reach
    of every handler. -/
def kind? : Error → Option ErrorKind
  | keyNotFound _ => some .keyNotFound
  | indexOutOfRange .. => some .indexOutOfRange
  | attributeNotFound .. => some .attributeNotFound
  | typeMismatch .. => some .typeMismatch
  | notComparable .. => some .notComparable
  | divisionByZero => some .divisionByZero
  | overflow _ => some .overflow
  | notIterable _ => some .notIterable
  | missingParameter _ => some .missingParameter
  | unknownParameter _ => some .unknownParameter
  | unboundLabel _ => some .unboundLabel
  | invalidArgument .. => some .invalidArgument
  | function .. => some .function
  | disorder => none

/-- The text that tells a user what went wrong. -/
def message : Error → String
  | keyNotFound key => "key " ++ key ++ " not found"
  | indexOutOfRange index length =>
    "index " ++ toString index.toInt ++ " out of range for length " ++ toString length
  | attributeNotFound name typeName => typeName ++ " has no attribute '" ++ name ++ "'"
  | typeMismatch operation typeNames =>
    "unsupported operand type(s) for " ++ operation ++ ": " ++
      " and ".intercalate (typeNames.map fun t => "'" ++ t ++ "'")
  | notComparable left right => "'" ++ left ++ "' and '" ++ right ++ "' are not comparable"
  | divisionByZero => "division by zero"
  | overflow operation => "integer overflow in " ++ operation
  | notIterable typeName => "'" ++ typeName ++ "' is not iterable"
  | missingParameter name => "missing required parameter '" ++ name ++ "'"
  | unknownParameter name => "unknown parameter '" ++ name ++ "'"
  | unboundLabel name => "label '" ++ name ++ "' read before it was set"
  | invalidArgument callee reason => "invalid argument for " ++ callee ++ ": " ++ reason
  | function name reason => name ++ ": " ++ reason
  | disorder => "user-provided comparison function does not correctly implement a total order"

/-- An operation does not take operands of these types. -/
def ofOperands (operation : String) (operands : List Value) : Error :=
  .typeMismatch operation (operands.map Value.typeName)

def ofIncomparable (left right : Value) : Error := .notComparable left.typeName right.typeName

def ofNotIterable (value : Value) : Error := .notIterable value.typeName

end Error
end DataExpr
