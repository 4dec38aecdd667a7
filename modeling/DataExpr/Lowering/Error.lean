import DataExpr.Expr.ReducerKind
import DataExpr.Number.Word
import DataExpr.Signature

/-!
# Compilation errors

What can be wrong with an expression or a signature before any data is seen.
-/

namespace DataExpr

/-- Why a reducer is not valid in itself. -/
inductive ReducerError where
  | arity (least greatest given : Nat)
  | noInitial
  | topZero
  | percentileRange (p : Double)
deriving DecidableEq

def ReducerError.message : ReducerError → String
  | arity least greatest given =>
    "takes " ++ toString least ++ " to " ++ toString greatest ++ " arguments, got " ++
      toString given
  | noInitial => "does not accept an initial value"
  | topZero => "k must be at least 1"
  | percentileRange p => "percentile " ++ p.text ++ " is outside 0..=100"

/-- Why an expression does not compile.  Reducers are given by their text. -/
inductive CompileError where
  | unresolvedLabel (name : String)
  | missingGroupByField (expression : String)
  | ambiguousGroupByField (found : Nat)
  | nestedReducer (reducer : String)
  | reducerOutsideAggregate (reducer : String)
  | labelInReducer (reducer : String)
  | invalidReducer (reducer : String) (reason : ReducerError)
  | joinRowOutsideJoin
  | caughtOutsideHandler
  | malformedSignature (reason : SignatureError)
  /-- The analysis of the expression needs numbers that are no words. -/
  | overflow (cause : Word.Overflow)
deriving DecidableEq

namespace CompileError

def message : CompileError → String
  | unresolvedLabel name => "label '" ++ name ++ "' is read before it is set on every path"
  | missingGroupByField expression =>
    "aggregate output uses the row outside of a group-by key: " ++ expression
  | ambiguousGroupByField found =>
    "aggregate output expression matches " ++ toString found ++ " group-by keys"
  | nestedReducer reducer => "reducer " ++ reducer ++ " is nested inside another reducer"
  | reducerOutsideAggregate reducer =>
    "reducer " ++ reducer ++ " is used outside of an aggregate output"
  | labelInReducer reducer => "reducer " ++ reducer ++ " input must not set labels"
  | invalidReducer reducer reason => "invalid reducer " ++ reducer ++ ": " ++ reason.message
  | joinRowOutsideJoin => "join row referenced outside of a join condition"
  | caughtOutsideHandler => "caught error referenced outside of an except handler"
  | malformedSignature reason => "malformed signature: " ++ reason.message
  | overflow cause => cause.message

end CompileError
end DataExpr
