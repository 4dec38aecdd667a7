import DataExpr.Error
import DataExpr.Value.Equality

/-!
# Signatures and parameters

A signature declares the parameters of a compiled expression in positional order.
At a call they are given by position or by name; a parameter that is not given
takes its default.
-/

namespace DataExpr

structure ParamSpec where
  name : String
  default : Option Value

abbrev Signature := List ParamSpec

/-- Parameters given at a call. -/
inductive Params where
  | none
  | positional (values : List Value)
  | named (values : List (String × Value))

namespace Params

def length : Params → Nat
  | none => 0
  | positional values => values.length
  | named values => values.length

def isEmpty (params : Params) : Bool := params.length == 0

def getPositional? (params : Params) (index : Nat) : Option Value :=
  match params with
  | positional values => values[index]?
  | _ => .none

def getNamed? (params : Params) (name : String) : Option Value :=
  match params with
  | named values => (values.find? (·.1 == name)).map (·.2)
  | _ => .none

end Params

/-- What is wrong with a signature. -/
inductive SignatureError where
  | invalidName (name : String)
  | declaredTwice (name : String)
  | requiredAfterDefault (name : String)
deriving DecidableEq

def SignatureError.message : SignatureError → String
  | invalidName name => "'" ++ name ++ "' is not a valid parameter name"
  | declaredTwice name => "parameter '" ++ name ++ "' is declared twice"
  | requiredAfterDefault name =>
    "required parameter '" ++ name ++ "' follows a parameter with a default"

/-- Whether a name is made of letters, digits and underscores and starts with no digit;
    only the letters of ASCII count. -/
def isIdentifier (name : String) : Bool :=
  match name.toList with
  | [] => false
  | c :: rest => (c == '_' || c.isAlpha) && rest.all fun c => c == '_' || c.isAlphanum

namespace Signature

def names (signature : Signature) : List String := signature.map ParamSpec.name

def indexOf? (signature : Signature) (name : String) : Option Nat := signature.names.idxOf? name

/-- Checks the declarations that follow those with the names `seen`, of which one had a
    default if `defaulted` holds. -/
def validateFrom (seen : List String) (defaulted : Bool) : Signature → Except SignatureError Unit
  | [] => .ok ()
  | param :: rest =>
    if !isIdentifier param.name then .error (.invalidName param.name)
    else if seen.contains param.name then .error (.declaredTwice param.name)
    else if param.default.isNone && defaulted then .error (.requiredAfterDefault param.name)
    else validateFrom (param.name :: seen) (defaulted || param.default.isSome) rest

/-- Names are identifiers and distinct, and required parameters come first. -/
def validate (signature : Signature) : Except SignatureError Unit := validateFrom [] false signature

/-- What is given for each declared parameter. -/
def given (signature : Signature) : Params → Except Error (List (Option Value))
  | .none => .ok (signature.map fun _ => none)
  | .positional values =>
    if signature.length < values.length then
      .error (.unknownParameter ("#" ++ toString signature.length))
    else .ok ((List.range signature.length).map fun i => values[i]?)
  | .named values =>
    match values.find? fun v => (signature.indexOf? v.1).isNone with
    | some (name, _) => .error (.unknownParameter name)
    | none => .ok (signature.mapIdx fun i param =>
        if signature.indexOf? param.name = some i then
          (values.find? (·.1 == param.name)).map (·.2)
        else none)

/-- The value of a parameter: what is given, else its default. -/
def resolve (param : ParamSpec) : Option Value → Except Error Value
  | some v => .ok v
  | none =>
    match param.default with
    | some v => .ok v
    | none => .error (.missingParameter param.name)

/-- One value for each declared parameter. -/
def bind (signature : Signature) (params : Params) : Except Error (List Value) := do
  let values ← signature.given params
  (signature.zip values).mapM fun (param, value) => resolve param value

/-- Likeness of signatures: names are equal and defaults are alike. -/
def alike : Signature → Signature → Bool
  | [], [] => true
  | p :: ps, q :: qs =>
    p.name == q.name &&
      (match p.default, q.default with
      | some v, some w => v.alike w
      | none, none => true
      | _, _ => false) &&
      alike ps qs
  | _, _ => false

end Signature
end DataExpr
