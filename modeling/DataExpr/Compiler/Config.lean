import DataExpr.Expr.Weight
import DataExpr.Json.Parser

/-!
# Settings

The settings of a compiler and their form as JSON text: an object with the names of
the settings, or an array of them in order.  What is missing has its default.
-/

namespace DataExpr

structure Config where
  /-- Keep the text of an executable that fails. -/
  debug : Bool
  /-- The number of executables that are kept; zero means none. -/
  cacheCapacity : Nat
  /-- The cost of binding a value, against which repeated evaluation is compared. -/
  inlineThreshold : Weight.Threshold
  /-- Where texts of failed executables are written. -/
  debugDir : Option String

namespace Config

def standard : Config :=
  { debug := false, cacheCapacity := 1000, inlineThreshold := Weight.bindingThreshold
    debugDir := none }

open Json

/-! ### Settings as read -/

def bool? : Draft → Option Bool
  | .bool b => some b
  | _ => none

/-- A whole number that is not negative and fits in 64 bits. -/
def size? : Draft → Option Nat
  | .num n =>
    match n.value? with
    | some (.inl i) => if 0 ≤ i then some i.toNat else none
    | _ => none
  | _ => none

def number? : Draft → Option Float
  | .num n =>
    match n.value? with
    | some (.inl i) =>
      let magnitude := i.natAbs.toUInt64.toFloat
      some (if i < 0 then -magnitude else magnitude)
    | some (.inr x) => some x
    | none => none
  | _ => none

/-- A text, or null for none. -/
def optionalText? : Draft → Option (Option String)
  | .null => some none
  | .str pieces => (textOf? pieces).map fun cs => some (String.ofList cs)
  | _ => none

/-- The settings. -/
inductive Field where
  | debug | cacheCapacity | inlineThreshold | debugDir
deriving DecidableEq, Repr

namespace Field

def all : List Field := [debug, cacheCapacity, inlineThreshold, debugDir]

def name : Field → String
  | debug => "debug"
  | cacheCapacity => "cache_capacity"
  | inlineThreshold => "inline_threshold"
  | debugDir => "debug_dir"

def ofName? (s : String) : Option Field := all.find? (·.name == s)

end Field

/-- Changes a setting to what is written for it. -/
def set? (config : Config) (field : Field) (written : Draft) : Option Config :=
  match field with
  | .debug => (bool? written).map fun debug => { config with debug }
  | .cacheCapacity => (size? written).map fun cacheCapacity => { config with cacheCapacity }
  | .inlineThreshold =>
    (number? written).map fun x => { config with inlineThreshold := .ofFloat x }
  | .debugDir => (optionalText? written).map fun debugDir => { config with debugDir }

/-- Settings in order; there must not be more than there are settings. -/
def ofItems? (config : Config) : List Field → List Draft → Option Config
  | _, [] => some config
  | [], _ :: _ => none
  | field :: fields, written :: rest => do ofItems? (← config.set? field written) fields rest

/-- Settings by name.  Unknown names are skipped, no setting may come twice. -/
def ofMembers? (config : Config) (seen : List Field) :
    List (List Piece × Draft) → Option Config
  | [] => some config
  | (pieces, written) :: rest => do
    let name ← textOf? pieces
    match Field.ofName? (String.ofList name) with
    | none => ofMembers? config seen rest
    | some field =>
      if seen.contains field then none
      else ofMembers? (← config.set? field written) (field :: seen) rest

/-- The settings that a text states. -/
def parse? (text : String) : Option Config := do
  match ← Draft.parse? text with
  | .obj members => standard.ofMembers? [] members
  | .arr items => standard.ofItems? Field.all items
  | _ => none

end Config
end DataExpr
