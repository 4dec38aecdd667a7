import DataExpr.Json.Basic
import DataExpr.Number.Shortest

/-!
# Writing JSON texts

Compact texts, without blanks and with the shortest escapes.
-/

namespace DataExpr.Json

/-- Four hexadecimal digits of a code unit. -/
def fourHex (n : Nat) : List Char :=
  let digits := Nat.toDigits 16 n
  List.replicate (4 - digits.length) '0' ++ digits

/-- A character inside a string. -/
def writeChar (c : Char) : List Char :=
  if c = '"' then ['\\', '"']
  else if c = '\\' then ['\\', '\\']
  else if c = '\n' then ['\\', 'n']
  else if c = '\r' then ['\\', 'r']
  else if c = '\t' then ['\\', 't']
  else if c.toNat < 0x20 then ['\\', 'u'] ++ fourHex c.toNat
  else [c]

def writeString (s : String) : String :=
  String.ofList ('"' :: s.toList.flatMap writeChar ++ ['"'])

mutual

/-- The compact text of a document.  A float that is no number is written as null. -/
def write : Json → String
  | .null => "null"
  | .bool b => if b then "true" else "false"
  | .int n => toString n
  | .float x =>
    match Double.ofFloat? x with
    | some d => if d.isFinite then d.text else "null"
    | none => "null"
  | .str s => writeString s
  | .arr items => "[" ++ ",".intercalate (writeAll items) ++ "]"
  | .obj members => "\x7b" ++ ",".intercalate (writeMembers members) ++ "\x7d"
termination_by structural j => j

def writeAll : List Json → List String
  | [] => []
  | j :: js => write j :: writeAll js
termination_by structural js => js

def writeMembers : List (String × Json) → List String
  | [] => []
  | m :: ms => writeMember m :: writeMembers ms
termination_by structural ms => ms

def writeMember : String × Json → String
  | (name, j) => writeString name ++ ":" ++ write j
termination_by structural m => m

end

end DataExpr.Json
