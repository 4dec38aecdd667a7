/-!
# JSON documents

A document with its numbers split into integers and floats.  The members of an
object have distinct names and stand in the order of the names.
-/

namespace DataExpr

inductive Json where
  | null
  | bool (b : Bool)
  | int (n : Int)
  | float (x : Float)
  | str (s : String)
  | arr (items : List Json)
  | obj (members : List (String × Json))

namespace Json

instance : Inhabited Json := ⟨null⟩

/-- Members with distinct names in the order of the names. -/
abbrev Members := List (String × Json)

/-- Sets a member, in its place in the order; a present one is replaced. -/
def Members.insert (name : String) (value : Json) : Members → Members
  | [] => [(name, value)]
  | (n, v) :: rest =>
    if n == name then (n, value) :: rest
    else if name < n then (name, value) :: (n, v) :: rest
    else (n, v) :: Members.insert name value rest

/-- An object of the given members; of a repeated name the last one counts. -/
def ofMembers (members : List (String × Json)) : Json :=
  .obj (members.foldl (fun sorted m => Members.insert m.1 m.2 sorted) [])

/-- The member of an object with the given name. -/
def get? (json : Json) (name : String) : Option Json :=
  match json with
  | .obj members => (members.find? fun m => m.1 == name).map (·.2)
  | _ => none

end Json
end DataExpr
