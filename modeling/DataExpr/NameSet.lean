/-!
# Sets of names

A set of names is the list of its members in increasing order.
-/

namespace DataExpr

/-- Distinct names in increasing order. -/
abbrev NameSet := List String

namespace NameSet

def insert (name : String) : NameSet → NameSet
  | [] => [name]
  | n :: rest =>
    if name = n then n :: rest
    else if name < n then name :: n :: rest
    else n :: insert name rest

/-- All names of both sets. -/
def union (s t : NameSet) : NameSet := t.foldl (fun u n => NameSet.insert n u) s

/-- The names of the first set that the second one has too. -/
def inter (s t : NameSet) : NameSet := s.filter fun n => t.contains n

/-- The names of the first set that the second one lacks. -/
def diff (s t : NameSet) : NameSet := s.filter fun n => !t.contains n

end NameSet
end DataExpr
