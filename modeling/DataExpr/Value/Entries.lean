import DataExpr.Value.Equality

/-!
# Insertion-ordered collections

Entries keyed by values, in the order in which their keys came first.  Writing to
a key that is present keeps the key and its place.
-/

namespace DataExpr

/-- Entries with distinct keys, in insertion order. -/
abbrev Entries (β : Type) := List (Value × β)

namespace Entries

variable {β : Type}

def get? (entries : Entries β) (key : Value) : Option β :=
  (entries.find? fun e => e.1 == key).map (·.2)

def contains (entries : Entries β) (key : Value) : Bool := entries.any fun e => e.1 == key

/-- Binds a key.  A present key keeps its place, a new one comes last. -/
def insert (key : Value) (value : β) : Entries β → Entries β
  | [] => [(key, value)]
  | (k, v) :: rest => if k == key then (k, value) :: rest else (k, v) :: insert key value rest

/-- A new key comes last. -/
theorem insert_of_none {key : Value} {entries : Entries β} (absent : entries.get? key = none)
    (value : β) : entries.insert key value = entries ++ [(key, value)] := by
  induction entries with
  | nil => rfl
  | cons e rest ih =>
    obtain ⟨k, v⟩ := e
    by_cases hit : (k == key) = true
    · simp [get?, hit] at absent
    · have tail : get? rest key = none := by simpa [get?, hit] using absent
      simp [insert, hit, ih tail]

end Entries
end DataExpr
