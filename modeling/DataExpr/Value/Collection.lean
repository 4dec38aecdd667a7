import DataExpr.Value.Table

/-!
# Building sets and dictionaries

A set has the distinct elements of a list, a dictionary the last value of each key;
both in the order of first occurrences.
-/

namespace DataExpr

namespace Table

variable {β : Type}

/-- The table of a sequence of bindings: first place and last value of each key. -/
def ofList (bindings : List (Value × β)) : Table β :=
  bindings.foldl (fun t b => t.insert b.1 b.2) .empty

theorem toEntries_foldl_insert (bindings : List (Value × β)) (t : Table β) :
    (bindings.foldl (fun t b => t.insert b.1 b.2) t).toEntries =
      bindings.foldl (fun entries b => Entries.insert b.1 b.2 entries) t.toEntries := by
  induction bindings generalizing t with
  | nil => rfl
  | cons b rest ih => simp [ih, toEntries_insert]

/-- Bindings are written one after the other. -/
theorem toEntries_ofList (bindings : List (Value × β)) :
    (ofList bindings).toEntries =
      bindings.foldl (fun entries b => Entries.insert b.1 b.2 entries) [] := by
  simp [ofList, toEntries_foldl_insert]

end Table

namespace Value

/-- The distinct elements of a list, in order of their first occurrence. -/
def distinct (items : List Value) : List Value := (items.foldl KeyList.add .empty).toList

theorem toList_foldl_add (items : List Value) (keys : KeyList) :
    (items.foldl KeyList.add keys).toList =
      items.foldl (fun seen v => if seen.any (· == v) then seen else seen ++ [v])
        keys.toList := by
  induction items generalizing keys with
  | nil => rfl
  | cons v rest ih => simp [ih, KeyList.toList_add]

/-- Elements are kept one after the other unless they are present. -/
theorem distinct_eq_foldl (items : List Value) :
    distinct items =
      items.foldl (fun seen v => if seen.any (· == v) then seen else seen ++ [v]) [] := by
  simp [distinct, toList_foldl_add]

def ofSet (items : List Value) : Value := .set (distinct items)

def ofDict (bindings : List (Value × Value)) : Value := .dict (Table.ofList bindings).toEntries

end Value
end DataExpr
