import DataExpr.Value.Stamp
import Std.Data.TreeMap

/-!
# Candidates of a join

The rows of the secondary side of a join that have passed its filter.  They are kept by
the stamps of their keys; the main statement says that those with a key are found in
their order.
-/

namespace DataExpr

/-- A row of the secondary side that has passed its filter. -/
structure Candidate where
  position : Nat
  key : Value
  row : Value

/-- The candidates of each stamp of a key. -/
abbrev Candidates := Std.TreeMap UInt64 (List Candidate)

namespace Candidates

/-- Adds a candidate before all others. -/
def add (c : Candidate) (candidates : Candidates) : Candidates :=
  candidates.insert c.key.stamp (c :: candidates.getD c.key.stamp [])

def ofList (items : List Candidate) : Candidates := items.foldr add ∅

/-- The candidates with a key, in their order. -/
def withKey (candidates : Candidates) (key : Value) : List Candidate :=
  (candidates.getD key.stamp []).filter fun c => c.key == key

theorem getD_ofList (items : List Candidate) (s : UInt64) :
    (ofList items).getD s [] = items.filter fun c => c.key.stamp == s := by
  induction items with
  | nil => simp [ofList]
  | cons c rest ih =>
    have step : ofList (c :: rest) = add c (ofList rest) := rfl
    rw [step, add, Std.TreeMap.getD_insert]
    by_cases h : c.key.stamp = s
    · subst h
      simp [ih]
    · simp [h, ih]

/-- The candidates with a key are those of the list. -/
theorem withKey_ofList (items : List Candidate) (key : Value) :
    (ofList items).withKey key = items.filter fun c => c.key == key := by
  rw [withKey, getD_ofList, List.filter_filter]
  congr 1
  funext c
  by_cases h : (c.key == key) = true
  · simp [h, Value.stamp_eq_of_beq _ _ h]
  · simp [h]

end Candidates
end DataExpr
