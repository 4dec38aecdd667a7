import DataExpr.Value.Stamp
import Std.Data.TreeMap

/-!
# Lists of keys

A list of values in which a value is found by its stamp.  The main statement says
that finding agrees with a search from the front.
-/

namespace DataExpr

/-- Keys in the order in which they were added. -/
structure KeyList where
  /-- The keys from the last one on. -/
  reversed : List Value
  size : Nat
  /-- The keys of each stamp with their positions. -/
  index : Std.TreeMap UInt64 (List (Value × Nat))
  size_eq : size = reversed.length
  indexed : ∀ s, index.getD s [] = reversed.reverse.zipIdx.filter fun p => p.1.stamp == s

namespace KeyList

def empty : KeyList :=
  { reversed := [], size := 0, index := ∅, size_eq := rfl, indexed := by simp }

def toList (keys : KeyList) : List Value := keys.reversed.reverse

@[simp] theorem toList_empty : empty.toList = [] := rfl

theorem length_toList (keys : KeyList) : keys.toList.length = keys.size := by
  simp [toList, keys.size_eq]

/-- The position of a key. -/
def position? (keys : KeyList) (key : Value) : Option Nat :=
  ((keys.index.getD key.stamp []).find? fun p => p.1 == key).map (·.2)

/-- The index of a list after one more key. -/
theorem indexed_push (keys : KeyList) (key : Value) (s : UInt64) :
    (keys.index.insert key.stamp
        (keys.index.getD key.stamp [] ++ [(key, keys.size)])).getD s [] =
      (key :: keys.reversed).reverse.zipIdx.filter fun p => p.1.stamp == s := by
  rw [Std.TreeMap.getD_insert, keys.indexed, keys.indexed]
  by_cases h : key.stamp = s
  · simp [h, List.zipIdx_append, List.filter_append, keys.size_eq]
  · simp [h, List.zipIdx_append, List.filter_append]

/-- Adds a key at the end. -/
def push (keys : KeyList) (key : Value) : KeyList :=
  { reversed := key :: keys.reversed
    size := keys.size + 1
    index := keys.index.insert key.stamp (keys.index.getD key.stamp [] ++ [(key, keys.size)])
    size_eq := by simp [keys.size_eq]
    indexed := keys.indexed_push key }

@[simp] theorem toList_push (keys : KeyList) (key : Value) :
    (keys.push key).toList = keys.toList ++ [key] := by
  simp [push, toList]

@[simp] theorem size_push (keys : KeyList) (key : Value) : (keys.push key).size = keys.size + 1 :=
  rfl

theorem find?_zipIdx_map (key : Value) (items : List Value) (k : Nat) :
    ((items.zipIdx k).find? fun p => p.1 == key).map (·.2) =
      (items.findIdx? (· == key)).map (· + k) := by
  induction items generalizing k with
  | nil => simp
  | cons a rest ih =>
    by_cases h : (a == key) = true
    · simp [List.zipIdx_cons, List.findIdx?_cons, h]
    · simp [List.zipIdx_cons, List.findIdx?_cons, h, ih, Function.comp_def, Nat.add_assoc,
        Nat.add_comm 1 k]

/-- A key is found where a search from the front finds it. -/
theorem position?_eq (keys : KeyList) (key : Value) :
    keys.position? key = keys.toList.findIdx? (· == key) := by
  have same : ∀ p : Value × Nat,
      decide ((p.1.stamp == key.stamp) = true ∧ (p.1 == key) = true) = (p.1 == key) := by
    intro p
    by_cases h : (p.1 == key) = true
    · simp [h, Value.stamp_eq_of_beq _ _ h]
    · simp [h]
  rw [position?, keys.indexed, List.find?_filter]
  simp only [same]
  rw [find?_zipIdx_map]
  simp [toList]

/-- Adds a key unless it is present. -/
def add (keys : KeyList) (key : Value) : KeyList :=
  if (keys.position? key).isSome then keys else keys.push key

theorem toList_add (keys : KeyList) (key : Value) :
    (keys.add key).toList =
      if keys.toList.any (· == key) then keys.toList else keys.toList ++ [key] := by
  unfold add
  rw [position?_eq, List.findIdx?_isSome]
  split <;> simp

end KeyList
end DataExpr
