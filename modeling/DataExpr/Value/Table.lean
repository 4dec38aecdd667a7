import DataExpr.Value.Entries
import DataExpr.Value.KeyList

/-!
# Tables

Entries keyed by values, in which a key is found by its stamp.  A table is seen as the
list of its entries in insertion order: the main statements say that looking up and
writing agree with the operations on that list.
-/

namespace DataExpr

structure Table (β : Type) where
  keys : KeyList
  /-- The value at each position. -/
  values : Std.TreeMap Nat β
  filled : ∀ i, i < keys.size → (values[i]?).isSome

namespace Table

variable {β : Type}

def empty : Table β := { keys := .empty, values := ∅, filled := by simp [KeyList.empty] }

/-- Pairs keys with the values at their positions. -/
def pairUp (keys : List Value) (start : Nat) (value? : Nat → Option β) : Entries β :=
  (keys.zipIdx start).filterMap fun p => (value? p.2).map fun v => (p.1, v)

/-- The entries in insertion order. -/
def toEntries (t : Table β) : Entries β := pairUp t.keys.toList 0 fun i => t.values[i]?

@[simp] theorem toEntries_empty : (empty : Table β).toEntries = [] := rfl

def get? (t : Table β) (key : Value) : Option β :=
  (t.keys.position? key).bind fun i => t.values[i]?

/-- Binds a key.  A present key keeps its place, a new one comes last. -/
def insert (key : Value) (value : β) (t : Table β) : Table β :=
  match h : t.keys.position? key with
  | some i =>
    { keys := t.keys
      values := t.values.insert i value
      filled := fun j hj => by
        rw [Std.TreeMap.getElem?_insert]; split
        · rfl
        · exact t.filled j hj }
  | none =>
    { keys := t.keys.push key
      values := t.values.insert t.keys.size value
      filled := fun j hj => by
        rw [Std.TreeMap.getElem?_insert]; split
        · rfl
        · rename_i hne
          rw [KeyList.size_push] at hj
          have : t.keys.size ≠ j := by simpa using hne
          exact t.filled j (by omega) }

/-- The table with a single entry. -/
def single (key : Value) (value : β) : Table β := insert key value empty

/-! ### The view as a list -/

theorem pairUp_cons (a : Value) (keys : List Value) (k : Nat) (f : Nat → Option β) {b : β}
    (h : f k = some b) : pairUp (a :: keys) k f = (a, b) :: pairUp keys (k + 1) f := by
  simp [pairUp, List.zipIdx_cons, h]

theorem pairUp_congr (keys : List Value) (k : Nat) {f g : Nat → Option β}
    (h : ∀ i, k ≤ i → i < k + keys.length → f i = g i) : pairUp keys k f = pairUp keys k g := by
  induction keys generalizing k with
  | nil => rfl
  | cons a rest ih =>
    have tail : pairUp rest (k + 1) f = pairUp rest (k + 1) g :=
      ih (k + 1) fun i hi hlt => h i (by omega) (by simp; omega)
    have head := h k (Nat.le_refl k) (by simp)
    unfold pairUp at tail ⊢
    simp [List.zipIdx_cons, List.filterMap_cons, head, tail]

theorem get?_pairUp (key : Value) (keys : List Value) (k : Nat) (f : Nat → Option β)
    (filled : ∀ i, k ≤ i → i < k + keys.length → (f i).isSome) :
    Entries.get? (pairUp keys k f) key =
      (keys.findIdx? (· == key)).bind fun i => f (i + k) := by
  induction keys generalizing k with
  | nil => rfl
  | cons a rest ih =>
    obtain ⟨b, hb⟩ := Option.isSome_iff_exists.1 (filled k (Nat.le_refl k) (by simp))
    have tail := ih (k + 1) fun i hi hlt => filled i (by omega) (by simp; omega)
    rw [pairUp_cons a rest k f hb]
    by_cases h : (a == key) = true
    · simp [Entries.get?, List.findIdx?_cons, h, hb]
    · simp only [Entries.get?] at tail
      cases e : rest.findIdx? (· == key) <;>
        simp [Entries.get?, List.findIdx?_cons, h, tail, e, Nat.add_assoc, Nat.add_comm 1 k]

theorem insert_pairUp_of_none (key : Value) (value : β) (keys : List Value) (k : Nat)
    (f : Nat → Option β) (filled : ∀ i, k ≤ i → i < k + keys.length → (f i).isSome)
    (absent : keys.findIdx? (· == key) = none) :
    Entries.insert key value (pairUp keys k f) = pairUp keys k f ++ [(key, value)] := by
  apply Entries.insert_of_none
  rw [get?_pairUp key keys k f filled, absent, Option.bind_none]

theorem insert_pairUp_of_some (key : Value) (value : β) (keys : List Value) (k i : Nat)
    (f : Nat → Option β) (filled : ∀ i, k ≤ i → i < k + keys.length → (f i).isSome)
    (found : keys.findIdx? (· == key) = some i) :
    Entries.insert key value (pairUp keys k f) =
      pairUp keys k fun j => if i + k = j then some value else f j := by
  induction keys generalizing k i with
  | nil => simp at found
  | cons a rest ih =>
    obtain ⟨b, hb⟩ := Option.isSome_iff_exists.1 (filled k (Nat.le_refl k) (by simp))
    rw [pairUp_cons a rest k f hb]
    by_cases h : (a == key) = true
    · have zero : i = 0 := by simpa [List.findIdx?_cons, h] using found.symm
      subst zero
      rw [pairUp_cons (b := value) a rest k _ (by simp)]
      have tail : pairUp rest (k + 1) (fun j => if 0 + k = j then some value else f j) =
          pairUp rest (k + 1) f :=
        pairUp_congr rest (k + 1) fun j hj _ => if_neg (by omega)
      rw [tail]
      simp [Entries.insert, h]
    · obtain ⟨j, hj, rfl⟩ : ∃ j, rest.findIdx? (· == key) = some j ∧ j + 1 = i := by
        simpa [List.findIdx?_cons, h] using found
      have tail := ih (k + 1) j (fun i hi hlt => filled i (by omega) (by simp; omega)) hj
      rw [pairUp_cons (b := b) a rest k _ (by rw [if_neg (by omega), hb])]
      simp [Entries.insert, h, tail, Nat.add_assoc, Nat.add_comm 1 k]

theorem pairUp_append (key : Value) (value : β) (keys : List Value) (f : Nat → Option β)
    (last : f keys.length = some value) :
    pairUp (keys ++ [key]) 0 f = pairUp keys 0 f ++ [(key, value)] := by
  simp [pairUp, List.zipIdx_append, List.filterMap_append, last]

theorem isSome_values (t : Table β) (i : Nat) (h : i < 0 + t.keys.toList.length) :
    (t.values[i]?).isSome :=
  t.filled i (by rw [t.keys.length_toList] at h; omega)

/-- Looking up agrees with the list of entries. -/
theorem get?_eq (t : Table β) (key : Value) : t.get? key = Entries.get? t.toEntries key := by
  rw [toEntries, get?_pairUp key _ 0 _ fun i _ h => t.isSome_values i h, get?,
    KeyList.position?_eq]
  rfl

/-- Writing agrees with the list of entries. -/
theorem toEntries_insert (key : Value) (value : β) (t : Table β) :
    (t.insert key value).toEntries = Entries.insert key value t.toEntries := by
  have filled := fun i (_ : 0 ≤ i) h => t.isSome_values i h
  unfold insert
  split
  · rename_i i found
    rw [KeyList.position?_eq] at found
    rw [toEntries, toEntries, insert_pairUp_of_some key value _ 0 i _ filled found]
    simp [Std.TreeMap.getElem?_insert]
  · rename_i absent
    rw [KeyList.position?_eq] at absent
    rw [toEntries, toEntries, insert_pairUp_of_none key value _ 0 _ filled absent,
      KeyList.toList_push, pairUp_append key value _ _ (by simp [t.keys.length_toList])]
    congr 1
    refine pairUp_congr _ 0 fun i _ h => ?_
    have : t.keys.size ≠ i := by rw [t.keys.length_toList] at h; omega
    simp [Std.TreeMap.getElem?_insert, this]

@[simp] theorem toEntries_single (key : Value) (value : β) :
    (single key value).toEntries = [(key, value)] := by
  simp [single, toEntries_insert, Entries.insert]

end Table
end DataExpr
