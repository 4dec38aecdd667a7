/-!
# Bounded cache

A cache that holds a limited number of entries and drops the least recently used
one.  The entries stand in an array without gaps; links between them form the list
from the most to the least recently used one, and an index finds them by key.
-/

namespace DataExpr

/-- An entry with the positions of its neighbours. -/
structure LruEntry (κ α : Type) where
  key : κ
  value : α
  /-- The entry that was used next after this one. -/
  prev : Option Nat
  /-- The entry that was used last before this one. -/
  next : Option Nat

structure Lru (κ α : Type) where
  /-- The number of entries that there is room for. -/
  capacity : Nat
  positive : 0 < capacity
  /-- The position of the entry of each key. -/
  index : List (κ × Nat)
  entries : Array (LruEntry κ α)
  /-- The most recently used entry. -/
  head : Option Nat
  /-- The least recently used entry. -/
  tail : Option Nat

/-- A cache needs room for at least one entry, and its index has to fit in memory. -/
inductive LruError where
  | zeroCapacity
  | hugeCapacity
deriving DecidableEq, Repr

def LruError.message : LruError → String
  | zeroCapacity => "LRU cache capacity must be greater than 0"
  | hugeCapacity => "Hash table capacity overflow"

namespace Lru

variable {κ α : Type}

/-- The largest capacity.  The index is a table whose number of places is a power of two,
    and at most seven eighths of them are in use.  A place takes 33 bytes, so that a table
    of `2 ^ 57` places can be addressed and one of `2 ^ 58` cannot. -/
def maxCapacity : Nat := 7 * 0x40000000000000

/-- A cache without entries. -/
def empty (capacity : Nat) (positive : 0 < capacity) : Lru κ α :=
  { capacity, positive, index := [], entries := #[], head := none, tail := none }

/-- A cache of a given capacity, without entries. -/
def new (capacity : Nat) : Except LruError (Lru κ α) :=
  if h : 0 < capacity then
    if capacity ≤ maxCapacity then .ok (empty capacity h) else .error .hugeCapacity
  else .error .zeroCapacity

def size (cache : Lru κ α) : Nat := cache.entries.size

def isEmpty (cache : Lru κ α) : Bool := cache.size == 0

/-- The cache without its entries. -/
def clear (cache : Lru κ α) : Lru κ α :=
  { cache with index := [], entries := #[], head := none, tail := none }

/-! ### Links -/

def setPrev (cache : Lru κ α) (i : Nat) (prev : Option Nat) : Lru κ α :=
  { cache with entries := cache.entries.modify i fun e => { e with prev } }

def setNext (cache : Lru κ α) (i : Nat) (next : Option Nat) : Lru κ α :=
  { cache with entries := cache.entries.modify i fun e => { e with next } }

/-- Makes an entry, or none, the one that follows after `i`; after none comes the head. -/
def linkAfter (cache : Lru κ α) (i : Option Nat) (next : Option Nat) : Lru κ α :=
  match i with
  | some i => cache.setNext i next
  | none => { cache with head := next }

/-- Makes an entry, or none, the one that precedes `i`; before none comes the tail. -/
def linkBefore (cache : Lru κ α) (i : Option Nat) (prev : Option Nat) : Lru κ α :=
  match i with
  | some i => cache.setPrev i prev
  | none => { cache with tail := prev }

/-- Takes an entry out of the list; it stays in the array. -/
def unlink (cache : Lru κ α) (i : Nat) : Lru κ α :=
  match cache.entries[i]? with
  | some e => (cache.linkAfter e.prev e.next).linkBefore e.next e.prev
  | none => cache

/-- Puts an entry that is in no list in front. -/
def linkFront (cache : Lru κ α) (i : Nat) : Lru κ α :=
  let linked := (cache.setPrev i none).setNext i cache.head
  let shifted := match cache.head with
    | some head => linked.setPrev head (some i)
    | none => linked
  { shifted with head := some i, tail := cache.tail.or (some i) }

/-- Moves an entry to the front of the list. -/
def moveToFront (cache : Lru κ α) (i : Nat) : Lru κ α :=
  if cache.head = some i then cache else (cache.unlink i).linkFront i

/-! ### Operations -/

variable [BEq κ]

/-- The position of the entry of a key. -/
def position? (cache : Lru κ α) (key : κ) : Option Nat :=
  (cache.index.find? fun p => p.1 == key).map (·.2)

/-- Records the position of a key. -/
def indexInsert (key : κ) (i : Nat) : List (κ × Nat) → List (κ × Nat)
  | [] => [(key, i)]
  | (k, j) :: rest => if k == key then (k, i) :: rest else (k, j) :: indexInsert key i rest

/-- The value of a key, which becomes the most recently used one. -/
def get? (cache : Lru κ α) (key : κ) : Option α × Lru κ α :=
  match cache.position? key with
  | some i => (cache.entries[i]?.map (·.value), cache.moveToFront i)
  | none => (none, cache)

/-- Removes an entry.  The last entry of the array takes its place. -/
def detach (cache : Lru κ α) (i : Nat) : Lru κ α :=
  match cache.entries[i]? with
  | none => cache
  | some e =>
    let unlinked := cache.unlink i
    let entries := (unlinked.entries.swapIfInBounds i (unlinked.entries.size - 1)).pop
    let index := unlinked.index.filter fun p => !(p.1 == e.key)
    match entries[i]? with
    | none => { unlinked with index, entries }
    | some moved =>
      let placed := { unlinked with index := indexInsert moved.key i index, entries }
      (placed.linkAfter moved.prev (some i)).linkBefore moved.next (some i)

/-- Removes the least recently used entry if there is no room for another one. -/
def makeRoom (cache : Lru κ α) : Option α × Lru κ α :=
  match cache.tail with
  | some tail =>
    if cache.capacity ≤ cache.size then
      (cache.entries[tail]?.map (·.value), cache.detach tail)
    else (none, cache)
  | none => (none, cache)

/-- Stores a value, which becomes the most recently used one.  The result has the value
    that the key had before, or the one that was dropped to make room. -/
def put (cache : Lru κ α) (key : κ) (value : α) : Option α × Lru κ α :=
  match cache.position? key with
  | some i =>
    let updated := { cache with entries := cache.entries.modify i fun e => { e with value } }
    (cache.entries[i]?.map (·.value), updated.moveToFront i)
  | none =>
    let (dropped, cache) := cache.makeRoom
    let i := cache.entries.size
    let pushed :=
      { cache with
        index := indexInsert key i cache.index
        entries := cache.entries.push ⟨key, value, none, none⟩ }
    (dropped, pushed.linkFront i)

end Lru
end DataExpr
