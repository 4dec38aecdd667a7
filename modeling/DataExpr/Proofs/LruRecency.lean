import DataExpr.Proofs.LruLinks

/-!
# The recently used entries of a bounded cache

A list of pairs of a key and a value, most recently used first, is all that a cache has to be
(`Recency`).  A cache is coherent when its links, its array and its index describe one list that
has every entry once (`Coherent`).  Every operation keeps a cache coherent and does to the list
of its entries what the operation on lists of pairs does.
-/

namespace DataExpr

/-! ### Lists of recently used pairs -/

/-- Keys with their values, the most recently used one first. -/
abbrev Recency (κ α : Type) := List (κ × α)

namespace Recency

variable {κ α : Type}

/-- Drops the last pair if there is no room for another one. -/
def makeRoom (capacity : Nat) (pairs : Recency κ α) : Option α × Recency κ α :=
  if pairs.length < capacity then (none, pairs)
  else (pairs.getLast?.map (·.2), pairs.dropLast)

/-- What is left was there before. -/
theorem makeRoom_subset (capacity : Nat) (pairs : Recency κ α) :
    (pairs.makeRoom capacity).2 ⊆ pairs := by
  unfold makeRoom
  split
  · exact List.Subset.refl pairs
  · exact List.dropLast_subset pairs

variable [BEq κ]

/-- The value of a key, whose pair moves to the front. -/
def get? (pairs : Recency κ α) (key : κ) : Option α × Recency κ α :=
  match pairs.find? fun p => p.1 == key with
  | some p => (some p.2, p :: pairs.eraseP fun p => p.1 == key)
  | none => (none, pairs)

/-- Stores a value in front.  The result has the value that the key had before, or the one that
    was dropped to make room. -/
def put (capacity : Nat) (pairs : Recency κ α) (key : κ) (value : α) :
    Option α × Recency κ α :=
  match pairs.find? fun p => p.1 == key with
  | some p => (some p.2, (p.1, value) :: pairs.eraseP fun p => p.1 == key)
  | none =>
    let (dropped, rest) := pairs.makeRoom capacity
    (dropped, (key, value) :: rest)

variable {before after : Recency κ α} {p : κ × α} {key : κ}
  (hbefore : ∀ q ∈ before, (q.1 == key) = false) (hp : (p.1 == key) = true)
include hbefore hp

/-- The first pair whose key is the one looked for. -/
theorem find_middle : (before ++ p :: after).find? (fun q => q.1 == key) = some p := by
  have hnone : before.find? (fun q => q.1 == key) = none := by
    apply List.find?_eq_none.mpr
    intro q hq
    simp [hbefore q hq]
  simp [hnone, hp]

theorem erase_middle :
    (before ++ p :: after).eraseP (fun q => q.1 == key) = before ++ after := by
  rw [List.eraseP_append_right]
  · simp [hp]
  · intro q hq
    simp [hbefore q hq]

end Recency

namespace Lru

variable {κ α : Type} {cache : Lru κ α} {i : Nat} {xs ys order : List Nat}

/-! ### What the list of entries says -/

/-- The pairs of the entries at these positions. -/
def recency (cache : Lru κ α) (order : List Nat) : Recency κ α :=
  order.filterMap fun i => cache.contents[i]?

@[simp] theorem recency_append : cache.recency (xs ++ ys) = cache.recency xs ++ cache.recency ys :=
  List.filterMap_append

theorem recency_cons {p : κ × α} (h : cache.contents[i]? = some p) :
    cache.recency (i :: xs) = p :: cache.recency xs :=
  List.filterMap_cons_some h

theorem recency_congr {cache' : Lru κ α}
    (h : ∀ i ∈ order, cache'.contents[i]? = cache.contents[i]?) :
    cache'.recency order = cache.recency order :=
  List.filterMap_congr h

theorem SameContents.recency {cache cache' : Lru κ α} (same : SameContents cache cache')
    (order : List Nat) : cache'.recency order = cache.recency order := by
  apply recency_congr
  intro i _
  rw [same.contents]

theorem SameContents.position? [BEq κ] {cache cache' : Lru κ α} (same : SameContents cache cache')
    (key : κ) : cache'.position? key = cache.position? key := by
  rw [Lru.position?, same.index, Lru.position?]

theorem contents_withValue (i : Nat) (value : α) (j : Nat) :
    (cache.withValue i value).contents[j]? =
      cache.contents[j]?.map fun p => if i = j then (p.1, value) else p := by
  rw [contents, contents, withValue, Array.getElem?_map, Array.getElem?_map, Array.getElem?_modify]
  by_cases hij : i = j
  · simp [hij, Function.comp_def]
  · simp [hij, Function.comp_def]

theorem links_withValue (i : Nat) (value : α) : (cache.withValue i value).links = cache.links := by
  funext j
  by_cases hij : i = j
  · simp [links, withValue, hij, Array.getElem?_modify, Function.comp_def]
  · simp [links, withValue, hij, Array.getElem?_modify]

/-- Only the pair of the entry changes. -/
theorem recency_withValue {value : α} (hi : i ∉ order) :
    (cache.withValue i value).recency order = cache.recency order := by
  apply recency_congr
  intro j hj
  have hij : i ≠ j := fun heq => hi (heq ▸ hj)
  rw [contents_withValue]
  simp [hij]

theorem contents_replaced (hi : i < cache.size) (index : List (κ × Nat)) (j : Nat) :
    (cache.replaced i index).contents[j]? =
      if j < cache.size - 1 then cache.contents[if j = i then cache.size - 1 else j]?
      else none := by
  rw [contents, contents, replaced, Array.getElem?_map, getElem?_replaced cache.entries hi j, size,
    Array.getElem?_map]
  by_cases hj : j < cache.entries.size - 1
  · rw [if_pos hj, if_pos hj]
    by_cases hji : j = i
    · rw [if_pos hji, if_pos hji]
    · rw [if_neg hji, if_neg hji]
  · rw [if_neg hj, if_neg hj]
    rfl

theorem lt_size_of_contents {p : κ × α} (h : cache.contents[i]? = some p) : i < cache.size := by
  rw [size, ← size_contents]
  exact (Array.getElem?_eq_some_iff.mp h).1

/-! ### Coherent caches -/

section Coherent

variable [BEq κ]

/-- The index finds the entry of each key. -/
def Located (cache : Lru κ α) : Prop :=
  ∀ key i, cache.position? key = some i ↔
    ∃ p, cache.contents[i]? = some p ∧ (p.1 == key) = true

/-- The index, the array and the links describe one list that has every entry once, and no more
    entries than there is room for. -/
structure Coherent (cache : Lru κ α) (order : List Nat) : Prop where
  linked : cache.Linked order
  every : ∀ i, i ∈ order ↔ i < cache.size
  located : cache.Located
  room : cache.size ≤ cache.capacity

theorem Located.of_same {cache cache' : Lru κ α} (h : cache.Located)
    (same : SameContents cache cache') : cache'.Located := by
  intro key i
  rw [same.position?, same.contents]
  exact h key i

/-- No two entries have the same key. -/
theorem Located.unique (h : cache.Located) {key : κ} {j : Nat} {p q : κ × α}
    (hi : cache.contents[i]? = some p) (hp : (p.1 == key) = true)
    (hj : cache.contents[j]? = some q) (hq : (q.1 == key) = true) : i = j := by
  have hpi := (h key i).mpr ⟨p, hi, hp⟩
  have hqj := (h key j).mpr ⟨q, hj, hq⟩
  exact Option.some.inj (hpi.symm.trans hqj)

/-- There are as many positions in the list as entries in the array. -/
theorem Coherent.length_order (h : cache.Coherent order) : order.length = cache.size := by
  have hperm : order.Perm (List.range cache.size) := by
    apply (List.perm_ext_iff_of_nodup h.linked.nodup List.nodup_range).mpr
    intro i
    rw [h.every, List.mem_range]
  rw [hperm.length_eq, List.length_range]

/-- The entries at the positions of the list. -/
theorem Coherent.pair (h : cache.Coherent order) {j : Nat} (hj : j ∈ order) :
    ∃ p, cache.contents[j]? = some p := by
  have hlt : j < cache.contents.size := by
    rw [size_contents]
    exact h.linked.lt_size hj
  exact ⟨_, Array.getElem?_eq_getElem hlt⟩

theorem Coherent.length_recency (h : cache.Coherent order) :
    (cache.recency order).length = cache.size := by
  rw [recency, List.length_filterMap_eq_countP, ← h.length_order, List.countP_eq_length]
  intro j hj
  obtain ⟨p, hp⟩ := h.pair hj
  rw [hp]
  rfl

/-- A coherent cache is as empty as the list of its pairs. -/
theorem Coherent.isEmpty_recency (h : cache.Coherent order) :
    (cache.recency order).isEmpty = cache.isEmpty := by
  rw [Lru.isEmpty, ← h.length_recency]
  cases cache.recency order <;> rfl

/-- A key that is found is the one of an entry of the list, and no other entry has it. -/
theorem Coherent.found (h : cache.Coherent order) {key : κ} (hi : cache.position? key = some i) :
    ∃ xs ys p, order = xs ++ i :: ys ∧ cache.contents[i]? = some p ∧ (p.1 == key) = true ∧
      ∀ q ∈ cache.recency xs, (q.1 == key) = false := by
  obtain ⟨p, hp, hkey⟩ := (h.located key i).mp hi
  have hmem : i ∈ order := by
    rw [h.every, size, ← size_contents]
    exact (Array.getElem?_eq_some_iff.mp hp).1
  obtain ⟨xs, ys, rfl⟩ := List.append_of_mem hmem
  refine ⟨xs, ys, p, rfl, hp, hkey, ?_⟩
  intro q hq
  obtain ⟨j, hj, hjq⟩ := List.mem_filterMap.mp hq
  by_contra hqkey
  have hij := h.located.unique hp hkey hjq (by simpa using hqkey)
  have hnotin := (notMem_of_nodup h.linked.nodup).1
  exact hnotin (hij ▸ List.mem_append_left ys hj)

/-- A key that is not found is in no pair. -/
theorem Coherent.absent (h : cache.Coherent order) {key : κ} :
    cache.position? key = none ↔ ∀ q ∈ cache.recency order, (q.1 == key) = false := by
  constructor
  · intro hnone q hq
    obtain ⟨j, hj, hjq⟩ := List.mem_filterMap.mp hq
    by_contra hqkey
    have hsome := (h.located key j).mpr ⟨q, hjq, by simpa using hqkey⟩
    rw [hnone] at hsome
    cases hsome
  · intro hall
    cases hi : cache.position? key with
    | none => rfl
    | some i =>
      obtain ⟨xs, ys, p, rfl, hp, hkey, -⟩ := h.found hi
      have hmem : p ∈ cache.recency (xs ++ i :: ys) := by simp [recency_cons hp]
      rw [hall p hmem] at hkey
      cases hkey

theorem coherent_empty (capacity : Nat) (positive : 0 < capacity) :
    (Lru.empty capacity positive : Lru κ α).Coherent [] := by
  constructor
  · exact ⟨rfl, rfl, trivial, List.nodup_nil⟩
  · intro i
    simp [Lru.empty, size]
  · intro key i
    simp [Lru.empty, Lru.position?, contents]
  · exact Nat.zero_le capacity

theorem coherent_clear (cache : Lru κ α) : cache.clear.Coherent [] :=
  coherent_empty cache.capacity cache.positive

/-! ### Moving to the front -/

/-- An entry of the list is moved to the front, and its pair with it. -/
theorem Coherent.moveToFront (h : cache.Coherent (xs ++ i :: ys)) :
    (cache.moveToFront i).Coherent (i :: (xs ++ ys)) := by
  have same := cache.moveToFront_same i
  constructor
  · exact h.linked.moveToFront
  · intro j
    rw [size, same.size, ← size, ← h.every]
    simp only [List.mem_append, List.mem_cons]
    tauto
  · exact h.located.of_same same
  · rw [size, same.size, capacity_moveToFront]
    exact h.room

/-! ### Storing another value -/

/-- Another value changes neither the order of the entries nor their keys. -/
theorem Coherent.withValue (h : cache.Coherent order) (i : Nat) (value : α) :
    (cache.withValue i value).Coherent order := by
  have hsize : (cache.withValue i value).size = cache.size := Array.size_modify
  constructor
  · have hchain := h.linked.chain
    rw [← links_withValue i value] at hchain
    exact ⟨h.linked.head, h.linked.tail, hchain, h.linked.nodup⟩
  · intro j
    rw [hsize]
    exact h.every j
  · intro key j
    change cache.position? key = some j ↔ _
    rw [h.located, contents_withValue]
    constructor
    · rintro ⟨p, hp, hkey⟩
      refine ⟨_, congrArg (Option.map _) hp, ?_⟩
      split <;> exact hkey
    · rintro ⟨p, hp, hkey⟩
      obtain ⟨q, hq, rfl⟩ := Option.map_eq_some_iff.mp hp
      refine ⟨q, hq, ?_⟩
      split at hkey <;> exact hkey
  · rw [hsize]
    exact h.room

/-! ### Removing an entry -/

theorem contents_detach (cache : Lru κ α) (i : Nat) {e : LruEntry κ α}
    (he : cache.entries[i]? = some e) :
    (cache.detach i).contents = ((cache.unlink i).replaced i []).contents := by
  rw [detach_eq he]
  dsimp only
  split
  · rfl
  · rename_i moved _
    exact ((linkAfter_same _ _ _).trans (linkBefore_same _ _ _)).contents

theorem size_detach (cache : Lru κ α) (i : Nat) {e : LruEntry κ α}
    (he : cache.entries[i]? = some e) : (cache.detach i).size = cache.size - 1 := by
  rw [size, ← size_contents, contents_detach cache i he, size_contents]
  simp [replaced, (cache.unlink_same i).size, size]

theorem capacity_detach (cache : Lru κ α) (i : Nat) :
    (cache.detach i).capacity = cache.capacity := by
  cases he : cache.entries[i]? with
  | none => simp [Lru.detach, he]
  | some e =>
    rw [detach_eq he]
    dsimp only
    split <;> simp [replaced]

/-- The positions that are left in the list when an entry is removed. -/
theorem Coherent.mem_rest (h : cache.Coherent (xs ++ i :: ys)) {j : Nat} :
    j ∈ xs ++ ys ↔ j < cache.size ∧ j ≠ i := by
  have hnotin := (notMem_of_nodup h.linked.nodup).1
  have hperm : (xs ++ i :: ys).Perm (i :: (xs ++ ys)) := List.perm_middle
  rw [← h.every, hperm.mem_iff, List.mem_cons]
  constructor
  · intro hj
    exact ⟨.inr hj, fun heq => hnotin (heq ▸ hj)⟩
  · rintro ⟨heq | hj, hne⟩
    · exact absurd heq hne
    · exact hj

/-- The other entries keep their pairs, each at its new position. -/
theorem Coherent.recency_detach (h : cache.Coherent (xs ++ i :: ys)) :
    (cache.detach i).recency ((xs ++ ys).map (moved i (cache.size - 1))) =
      cache.recency (xs ++ ys) := by
  obtain ⟨e, he, -⟩ := h.linked.neighbours
  have same := cache.unlink_same i
  have hlt : i < (cache.unlink i).size := by
    rw [size, same.size]
    exact (Array.getElem?_eq_some_iff.mp he).1
  rw [recency, List.filterMap_map]
  apply List.filterMap_congr
  intro j hj
  obtain ⟨hjlt, hji⟩ := h.mem_rest.mp hj
  have hsize : (cache.unlink i).size = cache.size := same.size
  rw [Function.comp_apply, contents_detach cache i he, contents_replaced hlt, same.contents, hsize,
    moved]
  by_cases hlast : j = cache.size - 1
  · rw [if_pos hlast, if_pos rfl, if_pos (by omega), hlast]
  · rw [if_neg hlast, if_neg hji, if_pos (by omega)]

section Detach

variable [EquivBEq κ]

theorem find_indexInsert (index : List (κ × Nat)) (k key : κ) (i : Nat) :
    ((indexInsert k i index).find? fun p => p.1 == key).map (·.2) =
      if k == key then some i else (index.find? fun p => p.1 == key).map (·.2) := by
  induction index with
  | nil =>
    by_cases hk : (k == key) = true
    · simp [indexInsert, hk]
    · simp [indexInsert, hk]
  | cons q rest ih =>
    obtain ⟨l, j⟩ := q
    by_cases hl : (l == k) = true
    · have hlk : (l == key) = (k == key) := BEq.congr_left hl
      by_cases hk : (k == key) = true
      · simp [indexInsert, hl, hlk, hk]
      · simp [indexInsert, hl, hlk, hk]
    · rw [indexInsert, if_neg hl]
      by_cases hlk : (l == key) = true
      · have hk : ¬(k == key) = true := fun hk => hl (BEq.trans hlk (BEq.symm hk))
        simp [hlk, hk]
      · simpa [hlk] using ih

theorem find_filter_key (index : List (κ × Nat)) (k key : κ) :
    ((index.filter fun p => !(p.1 == k)).find? fun p => p.1 == key).map (·.2) =
      if k == key then none else (index.find? fun p => p.1 == key).map (·.2) := by
  induction index with
  | nil => simp
  | cons q rest ih =>
    obtain ⟨l, j⟩ := q
    by_cases hl : (l == k) = true
    · have hlk : (l == key) = (k == key) := BEq.congr_left hl
      by_cases hk : (k == key) = true
      · simpa [hl, hlk, hk] using ih
      · simpa [hl, hlk, hk] using ih
    · by_cases hlk : (l == key) = true
      · have hk : ¬(k == key) = true := fun hk => hl (BEq.trans hlk (BEq.symm hk))
        simp [hl, hlk, hk]
      · simpa [hl, hlk] using ih

/-- Without the key of an entry the index finds the other entries. -/
theorem Located.without (h : cache.Located) {p : κ × α} (hp : cache.contents[i]? = some p)
    (key : κ) (j : Nat) :
    ((cache.index.filter fun q => !(q.1 == p.1)).find? fun q => q.1 == key).map (·.2) = some j ↔
      j ≠ i ∧ ∃ q, cache.contents[j]? = some q ∧ (q.1 == key) = true := by
  rw [find_filter_key]
  change (if _ then _ else cache.position? key) = _ ↔ _
  constructor
  · intro hj
    by_cases hpkey : (p.1 == key) = true
    · rw [if_pos hpkey] at hj
      cases hj
    · rw [if_neg hpkey] at hj
      obtain ⟨q, hq, hkey⟩ := (h key j).mp hj
      refine ⟨?_, q, hq, hkey⟩
      rintro rfl
      rw [hp] at hq
      exact hpkey (Option.some.inj hq ▸ hkey)
  · rintro ⟨hji, q, hq, hkey⟩
    have hpkey : ¬(p.1 == key) = true := fun hpkey => hji (h.unique hq hkey hp hpkey)
    rw [if_neg hpkey]
    exact (h key j).mpr ⟨q, hq, hkey⟩

/-- Without the key of the last entry of the array the index fits the array without it. -/
theorem Located.replaced_last (h : cache.Located) {p : κ × α} (hp : cache.contents[i]? = some p)
    (hlast : i = cache.size - 1) :
    (cache.replaced i (cache.index.filter fun q => !(q.1 == p.1))).Located := by
  intro key j
  rw [contents_replaced (lt_size_of_contents hp)]
  apply (h.without hp key j).trans
  constructor
  · rintro ⟨hji, q, hq, hkey⟩
    have hlt := lt_size_of_contents hq
    rw [if_pos (by omega), if_neg hji]
    exact ⟨q, hq, hkey⟩
  · rintro ⟨q, hq, hkey⟩
    by_cases hlt : j < cache.size - 1
    · have hji : j ≠ i := by omega
      rw [if_pos hlt, if_neg hji] at hq
      exact ⟨hji, q, hq, hkey⟩
    · rw [if_neg hlt] at hq
      cases hq

/-- With the last entry of the array at its new position the index fits the array. -/
theorem Located.replaced_before (h : cache.Located) {p last : κ × α}
    (hp : cache.contents[i]? = some p) (hlast : cache.contents[cache.size - 1]? = some last)
    (hlt : i < cache.size - 1) :
    (cache.replaced i
      (indexInsert last.1 i (cache.index.filter fun q => !(q.1 == p.1)))).Located := by
  intro key j
  change ((indexInsert _ _ _).find? _).map _ = _ ↔ _
  rw [find_indexInsert, contents_replaced (lt_size_of_contents hp)]
  -- The moved entry's key is told apart from all others: it is found at `i`, and no longer where
  -- it was.
  by_cases hlastkey : (last.1 == key) = true
  · rw [if_pos hlastkey]
    constructor
    · intro hj
      obtain rfl := Option.some.inj hj
      rw [if_pos hlt, if_pos rfl]
      exact ⟨last, hlast, hlastkey⟩
    · rintro ⟨q, hq, hkey⟩
      by_cases hjlt : j < cache.size - 1
      · by_cases hji : j = i
        · rw [hji]
        · rw [if_pos hjlt, if_neg hji] at hq
          have hsame := h.unique hq hkey hlast hlastkey
          omega
      · rw [if_neg hjlt] at hq
        cases hq
  · rw [if_neg hlastkey]
    apply (h.without hp key j).trans
    constructor
    · rintro ⟨hji, q, hq, hkey⟩
      have hjlast : j ≠ cache.size - 1 := by
        rintro rfl
        rw [hlast] at hq
        exact hlastkey (Option.some.inj hq ▸ hkey)
      have hjlt := lt_size_of_contents hq
      rw [if_pos (by omega), if_neg hji]
      exact ⟨q, hq, hkey⟩
    · rintro ⟨q, hq, hkey⟩
      by_cases hjlt : j < cache.size - 1
      · by_cases hji : j = i
        · rw [if_pos hjlt, if_pos hji, hlast] at hq
          exact absurd (Option.some.inj hq ▸ hkey) hlastkey
        · rw [if_pos hjlt, if_neg hji] at hq
          exact ⟨hji, q, hq, hkey⟩
      · rw [if_neg hjlt] at hq
        cases hq

/-- A removed entry leaves a coherent cache. -/
theorem Coherent.detach (h : cache.Coherent (xs ++ i :: ys)) :
    (cache.detach i).Coherent ((xs ++ ys).map (moved i (cache.size - 1))) := by
  have hall (j) (hj : j < cache.size) : j ∈ xs ++ i :: ys := (h.every j).mpr hj
  have hlt := (h.every i).mp (List.mem_append_right xs List.mem_cons_self)
  obtain ⟨e, he, -⟩ := h.linked.neighbours
  have hsize := cache.size_detach i he
  have same := cache.unlink_same i
  constructor
  · exact h.linked.detach hall
  · intro k
    rw [hsize, List.mem_map]
    constructor
    · rintro ⟨j, hj, rfl⟩
      obtain ⟨hjlt, hji⟩ := h.mem_rest.mp hj
      unfold moved
      split <;> omega
    · intro hk
      -- Every index below the new size is in the order still: `i` stands for the moved entry.
      by_cases hki : k = i
      · refine ⟨cache.size - 1, h.mem_rest.mpr (by omega), ?_⟩
        rw [moved, if_pos rfl, hki]
      · refine ⟨k, h.mem_rest.mpr (by omega), ?_⟩
        rw [moved, if_neg (by omega)]
  · have hu := h.linked.unlink
    have hlocated := h.located.of_same same
    have hp : (cache.unlink i).contents[i]? = some (e.key, e.value) := by
      rw [same.contents, contents, Array.getElem?_map, he]
      rfl
    have hrest (j) (hj : j < (cache.unlink i).entries.size) : j = i ∨ j ∈ xs ++ ys := by
      rw [same.size] at hj
      rw [h.mem_rest, size]
      omega
    rw [detach_eq he]
    dsimp only
    -- The hole is at the end of the array, or what was at the end fills it.
    rcases hu.fills (lt_size_of_contents hp) hrest _ with
      ⟨hlast, hnone⟩ | ⟨us, vs, last, hbefore, -, hlast, hat, -⟩
    · rw [hnone]
      exact hlocated.replaced_last hp hlast
    · rw [hat]
      have hlast : (cache.unlink i).contents[(cache.unlink i).size - 1]? =
          some (last.key, last.value) := by
        rw [contents, Array.getElem?_map, size, hlast]
        rfl
      apply (hlocated.replaced_before hp hlast hbefore).of_same
      exact (linkAfter_same _ _ _).trans (linkBefore_same _ _ _)
  · have hroom := h.room
    rw [hsize, capacity_detach]
    omega

/-- There is room for another entry once the last one has been dropped from a full cache. -/
theorem Coherent.makeRoom (h : cache.Coherent order) :
    ∃ order', cache.makeRoom.2.Coherent order' ∧ cache.makeRoom.2.size < cache.capacity ∧
      cache.makeRoom.2.capacity = cache.capacity ∧
      (cache.makeRoom.1, cache.makeRoom.2.recency order') =
        (cache.recency order).makeRoom cache.capacity := by
  have hpositive := cache.positive
  rw [Recency.makeRoom, h.length_recency]
  unfold Lru.makeRoom
  rw [h.linked.tail]
  -- A full cache drops the end of its order, which is the end of the recency list.
  by_cases hroom : cache.size < cache.capacity
  · rw [if_pos hroom]
    refine ⟨order, ?_⟩
    cases order.getLast? with
    | none => exact ⟨h, hroom, rfl, rfl⟩
    | some last =>
      dsimp only
      rw [if_neg (Nat.not_le.mpr hroom)]
      exact ⟨h, hroom, rfl, rfl⟩
  · rw [if_neg hroom]
    have hlength := h.length_order
    rcases List.eq_nil_or_concat order with rfl | ⟨rest, last, rfl⟩
    · rw [List.length_nil] at hlength
      omega
    · rw [List.concat_eq_append] at h ⊢
      rw [List.getLast?_append, List.getLast?_singleton]
      dsimp only [Option.some_or]
      obtain ⟨e, he, -⟩ := h.linked.neighbours
      have hlast : cache.contents[last]? = some (e.key, e.value) := by
        rw [contents, Array.getElem?_map, he]
        rfl
      have hsize := cache.size_detach last he
      have hdetach := h.detach
      have hrecency := h.recency_detach
      rw [List.append_nil] at hdetach hrecency
      rw [if_pos (Nat.not_lt.mp hroom), he]
      refine ⟨_, hdetach, ?_, capacity_detach cache last, ?_⟩
      · have := h.room
        dsimp only
        omega
      · dsimp only
        rw [hrecency, recency_append, recency_cons hlast]
        simp [recency]

end Detach

/-! ### A new entry -/

theorem position?_pushed [EquivBEq κ] (cache : Lru κ α) (key k : κ) (value : α) :
    (cache.pushed key value).position? k =
      if key == k then some cache.size else cache.position? k :=
  find_indexInsert cache.index key k cache.size

theorem contents_pushed (cache : Lru κ α) (key : κ) (value : α) (j : Nat) :
    (cache.pushed key value).contents[j]? =
      if j = cache.size then some (key, value) else cache.contents[j]? := by
  simp [contents, pushed, Array.getElem?_push, size]

theorem size_pushed (cache : Lru κ α) (key : κ) (value : α) :
    (cache.pushed key value).size = cache.size + 1 := by
  simp [pushed, size]

theorem Coherent.linked_pushed (h : cache.Coherent order) (key : κ) (value : α) :
    (cache.pushed key value).Linked order := by
  refine ⟨h.linked.head, h.linked.tail, ?_, h.linked.nodup⟩
  apply h.linked.chain.congr
  intro j hj
  have hlt := h.linked.lt_size hj
  rw [links, links, pushed, Array.getElem?_push_lt hlt, Array.getElem?_eq_getElem hlt]

/-- A new entry in front of the others. -/
theorem Coherent.push [EquivBEq κ] (h : cache.Coherent order) {key : κ} (value : α)
    (habsent : cache.position? key = none) (hroom : cache.size < cache.capacity) :
    ((cache.pushed key value).linkFront cache.size).Coherent (cache.size :: order) ∧
      ((cache.pushed key value).linkFront cache.size).recency (cache.size :: order) =
        (key, value) :: cache.recency order := by
  have same := (cache.pushed key value).linkFront_same cache.size
  have hsize := cache.size_pushed key value
  have hfront : ((cache.pushed key value).linkFront cache.size).size = cache.size + 1 :=
    same.size.trans hsize
  have hfresh : cache.size ∉ order := by
    intro hmem
    have := (h.every cache.size).mp hmem
    omega
  have hlinked := h.linked_pushed key value
  constructor
  · constructor
    · apply hlinked.linkFront hfresh
      rw [← size, hsize]
      omega
    · intro j
      rw [List.mem_cons, h.every, hfront]
      omega
    · apply Located.of_same _ same
      intro k j
      rw [position?_pushed, contents_pushed]
      -- The new key is found at the new index, since no index had it; other keys are unmoved.
      by_cases hk : (key == k) = true
      · rw [if_pos hk]
        constructor
        · intro hj
          rw [if_pos (Option.some.inj hj).symm]
          exact ⟨_, rfl, hk⟩
        · rintro ⟨q, hq, hqk⟩
          by_cases hj : j = cache.size
          · rw [hj]
          · rw [if_neg hj] at hq
            have hfound := (h.located key j).mpr ⟨q, hq, BEq.trans hqk (BEq.symm hk)⟩
            rw [habsent] at hfound
            cases hfound
      · rw [if_neg hk, h.located]
        by_cases hj : j = cache.size
        · rw [if_pos hj]
          constructor
          · rintro ⟨q, hq, -⟩
            have := lt_size_of_contents hq
            omega
          · rintro ⟨q, hq, hqk⟩
            obtain rfl := Option.some.inj hq
            exact absurd hqk hk
        · rw [if_neg hj]
    · rw [hfront, capacity_linkFront]
      exact hroom
  · have hnew : (cache.pushed key value).contents[cache.size]? = some (key, value) := by
      rw [contents_pushed, if_pos rfl]
    rw [same.recency, recency_cons hnew]
    congr 1
    apply recency_congr
    intro j hj
    have hne : j ≠ cache.size := fun heq => hfresh (heq ▸ hj)
    rw [contents_pushed, if_neg hne]

/-! ### The operations on caches and on lists of pairs -/

/-- Looking up a key in a coherent cache is looking it up in the list of its pairs. -/
theorem Coherent.get? (h : cache.Coherent order) (key : κ) :
    ∃ order', (cache.get? key).2.Coherent order' ∧
      (cache.get? key).2.capacity = cache.capacity ∧
      ((cache.get? key).1, (cache.get? key).2.recency order') = (cache.recency order).get? key := by
  unfold Lru.get? Recency.get?
  cases hposition : cache.position? key with
  | none =>
    have hnone : (cache.recency order).find? (fun p => p.1 == key) = none := by
      apply List.find?_eq_none.mpr
      intro q hq
      simp [h.absent.mp hposition q hq]
    refine ⟨order, h, rfl, ?_⟩
    rw [hnone]
  | some i =>
    obtain ⟨xs, ys, p, rfl, hp, hkey, hxs⟩ := h.found hposition
    refine ⟨_, h.moveToFront, capacity_moveToFront cache i, ?_⟩
    have same := cache.moveToFront_same i
    have hvalue : cache.entries[i]?.map (·.value) = some p.2 := by
      rw [contents, Array.getElem?_map] at hp
      obtain ⟨e, he, rfl⟩ := Option.map_eq_some_iff.mp hp
      rw [he]
      rfl
    dsimp only
    rw [same.recency, recency_cons hp, recency_append, recency_append, recency_cons hp,
      Recency.find_middle hxs hkey, Recency.erase_middle hxs hkey, hvalue]

/-- Storing a value in a coherent cache is storing it in the list of its pairs. -/
theorem Coherent.put [EquivBEq κ] (h : cache.Coherent order) (key : κ) (value : α) :
    ∃ order', (cache.put key value).2.Coherent order' ∧
      (cache.put key value).2.capacity = cache.capacity ∧
      ((cache.put key value).1, (cache.put key value).2.recency order') =
        (cache.recency order).put cache.capacity key value := by
  rw [put_eq]
  unfold Recency.put
  -- A new key makes room and is pushed; a known one gets its value and moves to the front.
  cases hposition : cache.position? key with
  | none =>
    have hpairs := h.absent.mp hposition
    have hnone : (cache.recency order).find? (fun p => p.1 == key) = none := by
      apply List.find?_eq_none.mpr
      intro q hq
      simp [hpairs q hq]
    obtain ⟨order', hcoherent, hroom, hcapacity, hdropped⟩ := h.makeRoom
    have hstill : cache.makeRoom.2.position? key = none := by
      apply hcoherent.absent.mpr
      intro q hq
      apply hpairs q
      apply Recency.makeRoom_subset cache.capacity
      rwa [← hdropped]
    rw [← hcapacity] at hroom
    obtain ⟨hfront, hrecency⟩ := hcoherent.push value hstill hroom
    refine ⟨_, hfront, ?_, ?_⟩
    · exact (capacity_linkFront _ _).trans hcapacity
    · rw [hnone, ← hdropped, hrecency]
  | some i =>
    obtain ⟨xs, ys, p, rfl, hp, hkey, hxs⟩ := h.found hposition
    have hupdated := h.withValue i value
    have same := (cache.withValue i value).moveToFront_same i
    have hnotin := (notMem_of_nodup h.linked.nodup).1
    have hvalue : cache.entries[i]?.map (·.value) = some p.2 := by
      rw [contents, Array.getElem?_map] at hp
      obtain ⟨e, he, rfl⟩ := Option.map_eq_some_iff.mp hp
      rw [he]
      rfl
    have hnew : (cache.withValue i value).contents[i]? = some (p.1, value) := by
      rw [contents_withValue, hp, Option.map_some, if_pos rfl]
    refine ⟨_, hupdated.moveToFront, capacity_moveToFront _ i, ?_⟩
    dsimp only
    rw [same.recency, recency_cons hnew, recency_withValue hnotin, recency_append, recency_append,
      recency_cons hp, Recency.find_middle hxs hkey, Recency.erase_middle hxs hkey, hvalue]

end Coherent
end Lru
end DataExpr
