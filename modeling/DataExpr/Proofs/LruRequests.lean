import DataExpr.Proofs.LruRecency

/-!
# A bounded cache answers like a list of recently used pairs

Requests to a cache are served one after the other, and after each one its value and the size of
the cache are seen (`serve`).  Three things serve requests: the cache, the cache with a check in
front of every access to its array (`Lru.Checked`), and a list of pairs.  From an empty cache on,
no check fails and all three give the same answers (`serve_eq_recency`).
-/

namespace DataExpr

/-! ### Operations that check each position -/

namespace Lru

variable {κ α : Type}

namespace Checked

def setPrev (cache : Lru κ α) (i : Nat) (prev : Option Nat) : Option (Lru κ α) :=
  if i < cache.size then some (cache.setPrev i prev) else none

def setNext (cache : Lru κ α) (i : Nat) (next : Option Nat) : Option (Lru κ α) :=
  if i < cache.size then some (cache.setNext i next) else none

def linkAfter (cache : Lru κ α) (i next : Option Nat) : Option (Lru κ α) :=
  match i with
  | some i => setNext cache i next
  | none => some { cache with head := next }

def linkBefore (cache : Lru κ α) (i prev : Option Nat) : Option (Lru κ α) :=
  match i with
  | some i => setPrev cache i prev
  | none => some { cache with tail := prev }

def unlink (cache : Lru κ α) (i : Nat) : Option (Lru κ α) := do
  let e ← cache.entries[i]?
  let cut ← linkAfter cache e.prev e.next
  linkBefore cut e.next e.prev

def linkFront (cache : Lru κ α) (i : Nat) : Option (Lru κ α) := do
  let first ← setPrev cache i none
  let linked ← setNext first i cache.head
  let shifted ← match cache.head with
    | some head => setPrev linked head (some i)
    | none => some linked
  some { shifted with head := some i, tail := cache.tail.or (some i) }

def moveToFront (cache : Lru κ α) (i : Nat) : Option (Lru κ α) :=
  if cache.head = some i then some cache else do
    let unlinked ← unlink cache i
    linkFront unlinked i

variable [BEq κ]

def get? (cache : Lru κ α) (key : κ) : Option (Option α × Lru κ α) :=
  match cache.position? key with
  | some i => do
    let e ← cache.entries[i]?
    let front ← moveToFront cache i
    some (some e.value, front)
  | none => some (none, cache)

def detach (cache : Lru κ α) (i : Nat) : Option (Lru κ α) := do
  let e ← cache.entries[i]?
  let unlinked ← unlink cache i
  let index := unlinked.index.filter fun p => !(p.1 == e.key)
  match (unlinked.replaced i index).entries[i]? with
  | none => some (unlinked.replaced i index)
  | some moved => do
    let placed := unlinked.replaced i (indexInsert moved.key i index)
    let linked ← linkAfter placed moved.prev (some i)
    linkBefore linked moved.next (some i)

def makeRoom (cache : Lru κ α) : Option (Option α × Lru κ α) :=
  match cache.tail with
  | some tail =>
    if cache.capacity ≤ cache.size then do
      let e ← cache.entries[tail]?
      let rest ← detach cache tail
      some (some e.value, rest)
    else some (none, cache)
  | none => some (none, cache)

def put (cache : Lru κ α) (key : κ) (value : α) : Option (Option α × Lru κ α) :=
  match cache.position? key with
  | some i => do
    let e ← cache.entries[i]?
    let front ← moveToFront (cache.withValue i value) i
    some (some e.value, front)
  | none => do
    let (dropped, rest) ← makeRoom cache
    let front ← linkFront (rest.pushed key value) rest.size
    some (dropped, front)

/-! ### No check fails -/

omit [BEq κ]

variable {cache : Lru κ α} {i : Nat} {target : Option Nat} {xs ys order : List Nat}

theorem linkAfter_eq (next : Option Nat) (h : ∀ i ∈ target, i < cache.size) :
    linkAfter cache target next = some (cache.linkAfter target next) := by
  cases target with
  | none => rfl
  | some i => exact if_pos (h i rfl)

theorem linkBefore_eq (prev : Option Nat) (h : ∀ i ∈ target, i < cache.size) :
    linkBefore cache target prev = some (cache.linkBefore target prev) := by
  cases target with
  | none => rfl
  | some i => exact if_pos (h i rfl)

/-- Neighbours that are there can be linked to other entries. -/
theorem relink_eq {before after : Option Nat} (next prev : Option Nat)
    (hbefore : ∀ i ∈ before, i < cache.size) (hafter : ∀ i ∈ after, i < cache.size) :
    ((linkAfter cache before next).bind fun cut => linkBefore cut after prev) =
      some ((cache.linkAfter before next).linkBefore after prev) := by
  rw [linkAfter_eq next hbefore, Option.bind_some]
  apply linkBefore_eq
  intro j hj
  rw [size, (linkAfter_same cache _ _).size]
  exact hafter j hj

theorem unlink_eq (h : cache.Linked (xs ++ i :: ys)) : unlink cache i = some (cache.unlink i) := by
  obtain ⟨e, he, hprev, hnext⟩ := h.neighbours
  simp only [unlink, he, Lru.unlink, hprev, hnext, Option.bind_eq_bind, Option.bind_some]
  apply relink_eq
  · intro j hj
    exact h.lt_size (List.mem_append_left _ (List.mem_of_getLast? hj))
  · intro j hj
    exact h.lt_size (List.mem_append_right _ (List.mem_cons_of_mem i (List.mem_of_head? hj)))

theorem linkFront_eq (h : cache.Linked order) (hi : i < cache.size) :
    linkFront cache i = some (cache.linkFront i) := by
  have hsize (head : Option Nat) :
      ((cache.setPrev i none).setNext i head).size = cache.size := by
    rw [size, (setNext_same _ i head).size, (setPrev_same cache i none).size, size]
  have hfirst : setPrev cache i none = some (cache.setPrev i none) := if_pos hi
  have hlinked (head : Option Nat) : setNext (cache.setPrev i none) i head =
      some ((cache.setPrev i none).setNext i head) := by
    apply if_pos
    rwa [size, (setPrev_same cache i none).size]
  unfold linkFront Lru.linkFront
  simp only [hfirst, hlinked, Option.bind_eq_bind, Option.bind_some]
  cases hhead : cache.head with
  | none => rfl
  | some head =>
    have hmem : head ∈ order := List.mem_of_head? (h.head.symm.trans hhead)
    have hshifted : setPrev ((cache.setPrev i none).setNext i (some head)) head (some i) =
        some (((cache.setPrev i none).setNext i (some head)).setPrev head (some i)) := by
      apply if_pos
      rw [hsize]
      exact h.lt_size hmem
    dsimp only
    rw [hshifted]
    rfl

theorem moveToFront_eq (h : cache.Linked (xs ++ i :: ys)) :
    moveToFront cache i = some (cache.moveToFront i) := by
  have hi : i < cache.size := h.lt_size (List.mem_append_right xs List.mem_cons_self)
  unfold moveToFront Lru.moveToFront
  by_cases hhead : cache.head = some i
  · rw [if_pos hhead, if_pos hhead]
  · rw [if_neg hhead, if_neg hhead, unlink_eq h]
    apply linkFront_eq h.unlink
    rwa [size, (cache.unlink_same i).size]

variable [BEq κ]

theorem get?_eq (h : cache.Coherent order) (key : κ) : get? cache key = some (cache.get? key) := by
  unfold get? Lru.get?
  cases hi : cache.position? key with
  | none => rfl
  | some i =>
    obtain ⟨xs, ys, p, rfl, -⟩ := h.found hi
    obtain ⟨e, he, -⟩ := h.linked.neighbours
    simp only [he, moveToFront_eq h.linked, Option.bind_eq_bind, Option.bind_some]
    rfl

theorem detach_eq (h : cache.Coherent (xs ++ i :: ys)) :
    detach cache i = some (cache.detach i) := by
  obtain ⟨e, he, -⟩ := h.linked.neighbours
  have hunlinked := h.linked.unlink
  have hlt : i < (cache.unlink i).entries.size := by
    rw [(cache.unlink_same i).size]
    exact (Array.getElem?_eq_some_iff.mp he).1
  have hrest (j) (hj : j < (cache.unlink i).entries.size) : j = i ∨ j ∈ xs ++ ys := by
    rw [(cache.unlink_same i).size] at hj
    rw [h.mem_rest, size]
    omega
  have hnotin := (notMem_of_nodup h.linked.nodup).1
  rw [Lru.detach_eq he]
  unfold detach
  simp only [he, unlink_eq h.linked, Option.bind_eq_bind, Option.bind_some]
  generalize cache.unlink i = u at hunlinked hlt hrest ⊢
  rcases hunlinked.fills hlt hrest (u.index.filter fun p => !(p.1 == e.key)) with
    ⟨-, hnone⟩ | ⟨us, vs, moved, hbefore, horder, -, hat, hprev, hnext⟩
  · rw [hnone]
  · rw [hat]
    dsimp only
    rw [hprev, hnext]
    -- the entries around the moved one stand before the last place, which is gone
    have hkept {j : Nat} (hj : j ∈ us ++ vs) (index : List (κ × Nat)) :
        j < (u.replaced i index).size := by
      have hnodup := horder ▸ hunlinked.nodup
      have hne : j ≠ u.entries.size - 1 := fun heq => (notMem_of_nodup hnodup).1 (heq ▸ hj)
      have hmem : j ∈ xs ++ ys := by
        rw [horder]
        grind
      have hjlt := hunlinked.lt_size hmem
      simp only [size, replaced, Array.size_pop, Array.size_swapIfInBounds]
      omega
    apply relink_eq
    · intro j hj
      exact hkept (List.mem_append_left vs (List.mem_of_getLast? hj)) _
    · intro j hj
      exact hkept (List.mem_append_right us (List.mem_of_head? hj)) _

theorem makeRoom_eq (h : cache.Coherent order) : makeRoom cache = some cache.makeRoom := by
  unfold makeRoom Lru.makeRoom
  rw [h.linked.tail]
  rcases List.eq_nil_or_concat order with rfl | ⟨rest, last, rfl⟩
  · rfl
  · rw [List.concat_eq_append] at h ⊢
    rw [List.getLast?_append, List.getLast?_singleton]
    dsimp only [Option.some_or]
    obtain ⟨e, he, -⟩ := h.linked.neighbours
    split
    · simp only [he, detach_eq h, Option.bind_eq_bind, Option.bind_some]
      rfl
    · rfl

theorem put_eq [EquivBEq κ] (h : cache.Coherent order) (key : κ) (value : α) :
    put cache key value = some (cache.put key value) := by
  rw [Lru.put_eq]
  unfold put
  cases hi : cache.position? key with
  | none =>
    obtain ⟨order', hcoherent, -⟩ := h.makeRoom
    simp only [makeRoom_eq h, Option.bind_eq_bind, Option.bind_some]
    rw [linkFront_eq (hcoherent.linked_pushed key value)]
    · rfl
    · rw [size_pushed]
      omega
  | some i =>
    obtain ⟨xs, ys, p, rfl, -⟩ := h.found hi
    obtain ⟨e, he, -⟩ := h.linked.neighbours
    simp only [he, moveToFront_eq (h.withValue i value).linked, Option.bind_eq_bind,
      Option.bind_some]
    rfl

end Checked

end Lru

/-! ### Requests -/

/-- What can be asked of a cache. -/
inductive LruRequest (κ α : Type) where
  | put (key : κ) (value : α)
  | get (key : κ)
  | clear

/-- The value that a request gives, and what is seen of the cache after it. -/
structure LruAnswer (α : Type) where
  value : Option α
  size : Nat
  isEmpty : Bool
deriving DecidableEq, Repr

/-- Something that serves requests, or fails on one. -/
structure LruServer (κ α σ : Type) where
  respond : σ → LruRequest κ α → Option (Option α × σ)
  size : σ → Nat
  isEmpty : σ → Bool

/-- Serves requests one after the other. -/
def LruServer.serve {κ α σ : Type} (server : LruServer κ α σ) (state : σ) :
    List (LruRequest κ α) → Option (List (LruAnswer α) × σ)
  | [] => some ([], state)
  | request :: rest => do
    let (value, next) ← server.respond state request
    let (answers, final) ← server.serve next rest
    some (⟨value, server.size next, server.isEmpty next⟩ :: answers, final)

variable {κ α : Type} [BEq κ]

/-- A bounded cache. -/
def Lru.server : LruServer κ α (Lru κ α) where
  respond cache
    | .put key value => some (cache.put key value)
    | .get key => some (cache.get? key)
    | .clear => some (none, cache.clear)
  size := Lru.size
  isEmpty := Lru.isEmpty

/-- A bounded cache that fails where it would leave its array. -/
def Lru.Checked.server : LruServer κ α (Lru κ α) where
  respond cache
    | .put key value => Checked.put cache key value
    | .get key => Checked.get? cache key
    | .clear => some (none, cache.clear)
  size := Lru.size
  isEmpty := Lru.isEmpty

/-- A list of recently used pairs. -/
def Recency.server (capacity : Nat) : LruServer κ α (Recency κ α) where
  respond pairs
    | .put key value => some (pairs.put capacity key value)
    | .get key => some (pairs.get? key)
    | .clear => some (none, [])
  size := List.length
  isEmpty := List.isEmpty

namespace Lru

variable [EquivBEq κ]

variable {cache : Lru κ α} {order : List Nat}

/-- No check fails on a coherent cache. -/
theorem checked_respond (h : cache.Coherent order) (request : LruRequest κ α) :
    Checked.server.respond cache request = server.respond cache request := by
  cases request with
  | put key value => exact Checked.put_eq h key value
  | get key => exact Checked.get?_eq h key
  | clear => rfl

/-- A request does to the pairs of a coherent cache what it does to the list of them. -/
theorem respond_recency (h : cache.Coherent order) (request : LruRequest κ α) :
    ∃ value next order', server.respond cache request = some (value, next) ∧
      (Recency.server cache.capacity).respond (cache.recency order) request =
        some (value, next.recency order') ∧
      next.Coherent order' ∧ next.capacity = cache.capacity := by
  cases request with
  | put key value =>
    obtain ⟨order', hcoherent, hcapacity, hpairs⟩ := h.put key value
    exact ⟨_, _, order', rfl, congrArg some hpairs.symm, hcoherent, hcapacity⟩
  | get key =>
    obtain ⟨order', hcoherent, hcapacity, hpairs⟩ := h.get? key
    exact ⟨_, _, order', rfl, congrArg some hpairs.symm, hcoherent, hcapacity⟩
  | clear => exact ⟨none, cache.clear, [], rfl, rfl, coherent_clear cache, rfl⟩

/-- A run from a coherent cache, with checks and without, beside the run from its pairs. -/
theorem serve_coherent (h : cache.Coherent order) (requests : List (LruRequest κ α)) :
    ∃ answers final order', server.serve cache requests = some (answers, final) ∧
      (Recency.server cache.capacity).serve (cache.recency order) requests =
        some (answers, final.recency order') ∧
      Checked.server.serve cache requests = some (answers, final) ∧
      final.Coherent order' ∧ final.capacity = cache.capacity := by
  induction requests generalizing cache order with
  | nil => exact ⟨[], cache, order, rfl, rfl, rfl, h, rfl⟩
  | cons request rest ih =>
    obtain ⟨value, next, order', hcache, hpairs, hnext, hcapacity⟩ := respond_recency h request
    obtain ⟨answers, final, order'', hcaches, hpairss, hchecks, hfinal, hkept⟩ := ih hnext
    have hcheck := checked_respond h request
    rw [hcapacity] at hpairss
    refine ⟨⟨value, next.size, next.isEmpty⟩ :: answers, final, order'', ?_, ?_, ?_, hfinal, ?_⟩
    · simp only [LruServer.serve, hcache, hcaches, Option.bind_eq_bind, Option.bind_some]
      rfl
    · simp only [LruServer.serve, hpairs, hpairss, Option.bind_eq_bind, Option.bind_some]
      simp only [Recency.server, hnext.length_recency, hnext.isEmpty_recency]
    · simp only [LruServer.serve, hcheck, hcache, hchecks, Option.bind_eq_bind, Option.bind_some]
      rfl
    · exact hkept.trans hcapacity

/-- **Recency**: whatever is asked of an empty cache, its answers and its size are those of a list
    of at most as many pairs as there is room for, most recently used first; no access to the
    array is out of range; and the index, the array and the links then describe one list that has
    each entry once, with the pairs of the list in their order. -/
theorem serve_eq_recency (capacity : Nat) (positive : 0 < capacity)
    (requests : List (LruRequest κ α)) :
    ∃ answers final order,
      server.serve (Lru.empty capacity positive) requests = some (answers, final) ∧
      (Recency.server capacity).serve [] requests = some (answers, final.recency order) ∧
      (final.recency order).length ≤ capacity ∧
      Checked.server.serve (Lru.empty capacity positive) requests = some (answers, final) ∧
      final.Coherent order ∧
      (capacity ≤ maxCapacity →
        Lru.new capacity = .ok (Lru.empty capacity positive : Lru κ α)) := by
  have hstart : (Lru.empty capacity positive : Lru κ α).Coherent [] :=
    coherent_empty capacity positive
  obtain ⟨answers, final, order, hcache, hpairs, hchecked, hfinal, hcapacity⟩ :=
    serve_coherent hstart requests
  refine ⟨answers, final, order, hcache, hpairs, ?_, hchecked, hfinal, ?_⟩
  · have hroom := hfinal.room
    rw [hcapacity] at hroom
    rw [hfinal.length_recency]
    exact hroom
  · intro hmax
    rw [Lru.new, dif_pos positive, if_pos hmax]

/-- A value that is looked up stays, and the one that was not used for the longest time goes. -/
theorem serve_drops_oldest :
    let requests : List (LruRequest Nat String) :=
      [.put 1 "a", .put 2 "b", .get 1, .put 3 "c", .get 2, .put 1 "d", .clear]
    ∃ final, server.serve (Lru.empty 2 (by decide)) requests = some
      ([⟨none, 1, false⟩, ⟨none, 2, false⟩, ⟨some "a", 2, false⟩, ⟨some "b", 2, false⟩,
        ⟨none, 2, false⟩, ⟨some "a", 2, false⟩, ⟨none, 0, true⟩], final) := by
  intro requests
  obtain ⟨answers, final, order, hcache, hpairs, -⟩ := serve_eq_recency 2 (by decide) requests
  have hanswers := congrArg (Option.map Prod.fst) hpairs
  obtain rfl := Option.some.inj hanswers
  exact ⟨final, hcache⟩

end Lru
end DataExpr
