import DataExpr.Proofs.LruContents

/-!
# The links of a bounded cache

The links of the entries form one list without repetitions: each entry knows the one before it and
the one after it, and the cache knows both ends (`Linked`).  Taking an entry out of the list,
putting one in front and letting the last entry of the array take the place of a removed one keep
the links of the others.
-/

namespace DataExpr

/-- The neighbours in the list of the entry at a position: the one before it and the one after. -/
abbrev LruLinks := Nat → Option (Option Nat × Option Nat)

namespace LruLinks

/-- The links after another entry has been put before this one, if there is one. -/
def withPrev (links : LruLinks) (i prev : Option Nat) : LruLinks := fun j =>
  if some j = i then (links j).map fun l => (prev, l.2) else links j

/-- The links after another entry has been put after this one, if there is one. -/
def withNext (links : LruLinks) (i next : Option Nat) : LruLinks := fun j =>
  if some j = i then (links j).map fun l => (l.1, next) else links j

/-- The entries at these positions follow one another, between two other ones. -/
def Chain (links : LruLinks) (before : Option Nat) : List Nat → Option Nat → Prop
  | [], _ => True
  | i :: rest, after =>
    links i = some (before, rest.head?.or after) ∧ Chain links (some i) rest after

variable {links links' : LruLinks} {before after link : Option Nat} {i : Nat}
  {xs ys : List Nat}

/-- A chain is what the links of its own entries say. -/
theorem Chain.congr (h : Chain links before xs after) (hlinks : ∀ j ∈ xs, links' j = links j) :
    Chain links' before xs after := by
  induction xs generalizing before with
  | nil => trivial
  | cons i rest ih =>
    obtain ⟨hi, hrest⟩ := h
    constructor
    · rw [hlinks i List.mem_cons_self, hi]
    · apply ih hrest
      intro j hj
      exact hlinks j (List.mem_cons_of_mem i hj)

theorem Chain.withPrev (h : Chain links before xs after) (hi : i ∉ xs) :
    Chain (links.withPrev (some i) link) before xs after := by
  apply h.congr
  intro j hj
  have hji : some j ≠ some i := fun heq => hi (Option.some.inj heq ▸ hj)
  rw [LruLinks.withPrev, if_neg hji]

/-- What comes before a chain is known to its first entry only. -/
theorem Chain.relinkFirst (h : Chain links before xs after) (hnodup : xs.Nodup)
    (before' : Option Nat) :
    Chain (links.withPrev xs.head? before') before' xs after := by
  cases xs with
  | nil => trivial
  | cons i rest =>
    obtain ⟨hi, hrest⟩ := h
    constructor
    · simp [LruLinks.withPrev, hi]
    · exact hrest.withPrev (List.nodup_cons.mp hnodup).1

/-- What comes after a chain is known to its last entry only. -/
theorem Chain.relinkLast (h : Chain links before xs after) (hnodup : xs.Nodup)
    (after' : Option Nat) :
    Chain (links.withNext xs.getLast? after') before xs after' := by
  induction xs generalizing before with
  | nil => trivial
  | cons i rest ih =>
    obtain ⟨hi, hrest⟩ := h
    obtain ⟨hnotin, hnodup⟩ := List.nodup_cons.mp hnodup
    cases rest with
    | nil => simp [Chain, LruLinks.withNext, hi]
    | cons j rest =>
      have hlast : (i :: j :: rest).getLast? = (j :: rest).getLast? := List.getLast?_cons_cons
      rw [hlast]
      constructor
      · have hne : some i ≠ (j :: rest).getLast? := by
          intro heq
          exact hnotin (List.mem_of_getLast? heq.symm)
        rw [LruLinks.withNext, if_neg hne, hi]
        rfl
      · exact ih hrest hnodup

/-- A chain of two parts. -/
theorem chain_append : Chain links before (xs ++ ys) after ↔
    Chain links before xs (ys.head?.or after) ∧ Chain links (xs.getLast?.or before) ys after := by
  induction xs generalizing before with
  | nil => simp [Chain]
  | cons i rest ih =>
    have hhead : (rest ++ ys).head?.or after = rest.head?.or (ys.head?.or after) := by
      cases rest <;> rfl
    have hlast : (i :: rest).getLast?.or before = rest.getLast?.or (some i) := by
      rw [List.getLast?_cons]
      cases rest.getLast? <;> rfl
    rw [List.cons_append, Chain, Chain, ih, hhead, hlast, and_assoc]

/-- Two chains whose inner ends are linked anew. -/
theorem Chain.relink (hxs : Chain links none xs after) (hys : Chain links before ys none)
    (hnodup : (xs ++ ys).Nodup) (before' after' : Option Nat) :
    Chain ((links.withNext xs.getLast? after').withPrev ys.head? before') none xs after' ∧
      Chain ((links.withNext xs.getLast? after').withPrev ys.head? before') before' ys none := by
  obtain ⟨hnodupxs, hnodupys, hdisjoint⟩ := List.nodup_append.mp hnodup
  constructor
  · have relinked := hxs.relinkLast hnodupxs after'
    apply relinked.congr
    intro j hj
    have hfirst : some j ≠ ys.head? := by
      intro heq
      exact hdisjoint j hj j (List.mem_of_head? heq.symm) rfl
    rw [LruLinks.withPrev, if_neg hfirst]
  · have relinked := hys.relinkFirst hnodupys before'
    apply relinked.congr
    intro j hj
    have hlast : some j ≠ xs.getLast? := by
      intro heq
      exact hdisjoint j (List.mem_of_getLast? heq.symm) j hj rfl
    simp [LruLinks.withPrev, LruLinks.withNext, hlast]

/-- Every entry of a chain is there. -/
theorem Chain.links_isSome (h : Chain links before xs after) {j : Nat} (hj : j ∈ xs) :
    (links j).isSome := by
  obtain ⟨us, vs, rfl⟩ := List.append_of_mem hj
  rw [(chain_append.mp h).2.1]
  rfl

end LruLinks

namespace Lru

open LruLinks

variable {κ α : Type} {cache : Lru κ α} {i : Nat} {xs ys order : List Nat}

/-- The links of the entries. -/
def links (cache : Lru κ α) : LruLinks := fun i => cache.entries[i]?.map fun e => (e.prev, e.next)

/-- The links form the list of the entries at these positions, from the most recently used one
    to the least recently used one. -/
structure Linked (cache : Lru κ α) (order : List Nat) : Prop where
  head : cache.head = order.head?
  tail : cache.tail = order.getLast?
  chain : Chain cache.links none order none
  nodup : order.Nodup

/-! ### Setting links -/

section Links

variable (cache) (i : Nat) (target link : Option Nat)

@[simp] theorem links_setPrev : (cache.setPrev i link).links =
    cache.links.withPrev (some i) link := by
  funext j
  by_cases h : j = i
  · subst h
    simp [links, setPrev, withPrev, Array.getElem?_modify, Function.comp_def]
  · simp [links, setPrev, withPrev, Array.getElem?_modify, h, Ne.symm h]

@[simp] theorem links_setNext : (cache.setNext i link).links =
    cache.links.withNext (some i) link := by
  funext j
  by_cases h : j = i
  · subst h
    simp [links, setNext, withNext, Array.getElem?_modify, Function.comp_def]
  · simp [links, setNext, withNext, Array.getElem?_modify, h, Ne.symm h]

@[simp] theorem links_linkAfter :
    (cache.linkAfter target link).links = cache.links.withNext target link := by
  cases target with
  | some i => exact cache.links_setNext i link
  | none => funext j; rfl

@[simp] theorem links_linkBefore :
    (cache.linkBefore target link).links = cache.links.withPrev target link := by
  cases target with
  | some i => exact cache.links_setPrev i link
  | none => funext j; rfl

@[simp] theorem head_linkAfter :
    (cache.linkAfter target link).head = if target = none then link else cache.head := by
  cases target <;> rfl

@[simp] theorem tail_linkAfter : (cache.linkAfter target link).tail = cache.tail := by
  cases target <;> rfl

@[simp] theorem head_linkBefore : (cache.linkBefore target link).head = cache.head := by
  cases target <;> rfl

@[simp] theorem tail_linkBefore :
    (cache.linkBefore target link).tail = if target = none then link else cache.tail := by
  cases target <;> rfl

@[simp] theorem capacity_linkAfter : (cache.linkAfter target link).capacity = cache.capacity := by
  cases target <;> rfl

@[simp] theorem capacity_linkBefore : (cache.linkBefore target link).capacity = cache.capacity := by
  cases target <;> rfl

@[simp] theorem capacity_unlink : (cache.unlink i).capacity = cache.capacity := by
  unfold unlink
  split
  · simp
  · rfl

@[simp] theorem capacity_linkFront : (cache.linkFront i).capacity = cache.capacity := by
  unfold linkFront
  cases cache.head <;> rfl

@[simp] theorem capacity_moveToFront : (cache.moveToFront i).capacity = cache.capacity := by
  unfold moveToFront
  split
  · rfl
  · simp

end Links

theorem size_contents (cache : Lru κ α) : cache.contents.size = cache.entries.size :=
  Array.size_map

theorem SameContents.size {cache cache' : Lru κ α} (same : SameContents cache cache') :
    cache'.entries.size = cache.entries.size := by
  rw [← size_contents, same.contents, size_contents]

/-! ### Moving entries in the list -/

/-- The neighbours of an entry of the list. -/
theorem Linked.neighbours (h : cache.Linked (xs ++ i :: ys)) :
    ∃ e, cache.entries[i]? = some e ∧ e.prev = xs.getLast? ∧ e.next = ys.head? := by
  have hi : cache.links i = some (xs.getLast?, ys.head?) := by
    simpa using (chain_append.mp h.chain).2.1
  obtain ⟨e, he, hlinks⟩ := Option.map_eq_some_iff.mp hi
  exact ⟨e, he, congrArg Prod.fst hlinks, congrArg Prod.snd hlinks⟩

/-- Only entries of the array are in the list. -/
theorem Linked.lt_size (h : cache.Linked order) {j : Nat} (hj : j ∈ order) :
    j < cache.entries.size := by
  simpa [links] using h.chain.links_isSome hj

/-- Positions before and after one of a list without repetitions. -/
theorem notMem_of_nodup (h : (xs ++ i :: ys).Nodup) : i ∉ xs ++ ys ∧ (xs ++ ys).Nodup := by
  have hperm : (xs ++ i :: ys).Perm (i :: (xs ++ ys)) := List.perm_middle
  exact List.nodup_cons.mp (hperm.nodup_iff.mp h)

/-- What has been taken out of the list leaves the others linked. -/
theorem Linked.unlink (h : cache.Linked (xs ++ i :: ys)) : (cache.unlink i).Linked (xs ++ ys) := by
  obtain ⟨e, he, hprev, hnext⟩ := h.neighbours
  have hnodup := (notMem_of_nodup h.nodup).2
  obtain ⟨hxs, -, hys⟩ := chain_append.mp h.chain
  simp only [Lru.unlink, he, hprev, hnext]
  constructor
  · rw [head_linkBefore, head_linkAfter, h.head]
    cases xs with
    | nil => simp
    | cons x rest => simp [List.getLast?_cons]
  · rw [tail_linkBefore, tail_linkAfter, h.tail]
    cases ys with
    | nil => simp
    | cons y rest => simp [List.getLast?_append, List.getLast?_cons]
  · rw [links_linkBefore, links_linkAfter]
    have relinked := hxs.relink hys hnodup xs.getLast? ys.head?
    apply chain_append.mpr
    rwa [Option.or_none, Option.or_none]
  · exact hnodup

@[simp] theorem links_linkFront (cache : Lru κ α) (i : Nat) :
    (cache.linkFront i).links =
      ((cache.links.withPrev (some i) none).withNext (some i) cache.head).withPrev cache.head
        (some i) := by
  rw [← links_setPrev, ← links_setNext]
  unfold Lru.linkFront
  cases cache.head with
  | none => rfl
  | some head =>
    rw [← links_setPrev]
    rfl

/-- What is put in front comes before the others. -/
theorem Linked.linkFront (h : cache.Linked order) (hi : i ∉ order) (hlt : i < cache.entries.size) :
    (cache.linkFront i).Linked (i :: order) := by
  have hhead : some i ≠ order.head? := fun heq => hi (List.mem_of_head? heq.symm)
  have hentry : cache.links i = some (cache.entries[i].prev, cache.entries[i].next) := by
    rw [links, Array.getElem?_eq_getElem hlt]
    rfl
  constructor
  · rfl
  · change cache.tail.or (some i) = _
    rw [h.tail, List.getLast?_cons]
    cases order.getLast? <;> rfl
  · rw [links_linkFront, h.head]
    constructor
    · simp [withPrev, withNext, hhead, hentry]
    · have relinked := h.chain.relinkFirst h.nodup (some i)
      apply relinked.congr
      intro j hj
      have hji : j ≠ i := fun heq => hi (heq ▸ hj)
      simp [withPrev, withNext, hji]
  · exact List.nodup_cons.mpr ⟨hi, h.nodup⟩

/-- An entry of the list is moved in front of the others. -/
theorem Linked.moveToFront (h : cache.Linked (xs ++ i :: ys)) :
    (cache.moveToFront i).Linked (i :: (xs ++ ys)) := by
  have hi := (notMem_of_nodup h.nodup).1
  unfold Lru.moveToFront
  by_cases hhead : cache.head = some i
  · rw [if_pos hhead]
    rw [h.head] at hhead
    cases xs with
    | nil => exact h
    | cons x rest =>
      obtain rfl := Option.some.inj hhead
      exact absurd List.mem_cons_self hi
  · rw [if_neg hhead]
    apply h.unlink.linkFront hi
    rw [(cache.unlink_same i).size]
    exact h.lt_size (List.mem_append_right xs List.mem_cons_self)

/-! ### Filling a gap in the array -/

/-- The position that an entry has once the last entry of the array has taken the place of
    another one. -/
def moved (i last j : Nat) : Nat := if j = last then i else j

theorem map_moved {last : Nat} (h : last ∉ order) : order.map (moved i last) = order := by
  rw [List.map_congr_left (g := id), List.map_id]
  intro j hj
  have hj : j ≠ last := fun heq => h (heq ▸ hj)
  exact if_neg hj

/-- The cache in whose array the last entry has taken the place of another one, before anything
    is linked to its new position. -/
def replaced (cache : Lru κ α) (i : Nat) (index : List (κ × Nat)) : Lru κ α :=
  { cache with
    index, entries := (cache.entries.swapIfInBounds i (cache.entries.size - 1)).pop }

theorem links_replaced (hi : i < cache.entries.size) (index : List (κ × Nat)) (j : Nat) :
    (cache.replaced i index).links j =
      if j < cache.entries.size - 1 then
        cache.links (if j = i then cache.entries.size - 1 else j)
      else none := by
  rw [links, replaced, getElem?_replaced cache.entries hi j]
  by_cases hj : j < cache.entries.size - 1
  · rw [if_pos hj, if_pos hj]
    by_cases hji : j = i
    · rw [if_pos hji, if_pos hji]
      rfl
    · rw [if_neg hji, if_neg hji]
      rfl
  · rw [if_neg hj, if_neg hj]
    rfl

section Replaced

variable (h : cache.Linked order) (hi : i ∉ order) (index : List (κ × Nat))
include h hi

/-- Entries that stay where they are keep their links. -/
theorem Linked.links_kept (hlt : i < cache.entries.size) {j : Nat} (hj : j ∈ order)
    (hlast : j ≠ cache.entries.size - 1) :
    (cache.replaced i index).links j = cache.links j := by
  have hji : j ≠ i := fun heq => hi (heq ▸ hj)
  have hsize := h.lt_size hj
  rw [links_replaced hlt, if_pos (by omega), if_neg hji]

/-- An entry that is last in the array leaves no gap. -/
theorem Linked.replaced_last (hlast : i = cache.entries.size - 1) (hlt : i < cache.entries.size) :
    (cache.replaced i index).Linked (order.map (moved i (cache.entries.size - 1))) := by
  rw [map_moved (hlast ▸ hi)]
  constructor
  · exact h.head
  · exact h.tail
  · apply h.chain.congr
    intro j hj
    have hother : j ≠ cache.entries.size - 1 := fun heq => hi (hlast.trans heq.symm ▸ hj)
    exact h.links_kept hi index hlt hj hother
  · exact h.nodup

end Replaced

/-- The entry that fills the gap is linked to its neighbours again. -/
theorem Linked.replaced_before {last : Nat} (h : cache.Linked (xs ++ last :: ys))
    (hi : i ∉ xs ++ last :: ys) (hlast : last = cache.entries.size - 1)
    (hlt : i < cache.entries.size) (index : List (κ × Nat)) :
    (((cache.replaced i index).linkAfter xs.getLast? (some i)).linkBefore ys.head?
      (some i)).Linked ((xs ++ last :: ys).map (moved i last)) := by
  obtain ⟨hnotin, hnodup⟩ := notMem_of_nodup h.nodup
  have hi' : i ∉ xs ++ ys := by
    intro hmem
    apply hi
    grind
  -- In the order of use the moved entry appears under its new index, and all others keep theirs.
  have hmap : (xs ++ last :: ys).map (moved i last) = xs ++ i :: ys := by
    rw [List.mem_append, not_or] at hnotin
    rw [List.map_append, List.map_cons, map_moved hnotin.1, map_moved hnotin.2, moved, if_pos rfl]
  have hkept {j : Nat} (hj : j ∈ xs ++ ys) : (cache.replaced i index).links j = cache.links j := by
    have hmem : j ∈ xs ++ last :: ys := by grind
    have hother : j ≠ last := fun heq => hnotin (heq ▸ hj)
    exact h.links_kept hi index hlt hmem (hlast ▸ hother)
  obtain ⟨hxs, hmoved, hys⟩ := chain_append.mp h.chain
  have hxs := hxs.congr fun j hj => hkept (List.mem_append_left ys hj)
  have hys := hys.congr fun j hj => hkept (List.mem_append_right xs hj)
  have relinked := hxs.relink hys hnodup (some i) (some i)
  have hplace : (cache.replaced i index).links i = some (xs.getLast?, ys.head?) := by
    have hne : i ≠ last := fun heq => hi (heq ▸ List.mem_append_right xs List.mem_cons_self)
    rw [links_replaced hlt, if_pos (by omega), if_pos rfl, ← hlast, hmoved, Option.or_none,
      Option.or_none]
  rw [hmap]
  constructor
  · rw [head_linkBefore, head_linkAfter]
    change (if _ then _ else cache.head) = _
    rw [h.head]
    cases xs with
    | nil => simp
    | cons x rest => simp [List.getLast?_cons]
  · rw [tail_linkBefore, tail_linkAfter]
    change (if _ then _ else cache.tail) = _
    rw [h.tail]
    cases ys with
    | nil => simp
    | cons y rest => simp [List.getLast?_append, List.getLast?_cons]
  · rw [links_linkBefore, links_linkAfter]
    have hfirst : some i ≠ ys.head? := by
      intro heq
      exact hi' (List.mem_append_right xs (List.mem_of_head? heq.symm))
    have hend : some i ≠ xs.getLast? := by
      intro heq
      exact hi' (List.mem_append_left ys (List.mem_of_getLast? heq.symm))
    apply chain_append.mpr
    refine ⟨relinked.1, ?_, relinked.2⟩
    rw [withPrev, if_neg hfirst, withNext, if_neg hend, hplace, Option.or_none, Option.or_none]
  · have hperm : (xs ++ i :: ys).Perm (i :: (xs ++ ys)) := List.perm_middle
    exact hperm.nodup_iff.mpr (List.nodup_cons.mpr ⟨hi', hnodup⟩)

/-- The entry that fills a gap, if the gap is not at the end of the array. -/
theorem Linked.fills (h : cache.Linked order) (hlt : i < cache.entries.size)
    (hall : ∀ j < cache.entries.size, j = i ∨ j ∈ order) (index : List (κ × Nat)) :
    (i = cache.entries.size - 1 ∧ (cache.replaced i index).entries[i]? = none) ∨
      ∃ xs ys e, i < cache.entries.size - 1 ∧ order = xs ++ (cache.entries.size - 1) :: ys ∧
        cache.entries[cache.entries.size - 1]? = some e ∧
        (cache.replaced i index).entries[i]? = some e ∧
        e.prev = xs.getLast? ∧ e.next = ys.head? := by
  have hentries : (cache.replaced i index).entries[i]? =
      if i < cache.entries.size - 1 then cache.entries[cache.entries.size - 1]? else none := by
    rw [replaced, getElem?_replaced cache.entries hlt, if_pos rfl]
  by_cases hlast : i = cache.entries.size - 1
  · left
    rw [hentries, if_neg (by omega)]
    exact ⟨hlast, rfl⟩
  · right
    have hmem : cache.entries.size - 1 ∈ order := by
      cases hall (cache.entries.size - 1) (by omega) with
      | inl heq => exact absurd heq.symm hlast
      | inr hmem => exact hmem
    obtain ⟨xs, ys, rfl⟩ := List.append_of_mem hmem
    obtain ⟨e, he, hprev, hnext⟩ := h.neighbours
    rw [hentries, if_pos (by omega)]
    exact ⟨xs, ys, e, by omega, rfl, he, he, hprev, hnext⟩

/-! ### Stored and removed entries -/

/-- The cache in which an entry has another value. -/
def withValue (cache : Lru κ α) (i : Nat) (value : α) : Lru κ α :=
  { cache with entries := cache.entries.modify i fun e => { e with value } }

section Keys

variable [BEq κ]

/-- The cache with one more entry, which is not linked yet. -/
def pushed (cache : Lru κ α) (key : κ) (value : α) : Lru κ α :=
  { cache with
    index := indexInsert key cache.size cache.index
    entries := cache.entries.push ⟨key, value, none, none⟩ }

theorem put_eq (cache : Lru κ α) (key : κ) (value : α) :
    cache.put key value =
      match cache.position? key with
      | some i => (cache.entries[i]?.map (·.value), (cache.withValue i value).moveToFront i)
      | none =>
        (cache.makeRoom.1, (cache.makeRoom.2.pushed key value).linkFront cache.makeRoom.2.size) :=
  rfl

/-- The array and the index of a cache from which an entry has been removed. -/
theorem detach_eq {e : LruEntry κ α} (he : cache.entries[i]? = some e) :
    cache.detach i =
      let index := (cache.unlink i).index.filter fun p => !(p.1 == e.key)
      match ((cache.unlink i).replaced i index).entries[i]? with
      | none => (cache.unlink i).replaced i index
      | some moved =>
        (((cache.unlink i).replaced i (indexInsert moved.key i index)).linkAfter moved.prev
          (some i)).linkBefore moved.next (some i) := by
  simp only [Lru.detach, he]
  rfl

/-- A removed entry leaves the others linked, each at its new position. -/
theorem Linked.detach (h : cache.Linked (xs ++ i :: ys))
    (hall : ∀ j < cache.entries.size, j ∈ xs ++ i :: ys) :
    (cache.detach i).Linked ((xs ++ ys).map (moved i (cache.entries.size - 1))) := by
  obtain ⟨e, he, -⟩ := h.neighbours
  have hi := (notMem_of_nodup h.nodup).1
  have hlt : i < cache.entries.size := h.lt_size (List.mem_append_right xs List.mem_cons_self)
  have hu := h.unlink
  rw [detach_eq he]
  rw [← (cache.unlink_same i).size] at hlt hall ⊢
  generalize cache.unlink i = u at hu hlt hall ⊢
  have hall' (j) (hj : j < u.entries.size) : j = i ∨ j ∈ xs ++ ys := by
    have := hall j hj
    grind
  dsimp only
  generalize u.index.filter (fun p => !(p.1 == e.key)) = index
  rcases hu.fills hlt hall' index with ⟨hlast, hnone⟩ |
    ⟨us, vs, e', -, horder, -, he', hprev, hnext⟩
  · rw [hnone]
    exact hu.replaced_last hi index hlast hlt
  · rw [he']
    rw [horder] at hu hi ⊢
    dsimp only
    rw [hprev, hnext]
    exact hu.replaced_before hi rfl hlt _

end Keys

end Lru
end DataExpr
