import DataExpr.Lru
import Mathlib.Data.List.Nodup

/-!
# What a bounded cache holds

The index of a cache leads from a key to an entry whose key equals it.  Keys are taken up to a
shape that equality of keys compares.  Every operation keeps this, whatever it does to the
links, and so a value that is found under a key is good for that key (`good_of_get?`).
-/

namespace DataExpr.Lru

variable {κ α γ : Type}

/-! ### Contents -/

/-- The keys of the entries with their values, in the order of the array. -/
def contents (cache : Lru κ α) : Array (κ × α) := cache.entries.map fun e => (e.key, e.value)

theorem contents_modify (entries : Array (LruEntry κ α)) (i : Nat)
    (f : LruEntry κ α → LruEntry κ α) (h : ∀ e, ((f e).key, (f e).value) = (e.key, e.value)) :
    (entries.modify i f).map (fun e => (e.key, e.value)) =
      entries.map fun e => (e.key, e.value) := by
  refine Array.ext (by simp) fun j hj hj' => ?_
  simp only [Array.getElem_map, Array.getElem_modify]
  split
  · exact h _
  · rfl

/-- Caches that differ in their links only. -/
structure SameContents (cache cache' : Lru κ α) : Prop where
  index : cache'.index = cache.index
  contents : cache'.contents = cache.contents

theorem SameContents.refl (cache : Lru κ α) : SameContents cache cache := ⟨rfl, rfl⟩

theorem SameContents.trans {a b c : Lru κ α} (hab : SameContents a b) (hbc : SameContents b c) :
    SameContents a c := ⟨hbc.index.trans hab.index, hbc.contents.trans hab.contents⟩

variable (cache : Lru κ α) (i : Nat) (link target : Option Nat)

theorem setPrev_same : SameContents cache (cache.setPrev i link) :=
  ⟨rfl, contents_modify cache.entries i (fun e => { e with prev := link }) fun _ => rfl⟩

theorem setNext_same : SameContents cache (cache.setNext i link) :=
  ⟨rfl, contents_modify cache.entries i (fun e => { e with next := link }) fun _ => rfl⟩

theorem linkAfter_same : SameContents cache (cache.linkAfter target link) := by
  cases target with
  | some i => exact cache.setNext_same i link
  | none => exact ⟨rfl, rfl⟩

theorem linkBefore_same : SameContents cache (cache.linkBefore target link) := by
  cases target with
  | some i => exact cache.setPrev_same i link
  | none => exact ⟨rfl, rfl⟩

theorem unlink_same : SameContents cache (cache.unlink i) := by
  unfold unlink
  split
  · exact (cache.linkAfter_same _ _).trans (linkBefore_same _ _ _)
  · exact .refl cache

theorem linkFront_same : SameContents cache (cache.linkFront i) := by
  have linked := (cache.setPrev_same i none).trans (setNext_same _ i cache.head)
  unfold linkFront
  dsimp only
  split
  · rename_i head _
    have shifted := linked.trans (setPrev_same _ head (some i))
    exact ⟨shifted.index, shifted.contents⟩
  · exact ⟨linked.index, linked.contents⟩

theorem moveToFront_same : SameContents cache (cache.moveToFront i) := by
  unfold moveToFront
  split
  · exact .refl cache
  · exact (cache.unlink_same i).trans (linkFront_same _ i)

/-! ### Sound caches -/

section Sound

variable (shape : κ → γ) (valid : κ → Prop) (good : κ → α → Prop)

/-- The index leads from each key to an entry of the same shape, and values are good for
    their keys. -/
structure Sound (cache : Lru κ α) : Prop where
  good : ∀ p ∈ cache.contents, valid p.1 ∧ good p.1 p.2
  indexed : ∀ p ∈ cache.index, valid p.1 ∧
    ∃ e, cache.contents[p.2]? = some e ∧ shape e.1 = shape p.1
  distinct : (cache.index.map fun p => shape p.1).Nodup

variable {shape valid good}

theorem Sound.of_same {cache cache' : Lru κ α} (h : Sound shape valid good cache)
    (same : SameContents cache cache') : Sound shape valid good cache' := by
  obtain ⟨hgood, hindexed, hdistinct⟩ := h
  rw [← same.contents] at hgood hindexed
  rw [← same.index] at hindexed hdistinct
  exact ⟨hgood, hindexed, hdistinct⟩

theorem Sound.mono {better : κ → α → Prop} {cache : Lru κ α} (h : Sound shape valid good cache)
    (hbetter : ∀ k v, good k v → better k v) : Sound shape valid better cache :=
  ⟨fun p hp => ⟨(h.good p hp).1, hbetter _ _ (h.good p hp).2⟩, h.indexed, h.distinct⟩

theorem sound_empty (cache : Lru κ α) (hindex : cache.index = []) (hentries : cache.entries = #[]) :
    Sound shape valid good cache := by
  refine ⟨fun p hp => ?_, fun p hp => ?_, ?_⟩
  · rw [contents, hentries] at hp
    exact absurd hp (by simp)
  · rw [hindex] at hp
    cases hp
  · rw [hindex]
    exact List.nodup_nil

theorem sound_new {capacity : Nat} {cache : Lru κ α} (h : Lru.new capacity = .ok cache) :
    Sound shape valid good cache := by
  unfold Lru.new at h
  split at h
  · split at h
    · obtain rfl := Except.ok.inj h
      exact sound_empty _ rfl rfl
    · cases h
  · cases h

theorem Sound.clear {cache : Lru κ α} : Sound shape valid good cache.clear :=
  sound_empty _ rfl rfl

variable [BEq κ] (hshape : ∀ k l, valid k → valid l → ((k == l) = true ↔ shape k = shape l))
include hshape

/-- What has been recorded for a key stands for its shape; what else is in the index was there
    before and has another shape. -/
theorem mem_indexInsert {key : κ} {i : Nat} {index : List (κ × Nat)} {p : κ × Nat}
    (hkey : valid key) (hindex : ∀ q ∈ index, valid q.1)
    (hdistinct : (index.map fun q => shape q.1).Nodup) (hp : p ∈ indexInsert key i index) :
    (valid p.1 ∧ p.2 = i ∧ shape p.1 = shape key) ∨ (p ∈ index ∧ shape p.1 ≠ shape key) := by
  induction index with
  | nil =>
    obtain rfl := List.mem_singleton.mp hp
    exact .inl ⟨hkey, rfl, rfl⟩
  | cons q rest ih =>
    obtain ⟨k, j⟩ := q
    have hk := hindex (k, j) List.mem_cons_self
    rw [List.map_cons, List.nodup_cons] at hdistinct
    by_cases h : (k == key) = true
    · rw [indexInsert, if_pos h] at hp
      have hkshape := (hshape k key hk hkey).mp h
      rcases List.mem_cons.mp hp with rfl | hp
      · exact .inl ⟨hk, rfl, hkshape⟩
      · refine .inr ⟨List.mem_cons_of_mem _ hp, fun hpshape => hdistinct.1 ?_⟩
        exact List.mem_map.mpr ⟨p, hp, hpshape.trans hkshape.symm⟩
    · rw [indexInsert, if_neg h] at hp
      rcases List.mem_cons.mp hp with rfl | hp
      · exact .inr ⟨List.mem_cons_self, fun hpshape => h ((hshape k key hk hkey).mpr hpshape)⟩
      · rcases ih (fun q hq => hindex q (List.mem_cons_of_mem _ hq)) hdistinct.2 hp with h | h
        · exact .inl h
        · exact .inr ⟨List.mem_cons_of_mem _ h.1, h.2⟩

theorem nodup_indexInsert {key : κ} {i : Nat} {index : List (κ × Nat)} (hkey : valid key)
    (hindex : ∀ q ∈ index, valid q.1) (hdistinct : (index.map fun q => shape q.1).Nodup) :
    ((indexInsert key i index).map fun q => shape q.1).Nodup := by
  induction index with
  | nil => exact List.nodup_singleton _
  | cons q rest ih =>
    obtain ⟨k, j⟩ := q
    have hk := hindex (k, j) List.mem_cons_self
    have hrest (q) (hq : q ∈ rest) := hindex q (List.mem_cons_of_mem _ hq)
    rw [List.map_cons, List.nodup_cons] at hdistinct
    by_cases h : (k == key) = true
    · rw [indexInsert, if_pos h]
      exact List.nodup_cons.mpr hdistinct
    · rw [indexInsert, if_neg h, List.map_cons, List.nodup_cons]
      refine ⟨fun hmem => ?_, ih hrest hdistinct.2⟩
      obtain ⟨p, hp, hpk⟩ := List.mem_map.mp hmem
      rcases mem_indexInsert hshape hkey hrest hdistinct.2 hp with hp | hp
      · exact h ((hshape k key hk hkey).mpr (hpk.symm.trans hp.2.2))
      · exact hdistinct.1 (List.mem_map.mpr ⟨p, hp.1, hpk⟩)

omit [BEq κ] hshape in
/-- The array in which the last element has taken the place of another one. -/
theorem getElem?_replaced {β : Type} (xs : Array β) {i : Nat} (hi : i < xs.size) (j : Nat) :
    (xs.swapIfInBounds i (xs.size - 1)).pop[j]? =
      if j < xs.size - 1 then (if j = i then xs[xs.size - 1]? else xs[j]?) else none := by
  have hlast : xs.size - 1 < xs.size := by omega
  rw [Array.swapIfInBounds_def, dif_pos hi, dif_pos hlast]
  by_cases hj : j < xs.size - 1
  · have hne : ¬xs.size - 1 = j := by omega
    rw [if_pos hj, Array.getElem?_pop, Array.size_swap, if_pos hj, Array.getElem?_swap, if_neg hne]
    by_cases hji : j = i
    · rw [if_pos hji.symm, if_pos hji, Array.getElem?_eq_getElem hlast]
    · rw [if_neg (Ne.symm hji), if_neg hji]
  · rw [if_neg hj, Array.getElem?_pop, Array.size_swap, if_neg hj]

/-- Once the key of an entry is taken out of the index, nothing leads to the entry any more. -/
theorem Sound.of_mem_filter {cache : Lru κ α} (h : Sound shape valid good cache) {i : Nat} {k : κ}
    {v : α} (hi : cache.contents[i]? = some (k, v)) {p : κ × Nat}
    (hp : p ∈ cache.index.filter fun p => !(p.1 == k)) :
    valid p.1 ∧ p.2 ≠ i ∧ ∃ e, cache.contents[p.2]? = some e ∧ shape e.1 = shape p.1 := by
  obtain ⟨hmem, hne⟩ := List.mem_filter.mp hp
  obtain ⟨hvalid, e, he, hshape'⟩ := h.indexed p hmem
  refine ⟨hvalid, fun hpi => ?_, e, he, hshape'⟩
  rw [hpi, hi] at he
  obtain rfl := Option.some.inj he
  have hk := (h.good _ (Array.mem_of_getElem? hi)).1
  rw [(hshape p.1 k hvalid hk).mpr hshape'.symm] at hne
  cases hne

/-- A sound cache stays sound when an entry is removed. -/
theorem Sound.detach {cache : Lru κ α} (h : Sound shape valid good cache) (i : Nat) :
    Sound shape valid good (cache.detach i) := by
  unfold Lru.detach
  split
  · exact h
  · rename_i e he
    have unlinked := h.of_same (cache.unlink_same i)
    have hentry : (cache.unlink i).contents[i]? = some (e.key, e.value) := by
      rw [(cache.unlink_same i).contents, contents, Array.getElem?_map, he]
      rfl
    generalize cache.unlink i = u at unlinked hentry ⊢
    have hi : i < u.entries.size := by
      have hlt := (Array.getElem?_eq_some_iff.mp hentry).1
      rwa [contents, Array.size_map] at hlt
    dsimp only
    generalize hreplaced : (u.entries.swapIfInBounds i (u.entries.size - 1)).pop = entries
    -- Position `i` now holds what was last, and nothing else has moved.
    have hcontents (j : Nat) : (entries.map fun e => (e.key, e.value))[j]? =
        if j < u.entries.size - 1 then (if j = i then u.contents[u.entries.size - 1]?
          else u.contents[j]?) else none := by
      rw [Array.getElem?_map, ← hreplaced, getElem?_replaced u.entries hi j, contents,
        Array.getElem?_map, Array.getElem?_map]
      split
      · split <;> rfl
      · rfl
    have hold {p : κ × Nat} (hp : p ∈ u.index.filter fun p => !(p.1 == e.key)) :=
      unlinked.of_mem_filter hshape hentry hp
    have hgood (p : κ × α) (hp : p ∈ entries.map fun e => (e.key, e.value)) :
        valid p.1 ∧ good p.1 p.2 := by
      obtain ⟨j, hj⟩ := Array.mem_iff_getElem?.mp hp
      rw [hcontents] at hj
      split at hj
      · split at hj
        · exact unlinked.good p (Array.mem_of_getElem? hj)
        · exact unlinked.good p (Array.mem_of_getElem? hj)
      · cases hj
    have hnodup : ((u.index.filter fun p => !(p.1 == e.key)).map fun p => shape p.1).Nodup :=
      unlinked.distinct.sublist (List.filter_sublist.map _)
    have hkept {p : κ × Nat} {q : κ × α} (hpi : p.2 ≠ i) (hlast : p.2 ≠ u.entries.size - 1)
        (hq : u.contents[p.2]? = some q) :
        (entries.map fun e => (e.key, e.value))[p.2]? = some q := by
      have hlt := (Array.getElem?_eq_some_iff.mp hq).1
      rw [contents, Array.size_map] at hlt
      rw [hcontents, if_pos (by omega), if_neg hpi, hq]
    have hat : (entries.map fun e => (e.key, e.value))[i]? =
        entries[i]?.map fun e => (e.key, e.value) := Array.getElem?_map
    rw [hcontents, if_pos rfl] at hat
    split
    · -- the entry was the last one of the array
      rename_i hnone
      refine ⟨hgood, fun p hp => ?_, hnodup⟩
      obtain ⟨hvalid, hpi, q, hq, hpq⟩ := hold hp
      refine ⟨hvalid, q, hkept hpi (fun hlast => ?_) hq, hpq⟩
      rw [← hlast, hq, hnone] at hat
      split at hat
      · cases hat
      · omega
    · -- the last entry of the array takes its place
      rename_i moved hmoved
      rw [hmoved] at hat
      have hlast : u.contents[u.entries.size - 1]? = some (moved.key, moved.value) := by
        split at hat
        · exact hat
        · cases hat
      have hplace : (entries.map fun e => (e.key, e.value))[i]? =
          some (moved.key, moved.value) := by
        rw [Array.getElem?_map, hmoved]
        rfl
      have hkey := (unlinked.good _ (Array.mem_of_getElem? hlast)).1
      have hvalid (p) (hp : p ∈ u.index.filter fun p => !(p.1 == e.key)) := (hold hp).1
      let placed : Lru κ α := { u with
        index := indexInsert moved.key i (u.index.filter fun p => !(p.1 == e.key)), entries }
      have linked := (placed.linkAfter_same (some i) moved.prev).trans
        (linkBefore_same _ (some i) moved.next)
      apply Sound.of_same _ linked
      refine ⟨hgood, fun p hp => ?_, nodup_indexInsert hshape hkey hvalid hnodup⟩
      rcases mem_indexInsert hshape hkey hvalid hnodup hp with ⟨hp, hpi, hpk⟩ | ⟨hp, hpk⟩
      · exact ⟨hp, _, hpi ▸ hplace, hpk.symm⟩
      · obtain ⟨hp, hpi, q, hq, hpq⟩ := hold hp
        refine ⟨hp, q, hkept hpi (fun hpl => hpk ?_) hq, hpq⟩
        rw [hpl, hlast] at hq
        rw [← hpq, ← Option.some.inj hq]

theorem Sound.makeRoom {cache : Lru κ α} (h : Sound shape valid good cache) :
    Sound shape valid good cache.makeRoom.2 := by
  unfold Lru.makeRoom
  split
  · split
    · exact h.detach hshape _
    · exact h
  · exact h

/-- Where a key is found, there is an entry of its shape. -/
theorem Sound.position {cache : Lru κ α} (h : Sound shape valid good cache) {key : κ} {i : Nat}
    (hkey : valid key) (hi : cache.position? key = some i) :
    ∃ e, cache.contents[i]? = some e ∧ shape e.1 = shape key := by
  obtain ⟨p, hp, rfl⟩ := Option.map_eq_some_iff.mp hi
  obtain ⟨hvalid, e, he, hpe⟩ := h.indexed p (List.mem_of_find?_eq_some hp)
  have hpk : (p.1 == key) = true := by simpa using List.find?_some hp
  exact ⟨e, he, hpe.trans ((hshape p.1 key hvalid hkey).mp hpk)⟩

omit hshape in
theorem Sound.get? {cache : Lru κ α} (h : Sound shape valid good cache) (key : κ) :
    Sound shape valid good (cache.get? key).2 := by
  unfold Lru.get?
  split
  · exact h.of_same (cache.moveToFront_same _)
  · exact h

section Good

variable (hgood : ∀ k l v, valid k → valid l → shape k = shape l → good k v → good l v)
include hgood

/-- A value that is found under a key is good for that key. -/
theorem Sound.good_of_get? {cache : Lru κ α} (h : Sound shape valid good cache) {key : κ} {v : α}
    (hkey : valid key) (hv : (cache.get? key).1 = some v) : good key v := by
  unfold Lru.get? at hv
  split at hv
  · rename_i i hi
    obtain ⟨e, he, hek⟩ := h.position hshape hkey hi
    obtain ⟨hvalid, hvalue⟩ := h.good e (Array.mem_of_getElem? he)
    rw [contents, Array.getElem?_map] at he
    obtain ⟨entry, hentry, rfl⟩ := Option.map_eq_some_iff.mp he
    dsimp only at hv
    rw [hentry] at hv
    obtain rfl := Option.some.inj hv
    exact hgood _ key _ hvalid hkey hek hvalue
  · cases hv

/-- A good value can be stored. -/
theorem Sound.put {cache : Lru κ α} (h : Sound shape valid good cache) {key : κ} {v : α}
    (hkey : valid key) (hv : good key v) : Sound shape valid good (cache.put key v).2 := by
  unfold Lru.put
  split
  · rename_i i hi
    obtain ⟨e, he, hek⟩ := h.position hshape hkey hi
    let updated : Lru κ α :=
      { cache with entries := cache.entries.modify i fun e => { e with value := v } }
    apply Sound.of_same _ (updated.moveToFront_same i)
    -- A known key keeps its position: only the value there changes.
    have hcontents (j : Nat) :
        ((cache.entries.modify i fun e => { e with value := v }).map fun e =>
          (e.key, e.value))[j]? =
          cache.contents[j]?.map fun p => if i = j then (p.1, v) else p := by
      rw [contents, Array.getElem?_map, Array.getElem?_map, Array.getElem?_modify]
      by_cases hij : i = j
      · simp [hij, Function.comp_def]
      · simp [hij, Function.comp_def]
    refine ⟨fun p hp => ?_, fun p hp => ?_, h.distinct⟩
    · obtain ⟨j, hj⟩ := Array.mem_iff_getElem?.mp hp
      rw [contents, hcontents] at hj
      obtain ⟨q, hq, rfl⟩ := Option.map_eq_some_iff.mp hj
      obtain ⟨hvalid, hvalue⟩ := h.good q (Array.mem_of_getElem? hq)
      by_cases hij : i = j
      · subst hij
        obtain rfl := Option.some.inj (he.symm.trans hq)
        rw [if_pos rfl]
        exact ⟨hvalid, hgood key _ v hkey hvalid hek.symm hv⟩
      · rw [if_neg hij]
        exact ⟨hvalid, hvalue⟩
    · obtain ⟨hvalid, q, hq, hqp⟩ := h.indexed p hp
      refine ⟨hvalid, _, by rw [contents, hcontents, hq]; rfl, ?_⟩
      rw [← hqp]
      split <;> rfl
  -- A new key is pushed behind what is left after making room.
  · have room := h.makeRoom hshape
    generalize cache.makeRoom = r at room ⊢
    dsimp only
    let pushed : Lru κ α := { r.2 with
      index := indexInsert key r.2.entries.size r.2.index
      entries := r.2.entries.push ⟨key, v, none, none⟩ }
    apply Sound.of_same _ (pushed.linkFront_same r.2.entries.size)
    have hcontents : (r.2.entries.push ⟨key, v, none, none⟩).map (fun e => (e.key, e.value)) =
        r.2.contents.push (key, v) := by rw [contents, Array.map_push]
    have hsize : r.2.contents.size = r.2.entries.size := by rw [contents, Array.size_map]
    have hvalid (p) (hp : p ∈ r.2.index) := (room.indexed p hp).1
    refine ⟨fun p hp => ?_, fun p hp => ?_, nodup_indexInsert hshape hkey hvalid room.distinct⟩
    · rw [contents, hcontents] at hp
      rcases Array.mem_push.mp hp with hp | rfl
      · exact room.good p hp
      · exact ⟨hkey, hv⟩
    · rw [contents, hcontents]
      rcases mem_indexInsert hshape hkey hvalid room.distinct hp with ⟨hp, hpi, hpk⟩ | ⟨hp, -⟩
      · refine ⟨hp, (key, v), ?_, hpk.symm⟩
        rw [hpi, ← hsize, Array.getElem?_push_size]
      · obtain ⟨hvalid, q, hq, hqp⟩ := room.indexed p hp
        refine ⟨hvalid, q, ?_, hqp⟩
        rw [Array.getElem?_push_lt (Array.getElem?_eq_some_iff.mp hq).1]
        exact congrArg some (Array.getElem?_eq_some_iff.mp hq).2

end Good

end Sound

end DataExpr.Lru
