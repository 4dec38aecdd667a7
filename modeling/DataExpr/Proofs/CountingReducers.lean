import DataExpr.Proofs.KeyedReducers
import Mathlib.Data.List.Basic

/-!
# Reducers that count

Four reducers keep one entry for each distinct key of their values: the value that was seen first
and, for two of them, how often the key has come.  Each of their results is read off the list of
the values that were seen first: its length, the list itself, the list sorted by number of
occurrences, and the last of its most frequent elements.  The invariant is that the entries are this
list, in order, with the right numbers (`insert_tally` is its step).
-/

namespace DataExpr.Reduction

/-! ### The values that are seen first -/

/-- The values before which no value with an equal key comes, in order. -/
def firstSeen (xs : List Value) : List Value :=
  (xs.zipIdx.filter fun p => !(xs.take p.2).any fun x => x.hashKey == p.1.hashKey).map (·.1)

/-- How many values have the key of this one. -/
def occurrences (xs : List Value) (v : Value) : Nat := xs.countP fun x => x.hashKey == v.hashKey

/-- One more value is seen first unless a value with an equal key comes before it. -/
theorem firstSeen_concat (xs : List Value) (x : Value) :
    firstSeen (xs ++ [x]) =
      if xs.any fun y => y.hashKey == x.hashKey then firstSeen xs else firstSeen xs ++ [x] := by
  have front : xs.zipIdx.filter (fun p => !((xs ++ [x]).take p.2).any
        fun y => y.hashKey == p.1.hashKey) =
      xs.zipIdx.filter fun p => !(xs.take p.2).any fun y => y.hashKey == p.1.hashKey := by
    refine List.filter_congr fun p hp => ?_
    have inside : p.2 < xs.length := by
      simpa using (List.mem_zipIdx' (x := p.1) (i := p.2) hp).1
    rw [List.take_append_of_le_length (Nat.le_of_lt inside)]
  rw [firstSeen, List.zipIdx_append, List.filter_append, front, List.map_append]
  by_cases h : (xs.any fun y => y.hashKey == x.hashKey) = true <;> simp [firstSeen, h]

/-- A key that comes has a value that is seen first. -/
theorem any_firstSeen (xs : List Value) (key : Value) :
    ((firstSeen xs).any fun v => v.hashKey == key) = xs.any fun v => v.hashKey == key := by
  induction xs using List.reverseRecOn with
  | nil => rfl
  | append_singleton xs x ih =>
    rw [firstSeen_concat, List.any_append, ← ih]
    split
    next seen =>
      obtain ⟨y, hy, same⟩ := List.any_eq_true.1 seen
      by_cases h : (x.hashKey == key) = true
      · have : (xs.any fun v => v.hashKey == key) = true :=
          List.any_eq_true.2 ⟨y, hy, Value.beq_trans _ _ _ same h⟩
        simp [ih, this]
      · simp [h]
    next => simp

theorem mem_of_mem_firstSeen {xs : List Value} {v : Value} (h : v ∈ firstSeen xs) : v ∈ xs := by
  obtain ⟨p, hp, rfl⟩ := List.mem_map.1 h
  exact (List.mem_zipIdx' (x := p.1) (i := p.2) (List.mem_filter.1 hp).1).2 ▸ List.getElem_mem _

/-- Values that are seen first have different keys. -/
theorem firstSeen_distinct (xs : List Value) :
    (firstSeen xs).Pairwise fun a b => (a.hashKey == b.hashKey) = false := by
  induction xs using List.reverseRecOn with
  | nil => exact .nil
  | append_singleton xs x ih =>
    rw [firstSeen_concat]
    split
    next => exact ih
    next unseen =>
      refine List.pairwise_append.2 ⟨ih, List.pairwise_singleton _ _, fun a ha b hb => ?_⟩
      obtain rfl := List.mem_singleton.1 hb
      simpa using List.any_eq_false.1 (by simpa using unseen) a (mem_of_mem_firstSeen ha)

theorem firstSeen_eq_nil {xs : List Value} (h : firstSeen xs = []) : xs = [] := by
  cases xs with
  | nil => rfl
  | cons x rest =>
    have seen := any_firstSeen (x :: rest) x.hashKey
    have self : (x.hashKey == x.hashKey) = true := Value.beq_self _
    simp [h, self] at seen

theorem occurrences_concat (xs : List Value) (x v : Value) :
    occurrences (xs ++ [x]) v =
      occurrences xs v + if x.hashKey == v.hashKey then 1 else 0 := by
  simp [occurrences, List.countP_append, List.countP_cons]

theorem properKey {v : Value} (h : v.Proper) : v.hashKey.Proper := by
  cases v with
  | float x =>
    rw [Value.hashKey]
    split <;> trivial
  | _ => exact h

/-! ### Entries of values that are seen first -/

/-- The entry that a key finds is the one of the value with this key. -/
theorem get?_tally {β : Type} (f : Value → β) (D : List Value) (key : Value) :
    Entries.get? (D.map fun v => (v.hashKey, f v)) key =
      (D.find? fun v => v.hashKey == key).map f := by
  rw [Entries.get?, List.find?_map, Option.map_map]
  rfl

/-- Writing the entry of a key that is present changes what belongs to the value with this key. -/
theorem insert_tally {β : Type} {f g : Value → β} {D : List Value} {key rep : Value}
    (proper : ∀ v ∈ D, v.Proper) (distinct : D.Pairwise fun a b => (a.hashKey == b.hashKey) = false)
    (found : D.find? (fun v => v.hashKey == key) = some rep)
    (other : ∀ v ∈ D, (v.hashKey == key) = false → g v = f v) :
    Entries.insert key (g rep) (D.map fun v => (v.hashKey, f v)) =
      D.map fun v => (v.hashKey, g v) := by
  induction D with
  | nil => cases found
  | cons a rest ih =>
    obtain ⟨properA, proper⟩ := List.forall_mem_cons.1 proper
    obtain ⟨otherA, other⟩ := List.forall_mem_cons.1 other
    obtain ⟨apart, distinct⟩ := List.pairwise_cons.1 distinct
    by_cases hit : (a.hashKey == key) = true
    · obtain rfl : a = rep := by simpa [List.find?_cons, hit] using found
      have tail : rest.map (fun v => (v.hashKey, f v)) = rest.map fun v => (v.hashKey, g v) := by
        refine List.map_congr_left fun v hv => ?_
        -- a later value with this key would have the key of the first one
        have miss : (v.hashKey == key) = false := by
          by_contra h
          have same : (v.hashKey == key) = true := by simpa using h
          have back := Value.beq_symm _ _ (properKey (proper v hv)) same
          exact Bool.false_ne_true ((apart v hv).symm.trans (Value.beq_trans _ _ _ hit back))
        rw [other v hv miss]
      simp [Entries.insert, hit, tail]
    · have miss : (a.hashKey == key) = false := by simpa using hit
      have tail := ih proper distinct (by simpa [List.find?_cons, miss] using found) other
      simp [Entries.insert, miss, tail, otherA miss]

section Steps

variable {xs : List Value} {x : Value}

/-- A key is found among the values that are seen first if it has come. -/
theorem isSome_find?_firstSeen (xs : List Value) (key : Value) :
    ((firstSeen xs).find? fun v => v.hashKey == key).isSome =
      xs.any fun v => v.hashKey == key := by
  rw [List.isSome_find?, any_firstSeen]

/-- Writing the entry of a key that is not present makes its value one that is seen first. -/
theorem insert_unseen {β : Type} {f g : Value → β}
    (unseen : (firstSeen xs).find? (fun v => v.hashKey == x.hashKey) = none)
    (kept : ∀ v ∈ firstSeen xs, g v = f v) :
    Entries.insert x.hashKey (g x) ((firstSeen xs).map fun v => (v.hashKey, f v)) =
      (firstSeen (xs ++ [x])).map fun v => (v.hashKey, g v) := by
  have absent : Entries.get? ((firstSeen xs).map fun v => (v.hashKey, f v)) x.hashKey = none := by
    rw [get?_tally, unseen]
    rfl
  have never : (xs.any fun v => v.hashKey == x.hashKey) = false := by
    rw [← isSome_find?_firstSeen, unseen]
    rfl
  have front : (firstSeen xs).map (fun v => (v.hashKey, g v)) =
      (firstSeen xs).map fun v => (v.hashKey, f v) :=
    List.map_congr_left fun v hv => by rw [kept v hv]
  rw [Entries.insert_of_none absent, firstSeen_concat, never, if_neg Bool.false_ne_true,
    List.map_append, front]
  rfl

/-- The first representatives, after one more value. -/
theorem toEntries_keepFirst {seen : Table Value}
    (held : seen.toEntries = (firstSeen xs).map fun v => (v.hashKey, v)) :
    (Cell.keepFirst seen x).toEntries =
      (firstSeen (xs ++ [x])).map fun v => (v.hashKey, v) := by
  rw [Cell.keepFirst, Table.get?_eq, held, get?_tally fun v => v]
  cases found : (firstSeen xs).find? fun v => v.hashKey == x.hashKey with
  | some rep =>
    have came : (xs.any fun v => v.hashKey == x.hashKey) = true := by
      rw [← isSome_find?_firstSeen, found]
      rfl
    rw [firstSeen_concat, if_pos came]
    exact held
  | none =>
    show (seen.insert x.hashKey x).toEntries = _
    rw [Table.toEntries_insert, held]
    exact insert_unseen (g := fun v => v) found fun _ _ => rfl

/-- The numbers of occurrences, after one more value. -/
theorem toEntries_countOne {counts : Table (Value × Nat)} (proper : ∀ v ∈ xs, v.Proper)
    (properX : x.Proper)
    (held : counts.toEntries = (firstSeen xs).map fun v => (v.hashKey, v, occurrences xs v)) :
    (Cell.countOne counts x).toEntries =
      (firstSeen (xs ++ [x])).map fun v => (v.hashKey, v, occurrences (xs ++ [x]) v) := by
  have proper : ∀ v ∈ firstSeen xs, v.Proper := fun v hv => proper v (mem_of_mem_firstSeen hv)
  have comm : ∀ v ∈ firstSeen xs, (x.hashKey == v.hashKey) = (v.hashKey == x.hashKey) :=
    fun v hv => (properKey properX).beq_comm (properKey (proper v hv))
  have other : ∀ v ∈ firstSeen xs, (v.hashKey == x.hashKey) = false →
      (v, occurrences (xs ++ [x]) v) = (v, occurrences xs v) := by
    intro v hv miss
    rw [occurrences_concat, comm v hv, miss]
    rfl
  rw [Cell.countOne, Table.get?_eq, held, get?_tally fun v => (v, occurrences xs v)]
  -- Either an earlier row stands for `x` and its count goes up in place, or `x` comes last.
  cases found : (firstSeen xs).find? fun v => v.hashKey == x.hashKey with
  | some rep =>
    have came : (xs.any fun v => v.hashKey == x.hashKey) = true := by
      rw [← isSome_find?_firstSeen, found]
      rfl
    have hit : (rep.hashKey == x.hashKey) = true := by simpa using List.find?_some found
    have more : occurrences (xs ++ [x]) rep = occurrences xs rep + 1 := by
      rw [occurrences_concat, comm rep (List.mem_of_find?_eq_some found), hit]
      rfl
    show (counts.insert x.hashKey (rep, occurrences xs rep + 1)).toEntries = _
    rw [Table.toEntries_insert, held, ← more, firstSeen_concat, if_pos came]
    exact insert_tally (g := fun v => (v, occurrences (xs ++ [x]) v)) proper
      (firstSeen_distinct xs) found other
  | none =>
    have never : (xs.any fun v => v.hashKey == x.hashKey) = false := by
      rw [← isSome_find?_firstSeen, found]
      rfl
    have once : occurrences (xs ++ [x]) x = 1 := by
      have before : occurrences xs x = 0 :=
        List.countP_eq_zero.2 fun v hv => by simpa using List.any_eq_false.1 never v hv
      have self : (x.hashKey == x.hashKey) = true := Value.beq_self _
      rw [occurrences_concat, before, self]
      rfl
    show (counts.insert x.hashKey (x, 1)).toEntries = _
    rw [Table.toEntries_insert, held, ← once]
    refine insert_unseen (g := fun v => (v, occurrences (xs ++ [x]) v)) found fun v hv => ?_
    have miss := List.any_eq_false.1 never v (mem_of_mem_firstSeen hv)
    exact other v hv (by simpa using miss)

end Steps

/-! ### What the reducers hold -/

/-- Values as rows of one argument. -/
def singles (xs : List Value) : List (List Value) := xs.map fun v => [v]

theorem takeAll_singles_concat (kind : ReducerKind) (xs : List Value) (x : Value) :
    takeAll kind (singles (xs ++ [x])) = (takeAll kind (singles xs)).bind (take kind · [x]) := by
  rw [singles, List.map_append]
  exact takeAll_concat kind (singles xs) [x]

/-- A reducer of distinct values holds those that are seen first. -/
theorem takeAll_distinct {kind : ReducerKind} (h : kind = .countDistinct ∨ kind = .arrayDistinct)
    (xs : List Value) (hne : xs ≠ []) :
    ∃ seen : Table Value, takeAll kind (singles xs) = .ok (some (.plain (.distinct seen))) ∧
      seen.toEntries = (firstSeen xs).map fun v => (v.hashKey, v) := by
  induction xs using List.reverseRecOn with
  | nil => exact absurd rfl hne
  | append_singleton xs x ih =>
    rw [takeAll_singles_concat]
    by_cases empty : xs = []
    · subst empty
      exact ⟨.single x.hashKey x, by rcases h with rfl | rfl <;> rfl, by simp [firstSeen]⟩
    · obtain ⟨seen, run, held⟩ := ih empty
      rw [run]
      exact ⟨Cell.keepFirst seen x, by rcases h with rfl | rfl <;> rfl, toEntries_keepFirst held⟩

/-- A reducer of the most frequent values holds those that are seen first with their numbers of
    occurrences. -/
theorem takeAll_topK (k : Nat) (xs : List Value) (proper : ∀ v ∈ xs, v.Proper) (hne : xs ≠ []) :
    ∃ counts : Table (Value × Nat),
      takeAll (.topK k) (singles xs) = .ok (some (.plain (.counter counts))) ∧
      counts.toEntries = (firstSeen xs).map fun v => (v.hashKey, v, occurrences xs v) := by
  induction xs using List.reverseRecOn with
  | nil => exact absurd rfl hne
  | append_singleton xs x ih =>
    rw [List.forall_mem_append, List.forall_mem_singleton] at proper
    rw [takeAll_singles_concat]
    by_cases empty : xs = []
    · subst empty
      refine ⟨.single x.hashKey (x, 1), rfl, ?_⟩
      have self : (x.hashKey == x.hashKey) = true := Value.beq_self _
      simp [firstSeen, occurrences, self]
    · obtain ⟨counts, run, held⟩ := ih proper.1 empty
      rw [run]
      exact ⟨Cell.countOne counts x, rfl, toEntries_countOne proper.1 proper.2 held⟩

/-- The values that are not null. -/
def nonNull (xs : List Value) : List Value := xs.filter fun v => !v.isNull

/-- A slot that counts, or is not set. -/
inductive Counting : Option Accumulator → Prop
  | unset : Counting none
  | set (counts : Table (Value × Nat)) : Counting (some (.plain (.counter counts)))

theorem counting_topK (k : Nat) (xs : List Value) (proper : ∀ v ∈ xs, v.Proper) :
    ∃ slot, takeAll (.topK k) (singles xs) = .ok slot ∧ Counting slot := by
  by_cases empty : xs = []
  · exact ⟨none, empty ▸ rfl, .unset⟩
  · obtain ⟨counts, run, -⟩ := takeAll_topK k xs proper empty
    exact ⟨_, run, .set counts⟩

/-- A null leaves the slot of a mode as it is, whether it is set or not. -/
theorem Counting.take_mode {slot : Option Accumulator} (h : Counting slot) (k : Nat) (x : Value) :
    take .mode slot [x] = if x.isNull then .ok slot else take (.topK k) slot [x] := by
  cases h with
  | unset =>
    show Except.map _ (.ok (if x.isNull then none else _)) = _
    cases x.isNull <;> rfl
  | set counts =>
    show (Except.ok (some (.plain (.counter (if x.isNull then counts else _)))) :
      Except Error (Option Accumulator)) = _
    cases x.isNull <;> rfl

/-- The mode holds what a reducer of the most frequent values does that gets no nulls. -/
theorem takeAll_mode (k : Nat) (xs : List Value) (proper : ∀ v ∈ xs, v.Proper) :
    takeAll .mode (singles xs) = takeAll (.topK k) (singles (nonNull xs)) := by
  induction xs using List.reverseRecOn with
  | nil => rfl
  | append_singleton xs x ih =>
    rw [List.forall_mem_append, List.forall_mem_singleton] at proper
    obtain ⟨slot, run, counting⟩ :=
      counting_topK k (nonNull xs) fun v hv => proper.1 v (List.mem_filter.1 hv).1
    have split : nonNull (xs ++ [x]) = nonNull xs ++ nonNull [x] := List.filter_append _ _
    rw [takeAll_singles_concat, ih proper.1, run, split]
    show take .mode slot [x] = _
    rw [counting.take_mode k x]
    cases null : x.isNull with
    | true =>
      have skipped : nonNull [x] = [] := by simp [nonNull, null]
      rw [skipped, List.append_nil, run]
      rfl
    | false =>
      have kept : nonNull [x] = [x] := by simp [nonNull, null]
      rw [kept, takeAll_singles_concat, run]
      rfl

/-! ### The most frequent values -/

/-- A list in descending order of a number, in which elements with the same number keep their
    order. -/
structure StablyDescending (number : Value → Nat) (items sorted : List Value) : Prop where
  perm : sorted.Perm items
  descending : sorted.Pairwise fun a b => number b ≤ number a
  stable : ∀ n, sorted.filter (number · == n) = items.filter (number · == n)

theorem stablyDescending_byFrequency (number : Value → Nat) (items : List Value) :
    StablyDescending number items (Cell.byFrequency (items.map fun v => (v, number v))) := by
  have sorted : Cell.byFrequency (items.map fun v => (v, number v)) =
      items.mergeSort fun a b => decide (number b ≤ number a) := by
    rw [Cell.byFrequency, List.map_mergeSort (s := fun a b => decide (number b ≤ number a)) ?_]
    · simp [Function.comp_def]
    · simp
  rw [sorted]
  have perm := List.mergeSort_perm items fun a b => decide (number b ≤ number a)
  refine ⟨perm, ?_, fun n => ?_⟩
  · have ordered : (items.mergeSort fun a b => decide (number b ≤ number a)).Pairwise
        fun a b => decide (number b ≤ number a) :=
      List.pairwise_mergeSort (fun a b c => by simpa using fun h h' => Nat.le_trans h' h)
        (fun a b => by simpa using Nat.le_total _ _) items
    exact ordered.imp fun h => by simpa using h
  · -- the elements with one number are in order already, so sorting keeps them as a sublist
    have level : (items.filter (number · == n)).Pairwise
        fun a b => decide (number b ≤ number a) := by
      refine List.pairwise_of_forall_mem_list fun a ha b hb => ?_
      have ha := (List.mem_filter.1 ha).2
      have hb := (List.mem_filter.1 hb).2
      simp_all
    have kept := List.sublist_mergeSort (fun a b c => by simpa using fun h h' => Nat.le_trans h' h)
      (fun a b => by simpa using Nat.le_total _ _) level List.filter_sublist
    have inside := kept.filter (number · == n)
    rw [List.filter_filter, List.filter_congr fun v _ => Bool.and_self _] at inside
    exact (inside.eq_of_length (perm.filter _).length_eq.symm).symm

/-- The last of the elements with the greatest number. -/
def lastGreatest (number : Value → Nat) (items : List Value) : Option Value :=
  (items.filter fun v => items.all fun w => decide (number w ≤ number v)).getLast?

theorem mem_of_lastGreatest {number : Value → Nat} {items : List Value} {v : Value}
    (h : lastGreatest number items = some v) :
    v ∈ items ∧ ∀ w ∈ items, number w ≤ number v := by
  have inside := List.mem_filter.1 (List.mem_of_getLast? h)
  exact ⟨inside.1, fun w hw => by simpa using List.all_eq_true.1 inside.2 w hw⟩

/-- An element that comes last is the one if none before it is greater. -/
theorem lastGreatest_concat_of_le {number : Value → Nat} {items : List Value} {v : Value}
    (h : ∀ w ∈ items, number w ≤ number v) : lastGreatest number (items ++ [v]) = some v := by
  have greatest : ((items ++ [v]).all fun w => decide (number w ≤ number v)) = true := by
    rw [List.all_append, Bool.and_eq_true]
    exact ⟨List.all_eq_true.2 fun w hw => decide_eq_true (h w hw), by simp⟩
  rw [lastGreatest, List.filter_append, List.filter_cons, if_pos greatest, List.filter_nil,
    List.getLast?_concat]

/-- An element that comes last is not the one if some element before it is greater. -/
theorem lastGreatest_concat_of_lt {number : Value → Nat} {items : List Value} {u v : Value}
    (hu : u ∈ items) (h : number v < number u) :
    lastGreatest number (items ++ [v]) = lastGreatest number items := by
  have smaller : ¬((items ++ [v]).all fun w => decide (number w ≤ number v)) = true := fun all => by
    have := List.all_eq_true.1 all u (List.mem_append_left _ hu)
    simp only [decide_eq_true_eq] at this
    omega
  rw [lastGreatest, List.filter_append, List.filter_cons, if_neg smaller, List.filter_nil,
    List.append_nil, lastGreatest]
  congr 1
  refine List.filter_congr fun w _ => ?_
  rw [List.all_append, Bool.and_eq_left_iff_imp]
  intro greatest
  have above := List.all_eq_true.1 greatest u hu
  simp only [decide_eq_true_eq] at above
  simp only [List.all_cons, List.all_nil, Bool.and_true, decide_eq_true_eq]
  omega

theorem lastGreatest_eq_none {number : Value → Nat} {items : List Value}
    (h : lastGreatest number items = none) : items = [] := by
  induction items using List.reverseRecOn with
  | nil => rfl
  | append_singleton items v ih =>
    by_cases le : ∀ w ∈ items, number w ≤ number v
    · rw [lastGreatest_concat_of_le le] at h
      cases h
    · obtain ⟨u, hu, lt⟩ : ∃ u ∈ items, number v < number u := by simpa using le
      rw [lastGreatest_concat_of_lt hu lt] at h
      rw [ih h] at hu
      cases hu

/-- One more element: it takes the place of the one before unless that is greater. -/
theorem lastGreatest_concat (number : Value → Nat) (items : List Value) (v : Value) :
    lastGreatest number (items ++ [v]) =
      match lastGreatest number items with
      | some w => if number w ≤ number v then some v else some w
      | none => some v := by
  cases before : lastGreatest number items with
  | none => exact lastGreatest_concat_of_le (by simp [lastGreatest_eq_none before])
  | some w =>
    obtain ⟨hw, greatest⟩ := mem_of_lastGreatest before
    by_cases le : number w ≤ number v
    · rw [lastGreatest_concat_of_le fun x hx => Nat.le_trans (greatest x hx) le]
      simp [le]
    · rw [lastGreatest_concat_of_lt hw (Nat.lt_of_not_le le), before]
      simp [le]

theorem mostFrequent_eq (number : Value → Nat) (items : List Value) :
    Cell.mostFrequent (items.map fun v => (v, number v)) =
      (lastGreatest number items).getD .null := by
  let step (best : Option (Value × Nat)) (c : Value × Nat) : Option (Value × Nat) :=
    best.elim (some c) fun b => if b.2 ≤ c.2 then some c else best
  have fold : (items.map fun v => (v, number v)).foldl step none =
      (lastGreatest number items).map fun v => (v, number v) := by
    induction items using List.reverseRecOn with
    | nil => rfl
    | append_singleton items v ih =>
      rw [List.map_append, List.foldl_append, ih, lastGreatest_concat]
      cases lastGreatest number items with
      | none => rfl
      | some w =>
        by_cases h : number w ≤ number v <;> simp [step, h]
  rw [Cell.mostFrequent, List.foldl_ext _ step _ fun best c _ => ?_, fold]
  · cases lastGreatest number items <;> rfl
  · cases best <;> rfl

/-! ### Values of counting reducers -/

/-- What a reducer reports for rows of one argument: its default if the slot is not set. -/
def reported (kind : ReducerKind) (xs : List Value) : Except Error Value := do
  return (← reduced kind (singles xs)).getD kind.staticDefault

theorem reduced_arrayDistinct {xs : List Value} (hne : xs ≠ []) :
    reduced .arrayDistinct (singles xs) = .ok (some (.list (firstSeen xs))) := by
  obtain ⟨seen, run, held⟩ := takeAll_distinct (.inr rfl) xs hne
  rw [reduced, run]
  show Except.ok (some (Value.list (seen.toEntries.map (·.2)))) = _
  rw [held, List.map_map]
  simp [Function.comp_def]

theorem reported_countDistinct (xs : List Value) :
    reported .countDistinct xs = .ok (.int (Int64.ofNat (firstSeen xs).length)) := by
  by_cases empty : xs = []
  · rw [empty]
    rfl
  · obtain ⟨seen, run, held⟩ := takeAll_distinct (.inl rfl) xs empty
    rw [reported, reduced, run]
    show Except.ok (Value.int (Int64.ofNat seen.toEntries.length)) = _
    rw [held, List.length_map]

theorem reduced_topK {xs : List Value} (proper : ∀ v ∈ xs, v.Proper) (hne : xs ≠ []) (k : Nat) :
    reduced (.topK k) (singles xs) = .ok (some (.list
      ((Cell.byFrequency ((firstSeen xs).map fun v => (v, occurrences xs v))).take k))) := by
  obtain ⟨counts, run, held⟩ := takeAll_topK k xs proper hne
  rw [reduced, run]
  show Except.ok (some (Value.list ((Cell.byFrequency (counts.toEntries.map (·.2))).take k))) = _
  rw [held, List.map_map]
  rfl

theorem reduced_mode {xs : List Value} (proper : ∀ v ∈ xs, v.Proper) :
    reduced .mode (singles xs) =
      .ok (lastGreatest (occurrences (nonNull xs)) (firstSeen (nonNull xs))) := by
  rw [reduced, takeAll_mode 1 xs proper]
  by_cases empty : nonNull xs = []
  · rw [empty]
    rfl
  · have proper : ∀ v ∈ nonNull xs, v.Proper := fun v hv => proper v (List.mem_filter.1 hv).1
    obtain ⟨counts, run, held⟩ := takeAll_topK 1 _ proper empty
    rw [run]
    show Except.ok (some (Cell.mostFrequent (counts.toEntries.map (·.2)))) = _
    rw [held, List.map_map]
    have value := mostFrequent_eq (occurrences (nonNull xs)) (firstSeen (nonNull xs))
    cases found : lastGreatest (occurrences (nonNull xs)) (firstSeen (nonNull xs)) with
    | none =>
      have nothing := firstSeen_eq_nil (lastGreatest_eq_none found)
      exact absurd nothing empty
    | some v =>
      rw [found] at value
      exact congrArg (fun v => Except.ok (some v)) value

/-! ### Nulls apart -/

/-- Null has a key of its own. -/
theorem null_hashKey_beq {v : Value} (h : v.isNull = false) :
    (Value.null == v.hashKey) = false := by
  cases v with
  | null => cases h
  | float x =>
    rw [Value.hashKey]
    split <;> rfl
  | _ => rfl

theorem hashKey_beq_of_isNull {v w : Value} (hv : v.isNull = true) (hw : w.isNull = false) :
    (v.hashKey == w.hashKey) = false := by
  cases v with
  | null => exact null_hashKey_beq hw
  | _ => cases hv

theorem any_nonNull {xs : List Value} {v : Value} (h : v.isNull = false) :
    ((nonNull xs).any fun x => x.hashKey == v.hashKey) =
      xs.any fun x => x.hashKey == v.hashKey := by
  rw [nonNull, List.any_filter]
  congr 1
  funext x
  cases null : x.isNull with
  | true => simp [hashKey_beq_of_isNull null h]
  | false => rfl

theorem firstSeen_nonNull (xs : List Value) : firstSeen (nonNull xs) = nonNull (firstSeen xs) := by
  induction xs using List.reverseRecOn with
  | nil => rfl
  | append_singleton xs x ih =>
    have split : nonNull (xs ++ [x]) = nonNull xs ++ nonNull [x] := List.filter_append _ _
    rw [split, firstSeen_concat]
    cases null : x.isNull with
    | true =>
      have skipped : nonNull [x] = [] := by simp [nonNull, null]
      rw [skipped, List.append_nil, ih]
      split_ifs
      · rfl
      · simp [nonNull, null]
    | false =>
      have kept : nonNull [x] = [x] := by simp [nonNull, null]
      rw [kept, firstSeen_concat, any_nonNull null, ih]
      split_ifs
      · rfl
      · simp [nonNull, null]

theorem occurrences_nonNull (xs : List Value) {v : Value} (h : v.isNull = false) :
    occurrences (nonNull xs) v = occurrences xs v := by
  rw [occurrences, occurrences, nonNull, List.countP_filter]
  congr 1
  funext x
  cases null : x.isNull with
  | true => simp [hashKey_beq_of_isNull null h]
  | false => simp

theorem lastGreatest_congr {number number' : Value → Nat} {items : List Value}
    (h : ∀ v ∈ items, number v = number' v) :
    lastGreatest number items = lastGreatest number' items := by
  rw [lastGreatest, lastGreatest]
  congr 1
  refine List.filter_congr fun v hv => ?_
  rw [Bool.eq_iff_iff, List.all_eq_true, List.all_eq_true]
  refine forall₂_congr fun w hw => ?_
  rw [h v hv, h w hw]

/-- **The counting reducers tell one story.**  With the values that are seen first as the list of
    distinct values: their number is the distinct count; the most frequent values are this list
    stably sorted by descending number of occurrences, up to any length; and the mode is, among
    those that are not null, the last one with the greatest number of occurrences. -/
theorem counting_reducers_agree (xs : List Value) (proper : ∀ v ∈ xs, v.Proper) :
    ∃ distinct sorted : List Value, distinct = firstSeen xs ∧
      reduced .arrayDistinct (singles xs) =
        .ok (if xs.isEmpty then none else some (.list distinct)) ∧
      reported .countDistinct xs = .ok (.int (Int64.ofNat distinct.length)) ∧
      StablyDescending (occurrences xs) distinct sorted ∧
      (∀ k, reduced (.topK k) (singles xs) =
        .ok (if xs.isEmpty then none else some (.list (sorted.take k)))) ∧
      (∀ k, sorted.take k <+: sorted.take (k + 1)) ∧
      (sorted.take distinct.length).Perm distinct ∧
      reduced .mode (singles xs) =
        .ok ((nonNull distinct).filter fun v =>
          (nonNull distinct).all fun w => occurrences xs w ≤ occurrences xs v).getLast? := by
  have descending := stablyDescending_byFrequency (occurrences xs) (firstSeen xs)
  refine ⟨firstSeen xs, _, rfl, ?_, reported_countDistinct xs, descending, fun k => ?_,
    fun k => List.take_prefix_take_left (Nat.le_succ k), ?_, ?_⟩
  · cases empty : xs.isEmpty with
    | true => rw [List.isEmpty_iff.1 empty]; rfl
    | false => exact reduced_arrayDistinct (by simpa using empty)
  · cases empty : xs.isEmpty with
    | true => rw [List.isEmpty_iff.1 empty]; rfl
    | false => exact reduced_topK proper (by simpa using empty) k
  · rw [← descending.perm.length_eq, List.take_length]
    exact descending.perm
  · rw [reduced_mode proper, firstSeen_nonNull]
    refine congrArg _ (lastGreatest_congr fun v hv => ?_)
    exact occurrences_nonNull xs (by simpa using (List.mem_filter.1 hv).2)

/-- Numbers of two types, sets in two orders and nulls. -/
def mixedValues : List Value :=
  [.null, .int 2, .set [.int 1, .str "a"], .null, .float (Double.ofInt 2), .set [.str "a", .int 1],
    .null, .str "b"]

/-- The float has the key of the integer before it, and the sets are equal.  They are the most
    frequent values but for null, so the mode is the set. -/
theorem counting_reducers_agree_mixed : (∀ v ∈ mixedValues, v.Proper) ∧
    reduced .arrayDistinct (singles mixedValues) =
      .ok (some (.list [.null, .int 2, .set [.int 1, .str "a"], .str "b"])) ∧
    reported .countDistinct mixedValues = .ok (.int 4) ∧
    (∃ sorted, StablyDescending (occurrences mixedValues) (firstSeen mixedValues) sorted ∧
      reduced (.topK 3) (singles mixedValues) = .ok (some (.list (sorted.take 3)))) ∧
    reduced .mode (singles mixedValues) = .ok (some (.set [.int 1, .str "a"])) := by
  have proper : ∀ v ∈ mixedValues, v.Proper := by
    have apart : [Value.int 1, .str "a"].Pairwise fun a b => a.beq b = false :=
      List.pairwise_pair.2 rfl
    have apart' : [Value.str "a", .int 1].Pairwise fun a b => a.beq b = false :=
      List.pairwise_pair.2 rfl
    simp only [mixedValues, List.forall_mem_cons, Value.Proper, Value.ProperAll]
    simp [apart, apart']
  obtain ⟨_, sorted, rfl, distinct, number, descending, frequent, -, -, mode⟩ :=
    counting_reducers_agree mixedValues proper
  exact ⟨proper, distinct, number, ⟨sorted, descending, frequent 3⟩, mode⟩

end DataExpr.Reduction
