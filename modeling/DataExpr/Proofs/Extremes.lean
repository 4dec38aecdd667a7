import DataExpr.Eval.Builtin
import DataExpr.Proofs.CountingReducers
import DataExpr.Proofs.KeyOrder

/-!
# Extremes

The greatest of some values is found in several ways: by a reducer that goes over rows, by one that
carries a row along, by a built-in operation on a list, and as the first element of the sorted
list; and so is the least.  Going over a list gives the leader of the list: the elements before it
are beaten by it, and those after it do not beat it (`leader_leads`).  An element that no other one
beats is unique, since values that are level in the order are the same.
-/

namespace DataExpr

namespace Comparison

variable {α : Type}

/-- Goes over a list and keeps the best element: one that is below it takes its place. -/
def leader (cmp : Comparison α) (best : α) (rest : List α) : Except Error α :=
  rest.foldlM (fun best v => do return if (← cmp v best) == .lt then v else best) best

/-- An element with those before it and those after it: it beats the former, and none of the latter
    beats it. -/
structure Leads (cmp : Comparison α) (front : List α) (best : α) (back : List α) : Prop where
  front : ∀ x ∈ front, cmp.Below best x
  back : ∀ x ∈ back, cmp.AtMost best x

/-- An element that beats the best one so far takes its place. -/
theorem Leads.replace {cmp : Comparison α} {S : α → Prop} (laws : cmp.OrdersOn S)
    {front back : List α} {best v : α} (h : cmp.Leads front best back)
    (inside : ∀ x ∈ front ++ best :: back, S x) (hv : S v) (beats : cmp.Below v best) :
    cmp.Leads (front ++ best :: back) v [] := by
  have hbest : S best := inside best (by simp)
  refine ⟨fun x hx => ?_, fun _ hx => absurd hx List.not_mem_nil⟩
  have hS := inside x hx
  rcases List.mem_append.1 hx with hx | hx
  · exact laws.below_of_below_of_atMost hv hbest hS beats (h.front x hx).atMost
  · rcases List.mem_cons.1 hx with rfl | hx
    · exact beats
    · exact laws.below_of_below_of_atMost hv hbest hS beats (h.back x hx)

/-- If all elements compare, then going over them finds their leader. -/
theorem leader_leads {cmp : Comparison α} {S : α → Prop} (laws : cmp.OrdersOn S) (best : α)
    (rest : List α) (inside : ∀ x ∈ best :: rest, S x)
    (compared : ∀ e, ¬cmp.Clash (best :: rest) e) :
    ∃ front k back, best :: rest = front ++ k :: back ∧ cmp.leader best rest = .ok k ∧
      cmp.Leads front k back := by
  induction rest using List.reverseRecOn with
  | nil => exact ⟨[], best, [], rfl, rfl, fun _ h => (nomatch h), fun _ h => nomatch h⟩
  | append_singleton rest v ih =>
    have part : (best :: rest).Subperm (best :: (rest ++ [v])) :=
      (List.sublist_append_left (best :: rest) [v]).subperm
    obtain ⟨front, k, back, split, run, leads⟩ := ih (fun x hx => inside x (part.subset hx))
      fun e ⟨a, b, apart, failed⟩ => compared e ⟨a, b, apart.trans part, failed⟩
    have hk : k ∈ best :: rest := split ▸ by simp
    have hv : v ∈ best :: (rest ++ [v]) := by simp
    have insidePart : ∀ x ∈ front ++ k :: back, S x := fun x hx =>
      inside x (part.subset (split ▸ hx))
    have step : cmp.leader best (rest ++ [v]) =
        (cmp v k).map fun order => if order == .lt then v else k := by
      rw [leader, List.foldlM_append, ← leader, run]
      show (cmp v k >>= fun order => _) >>= pure = _
      cases cmp v k <;> rfl
    cases answer : cmp v k with
    | error e =>
      have apart : [v, k].Subperm (best :: (rest ++ [v])) :=
        (List.Perm.swap k v []).subperm.trans (subperm_pair_append hk (List.mem_singleton.2 rfl))
      exact absurd ⟨v, k, apart, answer⟩ (compared e)
    | ok order =>
      rw [step, answer, ← List.cons_append, split]
      by_cases less : order = .lt
      · subst less
        exact ⟨_, v, [], rfl, rfl, leads.replace laws insidePart (inside v hv) answer⟩
      · have level : cmp.AtMost k v :=
          laws.atMost_of_not_below (inside v hv) (inside k (part.subset hk)) answer less
        refine ⟨front, k, back ++ [v], by simp, ?_, leads.front, ?_⟩
        · cases order <;> first | rfl | exact absurd rfl less
        · rw [List.forall_mem_append, List.forall_mem_singleton]
          exact ⟨leads.back, level⟩

/-- An element of a list that no other element beats. -/
def Unbeaten (cmp : Comparison α) (items : List α) (best : α) : Prop :=
  best ∈ items ∧ ∀ x ∈ items, x = best ∨ cmp.AtMost best x

theorem Leads.unbeaten {cmp : Comparison α} {front back : List α} {best : α}
    (h : cmp.Leads front best back) : cmp.Unbeaten (front ++ best :: back) best := by
  refine ⟨by simp, fun x hx => ?_⟩
  rcases List.mem_append.1 hx with hx | hx
  · exact .inr (h.front x hx).atMost
  · exact (List.mem_cons.1 hx).imp id (h.back x)

/-- There is only one if elements that tie are the same. -/
theorem Unbeaten.unique {cmp : Comparison α} {S : α → Prop} (laws : cmp.OrdersOn S)
    (same : ∀ {a b}, S a → S b → cmp a b = .ok .eq → a = b) {items : List α} {a b : α}
    (inside : ∀ x ∈ items, S x) (ha : cmp.Unbeaten items a) (hb : cmp.Unbeaten items b) :
    a = b := by
  have hSa := inside a ha.1
  have hSb := inside b hb.1
  rcases ha.2 b hb.1 with h | ⟨order, hab, hne⟩
  · exact h.symm
  rcases hb.2 a ha.1 with h | ⟨order', hba, hne'⟩
  · exact h
  have swapped := laws.swap hSa hSb hab
  rw [hba, Except.ok.injEq] at swapped
  subst swapped
  cases order with
  | eq => exact same hSa hSb hab
  | lt => exact absurd rfl hne'
  | gt => exact absurd rfl hne

end Comparison

namespace Value

/-! ### Going over a list -/

variable {α : Type}

/-- The answer by which a value takes the place of the best one so far: it is greater if the
    greatest one is looked for, and less if the least one is. -/
def wanted (greatest : Bool) : Ordering := if greatest then .gt else .lt

/-- Goes over a list and keeps the element whose key is best so far. -/
def keepBest (greatest : Bool) (key : α → Value) (best : α) (rest : List α) : Except Error α :=
  rest.foldlM (fun best v => do
    return if (← (key v).compare (key best)) == wanted greatest then v else best) best

/-- The order in which the best element comes first. -/
def bestFirst (greatest : Bool) (key : α → Value) : Comparison α := fun a b =>
  Comparison.reversed compare greatest (key a) (key b)

theorem bestFirst_ordersOn (greatest : Bool) (key : α → Value) :
    (bestFirst greatest key).OrdersOn fun a => FloatFree (key a) :=
  (compare_ordersOn.reversed greatest).comap key fun _ h => h

/-- A value takes the place of the best one if it comes before it. -/
theorem beq_wanted {greatest : Bool} {key : α → Value} {v best : α} (hv : FloatFree (key v))
    (hbest : FloatFree (key best)) {order : Ordering}
    (h : bestFirst greatest key v best = .ok order) :
    ∃ order', (key v).compare (key best) = .ok order' ∧
      (order' == wanted greatest) = (order == .lt) := by
  cases greatest with
  | false => exact ⟨order, h, rfl⟩
  | true =>
    refine ⟨order.swap, compare_ordersOn.swap hbest hv h, ?_⟩
    cases order <;> rfl

/-- Among elements that compare, going over them finds their leader. -/
theorem keepBest_eq_leader {greatest : Bool} {key : α → Value} (best : α) (rest : List α)
    (inside : ∀ x ∈ best :: rest, FloatFree (key x))
    (compared : ∀ e, ¬(bestFirst greatest key).Clash (best :: rest) e) :
    keepBest greatest key best rest = (bestFirst greatest key).leader best rest := by
  induction rest generalizing best with
  | nil => rfl
  | cons v rest ih =>
    have apart : [v, best].Subperm (best :: v :: rest) :=
      (List.Perm.swap best v []).subperm.trans (Comparison.subperm_pair_cons (by simp))
    cases answer : bestFirst greatest key v best with
    | error e => exact absurd ⟨v, best, apart, answer⟩ (compared e)
    | ok order =>
      obtain ⟨order', answer', same⟩ :=
        beq_wanted (inside v (by simp)) (inside best (by simp)) answer
      have next (m : α) (part : (m :: rest).Sublist (best :: v :: rest)) :
          keepBest greatest key m rest = (bestFirst greatest key).leader m rest :=
        ih m (fun x hx => inside x (part.subset hx)) fun e ⟨a, b, h, failed⟩ =>
          compared e ⟨a, b, h.trans part.subperm, failed⟩
      have left : keepBest greatest key best (v :: rest) =
          keepBest greatest key (if order == .lt then v else best) rest := by
        rw [keepBest, List.foldlM_cons, answer', ← same]
        rfl
      have right : (bestFirst greatest key).leader best (v :: rest) =
          (bestFirst greatest key).leader (if order == .lt then v else best) rest := by
        rw [Comparison.leader, List.foldlM_cons, answer]
        rfl
      rw [left, right]
      split
      · exact next v (List.sublist_cons_self _ _)
      · exact next best ((List.sublist_cons_self v rest).cons_cons best)

/-- If the keys compare, then going over the elements finds the first one with a key that no other
    one beats. -/
theorem exists_keepBest (greatest : Bool) (key : α → Value) (best : α) (rest : List α)
    (free : ∀ x ∈ best :: rest, FloatFree (key x))
    (compared : ∀ e, ¬Comparison.Clash compare ((best :: rest).map key) e) :
    ∃ front k back, best :: rest = front ++ k :: back ∧ keepBest greatest key best rest = .ok k ∧
      (∀ x ∈ front, (key x == key k) = false) ∧
      Comparison.Unbeaten (bestFirst greatest id) ((best :: rest).map key) (key k) := by
  have compared : ∀ e, ¬(bestFirst greatest key).Clash (best :: rest) e := by
    rintro e ⟨a, b, ⟨pair, perm, sub⟩, failed⟩
    refine compared e ?_
    rw [← Comparison.clash_reversed greatest]
    exact ⟨key a, key b, ⟨pair.map key, perm.map key, sub.map key⟩, failed⟩
  obtain ⟨front, k, back, split, run, leads⟩ :=
    Comparison.leader_leads (bestFirst_ordersOn greatest key) best rest free compared
  have hk : k ∈ best :: rest := split ▸ by simp
  refine ⟨front, k, back, split, (keepBest_eq_leader best rest free compared).trans run,
    fun x hx => ?_, List.mem_map_of_mem hk, fun v hv => ?_⟩
  · have hx' : x ∈ best :: rest := split ▸ List.mem_append_left _ hx
    have below := leads.front x hx
    by_contra same
    have same : (key x == key k) = true := by simpa using same
    cases greatest with
    | true => cases compare_of_beq _ _ (free x hx') (free k hk) below same
    | false =>
      have above := compare_ordersOn.swap (free k hk) (free x hx') below
      cases compare_of_beq _ _ (free x hx') (free k hk) above same
  · obtain ⟨x, hx, rfl⟩ := List.mem_map.1 hv
    rw [split] at hx
    exact (leads.unbeaten.2 x hx).imp (congrArg key) id

/-- If the values compare, then they can be sorted, and the first one of the sorted list is one
    that no other one beats. -/
theorem exists_sort (greatest : Bool) {xs : List Value} (hne : xs ≠ [])
    (free : ∀ v ∈ xs, FloatFree v) (compared : ∀ e, ¬Comparison.Clash compare xs e) :
    ∃ m rest, sort xs greatest = .ok (m :: rest) ∧
      Comparison.Unbeaten (bestFirst greatest id) xs m := by
  obtain ⟨fails, sorts⟩ := Comparison.sort_arranges
    ((compare_ordersOn.reversed greatest).mono free)
  rw [Comparison.clash_reversed greatest] at fails sorts
  cases h : sort xs greatest with
  | error e =>
    rcases fails e h with clash | ⟨-, -, e', clash⟩
    · exact absurd clash (compared e)
    · exact absurd clash (compared e')
  | ok sorted =>
    obtain ⟨-, perm, arranged⟩ := sorts sorted h
    obtain ⟨m, rest, rfl⟩ : ∃ m rest, sorted = m :: rest :=
      List.exists_cons_of_ne_nil fun empty => hne (List.perm_nil.1 (empty ▸ perm.symm))
    refine ⟨m, rest, rfl, perm.subset (by simp), fun x hx => ?_⟩
    rcases List.mem_cons.1 (perm.symm.subset hx) with rfl | hx
    · exact .inl rfl
    · exact .inr ((List.pairwise_cons.1 arranged.increasing).1 x hx)

theorem unbeaten_unique {greatest : Bool} {xs : List Value} {a b : Value}
    (free : ∀ v ∈ xs, FloatFree v) (ha : Comparison.Unbeaten (bestFirst greatest id) xs a)
    (hb : Comparison.Unbeaten (bestFirst greatest id) xs b) : a = b := by
  refine ha.unique (bestFirst_ordersOn greatest id) (fun {a b} hfa hfb level => ?_) free hb
  cases greatest with
  | true => exact (eq_of_compare b a hfb hfa level).symm
  | false => exact eq_of_compare a b hfa hfb level

/-- The extreme of a list is found by going over it. -/
theorem extreme_eq_keepBest (greatest : Bool) (best : Value) (rest : List Value) :
    extreme (wanted greatest) best rest = keepBest greatest id best rest := by
  induction rest generalizing best with
  | nil => rfl
  | cons v rest ih =>
    rw [extreme, keepBest, List.foldlM_cons]
    show _ = (v.compare best >>= fun _ => _) >>= _
    cases v.compare best with
    | error e => rfl
    | ok order =>
      show (if (order == wanted greatest) = true then _ else _) =
        keepBest greatest id (if order == wanted greatest then v else best) rest
      split <;> exact ih _

end Value

namespace Reduction

variable {greatest carries : Bool}

/-! ### Reducers of extremes -/

/-- The kind of reducer that finds the greatest value or the least, or the row with it. -/
def extremeKind (greatest carries : Bool) : ReducerKind :=
  match greatest, carries with
  | true, false => .max
  | false, false => .min
  | true, true => .maxRow
  | false, true => .minRow

/-- What such a reducer holds of its best row. -/
def held (carries : Bool) (row : List Value) : Accumulator :=
  .plain (if carries then .row (rowValue row) (row[1]?.getD .null) else .value (rowValue row))

/-- The rows with a value that is not null. -/
def present (rows : List (List Value)) : List (List Value) :=
  rows.filter fun row => !(rowValue row).isNull

/-- A slot that is not set takes the first row with a value that is not null. -/
theorem take_unset {row : List Value} (hrow : (rowValue row).isNull = false) :
    take (extremeKind greatest carries) none row = .ok (some (held carries row)) := by
  cases greatest <;> cases carries <;>
    simp [take, extremeKind, held, Accumulator.first, ReducerKind.keyedInner, Cell.first, hrow]

/-- Another row takes the place of the best one if its value is better. -/
theorem take_held {best row : List Value} (hbest : (rowValue best).isNull = false)
    (hrow : (rowValue row).isNull = false) :
    take (extremeKind greatest carries) (some (held carries best)) row =
      ((rowValue row).compare (rowValue best)).map fun order =>
        some (held carries (if order == Value.wanted greatest then row else best)) := by
  cases answer : (rowValue row).compare (rowValue best) with
  | error e =>
    cases greatest <;> cases carries <;>
      simp [take, extremeKind, held, Accumulator.combine, ReducerKind.keyedInner, Cell.combine,
        Cell.surpasses, Cell.surpassesKey, hbest, hrow, answer] <;> rfl
  | ok order =>
    cases greatest <;> cases carries <;> cases order <;>
      simp [take, extremeKind, held, Accumulator.combine, ReducerKind.keyedInner, Cell.combine,
        Cell.surpasses, Cell.surpassesKey, hbest, hrow, answer, Value.wanted] <;> rfl

/-- A row with null leaves the slot as it is. -/
theorem take_null (best : Option (List Value)) {row : List Value}
    (hnull : (rowValue row).isNull = true) :
    take (extremeKind greatest carries) (best.map (held carries)) row =
      .ok (best.map (held carries)) := by
  cases best with
  | none =>
    cases greatest <;> cases carries <;>
      simp [take, extremeKind, Accumulator.first, ReducerKind.keyedInner, Cell.first, hnull]
  | some best =>
    cases greatest <;> cases carries <;>
      simp [take, extremeKind, held, Accumulator.combine, ReducerKind.keyedInner, Cell.combine,
        Cell.surpasses, Cell.surpassesKey, hnull] <;>
      rfl

/-- From a best row on, a reducer goes over the rows that are present. -/
theorem foldlM_take_held (rows : List (List Value)) {best : List Value}
    (hbest : (rowValue best).isNull = false) :
    rows.foldlM (take (extremeKind greatest carries)) (some (held carries best)) =
      (Value.keepBest greatest rowValue best (present rows)).map (some ∘ held carries) := by
  induction rows generalizing best with
  | nil => rfl
  | cons row rows ih =>
    rw [List.foldlM_cons]
    cases null : (rowValue row).isNull with
    | true =>
      have skipped : present (row :: rows) = present rows := by simp [present, null]
      have step : take (extremeKind greatest carries) (some (held carries best)) row =
          .ok (some (held carries best)) := take_null (some best) null
      rw [skipped, step]
      exact ih hbest
    | false =>
      have kept : present (row :: rows) = row :: present rows := by simp [present, null]
      rw [kept, take_held hbest null, Value.keepBest, List.foldlM_cons]
      cases (rowValue row).compare (rowValue best) with
      | error e => rfl
      | ok order =>
        let next := if order == Value.wanted greatest then row else best
        show List.foldlM _ (some (held carries next)) rows =
          Except.map _ (Value.keepBest greatest rowValue next (present rows))
        unfold next
        split
        · exact ih null
        · exact ih hbest

/-- What a reducer reports of its best row. -/
def reportOf (carries : Bool) (row : List Value) : Value :=
  if carries then row[1]?.getD .null else rowValue row

/-- A reducer of extremes goes over the rows that are present and reports the best one. -/
theorem reduced_extreme {rows rest : List (List Value)} {best : List Value}
    (h : present rows = best :: rest) :
    reduced (extremeKind greatest carries) rows =
      (Value.keepBest greatest rowValue best rest).map (some ∘ reportOf carries) := by
  have finish (row : List Value) : finishSlot (extremeKind greatest carries)
      (some (held carries row)) = .ok (some (reportOf carries row)) := by
    cases greatest <;> cases carries <;> rfl
  induction rows with
  | nil => cases h
  | cons row rows ih =>
    cases null : (rowValue row).isNull with
    | true =>
      have skipped : present (row :: rows) = present rows := by simp [present, null]
      have step : take (extremeKind greatest carries) none row = .ok none := take_null none null
      rw [← ih (skipped ▸ h), reduced, takeAll, List.foldlM_cons]
      rw [step]
      rfl
    | false =>
      have kept : present (row :: rows) = row :: present rows := by simp [present, null]
      obtain ⟨rfl, rfl⟩ : row = best ∧ present rows = rest := by simpa [kept] using h
      rw [reduced, takeAll, List.foldlM_cons, take_unset null]
      show (List.foldlM _ _ rows >>= _) = _
      rw [foldlM_take_held rows null]
      cases Value.keepBest greatest rowValue row (present rows) with
      | error e => rfl
      | ok row => exact finish row

/-! ### Agreement -/

/-- The rows of two arguments whose key is not null. -/
def withKey (rows : List (Value × Value)) : List (Value × Value) := rows.filter fun p => !p.1.isNull

/-- Some element of a list is what a built-in operation gives for the list and is the first one of
    the sorted list; a reducer reports it, and another one the row with it that comes first, however
    many rows with null as their key there are between those of the list. -/
def Agree (op : Builtin) (extreme extremeRow : ReducerKind) (options xs : List Value) : Prop :=
  ∃ m i, xs[i]? = some m ∧ (∀ x ∈ xs.take i, (x == m) = false) ∧
    op.apply [.list xs] = .ok m ∧
    (∃ rest, Builtin.sorted.apply (.list xs :: options) = .ok (.list (m :: rest))) ∧
    ∀ rows : List (Value × Value), (withKey rows).map (·.1) = xs →
      reduced extreme (rows.map fun p => [p.1]) = .ok (some m) ∧
      ∃ row, (withKey rows)[i]? = some (m, row) ∧
        reduced extremeRow (rows.map fun p => [p.1, p.2]) = .ok (some row)

theorem present_map (rows : List (Value × Value)) (f : Value × Value → List Value)
    (keyed : ∀ p, rowValue (f p) = p.1) : present (rows.map f) = (withKey rows).map f := by
  rw [present, withKey, List.filter_map]
  congr 2
  funext p
  simp [keyed]

/-- Rows of any shape: a reducer reports the first one with a value that no other one beats. -/
theorem exists_reduced_extreme (greatest carries : Bool) {xs : List Value} (hne : xs ≠ [])
    (free : ∀ v ∈ xs, Value.FloatFree v) (compared : ∀ e, ¬Comparison.Clash Value.compare xs e)
    {rows : List (List Value)} (h : (present rows).map rowValue = xs) :
    ∃ front k back, present rows = front ++ k :: back ∧
      reduced (extremeKind greatest carries) rows = .ok (some (reportOf carries k)) ∧
      (∀ x ∈ front, (rowValue x == rowValue k) = false) ∧
      Comparison.Unbeaten (Value.bestFirst greatest id) xs (rowValue k) := by
  subst h
  cases split : present rows with
  | nil => exact absurd (by rw [split]; rfl) hne
  | cons best rest =>
    rw [split] at free compared
    obtain ⟨front, k, back, split', run, differ, unbeaten⟩ :=
      Value.exists_keepBest greatest rowValue best rest
        (fun x hx => free _ (List.mem_map_of_mem hx)) compared
    refine ⟨front, k, back, split', ?_, differ, unbeaten⟩
    rw [reduced_extreme split, run]
    rfl

theorem findIdx_beq {front back : List Value} {m : Value} (h : ∀ x ∈ front, (x == m) = false) :
    (front ++ m :: back).findIdx (· == m) = front.length := by
  have self : (m == m) = true := Value.beq_self m
  have absent : front.findIdx (· == m) = front.length :=
    List.findIdx_eq_length.2 fun x hx => by simpa using h x hx
  rw [List.findIdx_append, absent, if_neg (Nat.lt_irrefl _), List.findIdx_cons, self]
  exact Nat.zero_add _

/-- If a list can be sorted, then one element is found in all ways. -/
theorem agree_of_sort {op : Builtin} (greatest : Bool) {options xs : List Value} (hne : xs ≠ [])
    (free : ∀ v ∈ xs, Value.FloatFree v) (compared : ∀ e, ¬Comparison.Clash Value.compare xs e)
    (applies : ∀ first rest, op.apply [.list (first :: rest)] =
      Value.extreme (Value.wanted greatest) first rest)
    (sorts : Builtin.sorted.apply (.list xs :: options) = (Value.sort xs greatest).map .list) :
    Agree op (extremeKind greatest false) (extremeKind greatest true) options xs := by
  obtain ⟨best, rest, rfl⟩ := List.exists_cons_of_ne_nil hne
  obtain ⟨front, m, back, split, run, differ, unbeaten⟩ :=
    Value.exists_keepBest greatest id best rest free (by rwa [List.map_id])
  simp only [List.map_id, id] at unbeaten differ
  have unique {m' : Value} (h : Comparison.Unbeaten (Value.bestFirst greatest id) _ m') : m' = m :=
    Value.unbeaten_unique free h unbeaten
  refine ⟨m, front.length, by rw [split]; simp, by rw [split]; simpa using differ, ?_, ?_, ?_⟩
  · rw [applies, Value.extreme_eq_keepBest, run]
  · obtain ⟨m', rest', sorted, unbeaten'⟩ := Value.exists_sort greatest hne free compared
    rw [sorts, sorted, unique unbeaten']
    exact ⟨rest', rfl⟩
  · intro rows keys
    have shape (f : Value × Value → List Value) (keyed : ∀ p, rowValue (f p) = p.1) :
        (present (rows.map f)).map rowValue = best :: rest := by
      rw [present_map rows f keyed, List.map_map, ← keys]
      exact List.map_congr_left fun p _ => keyed p
    obtain ⟨-, k, -, -, reported, -, unbeaten₁⟩ :=
      exists_reduced_extreme greatest false hne free compared (shape (fun p => [p.1]) fun _ => rfl)
    obtain ⟨front', k', back', split', reported', differ', unbeaten₂⟩ :=
      exists_reduced_extreme greatest true hne free compared
        (shape (fun p => [p.1, p.2]) fun _ => rfl)
    refine ⟨by rw [reported, ← unique unbeaten₁]; rfl, ?_⟩
    rw [present_map rows (fun p => [p.1, p.2]) fun _ => rfl] at split'
    obtain ⟨before, after, rowsSplit, rfl, tail⟩ := List.map_eq_append_iff.1 split'
    obtain ⟨⟨key, row⟩, after, rfl, rfl, rfl⟩ := List.map_eq_cons_iff.1 tail
    obtain rfl : key = m := unique unbeaten₂
    have position : front.length = before.length := by
      rw [← findIdx_beq differ, ← split, ← keys, rowsSplit, List.map_append, List.map_cons,
        findIdx_beq ?_, List.length_map]
      intro x hx
      obtain ⟨p, hp, rfl⟩ := List.mem_map.1 hx
      exact differ' _ (List.mem_map_of_mem hp)
    exact ⟨row, by rw [position, rowsSplit]; simp, reported'⟩

/-- **The extremes agree.**  For values without floats that can be sorted, the reducer, the built-in
    operation and the first element of the sorted list are the same value, and the reducer that
    carries rows gives the row of its first position. -/
theorem extremes_agree (xs : List Value) (hne : xs ≠ []) (free : ∀ v ∈ xs, Value.FloatFree v)
    (sorts : ∃ sorted, Builtin.sorted.apply [.list xs] = .ok sorted) :
    Agree .max .max .maxRow [.bool true] xs ∧ Agree .min .min .minRow [] xs := by
  have compared : ∀ e, ¬Comparison.Clash Value.compare xs e := by
    obtain ⟨sorted, sorts⟩ := sorts
    have run : Builtin.sorted.apply [.list xs] = (Value.sort xs false).map .list := rfl
    rw [run] at sorts
    cases h : Value.sort xs false with
    | error e => rw [h] at sorts; cases sorts
    | ok sorted => exact ((Comparison.sort_arranges (Value.compare_ordersOn.mono free)).2 _ h).1
  exact ⟨agree_of_sort true hne free compared (fun _ _ => rfl) rfl,
    agree_of_sort false hne free compared (fun _ _ => rfl) rfl⟩

/-- Tuples with ties for the greatest and for the least. -/
def tiedPairs : List Value :=
  [.tuple [.int 2, .str "a"], .tuple [.int 1, .str "b"], .tuple [.int 2, .str "b"],
    .tuple [.int 1, .str "a"], .tuple [.int 2, .str "b"], .tuple [.int 1, .str "a"]]

/-- The tuples as keys of numbered rows, with nulls between them. -/
def tiedRows : List (Value × Value) :=
  [(.null, .int 0), (.tuple [.int 2, .str "a"], .int 1), (.tuple [.int 1, .str "b"], .int 2),
    (.null, .int 3), (.tuple [.int 2, .str "b"], .int 4), (.tuple [.int 1, .str "a"], .int 5),
    (.tuple [.int 2, .str "b"], .int 6), (.tuple [.int 1, .str "a"], .int 7), (.null, .int 8)]

/-- The greatest tuple comes first in row 4, and the least in row 5. -/
theorem extremes_agree_tied : (withKey tiedRows).map (·.1) = tiedPairs ∧
    Agree .max .max .maxRow [.bool true] tiedPairs ∧ Agree .min .min .minRow [] tiedPairs ∧
    Builtin.max.apply [.list tiedPairs] = .ok (.tuple [.int 2, .str "b"]) ∧
    reduced .maxRow (tiedRows.map fun p => [p.1, p.2]) = .ok (some (.int 4)) ∧
    reduced .minRow (tiedRows.map fun p => [p.1, p.2]) = .ok (some (.int 5)) := by
  have free : ∀ v ∈ tiedPairs, Value.FloatFree v := by
    simp [tiedPairs, Value.FloatFree, Value.FloatFreeAll]
  have agree := extremes_agree tiedPairs (List.cons_ne_nil _ _) free ⟨_, rfl⟩
  exact ⟨rfl, agree.1, agree.2, rfl, rfl, rfl⟩

end Reduction

end DataExpr
