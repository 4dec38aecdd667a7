import DataExpr.Proofs.EmptyAggregates
import DataExpr.Proofs.KeyedReducers

/-!
# Slots and groups as folds

A slot of a kind that accepts an initial value holds a value, and a row combines it with the
arguments of the row.  The first accepted row sets the slot: it makes an accumulator, which is
thrown away when there is an initial value, and is then combined with that.  So a slot that is not
set stands for a fold that is still at its start, and what it reports in the end, or its initial
value if it reports nothing, is the fold of all rows (`SlotMeaning.Reported.fold_eq`).

The rows of a group are those with its key (`AggregateMeaning.rowsOf_members`).  The table of an
aggregate is followed beside them: a record is what the rows of its group alone have made of the
slots (`AggregateMeaning.Recorded`).
-/

namespace DataExpr

open Eval Lowering Reduction

/-! ### Kinds that accept an initial value -/

namespace Reduction

variable {kind : ReducerKind}

/-- A cell with a value stays one, whatever rows come. -/
theorem Cell.combine_value (h : kind.acceptsInitial = true) {v : Value} {args : List Value}
    {cell : Cell} (made : (Cell.value v).combine kind args = .ok cell) :
    ∃ w, cell = .value w := by
  cases kind <;> cases h <;> simp only [Cell.combine, reduceCtorEq] at made
  case sum.refl | sumOrNull.refl =>
    split at made
    · cases made
      exact ⟨_, rfl⟩
    · obtain ⟨w, -, made⟩ := Analysis.bind_eq_ok.1 made
      cases made
      exact ⟨w, rfl⟩
  case max.refl | min.refl =>
    obtain ⟨better, -, made⟩ := Analysis.bind_eq_ok.1 made
    cases made
    exact ⟨_, rfl⟩
  case first.refl | last.refl =>
    cases made
    exact ⟨_, rfl⟩

/-- A row that is declined as the first one leaves a value as it is. -/
theorem Cell.combine_of_declined (h : kind.acceptsInitial = true) {args : List Value}
    (declined : Cell.first kind args = .ok none) (v : Value) :
    (Cell.value v).combine kind args = .ok (.value v) := by
  cases kind <;> cases h <;> simp only [Cell.first] at declined
  case max.refl | min.refl =>
    split at declined
    · rename_i hnull
      simp only [Cell.combine, Cell.surpasses, hnull, if_true]
      rfl
    · cases declined
  all_goals cases declined

end Reduction

namespace SlotMeaning

variable {S : Semantics} {m : SlotMeaning} {kind : ReducerKind} {start : Value}

theorem finish_seed (h : kind.acceptsInitial = true) (v : Value) :
    (Accumulator.seed v).finish kind = .ok v := by
  cases kind <;> cases h <;> rfl

theorem keyedInner_of_acceptsInitial (h : kind.acceptsInitial = true) : kind.keyedInner = none := by
  cases kind <;> cases h <;> rfl

/-- Only a fold with a function of the host asks for its result. -/
theorem combine_eq (h : ∀ f, kind ≠ .reduce f) (acc : Accumulator) (args : List Value) :
    combine S kind acc args = acc.combine kind args := by
  cases kind <;> first | rfl | exact absurd rfl (h _)

/-- A value is combined with a row to a value. -/
theorem combine_seed (h : kind.acceptsInitial = true) {v : Value} {args : List Value}
    {acc : Accumulator} (made : combine S kind (.seed v) args = .ok acc) :
    ∃ w, acc = .seed w := by
  by_cases hreduce : ∃ f, kind = .reduce f
  · obtain ⟨f, rfl⟩ := hreduce
    obtain ⟨w, -, made⟩ := Analysis.bind_eq_ok.mp made
    cases made
    exact ⟨w, rfl⟩
  · rw [combine_eq fun f hf => hreduce ⟨f, hf⟩] at made
    simp only [Accumulator.combine, keyedInner_of_acceptsInitial h, Accumulator.seed] at made
    obtain ⟨cell, hcell, made⟩ := Analysis.bind_eq_ok.mp made
    cases made
    obtain ⟨w, rfl⟩ := Cell.combine_value h hcell
    exact ⟨w, rfl⟩

/-- A row that is declined as the first one changes no value. -/
theorem combine_of_declined (h : kind.acceptsInitial = true) {args : List Value}
    (declined : Accumulator.first kind args = .ok none) (v : Value) :
    combine S kind (.seed v) args = .ok (.seed v) := by
  simp only [Accumulator.first, keyedInner_of_acceptsInitial h] at declined
  obtain ⟨cell, hcell, declined⟩ := Analysis.bind_eq_ok.mp declined
  obtain rfl : cell = none := by cases cell <;> first | rfl | cases declined
  rw [combine_eq]
  · simp only [Accumulator.combine, keyedInner_of_acceptsInitial h, Accumulator.seed,
      Cell.combine_of_declined h hcell]
    rfl
  · rintro f rfl
    cases hcell

/-! ### Rows of a slot -/

/-- A slot stands for a state of the fold.  While it is not set, that is the start. -/
inductive Stands (start : Value) : Option Accumulator → Value → Prop
  | unset : Stands start none start
  | set (v : Value) : Stands start (some (.seed v)) v

variable {slot slot' : Option Accumulator} {row v : Value} {rows : List Value}

/-- The arguments of the rows that the filter accepts. -/
def tuples (m : SlotMeaning) : List Value → Except Error (List (List Value))
  | [] => .ok []
  | row :: rows => do
    if ← m.accepts row then
      let args ← m.args row
      return args :: (← m.tuples rows)
    else m.tuples rows

/-- The arguments of the accepted rows, combined one after the other with a value. -/
def fold (S : Semantics) (m : SlotMeaning) (rows : List Value) (start : Value) : Result := do
  let acc ← (← m.tuples rows).foldlM (combine S m.kind) (.seed start)
  acc.finish m.kind

/-- What an accepted row does to a slot, it does to the state of the fold. -/
theorem Stands.combine (h : m.kind.acceptsInitial = true) (stands : Stands start slot v)
    {initial : Value → Result} (hinitial : m.initial = some initial)
    (constant : initial row = .ok start) (accepted : m.accepts row = .ok true)
    (step : m.feed S slot row = .ok slot') :
    ∃ args w, m.args row = .ok args ∧
      SlotMeaning.combine S m.kind (.seed v) args = .ok (.seed w) ∧ Stands start slot' w := by
  unfold feed at step
  rw [accepted] at step
  change (m.args row >>= fun args => _) = _ at step
  obtain ⟨args, hargs, step⟩ := Analysis.bind_eq_ok.mp step
  refine ⟨args, ?_⟩
  cases stands with
  | set v =>
    obtain ⟨acc, hacc, step⟩ := Analysis.bind_eq_ok.mp step
    cases step
    obtain ⟨w, rfl⟩ := combine_seed h hacc
    exact ⟨w, hargs, hacc, .set w⟩
  | unset =>
    obtain ⟨first, hfirst, step⟩ := Analysis.bind_eq_ok.mp step
    cases first with
    | none =>
      cases step
      exact ⟨start, hargs, combine_of_declined h hfirst start, .unset⟩
    | some _ =>
      -- The accumulator of the first row is thrown away.
      rw [hinitial] at step
      dsimp only at step
      rw [constant] at step
      change (SlotMeaning.combine S m.kind (.seed start) args >>= fun acc => _) = _ at step
      obtain ⟨acc, hacc, step⟩ := Analysis.bind_eq_ok.mp step
      cases step
      obtain ⟨w, rfl⟩ := combine_seed h hacc
      exact ⟨w, hargs, hacc, .set w⟩

/-- What rows do to a slot, they do to the state of the fold. -/
theorem Stands.foldlM (h : m.kind.acceptsInitial = true) (stands : Stands start slot v)
    {initial : Value → Result} (hinitial : m.initial = some initial)
    (constant : ∀ row, initial row = .ok start)
    (run : rows.foldlM (m.feed S) slot = .ok slot') :
    ∃ args w, m.tuples rows = .ok args ∧
      args.foldlM (SlotMeaning.combine S m.kind) (.seed v) = .ok (.seed w) ∧
      Stands start slot' w := by
  -- By induction on the rows: a row is filtered out, or taken by the slot and by the fold alike.
  induction rows generalizing slot v with
  | nil =>
    cases run
    exact ⟨[], v, rfl, rfl, stands⟩
  | cons row rows ih =>
    rw [List.foldlM_cons] at run
    obtain ⟨next, hnext, hrest⟩ := Analysis.bind_eq_ok.mp run
    have decided : ∃ b, m.accepts row = .ok b := by
      unfold feed at hnext
      obtain ⟨b, hb, -⟩ := Analysis.bind_eq_ok.mp hnext
      exact ⟨b, hb⟩
    obtain ⟨b, hb⟩ := decided
    cases b with
    | false =>
      obtain rfl : next = slot := by
        unfold feed at hnext
        rw [hb] at hnext
        cases hnext
        rfl
      obtain ⟨args, w, hargs, hfold, stands⟩ := ih stands hrest
      refine ⟨args, w, ?_, hfold, stands⟩
      rw [tuples, hb]
      exact hargs
    | true =>
      obtain ⟨first, u, hfirst, hcombine, stands⟩ :=
        stands.combine h hinitial (constant row) hb hnext
      obtain ⟨args, w, hargs, hfold, stands⟩ := ih stands hrest
      refine ⟨first :: args, w, ?_, ?_, stands⟩
      · rw [tuples, hb]
        change (m.args row >>= fun args => _) = _
        rw [hfirst]
        change (m.tuples rows >>= fun args => _) = _
        rw [hargs]
        rfl
      · rw [List.foldlM_cons, hcombine]
        exact hfold

/-- What a slot is finished into after some rows. -/
inductive Reported (S : Semantics) (m : SlotMeaning) (rows : List Value) : Option Value → Prop
  | fed {slot : Option Accumulator} {value : Option Value}
      (run : rows.foldlM (m.feed S) none = .ok slot) (finish : finishSlot m.kind slot = .ok value) :
      Reported S m rows value
  | started {value : Option Value} (hrows : rows = []) (starts : m.Starts value) :
      Reported S m rows value

/-- **A constant initial value is the start of a fold.**  What a slot reports after some rows, or
    its initial value if it reports nothing, is the fold of the rows from the initial value. -/
theorem Reported.fold_eq (h : m.kind.acceptsInitial = true) {value : Option Value}
    (reported : m.Reported S rows value) {initial : Value → Result}
    (hinitial : m.initial = some initial) (constant : ∀ row, initial row = .ok start)
    (hseed : m.seed = some (.ok start)) : m.fold S rows start = .ok (value.getD start) := by
  cases reported with
  | fed run finish =>
    obtain ⟨args, w, hargs, hfold, stands⟩ := Stands.foldlM h .unset hinitial constant run
    rw [fold, hargs]
    change (args.foldlM (combine S m.kind) (.seed start) >>= fun acc => _) = _
    rw [hfold]
    change (Accumulator.seed w).finish m.kind = _
    rw [finish_seed h]
    cases stands with
    | unset =>
      cases finish
      rfl
    | set =>
      change ((Accumulator.seed w).finish m.kind >>= fun v => pure (some v)) = _ at finish
      rw [finish_seed h] at finish
      cases finish
      rfl
  | started hrows starts =>
    subst hrows
    change (Accumulator.seed start).finish m.kind = _
    rw [finish_seed h]
    cases starts with
    | unset hnone =>
      rw [hnone] at hseed
      cases hseed
    | seed hsome =>
      rw [hsome] at hseed
      cases hseed
      rfl

end SlotMeaning

/-! ### Entries side by side -/

namespace Entries

variable {α β : Type} {R : α → β → Prop}

/-- Entries with the same keys and related values. -/
def Alongside (R : α → β → Prop) : Entries α → Entries β → Prop :=
  List.Forall₂ fun a b => a.1 = b.1 ∧ R a.2 b.2

theorem Alongside.get? {as : Entries α} {bs : Entries β} (h : Alongside R as bs) (key : Value) :
    as.get? key = none ∧ bs.get? key = none ∨
      ∃ a b, as.get? key = some a ∧ bs.get? key = some b ∧ R a b := by
  induction h with
  | nil => exact .inl ⟨rfl, rfl⟩
  | @cons a b as bs hab _ ih =>
    obtain ⟨k, a⟩ := a
    obtain ⟨k', b⟩ := b
    obtain ⟨rfl, hab⟩ : k = k' ∧ R a b := hab
    by_cases hit : (k == key) = true
    · exact .inr ⟨a, b, by simp [Entries.get?, hit], by simp [Entries.get?, hit], hab⟩
    · simpa [Entries.get?, hit] using ih

theorem Alongside.insert {as : Entries α} {bs : Entries β} (h : Alongside R as bs) (key : Value)
    {a : α} {b : β} (hab : R a b) : Alongside R (as.insert key a) (bs.insert key b) := by
  induction h with
  | nil => exact .cons ⟨rfl, hab⟩ .nil
  | @cons x y as bs hxy hrest ih =>
    obtain ⟨k, x⟩ := x
    obtain ⟨k', y⟩ := y
    obtain ⟨rfl, hxy⟩ : k = k' ∧ R x y := hxy
    by_cases hit : (k == key) = true
    · simpa only [Entries.insert, hit, if_true] using .cons ⟨rfl, hab⟩ hrest
    · simpa only [Entries.insert, hit, if_false] using .cons ⟨rfl, hxy⟩ ih

end Entries

theorem forall₂_of_mapM_zip {α β γ : Type} {R : α → β → Prop} {Q : α → γ → Prop}
    {f : α × β → Except Error γ} {as : List α} {bs : List β} {cs : List γ}
    (h : List.Forall₂ R as bs) (step : ∀ a b c, R a b → f (a, b) = .ok c → Q a c)
    (run : (as.zip bs).mapM f = .ok cs) : List.Forall₂ Q as cs := by
  induction h generalizing cs with
  | nil =>
    cases run
    exact .nil
  | cons hab _ ih =>
    rw [List.zip_cons_cons, List.mapM_cons] at run
    obtain ⟨c, hc, run⟩ := Analysis.bind_eq_ok.mp run
    obtain ⟨rest, hrest, run⟩ := Analysis.bind_eq_ok.mp run
    cases run
    exact .cons (step _ _ _ hab hc) (ih hrest)

/-! ### Groups -/

/-- The rows of a group, and its key, which is the one of its first row. -/
structure Members where
  key : List Value
  rows : List Value

/-- The group with one more row. -/
def Members.add (g : Members) (row : Value) : Members := { g with rows := g.rows ++ [row] }

namespace AggregateMeaning

variable {S : Semantics} {m : AggregateMeaning} {groups : Entries Members} {rows : List Value}
  {table table' : GroupTable} {record : GroupRecord} {g : Members} {row v : Value}

/-- Puts a row to the other rows with its key. -/
def gather (m : AggregateMeaning) (groups : Entries Members) (row : Value) :
    Except Error (Entries Members) := do
  let key ← m.keys row
  let normal := Value.tuple (key.map Value.hashKey)
  return groups.insert normal (((groups.get? normal).getD ⟨key, []⟩).add row)

/-- The rows of each group. -/
def members (m : AggregateMeaning) (rows : List Value) : Except Error (Entries Members) :=
  rows.foldlM m.gather []

theorem gather_eq {key : List Value} (hkey : m.keys row = .ok key) (groups : Entries Members) :
    m.gather groups row = .ok (groups.insert (.tuple (key.map Value.hashKey))
      (((groups.get? (.tuple (key.map Value.hashKey))).getD ⟨key, []⟩).add row)) := by
  rw [gather, hkey]
  rfl

/-- A record is what the rows of a group have made of it. -/
structure Recorded (S : Semantics) (m : AggregateMeaning) (g : Members) (record : GroupRecord) :
    Prop where
  key : record.key = g.key
  slots : List.Forall₂ (fun slot acc => g.rows.foldlM (slot.feed S) none = .ok acc) m.slots
    record.slots

theorem recorded_nil (key : List Value) :
    m.Recorded S ⟨key, []⟩ ⟨key, m.slots.map fun _ => none⟩ :=
  ⟨rfl, List.forall₂_map_right_iff.mpr (List.forall₂_same.mpr fun _ _ => rfl)⟩

/-- A row of a group goes to the slots of its record. -/
theorem Recorded.feed (h : m.Recorded S g record) {slots : List (Option Accumulator)}
    (run : ((m.slots.zip record.slots).mapM fun s => s.1.feed S s.2 row) = .ok slots) :
    m.Recorded S (g.add row) { record with slots } := by
  refine ⟨h.key, forall₂_of_mapM_zip h.slots (fun slot acc acc' hrows hrow => ?_) run⟩
  rw [Members.add, List.foldlM_append, hrows]
  change (slot.feed S acc row >>= pure) = _
  rw [hrow]
  rfl

/-- The table of an aggregate has a record for each group. -/
theorem alongside_feed (h : Entries.Alongside (m.Recorded S) groups table.toEntries)
    (run : m.feed S table row = .ok table') :
    ∃ groups', m.gather groups row = .ok groups' ∧
      Entries.Alongside (m.Recorded S) groups' table'.toEntries := by
  unfold AggregateMeaning.feed at run
  obtain ⟨key, hkey, run⟩ := Analysis.bind_eq_ok.mp run
  obtain ⟨slots, hslots, run⟩ := Analysis.bind_eq_ok.mp run
  cases run
  rw [Table.get?_eq] at hslots
  refine ⟨_, gather_eq hkey groups, ?_⟩
  rw [Table.toEntries_insert, Table.get?_eq]
  apply h.insert
  rcases h.get? (.tuple (key.map Value.hashKey)) with ⟨hg, hr⟩ | ⟨g, record, hg, hr, hrecorded⟩
  · rw [hr] at hslots
    rw [hg, hr]
    exact (recorded_nil key).feed hslots
  · rw [hr] at hslots
    rw [hg, hr]
    exact hrecorded.feed hslots

theorem alongside_empty :
    Entries.Alongside (m.Recorded S) [] (Table.empty : GroupTable).toEntries := .nil

theorem alongside_foldlM (h : Entries.Alongside (m.Recorded S) groups table.toEntries)
    (run : rows.foldlM (m.feed S) table = .ok table') :
    ∃ groups', rows.foldlM m.gather groups = .ok groups' ∧
      Entries.Alongside (m.Recorded S) groups' table'.toEntries := by
  induction rows generalizing groups table with
  | nil =>
    cases run
    exact ⟨groups, rfl, h⟩
  | cons row rows ih =>
    rw [List.foldlM_cons] at run
    obtain ⟨next, hnext, hrest⟩ := Analysis.bind_eq_ok.mp run
    obtain ⟨groups', hgather, h⟩ := alongside_feed h hnext
    obtain ⟨groups'', hgathers, h⟩ := ih h hrest
    refine ⟨groups'', ?_, h⟩
    rw [List.foldlM_cons, hgather]
    exact hgathers

/-- Every group has a row with its key. -/
theorem exists_row_of_gather {groups' : Entries Members}
    (keyed : ∀ g ∈ groups, ∃ row, m.keys row = .ok g.2.key)
    (h : m.gather groups row = .ok groups') : ∀ g ∈ groups', ∃ row, m.keys row = .ok g.2.key := by
  obtain ⟨key, hkey, -⟩ := Analysis.bind_eq_ok.mp h
  rw [gather_eq hkey] at h
  cases h
  intro g hg
  have old : ∃ row, m.keys row =
      .ok ((groups.get? (.tuple (key.map Value.hashKey))).getD ⟨key, []⟩).key := by
    cases hget : groups.get? (.tuple (key.map Value.hashKey)) with
    | none => exact ⟨row, hkey⟩
    | some g =>
      obtain ⟨e, he, rfl⟩ := Option.map_eq_some_iff.mp hget
      exact keyed e (List.mem_of_find?_eq_some he)
  rcases Entries.mem_insert hg with hg | ⟨hg, -⟩
  · exact keyed g hg
  · rw [hg]
    exact old

theorem exists_row_of_members {groups' : Entries Members}
    (keyed : ∀ g ∈ groups, ∃ row, m.keys row = .ok g.2.key)
    (h : rows.foldlM m.gather groups = .ok groups') :
    ∀ g ∈ groups', ∃ row, m.keys row = .ok g.2.key := by
  induction rows generalizing groups with
  | nil =>
    cases h
    exact keyed
  | cons row rows ih =>
    rw [List.foldlM_cons] at h
    obtain ⟨next, hnext, h⟩ := Analysis.bind_eq_ok.mp h
    exact ih (exists_row_of_gather keyed hnext) h

/-- The output of an aggregate for a group, evaluated with what its slots report. -/
def Emits (S : Semantics) (m : AggregateMeaning) (g : Members) (v : Value) : Prop :=
  ∃ values, List.Forall₂ (fun slot value => slot.Reported S g.rows value) m.slots values ∧
    m.emit ⟨g.key, values⟩ = .ok v

theorem Recorded.emits (h : m.Recorded S g record) (run : m.finish record = .ok v) :
    m.Emits S g v := by
  unfold AggregateMeaning.finish at run
  obtain ⟨values, hvalues, hemit⟩ := Analysis.bind_eq_ok.mp run
  refine ⟨values, ?_, h.key ▸ hemit⟩
  exact forall₂_of_mapM_zip h.slots (fun _ _ _ hrows hfinish => .fed hrows hfinish) hvalues

theorem emits_of_mapM {table : Entries GroupRecord} {vs : List Value}
    (h : Entries.Alongside (m.Recorded S) groups table)
    (run : (table.mapM fun g => m.finish g.2) = .ok vs) :
    List.Forall₂ (fun g v => m.Emits S g.2 v) groups vs := by
  induction h generalizing vs with
  | nil =>
    cases run
    exact .nil
  | cons hg _ ih =>
    rw [List.mapM_cons] at run
    obtain ⟨v, hv, run⟩ := Analysis.bind_eq_ok.mp run
    obtain ⟨rest, hrest, run⟩ := Analysis.bind_eq_ok.mp run
    cases run
    exact .cons (hg.2.emits hv) (ih hrest)

/-- A grouped aggregate gives the list of the outputs of its groups. -/
theorem emits_of_run (hgrouped : m.grouped = true) (run : m.run S rows = .ok v) :
    ∃ groups vs, m.members rows = .ok groups ∧ v = .list vs ∧
      List.Forall₂ (fun g v => m.Emits S g.2 v) groups vs := by
  unfold AggregateMeaning.run at run
  obtain ⟨table, htable, run⟩ := Analysis.bind_eq_ok.mp run
  rw [if_pos hgrouped] at run
  obtain ⟨vs, hvs, run⟩ := Analysis.bind_eq_ok.mp run
  cases run
  obtain ⟨groups, hgroups, h⟩ := alongside_foldlM alongside_empty htable
  exact ⟨groups, vs, hgroups, rfl, emits_of_mapM h hvs⟩

/-- The only group of rows that all have the empty key. -/
def onlyGroup (rows : List Value) : Entries Members :=
  if rows.isEmpty then [] else [(.tuple [], ⟨[], rows⟩)]

theorem members_of_keyless (hkeys : ∀ row, m.keys row = .ok []) (before rows : List Value) :
    rows.foldlM m.gather (onlyGroup before) = .ok (onlyGroup (before ++ rows)) := by
  induction rows generalizing before with
  | nil => rw [List.append_nil]; rfl
  | cons row rows ih =>
    have self : (Value.tuple [] == .tuple []) = true := Value.beq_self _
    have step : m.gather (onlyGroup before) row = .ok (onlyGroup (before ++ [row])) := by
      rw [gather_eq (hkeys row)]
      cases before with
      | nil => rfl
      | cons _ _ => simp [onlyGroup, Entries.get?, Entries.insert, Members.add, self]
    rw [List.foldlM_cons, step]
    change rows.foldlM m.gather (onlyGroup (before ++ [row])) = _
    rw [ih, List.append_assoc]
    rfl

theorem emits_of_mapM_empty {slots : List (Option Accumulator)}
    (hslots : m.slots.mapM (·.empty) = .ok slots) (run : m.finish ⟨[], slots⟩ = .ok v) :
    m.Emits S ⟨[], []⟩ v := by
  unfold AggregateMeaning.finish at run
  obtain ⟨values, hvalues, hemit⟩ := Analysis.bind_eq_ok.mp run
  refine ⟨values, ?_, hemit⟩
  exact (starts_of_mapM m.slots hslots hvalues).imp fun _ _ h => .started rfl h

/-- An aggregate without keys gives the output for all rows. -/
theorem emits_of_run_keyless (hgrouped : m.grouped = false) (hkeys : ∀ row, m.keys row = .ok [])
    (run : m.run S rows = .ok v) : m.Emits S ⟨[], rows⟩ v := by
  unfold AggregateMeaning.run at run
  obtain ⟨table, htable, run⟩ := Analysis.bind_eq_ok.mp run
  rw [if_neg (by simp [hgrouped])] at run
  obtain ⟨groups, hgroups, h⟩ := alongside_foldlM alongside_empty htable
  obtain rfl : groups = onlyGroup rows :=
    Except.ok.inj (hgroups.symm.trans (members_of_keyless hkeys [] rows))
  generalize table.toEntries = entries at h run
  cases rows with
  | nil =>
    cases h
    obtain ⟨slots, hslots, run⟩ := Analysis.bind_eq_ok.mp run
    exact emits_of_mapM_empty hslots run
  | cons row rows =>
    cases h with
    | cons hg hrest =>
      cases hrest
      exact hg.2.emits run

end AggregateMeaning

end DataExpr
