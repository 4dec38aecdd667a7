import DataExpr.Proofs.InitialFolds

/-!
# Groups one by one

An aggregate passes once over its rows and feeds the slots of many groups in turn.  Where nothing
fails, it gives what one gets by putting the rows of each group together first, and feeding each
slot of each group alone (`AggregateMeaning.run_eq_ok_iff`).  One direction is the equation of a
record with the rows of its group (`AggregateMeaning.Recorded.ofGroup_eq`); for the other, the
groups only grow (`Members.exists_prefix`), so a step that fails is one of some group.

An aggregate in a slot that hides from the analysis which error it reads may take that of another
slot (`Program.twoFirsts_stale`).
-/

namespace DataExpr

open Eval Lowering Reduction

variable {σ : Type}

/-! ### Rows apart by key -/

/-- The key of a row as it is compared with those of other rows. -/
def Members.normal (row : List Value × Value) : Value := .tuple (row.1.map Value.hashKey)

/-- The groups of rows with their keys, in the order of their first rows. -/
def groupsOf : List (List Value × Value) → List Members
  | [] => []
  | row :: rest =>
    let same (r : List Value × Value) := Members.normal row == Members.normal r
    ⟨row.1, row.2 :: (rest.filter same).map Prod.snd⟩ :: groupsOf (rest.filter fun r => !same r)
termination_by rows => rows.length
decreasing_by
  simp only [List.length_unattach, List.length_cons]
  exact Nat.lt_succ_of_le (Nat.le_trans (List.length_filter_le _ _) (by simp))

theorem Entries.exists_mem_insert {β : Type} (entries : Entries β) (key : Value) (value : β) :
    ∃ k, (k, value) ∈ entries.insert key value := by
  induction entries with
  | nil => exact ⟨key, List.mem_singleton_self _⟩
  | cons e rest ih =>
    obtain ⟨k, v⟩ := e
    rw [insert]
    split
    · exact ⟨k, List.mem_cons_self⟩
    · obtain ⟨k', hk'⟩ := ih
      exact ⟨k', List.mem_cons_of_mem _ hk'⟩

namespace Members

/-- Puts a row to the first group with its key, or into a new one. -/
def put (row : List Value × Value) : Entries Members → Entries Members
  | [] => [(normal row, ⟨row.1, [row.2]⟩)]
  | (k, g) :: rest =>
    if k == normal row then (k, g.add row.2) :: rest else (k, g) :: put row rest

/-- The groups with more rows. -/
def absorb : Entries Members → List (List Value × Value) → List Members
  | [], rows => groupsOf rows
  | (k, g) :: rest, rows =>
    { g with rows := g.rows ++ (rows.filter (k == normal ·)).map Prod.snd } ::
      absorb rest (rows.filter fun row => !(k == normal row))

theorem groupsOf_cons (row : List Value × Value) (rows : List (List Value × Value)) :
    groupsOf (row :: rows) =
      ⟨row.1, row.2 :: (rows.filter (normal row == normal ·)).map Prod.snd⟩ ::
        groupsOf (rows.filter fun r => !(normal row == normal r)) := by
  rw [groupsOf]

theorem absorb_nil (groups : Entries Members) : absorb groups [] = groups.map Prod.snd := by
  induction groups with
  | nil => rw [absorb, groupsOf]; rfl
  | cons e rest ih =>
    rw [absorb, List.filter_nil, List.filter_nil, ih]
    simp

theorem absorb_put (groups : Entries Members) (row : List Value × Value)
    (rows : List (List Value × Value)) :
    absorb (put row groups) rows = absorb groups (row :: rows) := by
  induction groups generalizing rows with
  | nil =>
    rw [put, absorb, absorb, absorb, groupsOf_cons]
    rfl
  | cons e rest ih =>
    obtain ⟨k, g⟩ := e
    rw [put, absorb]
    by_cases same : (k == normal row) = true
    · rw [if_pos same, absorb]
      simp [same, add]
    · rw [if_neg same, absorb, ih]
      simp [same]

theorem foldl_put (groups : Entries Members) (rows : List (List Value × Value)) :
    (rows.foldl (fun groups row => put row groups) groups).map Prod.snd = absorb groups rows := by
  induction rows generalizing groups with
  | nil => exact (absorb_nil groups).symm
  | cons row rows ih => rw [List.foldl_cons, ih, absorb_put]

/-- Groups only grow. -/
theorem exists_prefix {groups : Entries Members} {e : Value × Members} (he : e ∈ groups)
    (rows : List (List Value × Value)) :
    ∃ g ∈ absorb groups rows, e.2.rows <+: g.rows := by
  induction groups generalizing rows with
  | nil => cases he
  | cons a rest ih =>
    obtain ⟨k, g⟩ := a
    rw [absorb]
    rcases List.mem_cons.mp he with rfl | he
    · exact ⟨_, List.mem_cons_self, List.prefix_append _ _⟩
    · obtain ⟨g', hg', hprefix⟩ := ih he _
      exact ⟨g', List.mem_cons_of_mem _ hg', hprefix⟩

theorem insert_eq_put (groups : Entries Members) (row : List Value × Value) :
    groups.insert (normal row) (((groups.get? (normal row)).getD ⟨row.1, []⟩).add row.2) =
      put row groups := by
  induction groups with
  | nil => rfl
  | cons e rest ih =>
    obtain ⟨k, g⟩ := e
    by_cases same : (k == normal row) = true
    · simp [Entries.insert, Entries.get?, put, same]
    · simpa [Entries.insert, Entries.get?, put, same] using ih

end Members

namespace AggregateMeaning

/-- The rows with their keys. -/
def keyed (m : AggregateMeaning) (rows : List Value) : Except Error (List (List Value × Value)) :=
  rows.mapM fun row => return (← m.keys row, row)

/-- The groups of the rows. -/
def groups (m : AggregateMeaning) (rows : List Value) : Except Error (List Members) := do
  return groupsOf (← m.keyed rows)

variable {S : Semantics} {m : AggregateMeaning} {groups : Entries Members} {rows : List Value}
  {table table' : GroupTable} {record : GroupRecord} {g : Members} {row v : Value}

theorem foldlM_gather (groups : Entries Members) (rows : List Value) :
    rows.foldlM m.gather groups = do
      return (← m.keyed rows).foldl (fun groups row => Members.put row groups) groups := by
  induction rows generalizing groups with
  | nil => rfl
  | cons row rows ih =>
    rw [List.foldlM_cons, keyed, List.mapM_cons]
    cases hkey : m.keys row with
    | error err =>
      rw [gather, hkey]
      rfl
    | ok key =>
      rw [gather_eq hkey]
      refine (ih _).trans ?_
      change (m.keyed rows >>= _) = ((m.keyed rows >>= _) >>= _)
      cases m.keyed rows with
      | error err => rfl
      | ok rest =>
        refine congrArg (fun groups => Except.ok (List.foldl _ groups rest)) ?_
        exact Members.insert_eq_put groups (key, row)


theorem members_eq : (m.members rows).map (List.map Prod.snd) = m.groups rows := by
  rw [members, foldlM_gather, groups]
  cases m.keyed rows with
  | error err => rfl
  | ok keyed =>
    refine congrArg Except.ok ((Members.foldl_put [] keyed).trans ?_)
    rw [Members.absorb]

end AggregateMeaning

/-! ### Groups alone -/

/-- What a slot reports after these rows and no others. -/
def SlotMeaning.alone (S : Semantics) (m : SlotMeaning) (rows : List Value) :
    Except Error (Option Value) := do
  finishSlot m.kind (← rows.foldlM (m.feed S) none)

namespace AggregateMeaning

variable {S : Semantics} {m : AggregateMeaning} {groups : Entries Members} {rows : List Value}
  {table table' : GroupTable} {record : GroupRecord} {g : Members} {row v : Value}

variable (S m) in
/-- The output for a group, with each slot fed alone. -/
def outputOf (g : Members) : Result := do
  m.emit ⟨g.key, ← m.slots.mapM (·.alone S g.rows)⟩

variable (S m) in
/-- The outputs of the groups, which are put together first; without keys, all rows are one. -/
def runGroups (rows : List Value) : Result := do
  if m.grouped then return .list (← (← m.groups rows).mapM (m.outputOf S))
  else m.outputOf S ⟨[], rows⟩

/-- A record gives what the rows of its group give alone. -/
theorem Recorded.outputOf_eq (h : m.Recorded S g record) : m.outputOf S g = m.finish record := by
  have slots {slots : List SlotMeaning} {accs : List (Option Accumulator)}
      (h : List.Forall₂ (fun slot acc => g.rows.foldlM (slot.feed S) none = .ok acc) slots accs) :
      slots.mapM (·.alone S g.rows) = (slots.zip accs).mapM fun s => finishSlot s.1.kind s.2 := by
    induction h with
    | nil => rfl
    | cons hacc _ ih =>
      rw [List.mapM_cons, ih, List.zip_cons_cons, List.mapM_cons, SlotMeaning.alone, hacc]
      rfl
  rw [outputOf, finish, slots h.slots, h.key]

theorem mapM_outputOf {table : Entries GroupRecord}
    (h : Entries.Alongside (m.Recorded S) groups table) :
    (groups.map Prod.snd).mapM (m.outputOf S) = table.mapM fun g => m.finish g.2 := by
  induction h with
  | nil => rfl
  | cons hg _ ih => rw [List.map_cons, List.mapM_cons, List.mapM_cons, ih, hg.2.outputOf_eq]

theorem recorded_get? (h : Entries.Alongside (m.Recorded S) groups table.toEntries)
    (normal : Value) (key : List Value) :
    m.Recorded S ((groups.get? normal).getD ⟨key, []⟩)
      ((table.get? normal).getD ⟨key, m.slots.map fun _ => none⟩) := by
  rw [Table.get?_eq]
  rcases h.get? normal with ⟨hg, hr⟩ | ⟨g, record, hg, hr, hrecorded⟩
  · rw [hg, hr]
    exact recorded_nil key
  · rw [hg, hr]
    exact hrecorded

/-- A row can be fed to the slots of a record if they can be fed the rows of the group with it. -/
theorem Recorded.exists_slots (h : m.Recorded S g record) (row : Value)
    (all : ∀ slot ∈ m.slots, ∃ acc, (g.add row).rows.foldlM (slot.feed S) none = .ok acc) :
    ∃ slots, ((m.slots.zip record.slots).mapM fun s => s.1.feed S s.2 row) = .ok slots := by
  obtain ⟨-, hslots⟩ := h
  generalize record.slots = accs at hslots ⊢
  generalize m.slots = slots at hslots all ⊢
  induction hslots with
  | nil => exact ⟨[], rfl⟩
  | @cons slot acc _ _ hacc _ ih =>
    obtain ⟨⟨next, hnext⟩, hrest⟩ := List.forall_mem_cons.mp all
    obtain ⟨rest, hrest⟩ := ih hrest
    have fed : slot.feed S acc row = .ok next := by
      rw [Members.add, List.foldlM_append, hacc] at hnext
      change (slot.feed S acc row >>= pure) = _ at hnext
      rwa [bind_pure] at hnext
    refine ⟨next :: rest, ?_⟩
    rw [List.zip_cons_cons, List.mapM_cons, fed, hrest]
    rfl

theorem exists_of_prefix {α β : Type} {f : β → α → Except Error β} {as bs : List α} {b c : β}
    (h : as <+: bs) (run : bs.foldlM f b = .ok c) : ∃ c, as.foldlM f b = .ok c := by
  obtain ⟨rest, rfl⟩ := h
  rw [List.foldlM_append] at run
  obtain ⟨c, hc, -⟩ := Analysis.bind_eq_ok.mp run
  exact ⟨c, hc⟩

/-- Where the slots of each group can be fed alone, they can be fed in turn. -/
theorem exists_table (h : Entries.Alongside (m.Recorded S) groups table.toEntries)
    {keyed : List (List Value × Value)} (hkeyed : m.keyed rows = .ok keyed)
    (all : ∀ g ∈ Members.absorb groups keyed, ∀ slot ∈ m.slots,
      ∃ acc, g.rows.foldlM (slot.feed S) none = .ok acc) :
    ∃ table', rows.foldlM (m.feed S) table = .ok table' := by
  induction rows generalizing groups table keyed with
  | nil => exact ⟨table, rfl⟩
  | cons row rows ih =>
    rw [AggregateMeaning.keyed, List.mapM_cons] at hkeyed
    obtain ⟨_, hfirst, hkeyed⟩ := Analysis.bind_eq_ok.mp hkeyed
    obtain ⟨key, hkey, hfirst⟩ := Analysis.bind_eq_ok.mp hfirst
    obtain ⟨rest, hrest, hkeyed⟩ := Analysis.bind_eq_ok.mp hkeyed
    cases hfirst
    cases hkeyed
    rw [← Members.absorb_put, ← Members.insert_eq_put] at all
    -- The group of the row is a part of one of the groups in the end.
    have recorded := recorded_get? h (Members.normal (key, row)) key
    obtain ⟨k, hmem⟩ := Entries.exists_mem_insert groups (Members.normal (key, row))
      (((groups.get? (Members.normal (key, row))).getD ⟨key, []⟩).add row)
    obtain ⟨g, hg, hprefix⟩ := Members.exists_prefix hmem rest
    obtain ⟨slots, hslots⟩ := recorded.exists_slots row fun slot hslot =>
      exists_of_prefix hprefix (all g hg slot hslot).choose_spec
    have fed : m.feed S table row = .ok (table.insert (Members.normal (key, row))
        { (table.get? (Members.normal (key, row))).getD ⟨key, m.slots.map fun _ => none⟩ with
          slots }) := by
      unfold AggregateMeaning.feed
      exact Analysis.bind_eq_ok.mpr ⟨key, hkey, Analysis.bind_eq_ok.mpr ⟨slots, hslots, rfl⟩⟩
    obtain ⟨groups', hgather, h'⟩ := alongside_feed h fed
    rw [gather_eq hkey] at hgather
    cases hgather
    rw [List.foldlM_cons, fed]
    exact ih h' hrest all

theorem exists_of_mem_mapM {α β : Type} {f : α → Except Error β} {as : List α} {bs : List β}
    (h : as.mapM f = .ok bs) {a : α} (ha : a ∈ as) : ∃ b, f a = .ok b := by
  obtain ⟨i, hi⟩ := List.mem_iff_getElem?.mp ha
  obtain ⟨b, -, hb⟩ := Expr.getElem?_of_mapM h hi
  exact ⟨b, hb⟩

/-- The output for a group needs what its slots make of its rows. -/
theorem exists_of_outputOf (h : m.outputOf S g = .ok v) :
    ∀ slot ∈ m.slots, ∃ acc, g.rows.foldlM (slot.feed S) none = .ok acc := by
  intro slot hslot
  obtain ⟨values, hvalues, -⟩ := Analysis.bind_eq_ok.mp h
  obtain ⟨value, hvalue⟩ := exists_of_mem_mapM hvalues hslot
  obtain ⟨acc, hacc, -⟩ := Analysis.bind_eq_ok.mp hvalue
  exact ⟨acc, hacc⟩

/-- All rows have the empty key, or there are keys to tell groups apart. -/
def Grouping (m : AggregateMeaning) (rows : List Value) : Prop :=
  m.grouped = true ∨ m.grouped = false ∧ rows ≠ [] ∧ ∀ row, m.keys row = .ok []

/-- Without keys all rows are one group. -/
theorem groups_keyless (hkeys : ∀ row, m.keys row = .ok []) (hrows : rows ≠ []) :
    m.groups rows = .ok [⟨[], rows⟩] := by
  have only : m.members rows = .ok (onlyGroup rows) := members_of_keyless hkeys [] rows
  rw [← members_eq, only]
  cases rows with
  | nil => exact absurd rfl hrows
  | cons row rest => rfl

/-- Where all rows can be fed, one pass is the same as the groups one by one. -/
theorem run_eq_runGroups (h : m.Grouping rows)
    (htable : rows.foldlM (m.feed S) Table.empty = .ok table) :
    m.run S rows = m.runGroups S rows := by
  obtain ⟨groups, hgroups, alongside⟩ := alongside_foldlM alongside_empty htable
  unfold AggregateMeaning.run
  rw [htable, show (Except.ok table : Except Error GroupTable) = pure table from rfl, pure_bind]
  rcases h with hgrouped | ⟨hgrouped, hrows, hkeys⟩
  · have hmembers : (m.members rows).map (List.map Prod.snd) = m.groups rows := members_eq
    rw [show m.members rows = .ok groups from hgroups] at hmembers
    rw [runGroups, if_pos hgrouped, if_pos hgrouped, ← hmembers]
    change _ = ((groups.map Prod.snd).mapM (m.outputOf S) >>= fun vs => pure (Value.list vs))
    rw [mapM_outputOf alongside]
  · obtain rfl : groups = onlyGroup rows :=
      Except.ok.inj (hgroups.symm.trans (members_of_keyless hkeys [] rows))
    rw [runGroups, hgrouped]
    cases rows with
    | nil => exact absurd rfl hrows
    | cons row rest =>
      generalize table.toEntries = entries at alongside ⊢
      cases alongside with
      | cons hg hrest =>
        cases hrest
        rw [if_neg Bool.false_ne_true, if_neg Bool.false_ne_true]
        exact hg.2.outputOf_eq.symm

/-- **One pass gives what the groups give one by one.** -/
theorem run_eq_ok_iff (h : m.Grouping rows) :
    m.run S rows = .ok v ↔ m.runGroups S rows = .ok v := by
  constructor
  · intro run
    have htable := run
    unfold AggregateMeaning.run at htable
    obtain ⟨table, htable, -⟩ := Analysis.bind_eq_ok.mp htable
    rwa [← run_eq_runGroups h htable]
  · intro run
    obtain ⟨groups, hgroups, all⟩ : ∃ groups, m.groups rows = .ok groups ∧
        ∀ g ∈ groups, ∃ v, m.outputOf S g = .ok v := by
      rw [runGroups] at run
      rcases h with hgrouped | ⟨hgrouped, hrows, hkeys⟩
      · rw [if_pos hgrouped] at run
        obtain ⟨groups, hgroups, run⟩ := Analysis.bind_eq_ok.mp run
        obtain ⟨vs, hvs, -⟩ := Analysis.bind_eq_ok.mp run
        exact ⟨groups, hgroups, fun g hg => exists_of_mem_mapM hvs hg⟩
      · rw [if_neg (by simp [hgrouped])] at run
        exact ⟨_, groups_keyless hkeys hrows, List.forall_mem_singleton.mpr ⟨v, run⟩⟩
    obtain ⟨keyed, hkeyed, hgroups⟩ := Analysis.bind_eq_ok.mp hgroups
    cases hgroups
    obtain ⟨table, htable⟩ := exists_table (alongside_empty (m := m) (S := S)) hkeyed
      fun g hg => exists_of_outputOf (all g (Members.absorb.eq_1 keyed ▸ hg)).choose_spec
    rwa [run_eq_runGroups h htable]

/-- A group has rows, and its key is the one of a row. -/
theorem of_mem_groupsOf {rows : List (List Value × Value)} (h : g ∈ groupsOf rows) :
    g.rows ≠ [] ∧ ∃ row ∈ rows, row.1 = g.key := by
  induction hn : rows.length using Nat.strongRecOn generalizing rows with
  | _ n ih =>
    cases rows with
    | nil =>
      rw [groupsOf] at h
      cases h
    | cons row rest =>
      rw [Members.groupsOf_cons] at h
      rcases List.mem_cons.mp h with rfl | h
      · exact ⟨List.cons_ne_nil _ _, row, List.mem_cons_self, rfl⟩
      · have shorter :
            (rest.filter fun r => !(Members.normal row == Members.normal r)).length < n :=
          hn ▸ Nat.lt_succ_of_le (List.length_filter_le _ _)
        obtain ⟨hrows, r, hr, hkey⟩ := ih _ shorter h rfl
        exact ⟨hrows, r, List.mem_cons_of_mem _ (List.mem_filter.mp hr).1, hkey⟩

/-- Rows come with their keys. -/
theorem keys_of_mem_keyed {keyed : List (List Value × Value)} (h : m.keyed rows = .ok keyed) :
    ∀ row ∈ keyed, m.keys row.2 = .ok row.1 := by
  induction rows generalizing keyed with
  | nil =>
    cases h
    exact fun _ hrow => absurd hrow List.not_mem_nil
  | cons first rest ih =>
    rw [AggregateMeaning.keyed, List.mapM_cons] at h
    obtain ⟨_, hfirst, h⟩ := Analysis.bind_eq_ok.mp h
    obtain ⟨key, hkey, hfirst⟩ := Analysis.bind_eq_ok.mp hfirst
    obtain ⟨keyed, hrest, h⟩ := Analysis.bind_eq_ok.mp h
    cases hfirst
    cases h
    exact List.forall_mem_cons.mpr ⟨hkey, ih hrest⟩

theorem of_mem_groups {groups : List Members} (h : m.groups rows = .ok groups) (hg : g ∈ groups) :
    g.rows ≠ [] ∧ ∃ row, m.keys row = .ok g.key := by
  obtain ⟨keyed, hkeyed, h⟩ := Analysis.bind_eq_ok.mp h
  cases h
  obtain ⟨hrows, row, hrow, hkey⟩ := of_mem_groupsOf hg
  exact ⟨hrows, row.2, hkey ▸ keys_of_mem_keyed hkeyed row hrow⟩

end AggregateMeaning

/-! ### Outputs of groups -/

theorem SlotMeaning.reported_of_alone {S : Semantics} {m : SlotMeaning} {rows : List Value}
    {value : Option Value} (h : m.alone S rows = .ok value) : m.Reported S rows value := by
  obtain ⟨slot, hslot, hfinish⟩ := Analysis.bind_eq_ok.mp h
  exact .fed hslot hfinish

theorem SlotMeaning.Reported.alone_eq {S : Semantics} {m : SlotMeaning} {rows : List Value}
    {value : Option Value} (h : m.Reported S rows value) (hrows : rows ≠ []) :
    m.alone S rows = .ok value := by
  cases h with
  | fed run finish => exact Analysis.bind_eq_ok.mpr ⟨_, run, finish⟩
  | started hnil _ => exact absurd hnil hrows

namespace Expr

variable {S : Semantics} {f d : Expr} {s s' : Scene} {r : Registry} {keys : List (Smaller f)}
  {output : Smaller f} {reducers : List (Reducer (Smaller f))} {rows : List Value}
  {values : List (Option Value)} {g : Members} {input v : Value}

/-- Each reducer of this output reports for a group what a slot of its own reports, fed with the
    rows of the group and nothing else, or its fallback if that reports nothing. -/
def ReportsAlone (S : Semantics) (s : Scene) (rows : List Value) (view : OutputView)
    (output : Expr) : Prop :=
  ∀ d, Beside d output → ∀ red : Reducer (Smaller d), d.parts = .reducer red →
    ∃ value, (red.slotMeaning (fun c => c.1.meaning S) s).alone S rows = .ok value ∧
      ∀ s' : Scene, s'.output = some view ∨ s'.output = some view.nested →
        d.meaning S s' = match value with
          | some v => .ok v
          | none => red.fallback (fun c => c.1.meaning S) s'

theorem reportsAlone (hf : f.Tame r) (hnode : f.parts = .aggregate keys output)
    (hslots : output.slots = .ok reducers) (hrows : g.rows ≠ [])
    (hkey : ∃ row, (keys.mapM fun k => k.1.meaning S (s.onRow (.ok row))) = .ok g.key)
    (hvalues : ((reducers.map (Reducer.slotMeaning (fun c => c.1.meaning S) s)).mapM
      (·.alone S g.rows)) = .ok values) :
    output.1.ReportsAlone S s g.rows
      (.ofGroup (keys.map (·.1)) (reducers.map Smaller.plain) ⟨g.key, values⟩) := by
  intro d hd red hparts
  obtain ⟨hwithin, hkeys⟩ := within_of_aggregate hnode
  -- Slot by slot, since a record is filled slot by slot.
  have reported : List.Forall₂ (fun slot value => slot.Reported S g.rows value)
      (reducers.map (Reducer.slotMeaning (fun c => c.1.meaning S) s)) values := by
    generalize reducers.map (Reducer.slotMeaning (fun c => c.1.meaning S) s) = slots at hvalues
    induction slots generalizing values with
    | nil =>
      cases hvalues
      exact .nil
    | cons slot slots ih =>
      rw [List.mapM_cons] at hvalues
      obtain ⟨value, hvalue, hvalues⟩ := Analysis.bind_eq_ok.mp hvalues
      obtain ⟨rest, hrest, hvalues⟩ := Analysis.bind_eq_ok.mp hvalues
      cases hvalues
      exact .cons (SlotMeaning.reported_of_alone hvalue) (ih hrest)
  obtain ⟨-, value, hvalue, hslot⟩ := exists_reported hf hnode hslots reported hd hparts g.key
  obtain ⟨row, hkey⟩ := hkey
  refine ⟨value, hvalue.alone_eq hrows, fun s' houtput => ?_⟩
  -- No key of the group is a reducer, so a reducer is answered by the record.
  have keyless : s'.key? d = none := by
    rcases houtput with h | h
    · exact key?_reducer hf (hd.within.trans hwithin) hparts hkeys hkey h
    · rw [Scene.key?, h]
      rfl
  have slot : (s'.output.bind fun view => view.slot? (Smaller.plain red)) = some value := by
    rcases houtput with h | h
    · rw [h]
      exact hslot
    · rw [h]
      exact hslot
  rw [meaning_of_node keyless, hparts]
  change red.meaning _ s' = _
  rw [Reducer.meaning, slot]
  cases value <;> rfl

/-- An aggregate on this scene gives what its groups give one by one. -/
def SeparatesGroups (S : Semantics) (s : Scene) (f : Expr) (keys : List (Smaller f))
    (output : Smaller f) (rows : List Value) : Prop :=
  (∀ v, f.meaning S s = .ok v ↔ ∃ reducers, output.slots = .ok reducers ∧
    (aggregateMeaning (fun c => c.1.meaning S) s keys output reducers).runGroups S rows = .ok v) ∧
  ∀ reducers, output.slots = .ok reducers →
    let m := aggregateMeaning (fun c => c.1.meaning S) s keys output reducers
    ∀ groups, m.groups rows = .ok groups → ∀ g ∈ groups, ∀ values,
      (m.slots.mapM (·.alone S g.rows)) = .ok values → output.1.ReportsAlone S s g.rows
        (.ofGroup (keys.map (·.1)) (reducers.map Smaller.plain) ⟨g.key, values⟩)

theorem separatesGroups (hf : f.Tame r) (hnode : f.parts = .aggregate keys output)
    (hkey : s.key? f = none) (hinput : s.input = .ok input) (hrows : input.elements = .ok rows)
    (h : keys ≠ [] ∨ rows ≠ []) : SeparatesGroups S s f keys output rows := by
  constructor
  · intro v
    rw [meaning_of_node hkey, hnode, Node.meaning, hinput]
    change (input.elements >>= fun rows => _) = _ ↔ _
    rw [hrows]
    cases hslots : output.slots with
    | error err =>
      constructor
      · intro h
        cases h
      · rintro ⟨_, h, -⟩
        cases h
    | ok reducers =>
      change (aggregateMeaning (fun c => c.1.meaning S) s keys output reducers).run S rows = _ ↔ _
      have grouping : (aggregateMeaning (fun c => c.1.meaning S) s keys output reducers).Grouping
          rows := by
        cases keys with
        | nil => exact .inr ⟨rfl, h.resolve_left fun hne => hne rfl, fun _ => rfl⟩
        | cons key rest => exact .inl rfl
      rw [AggregateMeaning.run_eq_ok_iff grouping]
      simp
  · intro reducers hslots m groups hgroups g hg values hvalues
    obtain ⟨hne, row, hrow⟩ := AggregateMeaning.of_mem_groups hgroups hg
    exact reportsAlone hf hnode hslots hne ⟨row, hrow⟩ hvalues

end Expr

namespace Program

variable {S : Semantics} {host : Host σ} {r : Registry} {e : Expr} {signature : Signature}
  {threshold : Weight.Threshold} {program : Program} {params : Params} {values : List Value}

/-- **One pass over the rows is the same as one group after the other.**  A program computes a
    meaning in which each aggregate with keys or rows gives a value just if its groups, put
    together first, give it one by one with each slot fed alone; and in the output for a group
    each reducer reports what a slot of its own reports for the rows of the group, or else its
    fallback. -/
theorem call_separateGroups (hS : S.Describes host) (he : e.Tame r)
    (h : Program.ofExpr e signature threshold = .ok program)
    (hvalues : program.params.bind params = .ok values) (input : Value) (state : σ) :
    (program.call host input params state).1 =
        e.meaning S (.start input (program.params.valueOf values)) ∧
      ∀ f, Expr.Within f e → ∀ keys output, f.parts = .aggregate keys output →
        ∀ (s : Scene) x rows, s.key? f = none → s.input = .ok x → x.elements = .ok rows →
          keys ≠ [] ∨ rows ≠ [] → Expr.SeparatesGroups S s f keys output rows :=
  ⟨call_eq_of_bind hS he h hvalues input state,
    fun _ hf _ _ hnode _ _ _ hkey hinput hrows hne =>
      Expr.separatesGroups (he.within hf) hnode hkey hinput hrows hne⟩

/-- For each item of the input the greatest of its occurrences is reported by a slot alone. -/
theorem call_separateGroups_atLeastSeven : ∃ program reducers v,
    Program.ofExpr atLeastSeven [] Weight.bindingThreshold = .ok program ∧
      (program.call Host.none (.list someItems) .none ()).1 = .ok v ∧
      largest.slots = .ok reducers ∧
      (aggregateMeaning (fun c => c.1.meaning .none)
        (.start (.list someItems) (program.params.valueOf [])) [eachItem] largest
        reducers).runGroups .none someItems = .ok v := by
  obtain ⟨program, h, hparams⟩ := exists_closed (e := atLeastSeven) (by decide +kernel)
  have runs : ((Program.ofExpr atLeastSeven [] Weight.bindingThreshold).toOption.bind
      fun program => (program.call Host.none (.list someItems) .none ()).1.toOption).isSome =
        true := by
    decide +kernel
  rw [h] at runs
  obtain ⟨v, hv⟩ := exists_of_isSome runs
  have hvalues : program.params.bind .none = .ok [] := by
    rw [hparams]
    rfl
  obtain ⟨hcall, separates⟩ := call_separateGroups describes_none
    (tame_atLeastSeven ⟨fun i => ⟨i, "", true⟩, fun _ => ("", [])⟩) h hvalues
    (.list someItems) ()
  rw [hv] at hcall
  obtain ⟨reducers, hslots, run⟩ := ((separates atLeastSeven (.refl _) [eachItem] largest rfl
    _ _ _ rfl rfl rfl (.inl (List.cons_ne_nil _ _))).1 v).mp hcall.symm
  exact ⟨program, reducers, v, h, hv, hslots, run⟩

-- Rows apart by their parity.
example : (groupsOf [([.int 1], .int 5), ([.int 0], .int 2), ([.int 1], .int 7)]).map Members.rows =
    [[.int 5, .int 7], [.int 2]] := by
  cbv

/-- The first rows, once with a quotient and once with an item in front, both of which fail and
    fall back to the error that an aggregate takes for the outer one. -/
def twoFirsts : Expr :=
  .mk 0 (.aggregate [] (.mk 1 (.collection .tuple
    [.mk 2 (.reducer ⟨.first, [.mk 3 (.guarded
      (.mk 4 (.binary .div (.mk 5 (.constant (.int 1))) (.mk 6 (.constant (.int 0)))))
      [⟨[], outerError 10, none⟩])], none, none, none⟩),
    .mk 7 (.reducer ⟨.first, [itemOrError 20 "x"], none, none, none⟩)])))

/-- The second slot reports the error of the first one, but alone it reports its own. -/
theorem twoFirsts_stale :
    (match Program.ofExpr twoFirsts [] Weight.bindingThreshold,
        Program.ofExpr (.mk 0 (.aggregate [] (.mk 7 (.reducer ⟨.first, [itemOrError 20 "x"],
          none, none, none⟩)))) [] Weight.bindingThreshold with
      | .ok program, .ok alone =>
        match (program.call Host.none (.list [.list [.int 1], .list [.int 2]]) .none ()).1,
          (alone.call Host.none (.list [.list [.int 1], .list [.int 2]]) .none ()).1 with
        | .ok (.tuple [_, v]), .ok w => v == .str "division by zero" &&
            w == .str "unsupported operand type(s) for index: 'list' and 'str'"
        | _, _ => false
      | _, _ => false) = true := by
  decide +kernel

end Program
end DataExpr
