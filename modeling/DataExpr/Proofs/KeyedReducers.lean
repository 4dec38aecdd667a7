import Mathlib.Data.List.Induction
import DataExpr.Proofs.ProperValues
import DataExpr.Proofs.Subexpressions
import DataExpr.Reduction.Accumulator

/-!
# Keyed reducers

A keyed reducer is its inner reducer run for each key.  The table of its cells is followed row by
row: a step touches the cell of the key of its row only, and does there what the inner reducer
does.  A slot that is not set yet behaves as one with an empty table, so rows that the inner kind
declines can be treated alike whether they come before or after the slot is set.
-/

namespace DataExpr

/-! ### Entries -/

namespace Entries

variable {β : Type}

/-- Whether a key is among the keys of the entries. -/
theorem any_keys (entries : Entries β) (key : Value) :
    (entries.map (·.1)).any (· == key) = (entries.get? key).isSome := by
  rw [List.any_map, get?, Option.isSome_map, List.isSome_find?]
  rfl

/-- An equal key finds the same entry. -/
theorem get?_congr (entries : Entries β) {key key' : Value} (proper : key.Proper)
    (h : (key == key') = true) : entries.get? key = entries.get? key' := by
  simp only [get?, proper.beq_congr h]

/-- Binding a key changes what is found under the equal keys, and nothing else. -/
theorem get?_insert (key : Value) (value : β) (entries : Entries β) (key' : Value)
    (proper : key.Proper) (keys : ∀ e ∈ entries, e.1.Proper) :
    (entries.insert key value).get? key' =
      if key == key' then some value else entries.get? key' := by
  induction entries with
  | nil => by_cases h : (key == key') = true <;> simp [insert, get?, h]
  | cons e rest ih =>
    obtain ⟨k, v⟩ := e
    have hk : k.Proper := keys (k, v) List.mem_cons_self
    have tail := ih fun e he => keys e (List.mem_cons_of_mem _ he)
    by_cases hit : (k == key) = true
    · have same : (k == key') = (key == key') := by
        rw [hk.beq_comm proper] at hit
        have hit' : (k == key) = true := Value.beq_symm _ _ proper hit
        exact Bool.eq_iff_iff.2
          ⟨Value.beq_trans key k key' hit, Value.beq_trans k key key' hit'⟩
      by_cases h : (key == key') = true <;> simp [insert, get?, hit, same, h]
    · by_cases h : (k == key') = true
      · have other : (key == key') = false := by
          by_contra h'
          have : (key == key') = true := by simpa using h'
          exact hit (Value.beq_trans k key' key h (Value.beq_symm key key' proper this))
        simp [insert, get?, hit, h, other]
      · simpa [insert, get?, hit, h] using tail

/-- A present key keeps its place and the others too. -/
theorem keys_insert_of_isSome {key : Value} {entries : Entries β}
    (present : (entries.get? key).isSome) (value : β) :
    (entries.insert key value).map (·.1) = entries.map (·.1) := by
  induction entries with
  | nil => simp [get?] at present
  | cons e rest ih =>
    obtain ⟨k, v⟩ := e
    by_cases hit : (k == key) = true
    · simp [insert, hit]
    · have tail : (get? rest key).isSome := by simpa [get?, hit] using present
      simp [insert, hit, ih tail]

theorem mem_insert {key : Value} {value : β} {entries : Entries β} {e : Value × β}
    (h : e ∈ entries.insert key value) :
    e ∈ entries ∨ e.2 = value ∧ (e.1 = key ∨ ∃ old, (e.1, old) ∈ entries) := by
  induction entries with
  | nil =>
    obtain rfl : e = (key, value) := by simpa [insert] using h
    exact .inr ⟨rfl, .inl rfl⟩
  | cons a rest ih =>
    obtain ⟨k, v⟩ := a
    by_cases hit : (k == key) = true
    · simp only [insert, hit, if_true, List.mem_cons] at h
      rcases h with rfl | h
      · exact .inr ⟨rfl, .inr ⟨v, List.mem_cons_self⟩⟩
      · exact .inl (List.mem_cons_of_mem _ h)
    · simp only [insert, hit, Bool.false_eq_true, if_false, List.mem_cons] at h
      rcases h with rfl | h
      · exact .inl List.mem_cons_self
      · rcases ih h with h | ⟨rfl, h | ⟨old, h⟩⟩
        · exact .inl (List.mem_cons_of_mem _ h)
        · exact .inr ⟨rfl, .inl h⟩
        · exact .inr ⟨rfl, .inr ⟨old, List.mem_cons_of_mem _ h⟩⟩

/-- Among distinct keys each entry is the one that its key finds. -/
theorem get?_of_mem {entries : Entries β}
    (distinct : (entries.map (·.1)).Pairwise fun a b => (a == b) = false) {e : Value × β}
    (he : e ∈ entries) : entries.get? e.1 = some e.2 := by
  induction entries with
  | nil => cases he
  | cons a rest ih =>
    obtain ⟨ha, distinct⟩ := List.pairwise_cons.1 distinct
    rcases List.mem_cons.1 he with rfl | he
    · have hit : (e.1 == e.1) = true := Value.beq_self e.1
      simp [get?, hit]
    · have miss : (a.1 == e.1) = false := ha e.1 (List.mem_map_of_mem he)
      simpa [get?, miss] using ih distinct he

end Entries

namespace Reduction

/-! ### Rows of a reducer -/

/-- Feeds the arguments of a row to a slot. -/
def take (kind : ReducerKind) (slot : Option Accumulator) (args : List Value) :
    Except Error (Option Accumulator) := do
  match slot with
  | none => Accumulator.first kind args
  | some acc => return some (← acc.combine kind args)

/-- Feeds rows of arguments to a slot that is not set. -/
def takeAll (kind : ReducerKind) (rows : List (List Value)) : Except Error (Option Accumulator) :=
  rows.foldlM (take kind) none

/-- What a reducer makes of rows of arguments, or none if it accepts none of them. -/
def reduced (kind : ReducerKind) (rows : List (List Value)) : Except Error (Option Value) := do
  finishSlot kind (← takeAll kind rows)

/-- Whether a row sets a slot that is not set. -/
def accepts (kind : ReducerKind) (args : List Value) : Bool :=
  match Accumulator.first kind args with
  | .ok (some _) => true
  | _ => false

/-- The rows with a key, without the key. -/
def ofKey (key : Value) (rows : List (List Value)) : List (List Value) :=
  (rows.filter fun row => rowValue row == key).map List.tail

/-- The distinct keys of the rows that the inner kind accepts, by their first such rows. -/
def acceptedKeys (inner : ReducerKind) (rows : List (List Value)) : List Value :=
  ((rows.filter fun row => accepts inner row.tail).map rowValue).eraseDups

theorem takeAll_concat (kind : ReducerKind) (rows : List (List Value)) (row : List Value) :
    takeAll kind (rows ++ [row]) = (takeAll kind rows).bind (take kind · row) := by
  simp only [takeAll, List.foldlM_append, List.foldlM_cons, List.foldlM_nil]
  cases rows.foldlM (take kind) none with
  | error e => rfl
  | ok slot => exact bind_pure (take kind slot row)

theorem ofKey_concat (key : Value) (rows : List (List Value)) (row : List Value) :
    ofKey key (rows ++ [row]) =
      if rowValue row == key then ofKey key rows ++ [row.tail] else ofKey key rows := by
  by_cases h : (rowValue row == key) = true <;> simp [ofKey, h]

theorem eraseDupsBy_loop_concat (r : Value → Value → Bool) (keys : List Value) (key : Value)
    (seen : List Value) :
    List.eraseDupsBy.loop r (keys ++ [key]) seen =
      if (List.eraseDupsBy.loop r keys seen).any (r key) then List.eraseDupsBy.loop r keys seen
      else List.eraseDupsBy.loop r keys seen ++ [key] := by
  induction keys generalizing seen with
  | nil => by_cases h : seen.any (r key) = true <;> simp [List.eraseDupsBy.loop, h]
  | cons k rest ih =>
    by_cases h : seen.any (r k) = true <;> simp [List.eraseDupsBy.loop, h, ih]

/-- A key is added at the end unless it is present or its row is declined. -/
theorem acceptedKeys_concat (inner : ReducerKind) (rows : List (List Value)) (row : List Value) :
    acceptedKeys inner (rows ++ [row]) =
      if accepts inner row.tail && !(acceptedKeys inner rows).any (rowValue row == ·)
      then acceptedKeys inner rows ++ [rowValue row] else acceptedKeys inner rows := by
  by_cases h : accepts inner row.tail = true
  · simp only [acceptedKeys, List.filter_append, List.map_append, List.filter_cons, h, if_true,
      List.filter_nil, List.map_cons, List.map_nil, List.eraseDups, List.eraseDupsBy,
      eraseDupsBy_loop_concat, Bool.true_and]
    split <;> simp_all
  · simp [acceptedKeys, h]

/-- No key is accepted exactly if no row is. -/
theorem acceptedKeys_eq_nil (inner : ReducerKind) (rows : List (List Value)) :
    acceptedKeys inner rows = [] ↔ ∀ row ∈ rows, accepts inner row.tail = false := by
  induction rows using List.reverseRecOn with
  | nil => simp [acceptedKeys]
  | append_singleton rows row ih =>
    rw [acceptedKeys_concat, List.forall_mem_append, List.forall_mem_singleton, ← ih]
    by_cases h : accepts inner row.tail = true
    · cases acceptedKeys inner rows with
      | nil => simp [h]
      | cons key keys =>
        simp only [h, reduceCtorEq, false_and, iff_false]
        split <;> simp
    · simp [h]

/-! ### Inner kinds -/

theorem keyedInner_inner {kind inner : ReducerKind} (h : kind.keyedInner = some inner) :
    inner.keyedInner = none := by
  cases kind <;> cases h <;> rfl

/-- A cell that an inner kind makes of a first row has a value. -/
theorem finishSlot_first {kind inner : ReducerKind} (h : kind.keyedInner = some inner)
    {args : List Value} {cell : Cell} (made : Cell.first inner args = .ok (some cell)) :
    ∃ v, finishSlot inner (some (.plain cell)) = .ok (some v) := by
  cases kind <;> cases h <;> simp only [Cell.first] at made
  all_goals
    first
    | cases made
      exact ⟨_, rfl⟩
    | split at made
      · cases made
      · cases made
        exact ⟨_, rfl⟩

/-- A cell that an inner kind makes of a cell and one more row has a value. -/
theorem finishSlot_combine {kind inner : ReducerKind} (h : kind.keyedInner = some inner)
    {args : List Value} {old cell : Cell} (made : old.combine inner args = .ok cell) :
    ∃ v, finishSlot inner (some (.plain cell)) = .ok (some v) := by
  cases kind <;> cases h <;> cases old <;>
    simp only [Cell.combine, reduceCtorEq, Analysis.bind_eq_ok] at made
  case dictSum.refl.value | dictSumOrNull.refl.value =>
    split at made
    · cases made
      exact ⟨_, rfl⟩
    · obtain ⟨total, -, made⟩ := Analysis.bind_eq_ok.1 made
      cases made
      exact ⟨_, rfl⟩
  case dictMax.refl.value | dictMin.refl.value =>
    obtain ⟨better, -, made⟩ := made
    cases made
    exact ⟨_, rfl⟩
  all_goals
    cases made
    exact ⟨_, rfl⟩

theorem finish_of_finishSlot {inner : ReducerKind} (plain : inner.keyedInner = none) {cell : Cell}
    {v : Value} (h : finishSlot inner (some (.plain cell)) = .ok (some v)) :
    cell.finish inner = .ok v := by
  simp only [finishSlot] at h
  split at h
  · cases h
  · obtain ⟨v', hfinish, h⟩ := Analysis.bind_eq_ok.1 h
    cases h
    simpa only [Accumulator.finish, plain] using hfinish

/-! ### The table of cells -/

/-- The cells of a keyed slot.  A slot that is not set has none. -/
def cellsOf : Option Accumulator → Entries Cell
  | some (.keyed cells) => cells.toEntries
  | _ => []

/-- A slot of a keyed reducer is set exactly if it has a cell. -/
def IsKeyed : Option Accumulator → Prop
  | some (.keyed cells) => cells.toEntries ≠ []
  | some (.plain _) => False
  | none => True

/-- Feeds a row to the cell of its key. -/
def takeCell (inner : ReducerKind) (cell? : Option Cell) (args : List Value) :
    Except Error (Option Cell) := do
  match cell? with
  | none => Cell.first inner args
  | some cell => return some (← cell.combine inner args)

theorem insert_ne_nil {β : Type} (key : Value) (value : β) (entries : Entries β) :
    entries.insert key value ≠ [] := by
  cases entries with
  | nil => simp [Entries.insert]
  | cons e rest =>
    obtain ⟨k, v⟩ := e
    by_cases h : (k == key) = true <;> simp [Entries.insert, h]

/-- A step of a keyed reducer is a step of the cell of its key. -/
theorem take_keyed {kind inner : ReducerKind} (h : kind.keyedInner = some inner)
    {slot slot' : Option Accumulator} (keyed : IsKeyed slot) {key : Value} {rest : List Value}
    (run : take kind slot (key :: rest) = .ok slot') :
    IsKeyed slot' ∧
      ∃ cell?, takeCell inner ((cellsOf slot).get? key) rest = .ok cell? ∧
        cellsOf slot' = match cell? with
          | some cell => (cellsOf slot).insert key cell
          | none => cellsOf slot := by
  -- The first row makes the table; later rows start or continue the cell of their key.
  match slot with
  | none =>
    simp only [take, Accumulator.first, h, splitKey] at run
    obtain ⟨_, hsplit, run⟩ := Analysis.bind_eq_ok.1 run
    cases hsplit
    obtain ⟨cell?, hfirst, run⟩ := Analysis.bind_eq_ok.1 run
    cases run
    cases cell? with
    | none => exact ⟨trivial, none, hfirst, rfl⟩
    | some cell =>
      refine ⟨?_, some cell, hfirst, ?_⟩
      · simp [IsKeyed]
      · simp [cellsOf, Entries.insert]
  | some (.plain cell) => cases keyed
  | some (.keyed cells) =>
    simp only [take, Accumulator.combine, h, splitKey] at run
    obtain ⟨acc, hcombine, run⟩ := Analysis.bind_eq_ok.1 run
    cases run
    obtain ⟨_, hsplit, hcombine⟩ := Analysis.bind_eq_ok.1 hcombine
    cases hsplit
    simp only [Table.get?_eq] at hcombine
    simp only [cellsOf]
    cases hget : Entries.get? cells.toEntries key with
    | some cell =>
      simp only [hget] at hcombine
      obtain ⟨cell', hcell, hcombine⟩ := Analysis.bind_eq_ok.1 hcombine
      cases hcombine
      refine ⟨?_, some cell', ?_, ?_⟩
      · simpa only [IsKeyed, Table.toEntries_insert] using insert_ne_nil key cell' cells.toEntries
      · simp only [takeCell, hcell]
        rfl
      · exact Table.toEntries_insert key cell' cells
    | none =>
      simp only [hget] at hcombine
      obtain ⟨cell?, hcell, hcombine⟩ := Analysis.bind_eq_ok.1 hcombine
      cases cell? with
      | none =>
        cases hcombine
        exact ⟨keyed, none, hcell, rfl⟩
      | some cell =>
        cases hcombine
        refine ⟨?_, some cell, hcell, Table.toEntries_insert key cell cells⟩
        simpa only [IsKeyed, Table.toEntries_insert] using insert_ne_nil key cell cells.toEntries

/-- A step of the inner reducer is a step of its cell. -/
theorem take_inner {kind inner : ReducerKind} (h : kind.keyedInner = some inner)
    (cell? : Option Cell) (args : List Value) :
    take inner (cell?.map .plain) args = (takeCell inner cell? args).map (·.map .plain) := by
  have plain := keyedInner_inner h
  cases cell? with
  | none => simp only [Option.map_none, take, Accumulator.first, takeCell, plain]; rfl
  | some cell =>
    simp only [Option.map_some, take, Accumulator.combine, takeCell, plain]
    cases cell.combine inner args <;> rfl

/-- An inner kind accepts a row when it makes a cell of it. -/
theorem accepts_eq {kind inner : ReducerKind} (h : kind.keyedInner = some inner)
    {args : List Value} {cell? : Option Cell} (made : Cell.first inner args = .ok cell?) :
    accepts inner args = cell?.isSome := by
  have : Accumulator.first inner args = .ok (cell?.map .plain) := by
    simp only [Accumulator.first, keyedInner_inner h, made]
    rfl
  cases cell? <;> simp [accepts, this]

/-- What the cells of a keyed reducer are after some rows: the cell that a key finds is what the
    inner reducer makes of the rows with this key. -/
structure Tracks (inner : ReducerKind) (rows : List (List Value)) (cells : Entries Cell) :
    Prop where
  proper : ∀ e ∈ cells, e.1.Proper
  distinct : (cells.map (·.1)).Pairwise fun a b => (a == b) = false
  keys : cells.map (·.1) = acceptedKeys inner rows
  finishes : ∀ e ∈ cells, ∃ v, finishSlot inner (some (.plain e.2)) = .ok (some v)
  perKey : ∀ key, takeAll inner (ofKey key rows) = .ok ((cells.get? key).map .plain)

namespace Tracks

variable {kind inner : ReducerKind} {rows : List (List Value)} {cells : Entries Cell}
  {row rest : List Value} {key : Value}

theorem nil (inner : ReducerKind) : Tracks inner [] [] where
  proper := by simp
  distinct := by simp
  keys := rfl
  finishes := by simp
  perKey _ := rfl

/-- The rows with a key, after one more row. -/
theorem takeAll_ofKey (h : kind.keyedInner = some inner) (tracks : Tracks inner rows cells)
    (proper : key.Proper) {cell? : Option Cell}
    (step : takeCell inner (cells.get? key) rest = .ok cell?) (key' : Value) :
    takeAll inner (ofKey key' (rows ++ [key :: rest])) =
      .ok ((if key == key' then cell? else cells.get? key').map .plain) := by
  rw [ofKey_concat]
  by_cases same : (key == key') = true
  · have hrow : (rowValue (key :: rest) == key') = true := same
    rw [if_pos hrow, if_pos same, takeAll_concat, tracks.perKey]
    rw [← Entries.get?_congr cells proper same]
    change take inner ((cells.get? key).map .plain) rest = _
    rw [take_inner h, step]
    rfl
  · have hrow : ¬ (rowValue (key :: rest) == key') = true := same
    rw [if_neg hrow, if_neg same, tracks.perKey]

/-- A key has a cell if a row with an equal key has been accepted. -/
theorem any_acceptedKeys (tracks : Tracks inner rows cells) (proper : key.Proper) :
    (acceptedKeys inner rows).any (key == ·) = (cells.get? key).isSome := by
  rw [← Entries.any_keys, ← tracks.keys]
  have comm : ∀ k ∈ cells.map (·.1), (key == k) = (k == key) := by
    intro k hk
    obtain ⟨e, he, rfl⟩ := List.mem_map.1 hk
    exact proper.beq_comm (tracks.proper e he)
  apply Bool.eq_iff_iff.2
  simp only [List.any_eq_true]
  constructor
  · rintro ⟨k, hk, h⟩
    exact ⟨k, hk, comm k hk ▸ h⟩
  · rintro ⟨k, hk, h⟩
    exact ⟨k, hk, (comm k hk).symm ▸ h⟩

/-- A cell that has just been written has a value. -/
theorem finishes_step (h : kind.keyedInner = some inner) {cell? : Option Cell} {cell : Cell}
    (step : takeCell inner cell? rest = .ok (some cell)) :
    ∃ v, finishSlot inner (some (.plain cell)) = .ok (some v) := by
  cases cell? with
  | none => exact finishSlot_first h step
  | some old =>
    obtain ⟨new, hnew, step⟩ := Analysis.bind_eq_ok.1 step
    cases step
    exact finishSlot_combine h hnew

/-- A row that its cell takes writes the cell of its key. -/
theorem insert (h : kind.keyedInner = some inner) (tracks : Tracks inner rows cells)
    (proper : key.Proper) {cell : Cell}
    (step : takeCell inner (cells.get? key) rest = .ok (some cell)) :
    Tracks inner (rows ++ [key :: rest]) (cells.insert key cell) := by
  -- One row is appended, and only the cell of its key changes.
  have present := tracks.any_acceptedKeys proper
  have concat := acceptedKeys_concat inner rows (key :: rest)
  simp only [rowValue, List.head?_cons, Option.getD_some, List.tail_cons, present] at concat
  constructor
  case proper =>
    intro e he
    rcases Entries.mem_insert he with he | ⟨-, hkey | ⟨old, he⟩⟩
    · exact tracks.proper e he
    · exact hkey ▸ proper
    · exact tracks.proper (e.1, old) he
  case finishes =>
    intro e he
    rcases Entries.mem_insert he with he | ⟨hcell, -⟩
    · exact tracks.finishes e he
    · exact hcell ▸ finishes_step h step
  case perKey =>
    intro key'
    rw [takeAll_ofKey h tracks proper step, Entries.get?_insert key cell cells key' proper
      tracks.proper]
  case distinct =>
    cases hget : cells.get? key with
    | some old =>
      rw [Entries.keys_insert_of_isSome (by simp [hget])]
      exact tracks.distinct
    | none =>
      rw [Entries.insert_of_none hget, List.map_append]
      have absent : (cells.map (·.1)).any (· == key) = false := by
        rw [Entries.any_keys, hget]
        rfl
      apply List.pairwise_append.2
      refine ⟨tracks.distinct, List.pairwise_singleton _ _, ?_⟩
      intro k hk k' hk'
      obtain rfl : k' = key := by simpa using hk'
      simpa using List.any_eq_false.1 absent k hk
  case keys =>
    cases hget : cells.get? key with
    | some old =>
      rw [Entries.keys_insert_of_isSome (by simp [hget]), concat, tracks.keys]
      simp [hget]
    | none =>
      rw [hget] at step
      rw [Entries.insert_of_none hget, List.map_append, concat, accepts_eq h step, tracks.keys]
      simp [hget]

/-- A row that is declined leaves the cells as they are. -/
theorem skip (h : kind.keyedInner = some inner) (tracks : Tracks inner rows cells)
    (proper : key.Proper) (step : takeCell inner (cells.get? key) rest = .ok none) :
    Tracks inner (rows ++ [key :: rest]) cells := by
  -- only a first row can be declined
  have hget : cells.get? key = none := by
    cases hget : cells.get? key with
    | none => rfl
    | some old =>
      rw [hget] at step
      obtain ⟨new, -, step⟩ := Analysis.bind_eq_ok.1 step
      cases step
  have concat := acceptedKeys_concat inner rows (key :: rest)
  constructor
  case proper => exact tracks.proper
  case finishes => exact tracks.finishes
  case distinct => exact tracks.distinct
  case keys =>
    rw [hget] at step
    rw [tracks.keys, concat]
    simp [accepts_eq h step]
  case perKey =>
    intro key'
    rw [takeAll_ofKey h tracks proper step]
    by_cases same : (key == key') = true
    · rw [if_pos same, ← Entries.get?_congr cells proper same, hget]
    · rw [if_neg same]

end Tracks

/-- What a keyed reducer makes of its rows, followed from any row on. -/
theorem tracks_foldlM {kind inner : ReducerKind} (h : kind.keyedInner = some inner)
    (rows : List (List Value)) (hrows : ∀ row ∈ rows, row ≠ [] ∧ (rowValue row).Proper)
    {before : List (List Value)} {slot slot' : Option Accumulator} (keyed : IsKeyed slot)
    (tracks : Tracks inner before (cellsOf slot)) (run : rows.foldlM (take kind) slot = .ok slot') :
    IsKeyed slot' ∧ Tracks inner (before ++ rows) (cellsOf slot') := by
  induction rows generalizing before slot with
  | nil =>
    cases run
    exact ⟨keyed, by simpa using tracks⟩
  | cons row rows ih =>
    obtain ⟨⟨hne, proper⟩, tail⟩ := List.forall_mem_cons.1 hrows
    obtain ⟨key, rest, rfl⟩ := List.exists_cons_of_ne_nil hne
    rw [List.foldlM_cons] at run
    obtain ⟨next, hnext, run⟩ := Analysis.bind_eq_ok.1 run
    obtain ⟨keyed', cell?, step, hcells⟩ := take_keyed h keyed hnext
    have tracks' : Tracks inner (before ++ [key :: rest]) (cellsOf next) := by
      cases cell? with
      | none => exact hcells ▸ tracks.skip h proper step
      | some cell => exact hcells ▸ tracks.insert h proper step
    simpa using ih tail keyed' tracks' run

/-- The values of the cells under their keys, if each cell has one. -/
theorem mapM_finish {inner : ReducerKind} (plain : inner.keyedInner = none) (cells : Entries Cell)
    (finishes : ∀ c ∈ cells, ∃ v, finishSlot inner (some (.plain c.2)) = .ok (some v)) :
    ∃ entries, (cells.mapM fun c => do return (c.1, ← c.2.finish inner)) = .ok entries ∧
      entries.map (·.1) = cells.map (·.1) ∧
      ∀ e ∈ entries, ∃ c ∈ cells, c.1 = e.1 ∧
        finishSlot inner (some (.plain c.2)) = .ok (some e.2) := by
  induction cells with
  | nil => exact ⟨[], rfl, rfl, by simp⟩
  | cons c rest ih =>
    obtain ⟨⟨v, hv⟩, tail⟩ := List.forall_mem_cons.1 finishes
    obtain ⟨entries, hentries, keys, values⟩ := ih tail
    refine ⟨(c.1, v) :: entries, ?_, by simp [keys], ?_⟩
    · rw [List.mapM_cons, hentries, finish_of_finishSlot plain hv]
      rfl
    · intro e he
      rcases List.mem_cons.1 he with rfl | he
      · exact ⟨c, List.mem_cons_self, rfl, hv⟩
      · obtain ⟨c', hc', value⟩ := values e he
        exact ⟨c', List.mem_cons_of_mem c hc', value⟩

/-- **A keyed reducer is its inner reducer for each key.**  It stays unset exactly if the inner
    kind accepts no row, and gives otherwise the dictionary of what the inner reducer makes of the
    rows of each key, with the keys in the order in which their rows were first accepted. -/
theorem keyed_reducer_perKey {kind inner : ReducerKind} (h : kind.keyedInner = some inner)
    (rows : List (List Value)) (hrows : ∀ row ∈ rows, row ≠ [] ∧ (rowValue row).Proper)
    {slot : Option Accumulator} (run : takeAll kind rows = .ok slot) :
    (slot = none ↔ ∀ row ∈ rows, accepts inner row.tail = false) ∧
    (slot ≠ none → ∃ entries : List (Value × Value),
      finishSlot kind slot = .ok (some (.dict entries)) ∧
      entries.map (·.1) = acceptedKeys inner rows ∧
      (entries.map (·.1)).Pairwise (fun a b => (a == b) = false) ∧
      ∀ e ∈ entries, reduced inner (ofKey e.1 rows) = .ok (some e.2)) := by
  obtain ⟨keyed, tracks⟩ :=
    tracks_foldlM h rows hrows (show IsKeyed none from trivial) (Tracks.nil inner) run
  rw [List.nil_append] at tracks
  constructor
  · rw [← acceptedKeys_eq_nil, ← tracks.keys, List.map_eq_nil_iff]
    match slot with
    | none => simp [cellsOf]
    | some (.plain _) => cases keyed
    | some (.keyed cells) =>
      have : cells.toEntries ≠ [] := keyed
      simp [cellsOf, this]
  · intro hset
    match slot with
    | none => exact absurd rfl hset
    | some (.plain _) => cases keyed
    | some (.keyed cells) =>
      obtain ⟨entries, hentries, keys, values⟩ :=
        mapM_finish (keyedInner_inner h) cells.toEntries tracks.finishes
      refine ⟨entries, ?_, keys.trans tracks.keys, keys ▸ tracks.distinct, ?_⟩
      · simp only [finishSlot, Accumulator.isWeightless, Accumulator.finish, h, hentries]
        rfl
      · intro e he
        obtain ⟨c, hc, hkey, hvalue⟩ := values e he
        have found : Entries.get? cells.toEntries c.1 = some c.2 :=
          Entries.get?_of_mem tracks.distinct hc
        simp only [reduced, ← hkey, tracks.perKey, cellsOf, found]
        exact hvalue

/-- Rows of two arguments in which null values come before and after the slot is set. -/
def sparseRows : List (List Value) :=
  [[.int 1, .null], [.int 2, .int 5], [.int 1, .null], [.int 1, .int 3], [.int 3, .null],
    [.int 2, .int 7]]

/-- The first key gets its cell after the second, and the third gets none. -/
theorem keyed_reducer_perKey_sparse :
    ∃ slot, takeAll .dictMax sparseRows = .ok slot ∧ ∃ entries : List (Value × Value),
      finishSlot .dictMax slot = .ok (some (.dict entries)) ∧
      entries.map (·.1) = [.int 2, .int 1] ∧
      ∀ e ∈ entries, reduced .max (ofKey e.1 sparseRows) = .ok (some e.2) := by
  have rows : ∀ row ∈ sparseRows, row ≠ [] ∧ (rowValue row).Proper := by
    simp [sparseRows, rowValue, Value.Proper]
  obtain ⟨slot, run⟩ : ∃ slot, takeAll .dictMax sparseRows = .ok slot := ⟨_, rfl⟩
  have inner : ReducerKind.dictMax.keyedInner = some .max := rfl
  obtain ⟨unset, set⟩ := keyed_reducer_perKey inner sparseRows rows run
  have hset : slot ≠ none := by
    intro hnone
    have declined := unset.1 hnone [.int 2, .int 5] (by simp [sparseRows])
    cases declined
  obtain ⟨entries, hentries, keys, -, values⟩ := set hset
  exact ⟨slot, run, entries, hentries, keys.trans rfl, values⟩

end Reduction
end DataExpr
