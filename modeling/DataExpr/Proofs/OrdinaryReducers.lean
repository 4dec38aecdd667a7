import DataExpr.Proofs.KeyedReducers
import DataExpr.Proofs.OrdinaryErrors

/-!
# Reducers that do not blame the program

A reducer is fed as its kind asks for: each row has the arguments that the kind takes, and each
accumulator is one that the kind makes (`Accumulator.Fits`).  Then it never says that an
accumulator does not match or that a key is missing.
-/

namespace DataExpr.Reduction

theorem between_harmless (low high : Value) (share : Float) :
    Harmless (between low high share) := by
  refine (Value.sub_harmless high low).bind fun distance _ => ?_
  exact (Value.mul_harmless distance _).bind fun step _ => Value.add_harmless low step

theorem percentile_harmless (samples : List Value) (p : Double) (kind : Interpolation) :
    Harmless (percentile samples p kind) := by
  refine (Value.sort_harmless samples false).bind fun sorted _ => ?_
  dsimp only
  split
  · exact .ok trivial
  · unfold interpolate
    split
    · exact .ok trivial
    · exact .ok trivial
    · exact .ok trivial
    · exact .ite _ (.ok trivial) (between_harmless _ _ _)
    · exact between_harmless _ _ _

/-- What a cell keeps. -/
inductive Cell.Form where
  | value | count | row | mean | list | distinct | counter

namespace Cell

def form : Cell → Form
  | value _ => .value
  | count _ => .count
  | row .. => .row
  | mean .. => .mean
  | list _ => .list
  | distinct _ => .distinct
  | counter _ => .counter

/-- What the cells of a kind keep.  A keyed kind has a cell of another kind for each key. -/
def formOf (kind : ReducerKind) : Form :=
  match kind.keyedInner.getD kind with
  | .maxRow | .minRow => .row
  | .count => .count
  | .countDistinct | .arrayDistinct => .distinct
  | .average => .mean
  | .median | .percentile .. | .array | .arraySorted _ => .list
  | .mode | .topK _ => .counter
  | _ => .value

theorem surpasses_harmless (wanted : Ordering) (v best : Value) :
    Harmless (surpasses wanted v best) :=
  .ite _ (.ok trivial) (.ite _ (.ok trivial)
    ((Value.compare_harmless v best).bind fun _ _ => .ok trivial))

theorem surpassesKey_harmless (wanted : Ordering) (v best : Value) :
    Harmless (surpassesKey wanted v best) :=
  .ite _ (.ok trivial) ((Value.compare_harmless v best).bind fun _ _ => .ok trivial)

variable {kind : ReducerKind}

/-- A kind makes cells of its form. -/
theorem first_ordinary (plain : kind.keyedInner = none) (args : List Value) :
    Ordinary (fun made => ∀ cell ∈ made, cell.form = formOf kind) (first kind args) := by
  have ofForm {cell : Cell} (h : cell.form = formOf kind) :
      ∀ made ∈ some cell, made.form = formOf kind := by
    rintro _ ⟨⟩
    exact h
  have skipped : ∀ made ∈ (none : Option Cell), made.form = formOf kind := nofun
  cases kind with
  | average => exact (Value.mul_harmless _ _).bind fun _ _ => .ok (ofForm rfl)
  | max | min | maxRow | minRow | median | percentile | mode =>
    refine .ok ?_
    split
    · exact skipped
    · exact ofForm rfl
  | count =>
    refine .ok ?_
    split
    · exact skipped
    · exact ofForm rfl
  | sum | sumOrNull | first | last | reduce | countDistinct | arrayDistinct | array | arraySorted
  | topK => exact .ok (ofForm rfl)
  | _ => cases plain

/-- A cell of the form of its kind keeps this form. -/
theorem combine_ordinary (plain : kind.keyedInner = none) (step : ∀ f, kind ≠ .reduce f)
    {cell : Cell} (h : cell.form = formOf kind) (args : List Value) :
    Ordinary (fun cell : Cell => cell.form = formOf kind) (cell.combine kind args) := by
  cases kind with
  | sum | sumOrNull =>
    cases cell <;> cases h
    exact .ite _ (.ok rfl) ((Value.add_harmless _ _).bind fun _ _ => .ok rfl)
  | max | min =>
    cases cell <;> cases h
    exact (surpasses_harmless _ _ _).bind fun _ _ => .ok rfl
  | maxRow | minRow =>
    cases cell <;> cases h
    exact (surpassesKey_harmless _ _ _).bind fun _ _ => .ite _ (.ok rfl) (.ok rfl)
  | average =>
    cases cell <;> cases h
    refine (Value.mul_harmless _ _).bind fun weighted _ => ?_
    refine (Value.add_harmless _ _).bind fun total _ => ?_
    exact (Value.add_harmless _ _).bind fun weight _ => .ok rfl
  | count | countDistinct | arrayDistinct | first | last | median | percentile | array
  | arraySorted | mode | topK =>
    cases cell <;> cases h
    exact .ok rfl
  | reduce f => exact absurd rfl (step f)
  | _ => cases plain

/-- The value of a cell is found without blaming the program. -/
theorem finish_harmless (kind : ReducerKind) (cell : Cell) : Harmless (cell.finish kind) := by
  cases cell with
  | value | count | row => exact .ok trivial
  | mean total weight => exact Value.div_harmless total weight
  | distinct | counter => cases kind <;> exact .ok trivial
  | list values =>
    cases kind with
    | median | percentile => exact percentile_harmless _ _ _
    | arraySorted => exact (Value.sort_harmless _ _).bind fun _ _ => .ok trivial
    | _ => exact .ok trivial

end Cell

/-- The key of a row is there if the row has as many arguments as a keyed kind takes. -/
theorem splitKey_harmless {kind inner : ReducerKind} (keyed : kind.keyedInner = some inner)
    {args : List Value} (h : kind.arity.1 ≤ args.length) : Harmless (splitKey kind args) := by
  cases args with
  | cons key rest => exact .ok trivial
  | nil => cases kind <;> cases keyed <;> cases h

namespace Accumulator

variable {kind : ReducerKind} {args : List Value}

/-- An accumulator is one that its kind makes: a cell of the form of the kind, or one for each
    key. -/
inductive Fits (kind : ReducerKind) : Accumulator → Prop
  | plain {cell : Cell} (plain : kind.keyedInner = none) (h : cell.form = Cell.formOf kind) :
    Fits kind (.plain cell)
  | keyed {inner : ReducerKind} {cells : Table Cell} (keyed : kind.keyedInner = some inner)
    (h : ∀ c ∈ cells.toEntries, c.2.form = Cell.formOf inner) : Fits kind (.keyed cells)

theorem fits_seed (h : kind.acceptsInitial = true) (v : Value) : Fits kind (seed v) := by
  cases kind <;> cases h <;> exact .plain rfl rfl

/-- A row makes an accumulator of its kind. -/
theorem first_ordinary (h : kind.arity.1 ≤ args.length) :
    Ordinary (fun made => ∀ acc ∈ made, Fits kind acc) (first kind args) := by
  unfold first
  split
  -- A keyed kind starts with a table of one cell, which its inner kind has made.
  · rename_i inner keyed
    refine (splitKey_harmless keyed h).bind fun ⟨key, rest⟩ _ => ?_
    refine (Cell.first_ordinary (keyedInner_inner keyed) rest).bind fun made hmade => .ok ?_
    rintro acc hacc
    obtain ⟨cell, rfl, rfl⟩ := Option.map_eq_some_iff.mp hacc
    refine .keyed keyed fun c hc => ?_
    rw [Table.toEntries_single, List.mem_singleton] at hc
    rw [hc]
    exact hmade cell rfl
  · rename_i plain
    refine (Cell.first_ordinary plain args).bind fun made hmade => .ok ?_
    rintro acc hacc
    obtain ⟨cell, rfl, rfl⟩ := Option.map_eq_some_iff.mp hacc
    exact .plain plain (hmade cell rfl)

/-- A cell for a key goes into a table of cells of the same form. -/
theorem fits_insert {inner : ReducerKind} (keyed : kind.keyedInner = some inner)
    {cells : Table Cell} (h : ∀ c ∈ cells.toEntries, c.2.form = Cell.formOf inner) (key : Value)
    {cell : Cell} (hcell : cell.form = Cell.formOf inner) :
    Fits kind (.keyed (cells.insert key cell)) := by
  refine .keyed keyed fun c hc => ?_
  rw [Table.toEntries_insert] at hc
  rcases Entries.mem_insert hc with hc | ⟨hc, -⟩
  · exact h c hc
  · rw [hc]
    exact hcell

/-- A row keeps an accumulator one of its kind.  Folds with a function of the host are apart. -/
theorem combine_ordinary (h : kind.arity.1 ≤ args.length) (step : ∀ f, kind ≠ .reduce f)
    {acc : Accumulator} (fits : Fits kind acc) :
    Ordinary (Fits kind) (acc.combine kind args) := by
  unfold combine
  cases fits with
  | plain plain form =>
    rw [plain]
    exact (Cell.combine_ordinary plain step form args).bind fun cell hcell =>
      .ok (.plain plain hcell)
  | @keyed inner cells keyed form =>
    have plain := keyedInner_inner keyed
    have step' : ∀ f, inner ≠ .reduce f := by
      rintro f rfl
      cases kind <;> cases keyed
    rw [keyed]
    refine (splitKey_harmless keyed h).bind fun ⟨key, rest⟩ _ => ?_
    dsimp only
    split
    -- The key has a cell already, or the row makes one for it unless it is skipped.
    · rename_i cell found
      have hcell : cell.form = Cell.formOf inner := by
        rw [Table.get?_eq, Entries.get?] at found
        obtain ⟨c, hc, rfl⟩ := Option.map_eq_some_iff.mp found
        exact form c (List.mem_of_find?_eq_some hc)
      refine (Cell.combine_ordinary plain step' hcell rest).bind fun cell hcell => .ok ?_
      exact fits_insert keyed form key hcell
    · refine (Cell.first_ordinary plain rest).bind fun made hmade => ?_
      cases made with
      | some cell => exact .ok (fits_insert keyed form key (hmade cell rfl))
      | none => exact .ok (.keyed keyed form)

/-- An accumulator of its kind has a value that is found without blaming the program. -/
theorem finish_harmless {acc : Accumulator} (fits : Fits kind acc) :
    Harmless (acc.finish kind) := by
  unfold finish
  cases fits with
  | plain plain form =>
    rw [plain]
    exact Cell.finish_harmless kind _
  | keyed keyed form =>
    rw [keyed]
    refine (Ordinary.mapM (Q := fun _ => True) fun c _ => ?_).bind fun _ _ => .ok trivial
    exact (Cell.finish_harmless _ c.2).bind fun _ _ => .ok trivial

end Accumulator

theorem finishSlot_harmless {kind : ReducerKind} {slot : Option Accumulator}
    (fits : ∀ acc ∈ slot, acc.Fits kind) : Harmless (finishSlot kind slot) := by
  cases slot with
  | none => exact .ok trivial
  | some acc =>
    exact .ite _ (.ok trivial)
      ((Accumulator.finish_harmless (fits acc rfl)).bind fun _ _ => .ok trivial)

end DataExpr.Reduction
