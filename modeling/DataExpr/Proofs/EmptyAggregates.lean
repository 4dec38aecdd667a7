import DataExpr.Proofs.OutputViews
import DataExpr.Proofs.ProgramMeaning

/-!
# Aggregates that no row reaches

A slot of an aggregate that skips a row, because its filter rejects it or because its kind does not
count it, stays as it was.  So an aggregate without keys comes to the same for rows that all slots
skip as for no rows at all, as far as no reducer declares both a default and an initial value that
does not read the row (`Program.call_unreached`).  With no rows such a reducer takes its initial
value, with rows that are skipped its default (`Program.defaultAndInitial_differ`).
-/

namespace DataExpr

open Eval Lowering Reduction

variable {σ : Type}

/-! ### Rows that are skipped -/

namespace SlotMeaning

variable {S : Semantics} {m : SlotMeaning} {row : Value}

/-- The filter rejects the row, or the kind does not count it. -/
def Skips (m : SlotMeaning) (row : Value) : Prop :=
  m.accepts row = .ok false ∨
    m.accepts row = .ok true ∧
      ∃ args, m.args row = .ok args ∧ Accumulator.first m.kind args = .ok none

/-- A slot that has seen no row has seen none after a row that it skips. -/
theorem Skips.feed_none (h : m.Skips row) : m.feed S none row = .ok none := by
  unfold feed
  rcases h with h | ⟨h, args, hargs, hfirst⟩
  · rw [h]
    rfl
  · rw [h]
    change (m.args row >>= fun args => _) = _
    rw [hargs]
    change (Accumulator.first m.kind args >>= fun acc => _) = _
    rw [hfirst]
    rfl

/-- What a slot that has seen no row is finished into, if there are no rows at all. -/
inductive Starts (m : SlotMeaning) : Option Value → Prop
  | unset (h : m.seed = none) : Starts m none
  | seed {v : Value} (h : m.seed = some (.ok v)) : Starts m (some v)

theorem starts_of_finish {slot : Option Accumulator} {value : Option Value}
    (hempty : m.empty = .ok slot) (hfinish : finishSlot m.kind slot = .ok value) :
    m.Starts value := by
  unfold empty at hempty
  cases hseed : m.seed with
  | none =>
    rw [hseed] at hempty
    cases hempty
    cases hfinish
    exact .unset hseed
  | some seed =>
    rw [hseed] at hempty
    cases hv : seed with
    | error err =>
      rw [hv] at hempty
      cases hempty
    | ok v =>
      rw [hv] at hempty
      cases hempty
      change (Accumulator.finish m.kind (.seed v) >>= fun v => pure (some v)) = _ at hfinish
      unfold Accumulator.finish at hfinish
      cases hkeyed : m.kind.keyedInner with
      | some inner =>
        rw [hkeyed] at hfinish
        cases hfinish
      | none =>
        rw [hkeyed] at hfinish
        have hcell : (Cell.value v).finish m.kind = .ok v := by
          unfold Cell.finish
          cases m.kind <;> rfl
        change ((Cell.value v).finish m.kind >>= fun v => pure (some v)) = _ at hfinish
        rw [hcell] at hfinish
        cases hfinish
        exact .seed (hseed.trans (congrArg some hv))

end SlotMeaning

namespace AggregateMeaning

variable {S : Semantics} {m : AggregateMeaning} {rows : List Value}

/-- The only group of an aggregate without keys, as long as no row has reached a slot. -/
def unreached (m : AggregateMeaning) : GroupRecord := ⟨[], m.slots.map fun _ => none⟩

theorem mapM_const {α β γ : Type} {f : α × β → Except Error γ} {b : β} {c : γ} (xs : List α)
    (h : ∀ x ∈ xs, f (x, b) = .ok c) :
    ((xs.zip (xs.map fun _ => b)).mapM f) = .ok (xs.map fun _ => c) := by
  induction xs with
  | nil => rfl
  | cons x xs ih =>
    rw [List.map_cons, List.map_cons, List.zip_cons_cons, List.mapM_cons, h x List.mem_cons_self,
      ih fun y hy => h y (List.mem_cons_of_mem x hy)]
    rfl

/-- A row that all slots skip leaves them as they are. -/
theorem feed_unreached (hkeys : ∀ row, m.keys row = .ok []) {groups : GroupTable} {row : Value}
    (hgroups : groups.toEntries = [] ∨ groups.toEntries = [(.tuple [], m.unreached)])
    (hskip : ∀ slot ∈ m.slots, slot.Skips row) :
    ∃ groups', m.feed S groups row = .ok groups' ∧
      groups'.toEntries = [(.tuple [], m.unreached)] := by
  have record : (groups.get? (.tuple [])).getD m.unreached = m.unreached := by
    rw [Table.get?_eq]
    rcases hgroups with h | h
    · rw [h]
      rfl
    · rw [h]
      rfl
  have slots : ((m.slots.zip m.unreached.slots).mapM fun s => s.1.feed S s.2 row) =
      .ok m.unreached.slots :=
    mapM_const m.slots fun slot hslot => (hskip slot hslot).feed_none
  refine ⟨groups.insert (.tuple []) m.unreached, ?_, ?_⟩
  · have step : m.feed S groups row = (do
        let record := (groups.get? (.tuple [])).getD m.unreached
        let slots ← (m.slots.zip record.slots).mapM fun s => s.1.feed S s.2 row
        return groups.insert (.tuple []) { record with slots }) := by
      unfold feed
      rw [hkeys]
      rfl
    rw [step, record]
    dsimp only
    rw [slots]
    rfl
  · rw [Table.toEntries_insert]
    rcases hgroups with h | h
    · rw [h]
      rfl
    · rw [h]
      rfl

theorem foldlM_unreached (hkeys : ∀ row, m.keys row = .ok []) {groups : GroupTable}
    (hgroups : groups.toEntries = [] ∨ groups.toEntries = [(.tuple [], m.unreached)])
    (hskip : ∀ row ∈ rows, ∀ slot ∈ m.slots, slot.Skips row) (hne : rows ≠ []) :
    ∃ groups', rows.foldlM (m.feed S) groups = .ok groups' ∧
      groups'.toEntries = [(.tuple [], m.unreached)] := by
  induction rows generalizing groups with
  | nil => exact absurd rfl hne
  | cons row rows ih =>
    obtain ⟨next, hnext, hentries⟩ :=
      feed_unreached hkeys hgroups (hskip row List.mem_cons_self)
    rw [List.foldlM_cons, hnext]
    by_cases hrows : rows = []
    · subst hrows
      exact ⟨next, rfl, hentries⟩
    · exact ih (.inr hentries) (fun row hrow => hskip row (List.mem_cons_of_mem _ hrow)) hrows

/-- If all slots skip all rows, the output is evaluated with nothing in them. -/
theorem run_unreached (hgrouped : m.grouped = false) (hkeys : ∀ row, m.keys row = .ok [])
    (hskip : ∀ row ∈ rows, ∀ slot ∈ m.slots, slot.Skips row) (hne : rows ≠ []) :
    m.run S rows = m.emit ⟨[], m.slots.map fun _ => none⟩ := by
  obtain ⟨groups, hgroups, hentries⟩ :=
    foldlM_unreached (S := S) hkeys (.inl Table.toEntries_empty) hskip hne
  have finish : m.finish m.unreached = m.emit ⟨[], m.slots.map fun _ => none⟩ := by
    unfold AggregateMeaning.finish
    change (((m.slots.zip (m.slots.map fun _ => none)).mapM fun s =>
      finishSlot s.1.kind s.2) >>= fun values => _) = _
    rw [mapM_const m.slots fun slot _ => rfl]
    rfl
  unfold run
  rw [hgroups]
  change (if m.grouped = true then _ else _) = _
  rw [hgrouped, hentries]
  exact finish

theorem starts_of_mapM (slots : List SlotMeaning) {started : List (Option Accumulator)}
    {values : List (Option Value)} (hempty : slots.mapM (·.empty) = .ok started)
    (hfinish : ((slots.zip started).mapM fun s => finishSlot s.1.kind s.2) = .ok values) :
    List.Forall₂ SlotMeaning.Starts slots values := by
  induction slots generalizing started values with
  | nil =>
    cases hempty
    cases hfinish
    exact .nil
  | cons slot slots ih =>
    simp only [List.mapM_cons, Analysis.bind_eq_ok] at hempty
    obtain ⟨first, hfirst, rest, hrest, hempty⟩ := hempty
    cases hempty
    simp only [List.zip_cons_cons, List.mapM_cons, Analysis.bind_eq_ok] at hfinish
    obtain ⟨value, hvalue, others, hothers, hfinish⟩ := hfinish
    cases hfinish
    exact .cons (SlotMeaning.starts_of_finish hfirst hvalue) (ih hrest hothers)

/-- Without rows the output is evaluated with what the slots start from. -/
theorem run_nil (hgrouped : m.grouped = false) {v : Value} (h : m.run S [] = .ok v) :
    ∃ values, List.Forall₂ SlotMeaning.Starts m.slots values ∧ m.emit ⟨[], values⟩ = .ok v := by
  unfold run at h
  change (if m.grouped = true then _ else _) = _ at h
  rw [hgrouped, Table.toEntries_empty] at h
  change ((m.slots.mapM fun slot => slot.empty) >>= fun slots => m.finish ⟨[], slots⟩) = _ at h
  obtain ⟨slots, hslots, h⟩ := Analysis.bind_eq_ok.mp h
  unfold AggregateMeaning.finish at h
  obtain ⟨values, hvalues, h⟩ := Analysis.bind_eq_ok.mp h
  exact ⟨values, starts_of_mapM m.slots hslots hvalues, h⟩

end AggregateMeaning

/-! ### What no surroundings change -/

namespace Execution

variable {X : Execution σ} {e : Expr} {env : Env} {key : NodeKey} {t t₁ t₂ : State}
  {p : AggregateOp Op} {keys : List (Smaller e)} {output : Smaller e}
  {reducers : List (Reducer (Smaller e))} {roles : ValueRoles} {views : Views} {op : Op} {c : Expr}
  {s s' : Scene} {w : World σ}

/-- No error is handled and no rows are joined here. -/
structure Lonely (env : Env) : Prop where
  caught : env.caught = none
  join : env.join = none

/-- Where no error is handled and no rows are joined, none are seen. -/
theorem Lonely.sees (h : Lonely env) {x : Value} {a : Analysis}
    (finds : X.Finds env roles views x s) : X.Sees env roles views x a s where
  finds := finds
  caught _ _ hb := absurd (h.caught.symm.trans hb) nofun
  rows := ⟨fun _ _ hj => absurd (h.join.symm.trans hj) nofun,
    fun _ _ hj => absurd (h.join.symm.trans hj) nofun⟩

/-- One evaluation has one result. -/
theorem Within.unique {roles' : ValueRoles} {m : Eval σ Value} {a b : Result}
    (ha : X.Within roles views m a) (hb : X.Within roles' views m b)
    (hw : X.Holds roles views w) (hw' : X.Holds roles' views w) : b = a :=
  (hb w hw').1.symm.trans (ha w hw).1

theorem exists_of_forall₂ {α β : Type} {R : α → β → Prop} {as : List α} {bs : List β} {b : β}
    (h : List.Forall₂ R as bs) (hb : b ∈ bs) : ∃ a ∈ as, R a b := by
  induction h with
  | nil => exact absurd hb List.not_mem_nil
  | @cons a _ _ _ hab _ ih =>
    rcases List.mem_cons.mp hb with rfl | hb
    · exact ⟨a, List.mem_cons_self, hab⟩
    · obtain ⟨a, ha, hab⟩ := ih hb
      exact ⟨a, List.mem_cons_of_mem _ ha, hab⟩

namespace AggregateSound

variable (h : X.AggregateSound env key t₁ t₂ p keys output reducers)
  (clear : X.Clear roles (.mk (.aggregate p))) (unkept : Unkept roles) (lonely : Lonely env)
  (hw : ∀ roles', Unkept roles' → X.Holds roles' (fun _ => none) w) (hs : s.param = X.param)
  (hs' : s'.param = X.param)
include h clear unkept lonely hw hs hs'

/-- The output of an aggregate does not see the input. -/
theorem output_congr (group : Group) :
    let view := OutputView.ofGroup (keys.map (·.1)) (reducers.map Smaller.plain) group
    output.1.meaning X.semantics (s'.emitting view) =
    output.1.meaning X.semantics (s.emitting view) := by
  intro view
  obtain ⟨a, hgroup, -⟩ := clear.reach
  have alone : Lonely (env.output (.of env key p.group keys reducers)) :=
    ⟨lonely.caught, lonely.join⟩
  have yields (s : Scene) (hs : s.param = X.param) :
      X.Within (X.entered roles t₂ (s.emitting view)) (fun _ => none)
        (withGroup p.group group (p.output.eval X.host .null))
        (output.1.meaning X.semantics (s.emitting view)) := by
    have finds (roles : ValueRoles) : X.Finds (env.output (.of env key p.group keys reducers)) roles
        (Views.put (fun _ => none) p.group group) .null (s.emitting view) := by
      refine ⟨nofun, nofun, hs, nofun, fun g hg => ?_⟩
      cases hg
      exact ⟨⟨_, _, rfl⟩, group, if_pos rfl, congrArg some (if_pos (Context.alike_self _)).symm⟩
    apply emitting hgroup
    exact h.emitted.yields (alone.sees (finds _)) (h.output_clear clear _)
      (h.outputOpens (assigns_enter (h.output_nodup clear)) (finds _))
  exact (yields s hs).unique (yields s' hs') (hw _ unkept.entered) (hw _ unkept.entered)

/-- What is evaluated for a row, but reads neither the row nor reducers, is the same everywhere. -/
theorem fed_congr {r : Registry} (he : e.Tame r) (hnode : e.parts = .aggregate keys output)
    {red : Reducer (Smaller e)} (hred : red ∈ reducers) {c : Smaller e} (hc : c ∈ red.initial)
    (idle : c.1.analysis.Idle) (keyless : s.Keyless) (keyless' : s'.Keyless) :
    c.1.meaning X.semantics s' = c.1.meaning X.semantics s := by
  obtain ⟨o, ho, sound⟩ := exists_of_forall₂ h.slots hred
  have initial := sound.initial
  rw [Option.mem_def.mp hc] at initial
  obtain ⟨op, hop, sound⟩ : ∃ op ∈ o.initial, X.Sound (env.row key) t₁ op c.1 := by
    generalize o.initial = op at initial ⊢
    cases initial with
    | some sound => exact ⟨_, rfl, sound⟩
  have alone : Lonely (env.row key) := ⟨lonely.caught, lonely.join⟩
  have yields (s : Scene) (hs : s.param = X.param) :
      X.Within (X.entered roles t₁ (s.onRow (.ok .null))) (fun _ => none) (op.eval X.host .null)
        (c.1.meaning X.semantics (s.onRow (.ok .null))) := by
    have finds (roles : ValueRoles) : X.Finds (env.row key) roles (fun _ => none) .null
        (s.onRow (.ok .null)) := ⟨fun _ => rfl, nofun, hs, fun _ => rfl, nofun⟩
    refine sound.yields (alone.sees (finds _))
      (h.row_clear clear _ (List.mem_append_right _ (List.mem_flatMap.mpr ⟨o, ho, ?_⟩)))
      (h.rowOpens (assigns_enter (h.row_nodup clear)) (finds _))
    exact List.mem_append_right _ (Option.mem_toList.mpr hop)
  have onRow := (yields s hs).unique (yields s' hs') (hw _ unkept.entered) (hw _ unkept.entered)
  have part : e.parts.Evaluates (.onRow (.ok .null)) c := by
    rw [hnode]
    exact .slot h.declared hred (List.mem_append_right _ (Option.mem_toList.mpr hc))
  have tame : c.1.Tame r := he.within (Expr.covers_part he.analyzed he.candid part).1
  -- Neither the input nor the group is read, so the row may take their place.
  have anywhere (s : Scene) (keyless : s.Keyless) :
      c.1.meaning X.semantics s = c.1.meaning X.semantics (s.onRow (.ok .null)) :=
    c.1.meaning_congr tame.analyzed tame.candid
      ⟨rfl, .inr ⟨idle.2, fun _ => rfl, keyless⟩, .inr idle, fun _ => rfl, fun _ => rfl,
      fun _ => rfl⟩
  rw [anywhere s keyless, anywhere s' keyless', onRow]

end AggregateSound

/-- The program of an aggregate has sound operations for it. -/
theorem exists_aggregateSound (X : Execution σ) (he : X.Orderly e)
    (hnode : e.parts = .aggregate keys output) {signature : Signature} {program : Program}
    (h : Program.ofExpr e signature X.threshold = .ok program)
    (hroom : X.room = ⟨program.layout.slots, program.layout.groups, program.params⟩) :
    ∃ env key t₁ t₂ p reducers roles, X.AggregateSound env key t₁ t₂ p keys output reducers ∧
      X.Clear roles (.mk (.aggregate p)) ∧ Unkept roles ∧ Lonely env := by
  obtain ⟨-, counts, body, s, -, hlower, rfl⟩ := ofExpr_cases h
  have clear := (clear_body X hlower hroom (.start .null X.param)).2
  have ih : X.SoundBelow e := fun c _ _ _ _ hpass hthreshold hc h =>
    lower_sound hpass hthreshold hc h
  have sounds {definition : Op} {s' : State}
      (hgives : NodeGives e (.start .emit X.threshold) (.of e e.analysis) e.parts
        (.start signature counts) definition s') :
      ∃ p reducers t₁ t₂, definition = .mk (.aggregate p) ∧
        X.AggregateSound (.start .emit X.threshold) (.of e e.analysis) t₁ t₂ p keys output
          reducers := by
    obtain ⟨p, reducers, t₁, t₂, hop, sounds⟩ := ih.aggregate rfl rfl he hnode (hnode ▸ hgives)
    have sound := (sounds.gives (.start .emit X.threshold) .nil ⟨rfl, rfl, rfl, .here⟩).2 _
      (.refl _)
    exact ⟨p, reducers, t₁, t₂, hop, sound⟩
  cases lower_cases rfl hlower with
  | groupKey hkey => cases hkey
  | hit _ _ hmem => exact absurd hmem List.not_mem_nil
  | inPlace _ _ hgives =>
    obtain ⟨p, reducers, t₁, t₂, rfl, sound⟩ := sounds hgives
    exact ⟨_, _, t₁, t₂, p, reducers, _, sound, clear, unkept_free.entered, rfl, rfl⟩
  | bind _ _ _ hgives _ =>
    obtain ⟨p, reducers, t₁, t₂, rfl, sound⟩ := sounds hgives
    exact ⟨_, _, t₁, t₂, p, reducers, _, sound, clear.part (fun _ _ => rfl) List.mem_cons_self,
      unkept_free.entered, rfl, rfl⟩

end Execution

/-! ### Reducers that no row reaches -/

/-- Of a default and an initial value that does not read the row, at most one is declared. -/
def Reducer.OneSource (r : Reducer Expr) : Prop :=
  r.default = none ∨ ∀ c ∈ r.initial, c.analysis.inputUses ≠ 0

/-- The output of an aggregate without keys while nothing is in the slots. -/
def OutputView.unreached (reducers : List (Reducer Expr)) : OutputView :=
  .ofGroup [] reducers ⟨[], reducers.map fun _ => none⟩

namespace Expr

variable {S : Semantics} {d : Expr} {red : Reducer (Smaller d)} {view : OutputView} {v : Value}

theorem node_of_parts (hnode : d.parts = .reducer red) : d.node = .reducer (Smaller.plain red) := by
  rw [← d.map_parts, hnode]
  rfl

/-- A reducer is what its slot holds, or its fallback. -/
theorem meaning_reducer (hnode : d.parts = .reducer red) (keyless : view.Keyless) (s : Scene) :
    d.meaning S (s.emitting view) =
      match view.slot? (Smaller.plain red) with
      | some (some v) => .ok v
      | some none => red.fallback (fun c => c.1.meaning S) (s.emitting view)
      | none =>
        .error (.invalidArgument "aggregate" "group state read outside of its aggregate") := by
  rw [meaning_of_node (keyless.emitting s d), hnode]
  rfl

theorem meaning_aggregate {e : Expr} {s : Scene} {keys : List (Smaller e)} {output : Smaller e}
    {reducers : List (Reducer (Smaller e))} (hkey : s.key? e = none)
    (hnode : e.parts = .aggregate keys output) (hslots : output.slots = .ok reducers)
    {rows : List Value} (hinput : s.input = .ok (.list rows)) :
    e.meaning S s =
      (aggregateMeaning (fun c => c.1.meaning S) s keys output reducers).run S rows := by
  rw [meaning_of_node hkey, hnode, Node.meaning, hinput, hslots]
  rfl

end Expr

namespace OutputView

variable {root : Expr} {reducers : List (Reducer (Smaller root))} {red : Reducer Expr}

/-- A reducer with a slot sees the value of a slot for the same reducer. -/
theorem exists_slot {R : Reducer (Smaller root) → Option Value → Prop}
    {values : List (Option Value)} (h : List.Forall₂ R reducers values)
    (hred : ∃ q ∈ reducers, (Smaller.plain q).sameSlot red = true) :
    ∃ q ∈ reducers, (Smaller.plain q).sameSlot red = true ∧ ∃ value, R q value ∧
      (ofGroup [] (reducers.map Smaller.plain) ⟨[], values⟩).slot? red = some value := by
  change ∃ q ∈ reducers, (Smaller.plain q).sameSlot red = true ∧ ∃ value, R q value ∧
    ((reducers.map Smaller.plain).findIdx? (·.sameSlot red)).map (fun i => values[i]?.join) =
      some value
  induction h with
  | nil => exact absurd hred (by simp)
  | @cons q value reducers values hq _ ih =>
    rw [List.map_cons, List.findIdx?_cons]
    by_cases hsame : (Smaller.plain q).sameSlot red = true
    · refine ⟨q, List.mem_cons_self, hsame, value, hq, ?_⟩
      rw [if_pos hsame]
      rfl
    · have hrest : ∃ q ∈ reducers, (Smaller.plain q).sameSlot red = true := by
        obtain ⟨q', hq', hsame'⟩ := hred
        rcases List.mem_cons.mp hq' with rfl | hq'
        · exact absurd hsame' hsame
        · exact ⟨q', hq', hsame'⟩
      obtain ⟨q', hq', hsame', value', hR, hslot⟩ := ih hrest
      refine ⟨q', List.mem_cons_of_mem q hq', hsame', value', hR, ?_⟩
      rw [if_neg hsame, Option.map_map]
      exact hslot

/-- While nothing is in the slots, a reducer sees that nothing is in its slot. -/
theorem slot?_unreached (hred : ∃ q ∈ reducers, (Smaller.plain q).sameSlot red = true) :
    (unreached (reducers.map Smaller.plain)).slot? red = some none := by
  have nothing : List.Forall₂ (fun (_ : Reducer (Smaller root)) (value : Option Value) =>
      value = none) reducers ((reducers.map Smaller.plain).map fun _ => none) := by
    rw [List.forall₂_map_right_iff, List.forall₂_map_right_iff]
    exact List.forall₂_same.mpr fun _ _ => rfl
  obtain ⟨q, -, -, value, rfl, hslot⟩ := exists_slot nothing hred
  exact hslot

end OutputView

/-- Reducers that share a slot start from the same initial value. -/
theorem Reducer.initial_of_sameSlot {q red : Reducer Expr} (h : q.sameSlot red = true) {c : Expr}
    (hc : q.initial = some c) : ∃ c', red.initial = some c' ∧ (c == c') = true := by
  have hinitial := (Bool.and_eq_true_iff.mp h).2
  rw [hc] at hinitial
  cases hred : red.initial with
  | none =>
    rw [hred] at hinitial
    cases hinitial
  | some c' =>
    rw [hred] at hinitial
    exact ⟨c', rfl, hinitial⟩

/-- A reducer without a default of its own reports an initial value that does not read the row. -/
theorem Reducer.fallback_of_oneSource {root : Expr} {red : Reducer (Smaller root)}
    (source : (Smaller.plain red).OneSource) {c : Smaller root} (hc : red.initial = some c)
    (uses : c.1.analysis.inputUses = 0) (go : Smaller root → Meaning) (s : Scene) :
    red.fallback go s = go c s := by
  have hdefault : red.default = none := by
    rcases source with hnone | hreads
    · exact Option.map_eq_none_iff.mp hnone
    · exact absurd uses (hreads c.1 (Option.mem_map_of_mem (·.1) hc))
  rw [Reducer.fallback, hdefault, hc, Option.filter_some, if_pos (beq_iff_eq.mpr uses)]

namespace Execution.AggregateSound

variable {X : Execution σ} {r : Registry} {e : Expr} {env : Env} {key : NodeKey} {t₁ t₂ : State}
  {p : AggregateOp Op} {output : Smaller e} {reducers : List (Reducer (Smaller e))}
  {roles : ValueRoles} {s s' : Scene} {w : World σ}

section

variable (h : X.AggregateSound env key t₁ t₂ p [] output reducers)
  (clear : X.Clear roles (.mk (.aggregate p))) (unkept : Unkept roles) (lonely : Lonely env)
  (hw : ∀ roles', Unkept roles' → X.Holds roles' (fun _ => none) w) (he : e.Tame r)
  (hnode : e.parts = .aggregate [] output)
include h clear unkept lonely hw he hnode

/-- The value that a slot starts from is the fallback of each reducer that has this slot and
    declares no default. -/
theorem fallback_of_seed {q : Reducer (Smaller e)} (hq : q ∈ reducers) (hs : s.param = X.param)
    {v : Value} (hseed : (q.slotMeaning (fun c => c.1.meaning X.semantics) s).seed = some (.ok v))
    {d : Expr} (hd : Expr.Beside d output.1) {red : Reducer (Smaller d)}
    (hred : d.parts = .reducer red) (hsame : (Smaller.plain q).sameSlot (Smaller.plain red) = true)
    (source : (Smaller.plain red).OneSource) (keyless : s'.Keyless) (hs' : s'.param = X.param) :
    red.fallback (fun c => c.1.meaning X.semantics) s' = .ok v := by
  have hmem := output.mem_reducers_of_mem_slots h.declared q hq
  obtain ⟨c, hfilter, hv⟩ := Option.map_eq_some_iff.mp hseed
  obtain ⟨hc, huses⟩ := Option.filter_eq_some_iff.mp hfilter
  have huses : c.1.analysis.inputUses = 0 := beq_iff_eq.mp huses
  have initial : (Smaller.plain q).initial = some c.1 := by
    rw [Smaller.plain, Reducer.map, hc, Option.map_some]
  obtain ⟨d', hd', hequal⟩ := Reducer.initial_of_sameSlot hsame initial
  obtain ⟨c', hc', rfl⟩ := Option.map_eq_some_iff.mp hd'
  have within : Expr.Within output.1 e := by
    apply Expr.Within.child
    apply Expr.mem_parts
    rw [hnode]
    exact List.mem_cons_self
  have tame : c.1.Tame r := by
    refine he.within ((output.within_of_mem_reducers q hmem c ?_).trans within)
    simp [Reducer.children, hc]
  have tame' : c'.1.Tame r := by
    refine he.within (.trans (.child (Expr.mem_parts ?_)) (hd.within.trans within))
    rw [hred]
    simp [Node.children, Reducer.children, hc']
  have uses : c'.1.analysis.inputUses = 0 := by
    rw [← Expr.analysis_eq_of_beq tame.exact tame'.exact hequal]
    exact huses
  have idle : c.1.analysis.Idle :=
    ⟨huses, Reducer.quiet_initial (Smaller.of_mem_reducers h.declared q hmem).1 hc⟩
  calc red.fallback (fun c => c.1.meaning X.semantics) s'
    _ = c'.1.meaning X.semantics s' := Reducer.fallback_of_oneSource source hc' uses _ _
    _ = c.1.meaning X.semantics s' := by
      rw [Expr.meaning_eq_of_beq tame.exact tame'.exact hequal]
    _ = c.1.meaning X.semantics (s.onRow s.input) :=
      h.fed_congr clear unkept lonely hw (s := s.onRow s.input) hs hs' he hnode hq hc idle
        (fun _ => rfl) keyless
    _ = .ok v := hv

/-- Slots that start from an initial value make no difference to the output, as far as no reducer
    declares a default as well. -/
theorem reducedAlike (sources : ∀ red ∈ output.reducers, (Smaller.plain red).OneSource)
    (hs : s.param = X.param) {values : List (Option Value)}
    (starts : List.Forall₂
      (fun red value => (Reducer.slotMeaning (fun c => c.1.meaning X.semantics) s red).Starts value)
      reducers values) :
    Expr.ReducedAlike X.semantics X.param
      (.ofGroup [] (reducers.map Smaller.plain) ⟨[], values⟩)
      (.unreached (reducers.map Smaller.plain)) output.1 := by
  intro d hd red hred
  obtain ⟨red', hmem, hplain⟩ := output.exists_mem_reducers hd (Expr.node_of_parts hred)
  obtain ⟨valid, slot⟩ := Smaller.of_mem_reducers h.declared red' hmem
  have source := sources red' hmem
  rw [hplain] at valid slot source
  constructor
  · exact fun c hc => Reducer.quiet_initial valid hc
  · obtain ⟨q, hq, hsame, value, start, hslot⟩ := OutputView.exists_slot starts slot
    have unset := OutputView.slot?_unreached slot
    cases start with
    | unset => exact .inl (unset.trans hslot.symm)
    | @seed v hseed =>
      right
      intro s' hs'
      rw [Expr.meaning_reducer hred (fun _ => rfl), Expr.meaning_reducer hred (fun _ => rfl), unset,
        hslot]
      exact h.fallback_of_seed clear unkept lonely hw he hnode hq hs hseed hd hred hsame source
        (fun _ => rfl) hs'

end

end Execution.AggregateSound

namespace Program

variable {S : Semantics} {host : Host σ} {r : Registry} {e : Expr} {output : Smaller e}
  {reducers : List (Reducer (Smaller e))} {signature : Signature} {threshold : Weight.Threshold}
  {program : Program} {params : Params} {values : List Value} {rows : List Value} {v : Value}

/-- An expression is tame if nothing in it reads an error or the rows of a join and there are no
    effects, pipes and folds with functions of the host. -/
theorem tame_of_unread (analyzed : e.Analyzed) (effects : e.analysis.hasSideEffects = false)
    (labels : e.analysis.readsLabels = false)
    (reads : ∀ d, Expr.Within d e →
      d.analysis.readsCaught = false ∧ d.analysis.sides = ⟨false, false⟩)
    (nodes : ∀ d, Expr.Within d e → d.node.Exact r ∧
      (∀ s, d.node = .reducer s → ∀ f, s.kind ≠ .reduce f) ∧ ∀ p c, d.node ≠ .pipe p c) :
    e.Tame r where
  analyzed := analyzed
  candid := Expr.candid_of_unread reads
  exact d hd := (nodes d hd).1
  effects := effects
  labels := labels
  reduces d hd s hs f hf := absurd hf ((nodes d hd).2.1 s hs f)
  pipes d hd := (nodes d hd).2.2

/-- The greatest item of the input, or seven. -/
def greatest : Expr :=
  .mk 0 (.aggregate [] (.mk 1 (.reducer
    ⟨.max, [.mk 2 .input], none, some (.mk 3 (.constant (.int 7))), none⟩)))

theorem tame_greatest (r : Registry) : greatest.Tame r := by
  have reads : ∀ d, Expr.Within d greatest →
      d.analysis.readsCaught = false ∧ d.analysis.sides = ⟨false, false⟩ := by
    simp only [greatest, Expr.forall_within_mk, Node.children, Reducer.children, Option.toList,
      List.nil_append, List.append_nil, List.cons_append, List.forall_mem_cons, List.not_mem_nil,
      false_imp_iff, implies_true, and_true]
    decide +kernel
  have nodes : ∀ d, Expr.Within d greatest → d.node.Exact r ∧
      (∀ s, d.node = .reducer s → ∀ f, s.kind ≠ .reduce f) ∧ ∀ p c, d.node ≠ .pipe p c := by
    simp [greatest, Expr.forall_within_mk, Node.children, Reducer.children, Expr.node,
      Node.Exact, Value.Exact, ReducerKind.Exact]
  exact tame_of_unread (exists_of_isSome (by decide +kernel)) (by decide +kernel)
    (by decide +kernel) reads nodes

/-- The reducer of the greatest item. -/
def greatestSlot : Reducer (Smaller greatest) :=
  ⟨.max, [⟨.mk 2 .input, by decide⟩], none, some ⟨.mk 3 (.constant (.int 7)), by decide⟩, none⟩

theorem parts_greatest : ∃ output : Smaller greatest, greatest.parts = .aggregate [] output ∧
    output.reducers = [greatestSlot] ∧ output.slots = .ok [greatestSlot] := by
  let output : Smaller greatest := ⟨.mk 1 (.reducer (Smaller.plain greatestSlot)), by decide⟩
  have leaf :
      Smaller.reducers (⟨.mk 3 (.constant (.int 7)), by decide⟩ : Smaller greatest) = [] := by
    rw [Smaller.reducers]
    rfl
  have reducers : output.reducers = [greatestSlot] := by
    rw [Smaller.reducers]
    exact congrArg (List.cons _) leaf
  have valid : (Smaller.plain greatestSlot).validate = .ok () := by
    obtain ⟨⟨⟩, valid⟩ :=
      exists_of_isSome (r := (Smaller.plain greatestSlot).validate) (by decide +kernel)
    exact valid
  refine ⟨output, rfl, reducers, ?_⟩
  rw [Smaller.slots, reducers, List.foldlM_cons, valid]
  rfl

/-- A sum that skips every row, with both a default and an initial value. -/
def defaultAndInitial : Expr :=
  .mk 0 (.aggregate [] (.mk 1 (.reducer
    ⟨.sum, [.mk 2 .input], some (.mk 3 (.constant (.bool false))),
      some (.mk 4 (.constant (.int 99))), some (.mk 5 (.constant (.int 10)))⟩)))

end Program
end DataExpr
