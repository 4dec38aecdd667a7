import DataExpr.Proofs.Independence

/-!
# What outputs of aggregates see of their groups

The output of an aggregate sees its group through the reducers that belong to it, as far as no
expression stands for a key.  It means the same for two groups if each of its reducers does
(`Expr.meaning_emitting_congr`).  What belongs to a reducer, but is evaluated for a row, sees
nothing of the group.
-/

namespace DataExpr

open Eval

/-- A view in which no expression stands for a key. -/
def OutputView.Keyless (view : OutputView) : Prop := ∀ e, view.key? e = none

namespace OutputView.Keyless

variable {view : OutputView} (h : view.Keyless)
include h

theorem nested_eq : view.nested = view := by
  have key : view.key? = fun _ => none := funext h
  cases view
  cases key
  rfl

theorem emitting (s : Scene) : (s.emitting view).Keyless := h

end OutputView.Keyless

/-! ### Reducers of an output -/

/-- What passes the check of the parts that are evaluated for a row has no free reducers. -/
theorem quiet_of_checked {text : String} {cs : List Expr} {u : Unit}
    (h : (forIn cs () fun input _ => do
      let a := input.analysis
      if 0 < a.freeReducers then throw (CompileError.nestedReducer text)
      if !a.labelsWritten.isEmpty then throw (CompileError.labelInReducer text)
      pure (ForInStep.yield ())) = (.ok u : Except CompileError Unit)) :
    ∀ c ∈ cs, c.analysis.Quiet := by
  induction cs with
  | nil => exact fun c hc => absurd hc List.not_mem_nil
  | cons d cs ih =>
    rw [List.forIn_cons, Analysis.bind_eq_ok] at h
    obtain ⟨step, hstep, h⟩ := h
    dsimp only at hstep
    split at hstep
    · cases hstep
    · rename_i hfree
      split at hstep
      · cases hstep
      · cases hstep
        rw [List.forall_mem_cons]
        constructor
        · apply UInt64.toNat_inj.mp
          rw [UInt64.lt_iff_toNat_lt] at hfree
          exact Nat.eq_zero_of_not_pos hfree
        · exact ih h

/-- The parts of a valid reducer that are evaluated for a row have no free reducers. -/
theorem Reducer.quiet_of_validate {r : Reducer Expr} (h : r.validate = .ok ()) :
    ∀ c ∈ r.args ++ r.filter.toList ++ r.initial.toList, c.analysis.Quiet := by
  have loop {x : Except CompileError PUnit} {u : Unit} (h : (x >>= fun _ => pure ()) = .ok u) :
      ∃ u, x = .ok u := by
    obtain ⟨u, hu, -⟩ := Analysis.bind_eq_ok.mp h
    exact ⟨u, hu⟩
  unfold Reducer.validate at h
  dsimp only at h
  -- The counts of arguments and the bounds of the kind come first.
  split at h
  · cases h
  split at h
  · cases h
  split at h
  · cases h
  · split at h
    · cases h
    · obtain ⟨u, hu⟩ := loop h
      exact quiet_of_checked hu
  · obtain ⟨u, hu⟩ := loop h
    exact quiet_of_checked hu

/-- The initial value of a valid reducer has no free reducers. -/
theorem Reducer.quiet_initial {root : Expr} {red : Reducer (Smaller root)} {c : Smaller root}
    (valid : (Smaller.plain red).validate = .ok ()) (hc : c ∈ red.initial) :
    c.1.analysis.Quiet := by
  apply quiet_of_validate valid c.1
  apply List.mem_append_right
  rw [Option.mem_toList]
  exact Option.mem_map_of_mem (·.1) hc

theorem Reducer.sameSlot_self (r : Reducer Expr) : r.sameSlot r = true := by
  have h := Reducer.zip_self (r := r) (p := (· == ·)) fun e _ => Expr.beq_self e
  exact (Bool.and_eq_true_iff.mp h).1

namespace Smaller

variable {root : Expr} {output : Smaller root} {slots : List (Reducer (Smaller root))}

/-- Every reducer of an output is valid and has a slot. -/
theorem of_mem_reducers (h : output.slots = .ok slots) :
    ∀ r ∈ output.reducers, (plain r).validate = .ok () ∧
      ∃ s ∈ slots, (plain s).sameSlot (plain r) = true := by
  have grow : ∀ (rs start done : List (Reducer (Smaller root))),
      rs.foldlM (fun slots r => do
        (plain r).validate
        return if slots.any fun s => (plain s).sameSlot (plain r) then slots else slots ++ [r])
        start = .ok done →
      start ⊆ done ∧ ∀ r ∈ rs, (plain r).validate = .ok () ∧
        ∃ s ∈ done, (plain s).sameSlot (plain r) = true := by
    intro rs
    induction rs with
    | nil =>
      intro start done h
      cases h
      exact ⟨List.Subset.refl _, nofun⟩
    | cons r rs ih =>
      intro start done h
      simp only [List.foldlM_cons, Analysis.bind_eq_ok] at h
      obtain ⟨next, ⟨⟨⟩, hvalid, hnext⟩, h⟩ := h
      cases hnext
      obtain ⟨hsubset, hrest⟩ := ih _ _ h
      split at hsubset
      · rename_i hany
        obtain ⟨s, hs, hsame⟩ := List.any_eq_true.mp hany
        exact ⟨hsubset, List.forall_mem_cons.mpr ⟨⟨hvalid, s, hsubset hs, hsame⟩, hrest⟩⟩
      · have hmem : r ∈ done := hsubset (List.mem_append_right _ List.mem_cons_self)
        exact ⟨List.Subset.trans (List.subset_append_left _ _) hsubset,
          List.forall_mem_cons.mpr ⟨⟨hvalid, r, hmem, Reducer.sameSlot_self _⟩, hrest⟩⟩
  exact (grow _ _ _ h).2

end Smaller
/-! ### Parts in the same aggregate -/

/-- A part with this scene sees the group that the whole sees. -/
def Shift.KeepsOutput (shift : Shift) : Prop :=
  (∀ row, shift ≠ .onRow row) ∧ ∀ view, shift ≠ .emitting view

/-- What a join evaluates belongs to the aggregate of its condition. -/
theorem JoinPlan.PartOf.beside {root : Expr} {condition : Option (Smaller root)}
    {c : Smaller root} (h : PartOf condition c) {left right : Smaller root} {kind : JoinKind}
    (hnode : root.parts = .join left right condition kind) : Expr.Beside c.1 root := by
  obtain ⟨d, hd, hbeside, -⟩ := h
  refine hbeside.trans (.part (Expr.mem_sameAggregate ?_))
  rw [hnode]
  exact List.mem_append_right [left, right] (Option.mem_toList.mpr hd)

/-- What sees the group that the whole sees belongs to the same aggregate, unless it is the initial
    value of a reducer. -/
theorem Expr.beside_part {e : Expr} {shift : Shift} {c : Smaller e} (hshift : shift.KeepsOutput)
    (h : e.parts.Evaluates shift c) :
    Beside c.1 e ∨ ∃ r, e.parts = .reducer r ∧ c ∈ r.initial := by
  have part (hc : c ∈ e.parts.sameAggregate) : Beside c.1 e := .part (mem_sameAggregate hc)
  -- Keys, slots and output change the aggregate that reducers answer to, which is excluded; of
  -- the rest only the initial of a reducer leaves the aggregate.
  generalize hnode : e.parts = node at h part
  cases h with
  | here h =>
    cases node
    case reducer r =>
      rcases List.mem_append.mp h with h | h
      · exact .inl (part h)
      · exact .inr ⟨r, rfl, Option.mem_toList.mp h⟩
    case join left right condition kind =>
      left
      rcases List.mem_cons.mp h with rfl | h
      · exact part List.mem_cons_self
      · rcases List.mem_cons.mp h with rfl | h
        · exact part (List.mem_cons_of_mem _ List.mem_cons_self)
        · exact (JoinPlan.mem_preFilter h).1.beside hnode
    case comprehension | sort | guarded | pipe =>
      left
      obtain rfl := List.mem_singleton.mp h
      exact part (by simp [Node.sameAggregate, Node.children])
    case aggregate => exact absurd h List.not_mem_nil
    all_goals exact .inl (part h)
  | item h =>
    left
    apply part
    simp only [Node.sameAggregate, Node.children, List.cons_append]
    exact List.mem_cons_of_mem _ h
  | sortItem h => exact .inl (part (List.mem_cons_of_mem _ (List.mem_map_of_mem h)))
  | consumer => exact .inl (part (List.mem_cons_of_mem _ List.mem_cons_self))
  | handler hh h => exact .inl (part (List.mem_cons_of_mem _ (List.mem_flatMap.mpr ⟨_, hh, h⟩)))
  | key | slot => exact absurd rfl (hshift.1 _)
  | output => exact absurd rfl (hshift.2 _)
  | joined h =>
    left
    simp only [JoinPlan.onRows, List.mem_append, List.mem_map, Prod.exists] at h
    rcases h with (((⟨a, b, hk, rfl⟩ | ⟨a, b, hk, rfl⟩) | h) | h) | h
    · exact (JoinPlan.mem_keys hk).1.1.beside hnode
    · exact (JoinPlan.mem_keys hk).2.1.beside hnode
    · exact (JoinPlan.mem_leftFilter h).1.beside hnode
    · exact (JoinPlan.mem_rightFilter h).1.beside hnode
    · exact (JoinPlan.mem_residual h).beside hnode

/-- What sees the group sees it on a scene of its own, where the group is the same. -/
theorem Scene.shift_emitting {view : OutputView} (h : view.Keyless) (s : Scene) {shift : Shift}
    (hshift : shift.KeepsOutput) :
    (s.emitting view).shift shift = (s.shift shift).emitting view := by
  cases shift with
  | within input => simp [shift, Scene.within, emitting, h.nested_eq]
  | withRows left right => simp [shift, Scene.withRows, emitting, h.nested_eq]
  | onRow row => exact absurd rfl (hshift.1 row)
  | emitting view => exact absurd rfl (hshift.2 view)
  | same | catching => rfl

/-- What does not see the group has the same scene for every group. -/
theorem Scene.shift_emitting_eq (s : Scene) {shift : Shift} (hshift : ¬shift.KeepsOutput)
    (view view' : OutputView) :
    (s.emitting view').shift shift = (s.emitting view).shift shift := by
  cases shift with
  | onRow | emitting => rfl
  | _ => exact absurd ⟨nofun, nofun⟩ hshift

theorem Scene.shift_param (s : Scene) (shift : Shift) : (s.shift shift).param = s.param := by
  cases shift <;> rfl

/-! ### Outputs for two groups -/

namespace Expr

variable {S : Semantics} {param : String → Value} {view view' : OutputView}

variable (S param view view') in
/-- The reducers that belong to an expression mean the same for two groups, because their slots
    hold the same or because what they report instead is the same. -/
def ReducedAlike (e : Expr) : Prop :=
  ∀ d, Beside d e → ∀ r, d.parts = .reducer r →
    (∀ c ∈ r.initial, c.1.analysis.Quiet) ∧
      (view'.slot? (Smaller.plain r) = view.slot? (Smaller.plain r) ∨
        ∀ s : Scene, s.param = param →
          d.meaning S (s.emitting view') = d.meaning S (s.emitting view))

theorem ReducedAlike.beside {d e : Expr} (h : ReducedAlike S param view view' e)
    (hd : Beside d e) : ReducedAlike S param view view' d :=
  fun c hc => h c (hc.trans hd)

/-- **An output sees of its group what its reducers report.** -/
theorem meaning_emitting_congr (hview : view.Keyless) (hview' : view'.Keyless) (e : Expr)
    (he : e.Analyzed) (candid : e.Candid) (h : ReducedAlike S param view view' e) {s : Scene}
    (hs : s.param = param) : e.meaning S (s.emitting view') = e.meaning S (s.emitting view) := by
  by_cases hreports : ∃ r, e.parts = .reducer r ∧
      view'.slot? (Smaller.plain r) ≠ view.slot? (Smaller.plain r)
  · obtain ⟨r, hnode, hslot⟩ := hreports
    exact (h e (.refl e) r hnode).2.resolve_left hslot s hs
  · rw [meaning_of_node (hview.emitting s e), meaning_of_node (hview'.emitting s e)]
    have image (c : Smaller e) : image (fun c => c.id) c = c.1 := relabel_id c.1
    apply AlikeOn.node (f := fun i => i)
    · refine ⟨fun shift c hc c' hc' => ?_, fun _ _ => rfl, fun r hnode => ?_, fun _ => rfl,
        fun _ => rfl, fun _ => rfl, fun _ => rfl⟩
      · rw [image] at hc'
        rw [hc']
        have hwithin := (covers_part he candid hc).1
        have hanalyzed := (hwithin.analyzed he).1
        by_cases hshift : shift.KeepsOutput
        · rw [Scene.shift_emitting hview' s hshift, Scene.shift_emitting hview s hshift]
          rcases beside_part hshift hc with hbeside | ⟨r, hnode, hinitial⟩
          · exact meaning_emitting_congr hview hview' c.1 hanalyzed (candid.within hwithin)
              (h.beside hbeside) ((s.shift_param shift).trans hs)
          · -- An initial value has no reducers that could tell the groups apart.
            have quiet := (h e (.refl e) r hnode).1 c hinitial
            exact meaning_congr c.1 hanalyzed (candid.within hwithin)
              ⟨rfl, .inr ⟨quiet, hview.emitting _, hview'.emitting _⟩, .inl rfl, fun _ => rfl,
                fun _ => rfl, fun _ => rfl⟩
        · rw [s.shift_emitting_eq hshift view view']
      · by_contra hslot
        exact hreports ⟨r, hnode, hslot⟩
    · exact congrArg (Node.map · e.parts) (funext fun c => (image c).symm)
termination_by sizeOf e
decreasing_by exact c.2

end Expr
end DataExpr
