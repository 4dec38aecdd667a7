import DataExpr.Proofs.KeyedReducers
import DataExpr.Proofs.Roles
import DataExpr.Proofs.RunsAlike
import DataExpr.Proofs.Stage

/-!
# Operations with settled parameters

An operation in which references to parameters are replaced by the values that the parameters are
bound to runs as before.  Two kinds of nodes refer to parameters: those that read a parameter of the
frame, and, in the output of an aggregate, those that read a key of the group where the key is a
parameter.  So for each place it is recorded which keys of groups are parameters (`KnownKeys`), and
the frame has the values of these (`Settling.Fixes`).  Every record of an aggregate keeps the values
of its keys (`AggregateOp.collect_ensured`), because these do not depend on the row.
-/

namespace DataExpr

open Eval Op

variable {σ τ α β γ : Type}

/-! ### What evaluations give -/

/-- Whatever the evaluation gives has the property. -/
def Eval.Ensures (K : α → Prop) (m : Eval σ α) : Prop := ∀ w a, (m.run w).1 = .ok a → K a

namespace Eval.Ensures

variable {J : α → Prop} {K : β → Prop} {m : Eval σ α} {f : α → Eval σ β}

theorem any (m : Eval σ α) : Ensures (fun _ => True) m := fun _ _ _ => trivial

protected theorem pure {a : α} (h : J a) : Ensures J (pure a : Eval σ α) := by
  intro w b hb
  cases hb
  exact h

protected theorem bind (hm : Ensures J m) (hf : ∀ a, J a → Ensures K (f a)) :
    Ensures K (m >>= f) := by
  intro w b hb
  rw [run_bind] at hb
  have first := hm w
  generalize m.run w = r at hb first
  obtain ⟨_ | a, w'⟩ := r
  · cases hb
  · exact hf a (first a rfl) w' b hb

/-- What a constant evaluation gives is at its position. -/
theorem mapM (fs : List (Evaluator σ)) (row : Value) :
    Ensures (fun vs : List Value => ∀ (i : Nat) (v : Value),
      fs[i]? = some (fun _ => pure v) → vs[i]? = some v) (fs.mapM (· row)) := by
  induction fs with
  | nil =>
    rw [List.mapM_nil]
    exact .pure fun i v h => by simp at h
  | cons f fs ih =>
    rw [List.mapM_cons]
    have head : Ensures (fun a => ∀ v, f = (fun _ => pure v) → a = v) (f row) := by
      rintro w a ha v rfl
      cases ha
      rfl
    refine head.bind fun a ha => ih.bind fun vs hvs => .pure fun i v h => ?_
    cases i with
    | zero => exact congrArg some (ha v (Option.some.inj h))
    | succ i => exact hvs i v h

end Eval.Ensures

namespace Eval.Agree

variable {pre mid post fail link : Link σ τ}

/-- What follows may rely on what the first evaluation ensures. -/
theorem bind_ensured {K : α → Prop} {m : Eval σ α} {n : Eval τ α} {f : α → Eval σ β}
    {g : α → Eval τ β} (hm : Agree pre mid fail m n) (ensured : Ensures K n)
    (hf : ∀ a, K a → Agree mid post fail (f a) (g a)) :
    Agree pre post fail (m >>= f) (n >>= g) := by
  intro w v hwv
  obtain ⟨result, after⟩ := hm w v hwv
  have given := ensured v
  rw [run_bind, run_bind]
  generalize m.run w = p at result after ⊢
  generalize n.run v = q at result after given ⊢
  obtain ⟨r, w'⟩ := p
  obtain ⟨r', v'⟩ := q
  obtain rfl : r = r' := result
  cases r with
  | ok a => exact hf a (given a rfl) w' v' after
  | error e => exact ⟨rfl, after⟩

/-- A fold in which each step keeps a property of the result so far. -/
theorem foldlM_ensured {K : β → Prop} {f : β → γ → Eval σ β} {g : β → γ → Eval τ β} (cs : List γ)
    (step : ∀ b c, K b → Agree link link fail (f b c) (g b c) ∧ Ensures K (g b c)) {b : β}
    (h : K b) :
    Agree link link fail (cs.foldlM f b) (cs.foldlM g b) ∧ Ensures K (cs.foldlM g b) := by
  induction cs generalizing b with
  | nil => exact ⟨.pure b (.refl link), .pure h⟩
  | cons c cs ih =>
    rw [List.foldlM_cons, List.foldlM_cons]
    obtain ⟨agree, ensured⟩ := step b c h
    exact ⟨agree.bind_ensured ensured fun a ha => (ih ha).1, ensured.bind fun a ha => (ih ha).2⟩

end Eval.Agree

/-! ### Records of aggregates -/

namespace AggregateOp

variable {host : Host σ} {host' : Host τ} {p : AggregateOp (Evaluator σ)}
  {q : AggregateOp (Evaluator τ)} {x y : Value} {link pre fail : Link σ τ}

/-- Whatever holds of the keys of each row holds of the keys of each record. -/
theorem feed_ensured {K : List Value → Prop}
    (keys : ∀ row, Ensures K (q.keys.mapM (· row))) (groups : GroupTable) (row : Value)
    (h : ∀ g ∈ groups.toEntries, K g.2.key) :
    Ensures (fun groups : GroupTable => ∀ g ∈ groups.toEntries, K g.2.key)
      (q.feed host' groups row) := by
  refine (Ensures.any _).bind fun _ _ => (keys row).bind fun key hkey => ?_
  refine (Ensures.any _).bind fun slots _ => .pure fun g hg => ?_
  rw [Table.toEntries_insert] at hg
  rcases Entries.mem_insert hg with hg | ⟨hg, -⟩
  · exact h g hg
  · rw [hg, Table.get?_eq, Entries.get?]
    cases found : groups.toEntries.find? fun e => e.1 == Value.tuple (key.map Value.hashKey) with
    | none => exact hkey
    | some old => exact h old (List.mem_of_find?_eq_some found)

/-- Aggregates that agree, where the output relies on what holds of the keys of all records. -/
theorem collect_ensured {K : List Value → Prop} (hkeys : p.keys.isEmpty = q.keys.isEmpty)
    (hsource : Agree pre link fail (p.source x) (q.source y)) (failed : link.Within fail)
    (hfeed : ∀ groups row, Agree link link fail (p.feed host groups row) (q.feed host' groups row))
    (keys : ∀ row, Ensures K (q.keys.mapM (· row)))
    (hempty : p.keys.isEmpty = true →
      K [] ∧ Agree link link fail (p.emptyRecord x) (q.emptyRecord y))
    (hemit : ∀ record : GroupRecord, K record.key →
      Agree link link fail (p.emit x record) (q.emit y record)) :
    Agree pre link fail (p.collect host x) (q.collect host' y) := by
  refine hsource.bind fun v => ?_
  refine Agree.bind (.lift v.elements (.refl link) failed) fun rows => ?_
  obtain ⟨agree, ensured⟩ := Agree.foldlM_ensured
    (K := fun groups : GroupTable => ∀ g ∈ groups.toEntries, K g.2.key) rows
    (fun groups row h => ⟨hfeed groups row, feed_ensured keys groups row h⟩)
    (b := Table.empty) (by simp)
  refine agree.bind_ensured ensured fun groups hgroups => ?_
  by_cases h : p.keys.isEmpty = true
  · rw [if_pos h, if_pos (hkeys ▸ h)]
    cases hlast : groups.toEntries.getLast? with
    | none =>
      obtain ⟨none, agree⟩ := hempty h
      have record : Ensures (fun r : GroupRecord => K r.key) (q.emptyRecord y) :=
        (Ensures.any _).bind fun _ _ => (Ensures.any _).bind fun _ _ => .pure none
      exact agree.bind_ensured record hemit
    | some entry => exact hemit entry.2 (hgroups entry (List.mem_of_getLast? hlast))
  · rw [if_neg h, if_neg (hkeys ▸ h)]
    refine Agree.bind (.mapM_same _ fun g hg => hemit g.2 (hgroups g hg)) fun results => ?_
    exact .pure _ (.refl link)

end AggregateOp

/-! ### Places where parameters are known -/

/-- The keys of groups that are parameters, with the names of these. -/
abbrev KnownKeys := Nat → Nat → Option String

/-- Where no group is in place. -/
def KnownKeys.none : KnownKeys := fun _ _ => .none

/-- In the output of an aggregate the keys of its group are known too. -/
def KnownKeys.enter (known : KnownKeys) (group : Nat) (keys : List (Option String)) : KnownKeys :=
  fun g i => if g = group then keys[i]?.join else known g i

/-- What there is for the operations of a program. -/
def Program.room (P : Program) : Room := ⟨P.layout.slots, P.layout.groups, P.params⟩

/-- A program that runs with values for its parameters. -/
structure Settling (σ : Type) where
  host : Host σ
  room : Room
  values : List Value

namespace Settling

variable (X : Settling σ) {known : KnownKeys} {keys : List (Option String)} {group : Nat}

/-- The value of a parameter. -/
def value : String → Value := X.room.params.valueOf X.values

/-- The frame has the values of the parameters, also in the known keys of groups. -/
structure Fixes (known : KnownKeys) (frame : Frame) : Prop where
  params : frame.params = X.values
  groups : X.room.groups ≤ frame.groups.size
  keys : ∀ g i n, known g i = some n → ∃ view, frame.group? g = some view ∧
    view.key[i]?.getD .null = X.value n

namespace Fixes

variable {X} {fr fr' : Frame}

/-- Slots do not matter. -/
theorem slots (h : X.Fixes known fr) (params : fr'.params = fr.params)
    (groups : fr'.groups = fr.groups) : X.Fixes known fr' := by
  refine ⟨params.trans h.params, groups ▸ h.groups, fun g i n hknown => ?_⟩
  rw [Frame.group?, groups]
  exact h.keys g i n hknown

/-- A group is put in place that has the values of the parameters among its keys. -/
theorem enter (h : X.Fixes known fr) (inside : group < X.room.groups) {view : Group}
    (hview : ∀ (i : Nat) (n : String), keys[i]? = some (some n) →
      view.key[i]?.getD .null = X.value n) :
    X.Fixes (known.enter group keys) (fr.setGroup group (some view)) := by
  replace inside : group < fr.groups.size := Nat.lt_of_lt_of_le inside h.groups
  refine ⟨h.params, by simpa [Frame.setGroup] using h.groups, fun g i n hknown => ?_⟩
  by_cases same : g = group
  · subst same
    rw [KnownKeys.enter, if_pos rfl] at hknown
    exact ⟨view, Frame.group?_setGroup_self _ inside, hview i n (Option.join_eq_some_iff.1 hknown)⟩
  · rw [KnownKeys.enter, if_neg same] at hknown
    rw [Frame.group?_setGroup_ne _ (Ne.symm same)]
    exact h.keys g i n hknown

/-- Afterwards the previous group is back. -/
theorem leave (h : X.Fixes known fr) (h' : X.Fixes (known.enter group keys) fr')
    (inside : group < X.room.groups) :
    X.Fixes known (fr'.setGroup group (fr.group? group)) := by
  replace inside : group < fr'.groups.size := Nat.lt_of_lt_of_le inside h'.groups
  refine ⟨h'.params, by simpa [Frame.setGroup] using h'.groups, fun g i n hknown => ?_⟩
  by_cases same : g = group
  · subst same
    rw [Frame.group?_setGroup_self _ inside]
    exact h.keys g i n hknown
  · rw [Frame.group?_setGroup_ne _ (Ne.symm same)]
    refine h'.keys g i n ?_
    rw [KnownKeys.enter, if_neg same]
    exact hknown

end Fixes

/-- The program runs twice, with these values for its parameters. -/
def setting : Setting KnownKeys σ σ where
  link known w v := w = v ∧ X.Fixes known w.frame
  inputs _ x y := x = y

variable {X}

/-! ### Evaluations that are kept -/

/-- An evaluation that leaves the parameters and the groups alone. -/
theorem keeps {m : Eval σ α}
    (h : ∀ w, X.Fixes known w.frame → X.Fixes known (m.run w).2.frame) :
    X.setting.Keeps known m m := by
  rintro w _ ⟨rfl, hw⟩
  refine ⟨rfl, ?_⟩
  cases (m.run w).1 <;> exact ⟨rfl, h w hw⟩

theorem keeps_update {f : Frame → Frame} (params : ∀ fr, (f fr).params = fr.params)
    (groups : ∀ fr, (f fr).groups = fr.groups) :
    X.setting.Keeps known (updateFrame f) (updateFrame f) :=
  keeps fun _ hw => hw.slots (params _) (groups _)

theorem keeps_setSlot (n : Nat) (v : Value) :
    X.setting.Keeps known (setSlot n v) (setSlot n v) :=
  keeps_update (fun _ => rfl) fun _ => rfl

theorem keeps_reset (ns : List Nat) : X.setting.Keeps known (reset ns) (reset ns) :=
  keeps_update (fun _ => rfl) fun _ => rfl

theorem keeps_call (f : Function) (args : List Value) :
    X.setting.Keeps known (call X.host f args) (call X.host f args) :=
  keeps fun _ hw => hw

theorem keeps_slot (n : Nat) : X.setting.Keeps known (slot? n) (slot? n) := keeps fun _ hw => hw

theorem keeps_readSlot (b : Binding) : X.setting.Keeps known (readSlot b) (readSlot b) := by
  refine keeps fun w hw => ?_
  rw [readSlot_eq, run_bind, run_frame]
  dsimp only
  cases w.frame.slot? b.slot <;> exact hw

theorem keeps_currentGroup (group : Nat) :
    X.setting.Keeps known (currentGroup group) (currentGroup group) := by
  refine keeps fun w hw => ?_
  rw [currentGroup_eq, run_bind, run_frame]
  dsimp only
  cases w.frame.group? group <;> exact hw

/-- Scopes with the same bindings are entered alike. -/
theorem enters {ω : Type} {scope scope' : Scope ω} (h : scope.resets = scope'.resets) :
    X.setting.Enters known known (reset scope.resets) (reset scope'.resets) := by
  rw [h]
  exact ⟨keeps_reset _, .refl _⟩

theorem enters_row {ω : Type} {scope scope' : Scope ω} (h : scope.resets = scope'.resets)
    (register : Binding) (row : Value) :
    X.setting.Enters known known (takeRow register scope row) (takeRow register scope' row) := by
  unfold takeRow
  rw [h]
  exact ⟨(keeps_setSlot _ _).bind fun _ => keeps_reset _, .refl _⟩

/-! ### Aggregates -/

section Aggregate

variable {p q : AggregateOp Op}

/-- The keys of a row have the values of the parameters among them. -/
theorem ensures_keys {host : Host σ} (constant : ∀ (i : Nat) (n : String),
      keys[i]? = some (some n) → q.keys[i]? = some (.mk (.const n (X.value n)))) (row : Value) :
    Ensures (fun key : List Value => ∀ (i : Nat) (n : String), keys[i]? = some (some n) →
        key[i]?.getD .null = X.value n)
      ((foldAggregate (OpNode.evaluate host) q).keys.mapM (· row)) := by
  intro w key hkey i n hn
  rw [foldAggregate_eq] at hkey
  have given := Ensures.mapM (foldAll (OpNode.evaluate host) q.keys) row w key hkey i (X.value n)
  rw [foldAll_eq, List.getElem?_map, constant i n hn] at given
  rw [given rfl]
  rfl

/-- An aggregate runs as before if its parts do.  Its keys that are parameters are known in the
    output. -/
theorem runs_aggregate (inside : p.group < X.room.groups) (hgroup : p.group = q.group)
    (rowScope : p.rowScope.resets = q.rowScope.resets)
    (outputScope : p.outputScope.resets = q.outputScope.resets)
    (source : X.setting.Runs X.host X.host known p.source q.source)
    (hkeys : List.Forall₂ (X.setting.Runs X.host X.host known) p.keys q.keys)
    (slots : List.Forall₂ (Setting.SlotAlike (X.setting.Runs X.host X.host known)) p.slots q.slots)
    (constant : ∀ (i : Nat) (n : String), keys[i]? = some (some n) →
      q.keys[i]? = some (.mk (.const n (X.value n))))
    (output : X.setting.Runs X.host X.host (known.enter p.group keys) p.output q.output) :
    X.setting.Runs X.host X.host known (.mk (.aggregate p)) (.mk (.aggregate q)) := by
  rintro x _ rfl
  change X.setting.Keeps known ((foldAggregate (OpNode.evaluate X.host) p).collect X.host x)
    ((foldAggregate (OpNode.evaluate X.host) q).collect X.host x)
  have entered (known : KnownKeys) {scope scope' : Scope Op} (h : scope.resets = scope'.resets) :
      X.setting.Keeps known (reset (foldScope (OpNode.evaluate X.host) scope).resets)
        (reset (foldScope (OpNode.evaluate X.host) scope').resets) := by
    rw [resets_foldScope, resets_foldScope]
    exact (enters h).enter
  have fed (x : Value) : List.Forall₂ (SlotAgree (X.setting.link known) (X.setting.link known) x x)
      (p.slots.map (foldSlot (OpNode.evaluate X.host)))
      (q.slots.map (foldSlot (OpNode.evaluate X.host))) :=
    List.forall₂_map_left_iff.mpr (List.forall₂_map_right_iff.mpr
      (slots.imp fun s t h => h.agree rfl (.refl _)))
  have empty : (foldAggregate (OpNode.evaluate X.host) p).keys.isEmpty =
      (foldAggregate (OpNode.evaluate X.host) q).keys.isEmpty := by
    rw [foldAggregate_eq, foldAggregate_eq, foldAll_eq, foldAll_eq, List.isEmpty_map,
      List.isEmpty_map, Bool.eq_iff_iff, List.isEmpty_iff_length_eq_zero,
      List.isEmpty_iff_length_eq_zero, hkeys.length_eq]
  -- Rows agree as before; what is new is that a record's keys hold the values of the parameters
  -- among them, and the output may read these.
  refine AggregateOp.collect_ensured empty ?_ (.refl _) (fun groups row => ?_)
    (ensures_keys constant) (fun none => ⟨fun i n hn => ?_, ?_⟩) fun record hrecord => ?_
  · rw [foldAggregate_eq, foldAggregate_eq]
    exact source x x rfl
  · rw [foldAggregate_eq, foldAggregate_eq]
    refine @AggregateOp.feed_agree _ _ _ _ _ _ _ _ row (X.setting.link known)
      (X.setting.link known) ?_ ?_ (fed row) (fun s _ k _ args => keeps_call k args) (.refl _)
      (.refl _) groups
    · exact entered known rowScope
    · exact (AgreeAll.of_forall₂ (Setting.runs_all hkeys rfl (.refl _))).mapM
  · -- Without keys none of them is a parameter.
    have found := constant i n hn
    rw [foldAggregate_eq, foldAll_eq, List.isEmpty_map, List.isEmpty_iff] at none
    rw [none] at hkeys
    rw [List.forall₂_nil_left_iff.1 hkeys] at found
    cases found
  · rw [foldAggregate_eq, foldAggregate_eq]
    refine AggregateOp.emptyRecord_agree (entered known rowScope) ?_ (.refl _)
    exact (fed x).imp fun s t h => SlotOp.empty_agree h.seedEmpty fun _ => h.initial
  · rw [foldAggregate_eq, foldAggregate_eq]
    refine AggregateOp.emit_agree ((fed .null).imp fun s t h => h.kind) (.refl _) fun group => ?_
    have body := Agree.bind (entered (known.enter p.group keys) outputScope) fun _ =>
      output x x rfl
    have enter (w v : World σ) (h : X.setting.link known w v) :
        X.setting.link (known.enter p.group keys)
          { w with frame := w.frame.setGroup p.group (some ⟨record.key, group⟩) }
          { v with frame := v.frame.setGroup q.group (some ⟨record.key, group⟩) } := by
      obtain ⟨rfl, hw⟩ := h
      rw [hgroup] at inside ⊢
      exact ⟨rfl, hw.enter inside hrecord⟩
    have leave (w v w' v' : World σ) (h : X.setting.link known w v)
        (h' : X.setting.link (known.enter p.group keys) w' v') :
        X.setting.link known
          { w' with frame := w'.frame.setGroup p.group (w.frame.group? p.group) }
          { v' with frame := v'.frame.setGroup q.group (v.frame.group? q.group) } := by
      obtain ⟨rfl, hw⟩ := h
      obtain ⟨rfl, hw'⟩ := h'
      rw [hgroup] at inside hw' ⊢
      exact ⟨rfl, hw.leave hw' inside⟩
    exact Eval.Agree.withGroup enter body leave leave

end Aggregate

end Settling

/-! ### Settled operations -/

/-- The results of a node are computed one by one when a program is started. -/
def OpNode.isStream {ω : Type} : OpNode ω → Bool
  | .loop _ | .join _ => true
  | _ => false

/-- The parts of an operation that refers to what is there do so too. -/
theorem Op.WellScoped.part {room : Room} {a : Around} {node : OpNode Op} {op : Op}
    (h : (Op.mk node).WellScoped room a) (hop : op ∈ node.parts) : ∃ a, op.WellScoped room a := by
  rw [← OpNode.entries_op] at hop
  obtain ⟨e, he, rfl⟩ := List.mem_map.mp hop
  cases h with
  | mk _ _ _ parts => exact ⟨_, parts e he⟩

namespace Settling

variable (X : Settling σ) {known : KnownKeys}

/-- The second operation runs as the first one where these keys are known, and so do its parts if
    results are taken one by one. -/
def Matches (known : KnownKeys) (op op' : Op) : Prop :=
  X.setting.Alike X.host X.host (X.setting.Runs X.host X.host) known op.node op'.node ∨
    X.setting.Runs X.host X.host known op op' ∧ op.node.isStream = false ∧
      op'.node.isStream = false

/-- It does so if all that the first operation refers to is there. -/
def Settled (known : KnownKeys) (op op' : Op) : Prop :=
  (∃ a, op.WellScoped X.room a) → X.Matches known op op'

variable {X} {op op' : Op} {node node' : OpNode Op}

theorem Matches.runs (h : X.Matches known op op') : X.setting.Runs X.host X.host known op op' := by
  rcases h with h | ⟨h, -⟩
  · obtain ⟨node⟩ := op
    obtain ⟨node'⟩ := op'
    exact h.runs
  · exact h

namespace Settled

/-- A node that is kept, with parts that are settled. -/
theorem ofAlike (h : X.setting.Alike X.host X.host X.Settled known node node') :
    X.Settled known (.mk node) (.mk node') := by
  rintro ⟨a, hscoped⟩
  exact .inl (h.imp fun d o ho o' settled => (settled (hscoped.part ho)).runs)

/-- A reference to a parameter. -/
theorem param (index : Nat) (name : String) :
    X.Settled known (.mk (.param index name)) (.mk (.const name (X.value name))) := by
  rintro ⟨a, hscoped⟩
  have found : X.room.params.indexOf? name = some index := by
    cases hscoped with
    | mk here => exact here
  refine .inr ⟨?_, rfl, rfl⟩
  rintro x _ rfl w _ ⟨rfl, hw⟩
  refine ⟨?_, rfl, hw⟩
  have value : w.frame.param index = X.value name := by
    rw [Frame.param, hw.params, Settling.value, Signature.valueOf, found]
    rfl
  exact congrArg Except.ok value

/-- A key of a group that is a parameter. -/
theorem groupKey {group index : Nat} {name : String} (h : known group index = some name) :
    X.Settled known (.mk (.groupKey group index)) (.mk (.const name (X.value name))) := by
  refine fun _ => .inr ⟨?_, rfl, rfl⟩
  rintro x _ rfl w _ ⟨rfl, hw⟩
  obtain ⟨view, found, value⟩ := hw.keys _ _ _ h
  have run : ((Op.mk (.groupKey group index)).eval X.host x).run w =
      (.ok (view.key[index]?.getD .null), w) := by
    change (currentGroup group >>= fun view => pure (view.key[index]?.getD .null)).run w = _
    rw [currentGroup_eq, run_bind, run_bind, run_frame]
    dsimp only
    rw [found]
    rfl
  rw [run, value]
  exact ⟨rfl, rfl, hw⟩

/-- An aggregate with settled parts.  Its keys that are parameters are known in the output. -/
theorem aggregate {p q : AggregateOp Op} {keys : List (Option String)} (hgroup : p.group = q.group)
    (rowScope : p.rowScope.resets = q.rowScope.resets)
    (outputScope : p.outputScope.resets = q.outputScope.resets)
    (source : X.Settled known p.source q.source)
    (hkeys : List.Forall₂ (X.Settled known) p.keys q.keys)
    (slots : List.Forall₂ (Setting.SlotAlike (X.Settled known)) p.slots q.slots)
    (constant : ∀ (i : Nat) (n : String), keys[i]? = some (some n) →
      q.keys[i]? = some (.mk (.const n (X.value n))))
    (output : X.Settled (known.enter p.group keys) p.output q.output) :
    X.Settled known (.mk (.aggregate p)) (.mk (.aggregate q)) := by
  rintro ⟨a, hscoped⟩
  have inside : p.group < X.room.groups := by
    cases hscoped with
    | mk here => exact here.1
  have part {o : Op} (ho : o ∈ (OpNode.aggregate p).parts) : ∃ a, o.WellScoped X.room a :=
    hscoped.part ho
  simp only [OpNode.parts, List.mem_cons, List.mem_append, List.mem_flatMap] at part
  replace source := (source (part (.inl rfl))).runs
  replace output := (output (part (.inr (.inr (.inl rfl))))).runs
  replace hkeys := forall₂_imp_mem hkeys fun o ho o' h => (h (part (.inr (.inl (.inl ho))))).runs
  replace slots := forall₂_imp_mem slots fun s hs t h =>
    h.imp fun o ho o' h => (h (part (.inr (.inl (.inr ⟨s, hs, ho⟩))))).runs
  exact .inr ⟨runs_aggregate inside hgroup rowScope outputScope source hkeys slots constant output,
    rfl, rfl⟩

/-- A join with settled parts. -/
theorem join {p q : JoinOp Op} (kind : p.kind = q.kind) (leftRow : p.leftRow = q.leftRow)
    (rightRow : p.rightRow = q.rightRow)
    (leftScope : p.leftSide.scope.resets = q.leftSide.scope.resets)
    (rightScope : p.rightSide.scope.resets = q.rightSide.scope.resets)
    (pairScope : p.pairScope.resets = q.pairScope.resets)
    (left : X.Settled known p.left q.left) (right : X.Settled known p.right q.right)
    (preFilter : Option.Rel (X.Settled known) p.preFilter q.preFilter)
    (leftSide : Setting.SideAlike (X.Settled known) p.leftSide q.leftSide)
    (rightSide : Setting.SideAlike (X.Settled known) p.rightSide q.rightSide)
    (residual : Option.Rel (X.Settled known) p.residual q.residual) :
    X.Settled known (.mk (.join p)) (.mk (.join q)) := by
  have swapped : p.isSwapped = q.isSwapped := by rw [JoinOp.isSwapped, kind, JoinOp.isSwapped]
  refine .ofAlike (.join ⟨kind, left, right, preFilter,
    fun row => ⟨known, ?_, fun _ _ h => h, ?_⟩,
    fun row => ⟨known, ?_, fun _ _ h => h, ?_, fun row => ⟨known, ?_, fun _ _ h => h, residual⟩⟩⟩)
  all_goals
    simp only [JoinOp.primarySide, JoinOp.secondarySide, ← swapped, ← leftRow, ← rightRow]
    cases p.isSwapped
  · exact enters_row rightScope p.rightRow row
  · exact enters_row leftScope p.leftRow row
  · exact rightSide
  · exact leftSide
  · exact enters_row leftScope p.leftRow row
  · exact enters_row rightScope p.rightRow row
  · exact leftSide
  · exact rightSide
  · exact enters_row pairScope p.rightRow row
  · exact enters_row pairScope p.leftRow row

end Settled
end Settling

/-! ### Programs -/

/-- Programs that begin at a place are started alike if they compute all results at once. -/
theorem Setting.Begins.startWhole {κ : Type} {S : Setting κ σ τ} {H : σ → τ → Prop} {c : κ}
    {host : Host σ} {host' : Host τ} {P Q : Program} {params params' : Params} {x y : Value}
    (h : S.Begins H c P Q params params') (hbody : S.Runs host host' c P.body Q.body)
    (hP : P.body.node.isStream = false) (hQ : Q.body.node.isStream = false)
    (hxy : S.inputs c x y) {s : σ} {t : τ} (hst : H s t) :
    SameStart c S H host host' (P.start host x params s) (Q.start host' y params' t) := by
  have elements : S.Keeps c (do (← P.body.eval host x).elements)
      (do (← Q.body.eval host' y).elements) :=
    Agree.bind (hbody x y hxy) fun v => .lift v.elements (.refl _) (.refl _)
  have whole := h.ofRun host host' elements (f := fun r => .values r.1)
    (g := fun r => .values r.1) (fun a frame frame' s t hlink => .values (h.hosts _ _ hlink)) hst
  have once {ρ : Type} (host : Host ρ) (P : Program) (params : Params) (x : Value)
      (hP : P.body.node.isStream = false) : P.start host x params = (do
        let result ← P.runFresh params do (← P.body.eval host x).elements
        return result.map fun r => .values r.1) := by
    obtain ⟨signature, constants, scope, ⟨node⟩, layout⟩ := P
    cases node <;> first | rfl | cases hP
  rw [once host P params x hP, once host' Q params' y hQ]
  exact whole

namespace Settling

variable {X : Settling σ} {P Q : Program} {params : Params}

/-- The program begins with the values for its parameters. -/
theorem begins (hroom : X.room = P.room) (hparams : Q.params = P.params)
    (hlayout : Q.layout = P.layout) (hbind : P.params.bind params = .ok X.values) :
    X.setting.Begins Eq .none P Q params params where
  frames s t hst := by
    subst hst
    rw [Program.frame, Program.frame, hparams, hlayout, hbind]
    refine ⟨rfl, rfl, ?_, fun g i n h => by cases h⟩
    rw [hroom]
    exact Nat.le_of_eq (Array.size_replicate ..).symm
  hosts := by
    rintro w _ ⟨rfl, -⟩
    rfl

/-- A program whose body is settled runs as before. -/
theorem run_eq (hroom : X.room = P.room) (hparams : Q.params = P.params)
    (hlayout : Q.layout = P.layout) (hbind : P.params.bind params = .ok X.values)
    (hbody : X.Matches .none P.body Q.body) (x : Value) :
    P.call X.host x params = Q.call X.host x params ∧
      ∀ count, P.takeBy (OpNode.evaluate X.host) count x params =
        Q.takeBy (OpNode.evaluate X.host) count x params := by
  have begins := begins hroom hparams hlayout hbind
  refine ⟨funext fun s => ?_, fun count => funext fun s => ?_⟩
  · obtain ⟨result, after⟩ := begins.call hbody.runs (x := x) (y := x) rfl s s rfl
    exact Prod.ext result after
  · have started : Setting.SameStart KnownKeys.none X.setting Eq X.host X.host
        (P.start X.host x params s) (Q.start X.host x params s) := by
      rcases hbody with alike | ⟨runs, hP, hQ⟩
      · exact begins.start alike rfl rfl
      · exact begins.startWhole runs hP hQ rfl rfl
    rw [Program.takeBy_eq, Program.takeBy_eq, ← Program.start_eq_startBy,
      ← Program.start_eq_startBy]
    generalize P.start X.host x params s = p at started ⊢
    generalize Q.start X.host x params s = q at started ⊢
    rcases p with ⟨e | k, s'⟩ <;> rcases q with ⟨e' | l, t'⟩
    · obtain ⟨rfl, rfl⟩ := started
      rfl
    · exact started.elim
    · exact started.elim
    · obtain ⟨taken, ended⟩ := started.take begins.hosts count
      exact Prod.ext (congrArg Except.ok taken) ended

end Settling
end DataExpr
