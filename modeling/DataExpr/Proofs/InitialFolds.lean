import DataExpr.Proofs.SlotFolds

/-!
# Initial values as starts of folds

A reducer that declares no default, but an initial value that reads nothing, reports the fold of
the rows of its group from that value (`Program.call_folds`).  The initial value is evaluated in
three places: for the first row that sets the slot, for an aggregate without rows, and in the
output in place of a default.  In the output a subexpression that equals a key of the group stands
for it.  This makes no difference where the key does not read the input, as the key then has one
value, unless it reads the error of a handler or the rows of a join, which may be others in the
output than for the rows; so neither keys nor initial values are to read those
(`Program.lastOrError_stale`).
-/

namespace DataExpr

open Eval Lowering Reduction

variable {σ : Type}

/-! ### Expressions that do not see where they stand -/

/-- Neither the error of a handler around nor the rows of a join around are read. -/
structure Analysis.Apart (a : Analysis) : Prop where
  caught : a.readsCaught = false
  left : a.sides.left = false
  right : a.sides.right = false

/-- The scene without the group of an aggregate. -/
def Scene.alone (s : Scene) : Scene := { s with output := none }

theorem Scene.keyless_alone (s : Scene) : s.alone.Keyless := fun _ => rfl

namespace Expr

variable {S : Semantics} {root e : Expr} {s s' : Scene} {r : Registry}

/-- What reads nothing of the scene but parameters means the same everywhere. -/
theorem meaning_of_apart (he : e.Tame r) (idle : e.analysis.Idle) (apart : e.analysis.Apart)
    (keyless : s.Keyless) (keyless' : s'.Keyless) (hparam : s'.param = s.param) :
    e.meaning S s' = e.meaning S s := by
  apply e.meaning_congr he.analyzed he.candid
  refine ⟨hparam, .inr ⟨idle.2, keyless, keyless'⟩, .inr idle, fun h => ?_, fun h => ?_,
    fun h => ?_⟩
  · rw [apart.caught] at h
    cases h
  · rw [apart.left] at h
    cases h
  · rw [apart.right] at h
    cases h

variable (S root) in
/-- What stands for a key of the group, but does not read the input, has the value of the key
    wherever it stands. -/
def Truthful (s : Scene) : Prop :=
  ∀ c v, Within c root → c.analysis.Idle → s.key? c = some v →
    ∀ t : Scene, t.Keyless → t.param = s.param → c.meaning S t = .ok v

/-- An expression that does not read its input does not see the keys of the group. -/
theorem meaning_alone (e : Expr) (he : e.Tame r) (hroot : Within e root) (idle : e.analysis.Idle)
    {s : Scene} (truthful : Truthful S root s) : e.meaning S s = e.meaning S s.alone := by
  cases hkey : s.key? e with
  | some v =>
    rw [meaning_of_key hkey, truthful e v hroot idle hkey s.alone s.keyless_alone rfl]
  | none =>
    rw [meaning_of_node hkey, meaning_of_node (s.keyless_alone e)]
    have image (c : Smaller e) : image (fun c => c.id) c = c.1 := relabel_id c.1
    apply AlikeOn.node (f := fun i => i)
    · refine ⟨fun shift c hc c' hc' => ?_, fun _ _ => rfl, fun r hnode => ?_, fun _ => rfl,
        fun _ => rfl, fun _ => rfl, fun _ => rfl⟩
      · rw [image] at hc'
        rw [hc']
        obtain ⟨hwithin, covers⟩ := covers_part he.analyzed he.candid hc
        have tame := he.within hwithin
        -- Where the part has an input of its own or none, no expression stands for a key.
        have apart {t t' : Scene} (quiet : c.1.analysis.Quiet) (keyless : t.Keyless)
            (keyless' : t'.Keyless) (hparam : t'.param = t.param) (hinput : t'.input = t.input)
            (hcaught : t'.caught = t.caught) (hleft : t'.left = t.left)
            (hright : t'.right = t.right) : c.1.meaning S t' = c.1.meaning S t :=
          c.1.meaning_congr tame.analyzed tame.candid ⟨hparam, .inr ⟨quiet, keyless, keyless'⟩,
            .inl hinput, fun _ => hcaught, fun _ => hleft, fun _ => hright⟩
        cases shift with
        | same =>
          exact meaning_alone c.1 tame (hwithin.trans hroot) (covers.input (.inl rfl) idle) truthful
        | catching err =>
          exact meaning_alone c.1 tame (hwithin.trans hroot)
            (covers.input (.inr (.inr ⟨err, rfl⟩)) idle) (s := s.catching err) truthful
        | within input =>
          exact apart (covers.reducers nofun nofun idle.2) (.within input) (.within input) rfl rfl
            rfl rfl rfl
        | withRows l r =>
          exact apart (covers.reducers nofun nofun idle.2) (.withRows l r) (.withRows l r) rfl rfl
            rfl rfl rfl
        | onRow row => rfl
        | emitting view => exact absurd idle (covers.emitting view rfl)
      · exact absurd idle.2 (not_quiet he.analyzed hnode)
    · exact congrArg (Node.map · e.parts) (funext fun c => (image c).symm)
termination_by sizeOf e
decreasing_by all_goals exact c.2

end Expr

/-! ### Reducers that share a slot -/

section SameSlot

variable {S : Semantics} {r : Registry} {e d : Expr}

/-- The slot of a reducer of pairs is that of either side, if the sides mean the same. -/
theorem Reducer.slotMeaning_map_snd (c : Reducer (Smaller e × Smaller d))
    (h : ∀ x ∈ c.children, x.2.1.meaning S = x.1.1.meaning S ∧ x.2.1.analysis = x.1.1.analysis)
    (s : Scene) : (c.map Prod.snd).slotMeaning (fun c => c.1.meaning S) s =
      (c.map Prod.fst).slotMeaning (fun c => c.1.meaning S) s := by
  obtain ⟨kind, args, filter, default, initial⟩ := c
  simp only [children, List.mem_append, Option.mem_toList] at h
  simp only [Reducer.map, slotMeaning, SlotMeaning.mk.injEq, true_and]
  refine ⟨?accepts, ?args, ?initial, ?seed⟩
  case accepts =>
    cases filter with
    | none => rfl
    | some x =>
      funext row
      simp [h x (.inl (.inl (.inl rfl)))]
  case args =>
    funext row
    rw [List.mapM_map, List.mapM_map]
    apply mapM_images (u := fun x => x) (v := fun x => x) rfl
    rintro x hx y rfl
    exact congrFun (h y (.inl (.inl (.inr hx)))).1 _
  case initial =>
    cases initial with
    | none => rfl
    | some x => simp [h x (.inl (.inr rfl))]
  case seed =>
    cases initial with
    | none => rfl
    | some x =>
      obtain ⟨hmeaning, hanalysis⟩ := h x (.inl (.inr rfl))
      simp [hmeaning, hanalysis, Option.filter_some, apply_ite]

/-- Reducers that share a slot evaluate the same for each row. -/
theorem Reducer.slotMeaning_of_sameSlot {q : Reducer (Smaller e)} {red : Reducer (Smaller d)}
    (hq : q.kind.Exact r) (hred : red.kind.Exact r) (hqs : ∀ c ∈ q.children, c.1.Exact r)
    (hreds : ∀ c ∈ red.children, c.1.Exact r)
    (h : (Smaller.plain q).sameSlot (Smaller.plain red) = true) (s : Scene) :
    red.slotMeaning (fun c => c.1.meaning S) s = q.slotMeaning (fun c => c.1.meaning S) s := by
  rw [sameSlot, Smaller.plain, Smaller.plain, Reducer.zipSlot_map] at h
  -- The defaults do not matter.
  obtain ⟨c, hfst, hsnd, pairs⟩ := Reducer.exists_pairs (a := { q with default := none })
    (b := { red with default := none }) hq hred (Bool.and_eq_true_iff.mpr ⟨h, rfl⟩)
  have exact_fst : ∀ x ∈ c.children, x.1.1.Exact r := by
    intro x hx
    apply hqs
    have hmem : x.1 ∈ ({ q with default := none } : Reducer (Smaller e)).children := by
      rw [← hfst, Reducer.children_map]
      exact List.mem_map_of_mem hx
    simp only [children, Option.toList_none, List.append_nil] at hmem ⊢
    exact List.mem_append_left _ hmem
  have exact_snd : ∀ x ∈ c.children, x.2.1.Exact r := by
    intro x hx
    apply hreds
    have hmem : x.2 ∈ ({ red with default := none } : Reducer (Smaller d)).children := by
      rw [← hsnd, Reducer.children_map]
      exact List.mem_map_of_mem hx
    simp only [children, Option.toList_none, List.append_nil] at hmem ⊢
    exact List.mem_append_left _ hmem
  have alike := c.slotMeaning_map_snd (S := S) (fun x hx =>
    ⟨(Expr.meaning_eq_of_beq (exact_fst x hx) (exact_snd x hx) (pairs x hx)).symm,
      (Expr.analysis_eq_of_beq (exact_fst x hx) (exact_snd x hx) (pairs x hx)).symm⟩) s
  rw [hfst, hsnd] at alike
  exact alike

end SameSlot

/-! ### Keys of a group -/

namespace Expr

variable {S : Semantics} {root e : Expr} {s s' : Scene} {r : Registry}

theorem getElem?_of_mapM {α β : Type} {f : α → Except Error β} {as : List α} {bs : List β}
    (h : as.mapM f = .ok bs) {i : Nat} {a : α} (ha : as[i]? = some a) :
    ∃ b, bs[i]? = some b ∧ f a = .ok b := by
  induction as generalizing bs i with
  | nil => cases ha
  | cons x as ih =>
    rw [List.mapM_cons] at h
    obtain ⟨b, hb, h⟩ := Analysis.bind_eq_ok.mp h
    obtain ⟨rest, hrest, h⟩ := Analysis.bind_eq_ok.mp h
    cases h
    cases i with
    | zero =>
      cases ha
      exact ⟨b, rfl, hb⟩
    | succ i => exact ih hrest ha

/-- In the output for a group its keys stand for their values. -/
theorem truthful_ofGroup {f : Expr} {keys : List (Smaller f)} (hf : f.Tame r)
    (hkeys : ∀ k ∈ keys, Within k.1 f ∧ k.1.analysis.Apart) {row : Value} {key : List Value}
    (hkey : (keys.mapM fun k => k.1.meaning S (s.onRow (.ok row))) = .ok key)
    {reducers : List (Reducer Expr)} {values : List (Option Value)} (hparam : s'.param = s.param)
    (houtput : s'.output = some (.ofGroup (keys.map (·.1)) reducers ⟨key, values⟩)) :
    Truthful S f s' := by
  intro c v hc idle hv t keyless htparam
  rw [Scene.key?, houtput] at hv
  obtain ⟨i, hi, hv⟩ := Option.map_eq_some_iff.mp hv
  obtain ⟨hlt, hsame, -⟩ := List.findIdx?_eq_some_iff_getElem.mp hi
  rw [List.length_map] at hlt
  rw [List.getElem_map] at hsame
  obtain ⟨w, hw, hmeaning⟩ := getElem?_of_mapM hkey (List.getElem?_eq_getElem hlt)
  obtain ⟨hwithin, apart⟩ := hkeys keys[i] (List.getElem_mem hlt)
  obtain rfl : w = v := by
    rw [hw] at hv
    exact hv
  have tame := hf.within hwithin
  have exactness := hf.within hc
  rw [← meaning_eq_of_beq tame.exact exactness.exact hsame, ← hmeaning]
  refine meaning_of_apart tame ?_ apart (fun _ => rfl) keyless (htparam.trans hparam)
  rw [analysis_eq_of_beq tame.exact exactness.exact hsame]
  exact idle

end Expr

/-! ### What reducers report -/

section Reported

variable {S : Semantics} {d : Expr} {s : Scene} {r : Registry} {red : Reducer (Smaller d)}
  {i v : Value} {rows : List Value} {value : Option Value}

/-- The initial value of a reducer is this one, whatever the row, the error of a handler or the
    rows of a join around. -/
def Reducer.StartsFrom (S : Semantics) (s : Scene) (red : Reducer (Smaller d)) (i : Value) : Prop :=
  ∃ c, red.initial = some c ∧ c.1.analysis.inputUses = 0 ∧ c.1.analysis.Apart ∧
    c.1.meaning S (s.onRow s.input) = .ok i

/-- What a valid reducer reports for some rows, or its initial value if it reports nothing, is the
    fold of the rows. -/
theorem Reducer.fold_of_reported (hd : d.Tame r) (hparts : d.parts = .reducer red)
    (valid : (Smaller.plain red).validate = .ok ()) (starts : red.StartsFrom S s i)
    (reported : (red.slotMeaning (fun c => c.1.meaning S) s).Reported S rows value) :
    (red.slotMeaning (fun c => c.1.meaning S) s).fold S rows i = .ok (value.getD i) := by
  obtain ⟨c, hinitial, uses, apart, hi⟩ := starts
  have accepts : red.kind.acceptsInitial = true := by
    refine (Reducer.valid_of_validate valid).2.2 ?_
    simp [Smaller.plain, Reducer.map, hinitial]
  have tame : c.1.Tame r := by
    apply hd.within
    apply Expr.Within.child
    apply Expr.mem_parts
    rw [hparts]
    simp [Node.children, Reducer.children, hinitial]
  have constant (row : Value) : c.1.meaning S (s.onRow (.ok row)) = .ok i := by
    rw [← hi]
    exact Expr.meaning_of_apart tame ⟨uses, Reducer.quiet_initial valid hinitial⟩ apart
      (fun _ => rfl) (fun _ => rfl) rfl
  exact reported.fold_eq accepts (by rw [slotMeaning, hinitial]; rfl) constant
    (by simp [slotMeaning, hinitial, uses, hi])

/-- On a scene of the output where a slot reports nothing, its reducer falls back to the initial
    value. -/
theorem Reducer.fallback_of_startsFrom {f : Expr} (hf : f.Tame r) (hd : Expr.Within d f)
    (hparts : d.parts = .reducer red) (valid : (Smaller.plain red).validate = .ok ())
    (hdefault : red.default = none) (starts : red.StartsFrom S s i) {s' : Scene}
    (truthful : Expr.Truthful S f s') (hparam : s'.param = s.param) :
    red.fallback (fun c => c.1.meaning S) s' = .ok i := by
  obtain ⟨c, hinitial, uses, apart, hi⟩ := starts
  have within : Expr.Within c.1 f := by
    refine .trans (.child (Expr.mem_parts ?_)) hd
    rw [hparts]
    simp [Node.children, Reducer.children, hinitial]
  have tame := hf.within within
  have idle : c.1.analysis.Idle := ⟨uses, Reducer.quiet_initial valid hinitial⟩
  have oneSource : (Smaller.plain red).OneSource :=
    .inl (by simp [Smaller.plain, Reducer.map, hdefault])
  calc red.fallback (fun c => c.1.meaning S) s'
    _ = c.1.meaning S s' := Reducer.fallback_of_oneSource oneSource hinitial uses _ _
    _ = c.1.meaning S s'.alone := Expr.meaning_alone c.1 tame within idle truthful
    _ = c.1.meaning S (s.onRow s.input) :=
      Expr.meaning_of_apart tame idle apart (fun _ => rfl) s'.keyless_alone hparam
    _ = .ok i := hi

end Reported

namespace Expr

/-- The reducers of this output that declare no default report for a group the folds of its rows
    from their initial values. -/
def Folds (S : Semantics) (s : Scene) (rows : List Value) (view : OutputView) (output : Expr) :
    Prop :=
  ∀ d, Beside d output → ∀ red : Reducer (Smaller d), d.parts = .reducer red →
    red.default = none → ∀ i, red.StartsFrom S s i →
      ∃ x, (red.slotMeaning (fun c => c.1.meaning S) s).fold S rows i = .ok x ∧
        ∀ s' : Scene, s'.param = s.param →
          s'.output = some view ∨ s'.output = some view.nested → d.meaning S s' = .ok x

variable {S : Semantics} {f d : Expr} {s s' : Scene} {r : Registry} {keys : List (Smaller f)}
  {output : Smaller f} {reducers : List (Reducer (Smaller f))} {key : List Value} {row : Value}
  {rows : List Value} {values : List (Option Value)} {g : Members} {input v : Value}

theorem truthful_of_keyless (keyless : s.Keyless) : Truthful S f s := by
  intro c v _ _ hv
  rw [keyless c] at hv
  cases hv

/-- A reducer does not stand for a key. -/
theorem key?_reducer {red : Reducer (Smaller d)} (hf : f.Tame r) (hd : Within d f)
    (hparts : d.parts = .reducer red) (hkeys : ∀ k ∈ keys, Within k.1 f)
    (hkey : (keys.mapM fun k => k.1.meaning S (s.onRow (.ok row))) = .ok key)
    {reducers : List (Reducer Expr)}
    (houtput : s'.output = some (.ofGroup (keys.map (·.1)) reducers ⟨key, values⟩)) :
    s'.key? d = none := by
  rw [Scene.key?, houtput]
  apply Option.map_eq_none_iff.mpr
  rw [List.findIdx?_eq_none_iff]
  intro c hc
  obtain ⟨k, hk, rfl⟩ := List.mem_map.mp hc
  by_contra hsame
  -- A key is evaluated for a row, where there are no reducers.
  obtain ⟨i, hi⟩ := List.mem_iff_getElem?.mp hk
  obtain ⟨v, -, hmeaning⟩ := getElem?_of_mapM hkey hi
  rw [meaning_eq_of_beq (hf.within (hkeys k hk)).exact (hf.within hd).exact (by simpa using hsame),
    meaning_of_node rfl, hparts] at hmeaning
  cases hmeaning

theorem within_of_aggregate (hnode : f.parts = .aggregate keys output) :
    Within output.1 f ∧ ∀ k ∈ keys, Within k.1 f := by
  constructor
  · apply Within.child
    apply mem_parts
    rw [hnode]
    exact List.mem_append_right _ List.mem_cons_self
  · intro k hk
    apply Within.child
    apply mem_parts
    rw [hnode]
    exact List.mem_append_left _ hk

/-- A reducer of the output is valid, and its slot holds what its rows report. -/
theorem exists_reported (hf : f.Tame r) (hnode : f.parts = .aggregate keys output)
    (hslots : output.slots = .ok reducers)
    (hvalues : List.Forall₂ (fun slot value => slot.Reported S rows value)
      (reducers.map (Reducer.slotMeaning (fun c => c.1.meaning S) s)) values)
    (hd : Beside d output.1) {red : Reducer (Smaller d)} (hparts : d.parts = .reducer red)
    (key : List Value) : (Smaller.plain red).validate = .ok () ∧ ∃ value,
      (red.slotMeaning (fun c => c.1.meaning S) s).Reported S rows value ∧
      (OutputView.ofGroup (keys.map (·.1)) (reducers.map Smaller.plain) ⟨key, values⟩).slot?
        (Smaller.plain red) = some value := by
  have houtput := (within_of_aggregate hnode).1
  have tame := hf.within (hd.within.trans houtput)
  obtain ⟨red', hmem, hplain⟩ := output.exists_mem_reducers hd (node_of_parts hparts)
  obtain ⟨valid, slot⟩ := Smaller.of_mem_reducers hslots red' hmem
  rw [hplain] at valid slot
  obtain ⟨q, hq, hsame, value, reported, hslot⟩ :=
    OutputView.exists_slot (List.forall₂_map_left_iff.mp hvalues) slot
  refine ⟨valid, value, ?_, hslot⟩
  have hqmem := output.mem_reducers_of_mem_slots hslots q hq
  obtain ⟨d', hd', hnode'⟩ := output.exists_of_mem_reducers q hqmem
  have hqkind := (hf.within (hd'.trans houtput)).exact d' (.refl d')
  have hkind := tame.exact d (.refl d)
  rw [hnode'] at hqkind
  rw [node_of_parts hparts] at hkind
  rw [Reducer.slotMeaning_of_sameSlot hqkind hkind (fun c hc => ?_) (fun c hc => ?_) hsame s]
  · exact reported
  · exact (hf.within ((output.within_of_mem_reducers q hqmem c hc).trans houtput)).exact
  · refine (tame.within (.child (mem_parts ?_))).exact
    rw [hparts]
    exact hc

/-- On the scenes of the output for a group its keys stand for their values, and no reducer stands
    for a key. -/
theorem seen_of_output (hf : f.Tame r) (hnode : f.parts = .aggregate keys output)
    (hkeys : ∀ k ∈ keys, k.1.analysis.Apart)
    (hkey : (keys.mapM fun k => k.1.meaning S (s.onRow (.ok row))) = .ok key)
    (hd : Beside d output.1) {red : Reducer (Smaller d)} (hparts : d.parts = .reducer red)
    (hparam : s'.param = s.param) {view : OutputView} {reducers : List (Reducer Expr)}
    (hview : view = .ofGroup (keys.map (·.1)) reducers ⟨key, values⟩)
    (houtput : s'.output = some view ∨ s'.output = some view.nested) :
    Truthful S f s' ∧ s'.key? d = none := by
  obtain ⟨within, keyed⟩ := within_of_aggregate hnode
  subst hview
  rcases houtput with h | h
  · exact ⟨truthful_ofGroup hf (fun k hk => ⟨keyed k hk, hkeys k hk⟩) hkey hparam h,
      key?_reducer hf (hd.within.trans within) hparts keyed hkey h⟩
  · have keyless : s'.Keyless := fun e => by rw [Scene.key?, h]; rfl
    exact ⟨truthful_of_keyless keyless, keyless d⟩

/-- The output for a group reports folds, if its slots hold what the rows of the group report. -/
theorem folds (hf : f.Tame r) (hnode : f.parts = .aggregate keys output)
    (hslots : output.slots = .ok reducers) (hkeys : ∀ k ∈ keys, k.1.analysis.Apart)
    (hkey : (keys.mapM fun k => k.1.meaning S (s.onRow (.ok row))) = .ok key)
    (hvalues : List.Forall₂ (fun slot value => slot.Reported S rows value)
      (reducers.map (Reducer.slotMeaning (fun c => c.1.meaning S) s)) values) :
    output.1.Folds S s rows
      (.ofGroup (keys.map (·.1)) (reducers.map Smaller.plain) ⟨key, values⟩) := by
  intro d hd red hparts hdefault i starts
  have within : Within d f := hd.within.trans (within_of_aggregate hnode).1
  obtain ⟨valid, value, reported, hslot⟩ :=
    exists_reported hf hnode hslots hvalues hd hparts key
  refine ⟨value.getD i,
    Reducer.fold_of_reported (hf.within within) hparts valid starts reported, ?_⟩
  intro s' hparam houtput
  obtain ⟨truthful, hkeyless⟩ := seen_of_output hf hnode hkeys hkey hd hparts hparam rfl houtput
  have slot : (s'.output.bind fun view => view.slot? (Smaller.plain red)) = some value := by
    rcases houtput with h | h
    · rw [h]
      exact hslot
    · rw [h]
      exact hslot
  rw [meaning_of_node hkeyless, hparts]
  change red.meaning _ s' = _
  rw [Reducer.meaning, slot]
  cases value with
  | some v => rfl
  | none =>
    exact Reducer.fallback_of_startsFrom hf within hparts valid hdefault starts truthful hparam

/-- An aggregate gives this value for a group, and its output reports the folds of the rows. -/
def GivesFolds (S : Semantics) (s : Scene) (keys : List (Smaller f)) (output : Smaller f)
    (reducers : List (Reducer (Smaller f))) (g : Members) (v : Value) : Prop :=
  ∃ values,
    let view := OutputView.ofGroup (keys.map (·.1)) (reducers.map Smaller.plain) ⟨g.key, values⟩
    output.1.meaning S (s.emitting view) = .ok v ∧ output.1.Folds S s g.rows view

theorem givesFolds_of_emits (hf : f.Tame r) (hnode : f.parts = .aggregate keys output)
    (hslots : output.slots = .ok reducers) (hkeys : ∀ k ∈ keys, k.1.analysis.Apart)
    (hkey : ∃ row, (keys.mapM fun k => k.1.meaning S (s.onRow (.ok row))) = .ok g.key)
    (emits : (aggregateMeaning (fun c => c.1.meaning S) s keys output reducers).Emits S g v) :
    GivesFolds S s keys output reducers g v := by
  obtain ⟨row, hkey⟩ := hkey
  obtain ⟨values, hvalues, hemit⟩ := emits
  exact ⟨values, hemit, folds hf hnode hslots hkeys hkey hvalues⟩

/-- An aggregate gives this value: without keys the folds of all rows, with keys the list of
    what it gives for the groups of the rows. -/
def AggregatesFolds (S : Semantics) (s : Scene) (keys : List (Smaller f)) (output : Smaller f)
    (rows : List Value) (v : Value) : Prop :=
  ∃ reducers, output.slots = .ok reducers ∧
    (keys = [] → GivesFolds S s keys output reducers ⟨[], rows⟩ v) ∧
    (keys ≠ [] → ∃ groups vs,
      (aggregateMeaning (fun c => c.1.meaning S) s keys output reducers).members rows =
        .ok groups ∧
      v = .list vs ∧
      List.Forall₂ (fun g v => GivesFolds S s keys output reducers g.2 v) groups vs)

theorem aggregatesFolds (hf : f.Tame r) (hnode : f.parts = .aggregate keys output)
    (hkeys : ∀ k ∈ keys, k.1.analysis.Apart) (hkey : s.key? f = none)
    (hinput : s.input = .ok input) (hrows : input.elements = .ok rows)
    (h : f.meaning S s = .ok v) : AggregatesFolds S s keys output rows v := by
  rw [meaning_of_node hkey, hnode, Node.meaning, hinput] at h
  change (input.elements >>= fun rows => _) = _ at h
  rw [hrows] at h
  cases hslots : output.slots with
  | error err =>
    rw [hslots] at h
    cases h
  | ok reducers =>
    rw [hslots] at h
    change (aggregateMeaning (fun c => c.1.meaning S) s keys output reducers).run S rows = _ at h
    refine ⟨reducers, hslots, fun hnil => ?_, fun hne => ?_⟩
    · subst hnil
      exact givesFolds_of_emits hf hnode hslots hkeys ⟨.null, rfl⟩
        (AggregateMeaning.emits_of_run_keyless rfl (fun _ => rfl) h)
    · have grouped : (aggregateMeaning (fun c => c.1.meaning S) s keys output reducers).grouped =
          true := by
        simp [aggregateMeaning, hne]
      obtain ⟨groups, vs, hgroups, hv, emits⟩ := AggregateMeaning.emits_of_run grouped h
      have keyed := AggregateMeaning.exists_row_of_members
        (fun _ hg => absurd hg List.not_mem_nil) hgroups
      refine ⟨groups, vs, hgroups, hv, forall₂_imp_mem emits fun g hg v h => ?_⟩
      exact givesFolds_of_emits hf hnode hslots hkeys (keyed g hg) h

end Expr

namespace Program

variable {S : Semantics} {host : Host σ} {r : Registry} {e : Expr} {signature : Signature}
  {threshold : Weight.Threshold} {program : Program} {params : Params} {values : List Value}

/-- **A constant initial value is the start of a fold.**  A program computes a meaning in which
    each aggregate that does not fail gives, for each of its groups, an output whose reducers
    report the folds of the rows of the group from their initial values.  The keys and the initial
    values must not read the error of a handler or the rows of a join around the aggregate. -/
theorem call_folds (hS : S.Describes host) (he : e.Tame r)
    (h : Program.ofExpr e signature threshold = .ok program)
    (hvalues : program.params.bind params = .ok values) (input : Value) (state : σ) :
    (program.call host input params state).1 =
        e.meaning S (.start input (program.params.valueOf values)) ∧
      ∀ f, Expr.Within f e → ∀ keys output, f.parts = .aggregate keys output →
        (∀ k ∈ keys, k.1.analysis.Apart) →
        ∀ (s : Scene) x rows v, s.key? f = none → s.input = .ok x → x.elements = .ok rows →
          f.meaning S s = .ok v → Expr.AggregatesFolds S s keys output rows v :=
  ⟨call_eq_of_bind hS he h hvalues input state,
    fun _ hf _ _ hnode hkeys _ _ _ _ hkey hinput hrows hv =>
      Expr.aggregatesFolds (he.within hf) hnode hkeys hkey hinput hrows hv⟩

/-- For each item of the input the greatest of its occurrences and seven. -/
def atLeastSeven : Expr :=
  .mk 0 (.aggregate [.mk 4 .input] (.mk 1 (.reducer
    ⟨.max, [.mk 2 .input], none, none, some (.mk 3 (.constant (.int 7)))⟩)))

theorem tame_atLeastSeven (r : Registry) : atLeastSeven.Tame r := by
  have reads : ∀ d, Expr.Within d atLeastSeven →
      d.analysis.readsCaught = false ∧ d.analysis.sides = ⟨false, false⟩ := by
    simp only [atLeastSeven, Expr.forall_within_mk, Node.children, Reducer.children, Option.toList,
      List.nil_append, List.append_nil, List.cons_append, List.forall_mem_cons, List.not_mem_nil,
      false_imp_iff, implies_true, and_true]
    decide +kernel
  have nodes : ∀ d, Expr.Within d atLeastSeven → d.node.Exact r ∧
      (∀ s, d.node = .reducer s → ∀ f, s.kind ≠ .reduce f) ∧ ∀ p c, d.node ≠ .pipe p c := by
    simp [atLeastSeven, Expr.forall_within_mk, Node.children, Reducer.children, Expr.node,
      Node.Exact, Value.Exact, ReducerKind.Exact]
  exact tame_of_unread (exists_of_isSome (by decide +kernel)) (by decide +kernel)
    (by decide +kernel) reads nodes

/-- The key of the aggregate. -/
def eachItem : Smaller atLeastSeven := ⟨.mk 4 .input, by decide⟩

/-- The output of the aggregate. -/
def largest : Smaller atLeastSeven :=
  ⟨.mk 1 (.reducer ⟨.max, [.mk 2 .input], none, none, some (.mk 3 (.constant (.int 7)))⟩),
    by decide⟩

/-- The reducer in the output of the aggregate. -/
def largestReducer : Reducer (Smaller largest.1) :=
  ⟨.max, [⟨.mk 2 .input, by decide⟩], none, none, some ⟨.mk 3 (.constant (.int 7)), by decide⟩⟩

/-- Items of which one is null and one comes twice. -/
def someItems : List Value := [.int 9, .null, .int 3, .int 9]

/-- The result has a fold from seven for each group. -/
theorem call_folds_atLeastSeven : ∃ program groups vs,
    Program.ofExpr atLeastSeven [] Weight.bindingThreshold = .ok program ∧
      (program.call Host.none (.list someItems) .none ()).1 = .ok (.list vs) ∧
      List.Forall₂ (fun (g : Value × Members) v =>
        (largestReducer.slotMeaning (fun c => c.1.meaning .none)
          (.start (.list someItems) (program.params.valueOf []))).fold .none g.2.rows (.int 7) =
            .ok v) groups vs := by
  obtain ⟨program, h, hparams⟩ := exists_closed (e := atLeastSeven) (by decide +kernel)
  have runs : ((Program.ofExpr atLeastSeven [] Weight.bindingThreshold).toOption.bind
      fun program => (program.call Host.none (.list someItems) .none ()).1.toOption).isSome =
        true := by
    decide +kernel
  rw [h] at runs
  obtain ⟨v, hv⟩ := exists_of_isSome runs
  have hvalues : program.params.bind .none = .ok [] := by
    rw [hparams]
    rfl
  obtain ⟨hcall, folds⟩ := call_folds describes_none
    (tame_atLeastSeven ⟨fun i => ⟨i, "", true⟩, fun _ => ("", [])⟩) h hvalues
    (.list someItems) ()
  rw [hv] at hcall
  obtain ⟨reducers, -, -, gives⟩ := folds atLeastSeven (.refl _) [eachItem] largest rfl
    (List.forall_mem_singleton.mpr ⟨by decide +kernel, by decide +kernel, by decide +kernel⟩)
    _ _ _ v rfl rfl rfl hcall.symm
  obtain ⟨groups, vs, -, rfl, all⟩ := gives (List.cons_ne_nil _ _)
  refine ⟨program, groups, vs, h, hv, all.imp ?_⟩
  rintro g v ⟨values, houtput, reports⟩
  have starts : largestReducer.StartsFrom .none
      (.start (.list someItems) (program.params.valueOf [])) (.int 7) :=
    ⟨⟨.mk 3 (.constant (.int 7)), by decide⟩, rfl, by decide +kernel,
      ⟨by decide +kernel, by decide +kernel, by decide +kernel⟩, Expr.meaning_of_node rfl⟩
  obtain ⟨x, hfold, hreport⟩ := reports largest.1 (.refl _) largestReducer rfl rfl _ starts
  obtain rfl : x = v :=
    Except.ok.inj ((hreport (Scene.emitting _ _) rfl (.inl rfl)).symm.trans houtput)
  exact hfold

/-- The last of the rows that a filter accepts, if the rows hold items under a key; the filter and
    the items both fall back to the message of the error. -/
def lastOrError : Expr :=
  .mk 0 (.aggregate [] (.mk 1 (.reducer ⟨.last,
    [.mk 2 (.guarded (inputItem 3 (.str "x")) [⟨[], outerError 10, none⟩])],
    some (.mk 6 (.guarded
      (.mk 7 (.binary .div (.mk 8 (.constant (.int 1))) (.mk 9 (.constant (.int 0)))))
      [⟨[], outerError 10, none⟩])),
    none, some (.mk 20 (.constant .null))⟩)))

/-- The argument of the only row is the message of its own error, but the filter's is reported. -/
theorem lastOrError_stale :
    (match Program.ofExpr lastOrError [] Weight.bindingThreshold,
        Program.ofExpr (itemOrError 30 "x") [] Weight.bindingThreshold with
      | .ok program, .ok alone =>
        match (program.call Host.none (.list [.list [.int 1]]) .none ()).1,
          (alone.call Host.none (.list [.int 1]) .none ()).1 with
        | .ok v, .ok w => v == .str "division by zero" &&
            w == .str "unsupported operand type(s) for index: 'list' and 'str'"
        | _, _ => false
      | _, _ => false) = true := by
  decide +kernel

end Program
end DataExpr
