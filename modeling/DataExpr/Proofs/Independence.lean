import DataExpr.Proofs.Dependence

/-!
# What the analysis says about meanings

An expression means the same on two scenes that agree in what its analysis says that it reads:
the input, the error of a handler around it, the rows of a join around it, and the group of an
aggregate around it, if it has reducers that belong to that (`meaning_congr`).

The analysis misses one thing.  A reducer is evaluated where the rows of its aggregate are, not
where it stands in the output; if it stands in a handler or in a condition of a join there, the
analysis takes what it reads of the error and the rows for the handler's and the join's own.  In a
candid expression no reducer does that.
-/

namespace DataExpr

theorem Node.map_id' {ε : Type} (node : Node ε) : (node.map fun c => c) = node := by
  have h := Node.map_map (fun c : { c // c ∈ node.children } => c.1) (fun c => c) node.attach
  rwa [Node.attach_map_val] at h

namespace Expr

theorem relabel_id (e : Expr) : e.relabel (fun c => c.id) = e := by
  rw [relabel_eq, Node.map_congr (g := fun c => c) fun c hc => relabel_id c, Node.map_id']
  cases e
  rfl
termination_by sizeOf e
decreasing_by exact Expr.sizeOf_lt_of_mem hc

/-- The reducers of every aggregate read only errors and rows that the analysis of its output
    knows of. -/
def Candid (e : Expr) : Prop :=
  ∀ (d : Expr) (keys : List (Smaller d)) (output : Smaller d)
  (reducers : List (Reducer (Smaller d))),
    Within d e → d.parts = .aggregate keys output → output.slots = .ok reducers →
      ∀ r ∈ reducers, ∀ c ∈ r.fed,
        output.1.analysis.CoversCaught c.1.analysis ∧ output.1.analysis.CoversRows c.1.analysis

theorem Candid.within {d e : Expr} (h : e.Candid) (hd : Within d e) : d.Candid :=
  fun d' keys output reducers hd' => h d' keys output reducers (hd'.trans hd)

end Expr

/-! ### Parts of nodes -/

section Parts

variable {e : Expr} {c : Smaller e}

namespace Expr

theorem mem_unhandled (h : c ∈ e.parts.unhandled) : c.1 ∈ e.node.unhandled := by
  rw [← map_parts, Node.unhandled_map]
  exact List.mem_map_of_mem h

theorem mem_besideRows (h : c ∈ e.parts.besideRows) : c.1 ∈ e.node.besideRows := by
  rw [← map_parts, Node.besideRows_map]
  exact List.mem_map_of_mem h

theorem mem_sameInput (h : c ∈ e.parts.sameInput) : c.1 ∈ e.node.sameInput := by
  rw [← map_parts, Node.sameInput_map]
  exact List.mem_map_of_mem h

theorem mem_sameAggregate (h : c ∈ e.parts.sameAggregate) : c.1 ∈ e.node.sameAggregate := by
  rw [← map_parts, Node.sameAggregate_map]
  exact List.mem_map_of_mem h

theorem analysis_parts (h : e.Analyzed) :
    (e.parts.map fun c => c.1.analyze).analysis = .ok e.analysis := by
  rw [← analyze_of_analyzed h, analyze_eq, ← map_parts, Node.map_map]

end Expr

open DataExpr.Expr

/-- A reducer belongs to an enclosing aggregate. -/
theorem not_quiet (h : e.Analyzed) {r : Reducer (Smaller e)} (hnode : e.parts = .reducer r) :
    ¬e.analysis.Quiet := by
  have own : Analysis.Mark.free.Owns e.node := by
    rw [← map_parts, hnode]
    exact ⟨_, rfl⟩
  exact fun hquiet => h.own own hquiet

/-- What reads its input, or belongs to a group, is not idle. -/
theorem not_idle (h : e.Analyzed) (hnode : e.parts = .input ∨ (∃ r, e.parts = .reducer r) ∨
    ∃ keys output, e.parts = .aggregate keys output) : ¬e.analysis.Idle := by
  intro hidle
  have unused : ¬Analysis.Mark.used.Owns e.node := fun own => h.own own hidle.1
  rw [← map_parts] at unused
  rcases hnode with hnode | ⟨r, hnode⟩ | ⟨keys, output, hnode⟩
  · rw [hnode] at unused
    exact unused rfl
  · exact not_quiet h hnode hidle.2
  · rw [hnode] at unused
    exact unused rfl

/-- A part that is evaluated on the scene of the whole is covered by its analysis. -/
theorem covers_onScene (he : e.Analyzed) (h : c ∈ e.parts.onScene) :
    Within c.1 e ∧ e.analysis.CoversInPlace c.1.analysis := by
  have inPlace (hc : c ∈ e.parts.children) (hunhandled : c ∈ e.parts.unhandled)
      (hrows : c ∈ e.parts.besideRows)
      (hinput : c ∈ e.parts.sameInput ∨ ¬e.analysis.Idle)
      (haggregate : c ∈ e.parts.sameAggregate ∨ ¬e.analysis.Quiet) :
      Within c.1 e ∧ e.analysis.CoversInPlace c.1.analysis := by
    have hmem := mem_parts hc
    refine ⟨.child hmem, ⟨(he.child hmem).2, he.unhandled (mem_unhandled hunhandled),
      he.besideRows (mem_besideRows hrows)⟩, fun hidle => ?_, fun hquiet => ?_⟩
    · exact hinput.elim (fun h => he.sameInput (mem_sameInput h) hidle) fun h => absurd hidle h
    · exact haggregate.elim (fun h => he.sameAggregate (mem_sameAggregate h) hquiet)
        fun h => absurd hquiet h
  -- Most constructors pass everything on.  The exceptions: a join passes only the part of its
  -- condition that reads no row, a reducer and an aggregate stop idleness or quietness.
  cases hnode : e.parts
  case join left right condition kind =>
    rw [hnode] at h inPlace
    simp only [Node.onScene, List.mem_cons] at h
    have side (hc : c ∈ [left, right]) :=
      inPlace (List.mem_append_left condition.toList hc) (List.mem_append_left condition.toList hc)
        hc (.inl (List.mem_append_left condition.toList hc))
        (.inl (List.mem_append_left condition.toList hc))
    rcases h with rfl | rfl | h
    · exact side List.mem_cons_self
    · exact side (List.mem_cons_of_mem _ List.mem_cons_self)
    · obtain ⟨⟨d, hd, hbeside, hcovers⟩, hsides⟩ := JoinPlan.mem_preFilter h
      have hmem : d ∈ e.parts.children := by
        rw [hnode]
        exact List.mem_append_right [left, right] (Option.mem_toList.mpr hd)
      have hmemInput : d ∈ e.parts.sameInput := by
        rw [hnode] at hmem ⊢
        exact hmem
      have hmemUnhandled : d ∈ e.parts.unhandled := by
        rw [hnode] at hmem ⊢
        exact hmem
      have hmemAggregate : d ∈ e.parts.sameAggregate := by
        rw [hnode] at hmem ⊢
        exact hmem
      obtain ⟨hanalyzed, heffects⟩ := he.child (mem_parts hmem)
      have hcond := hcovers hanalyzed
      refine ⟨.trans hbeside.within (.child (mem_parts hmem)),
        ⟨heffects.trans hcond.effects, fun hcaught => ?_, ?_⟩, fun hidle => ?_, fun hquiet => ?_⟩
      · exact he.unhandled (mem_unhandled hmemUnhandled) (hcond.caught hcaught)
      · exact ⟨fun h => by simp [hsides] at h, fun h => by simp [hsides] at h⟩
      · exact hcond.idle (he.sameInput (mem_sameInput hmemInput) hidle)
      · exact hcond.quiet (he.sameAggregate (mem_sameAggregate hmemAggregate) hquiet)
  case reducer r =>
    have idle := not_idle he (.inr (.inl ⟨r, hnode⟩))
    have loud := not_quiet he hnode
    rw [hnode] at h inPlace
    have hc : c ∈ r.children := by
      simp only [Node.onScene, Reducer.children, List.mem_append] at h ⊢
      exact h.elim .inr fun h => .inl (.inr h)
    exact inPlace hc hc hc (.inr idle) (.inr loud)
  case guarded body handlers =>
    rw [hnode] at h inPlace
    have hc : c ∈ (Node.guarded body handlers).children :=
      List.mem_cons.mpr (.inl (List.mem_singleton.mp h))
    exact inPlace hc h hc (.inl hc) (.inl hc)
  case comprehension kind key element source filter =>
    rw [hnode] at h inPlace
    obtain rfl := List.mem_singleton.mp h
    have hc : c ∈ (Node.comprehension kind key element c filter).children := by
      simp [Node.children]
    exact inPlace hc hc hc (.inl h) (.inl hc)
  case sort source keys reverse =>
    rw [hnode] at h inPlace
    obtain rfl := List.mem_singleton.mp h
    exact inPlace List.mem_cons_self List.mem_cons_self List.mem_cons_self (.inl h)
      (.inl List.mem_cons_self)
  case pipe producer consumer =>
    rw [hnode] at h inPlace
    obtain rfl := List.mem_singleton.mp h
    exact inPlace List.mem_cons_self List.mem_cons_self List.mem_cons_self (.inl h)
      (.inl List.mem_cons_self)
  case aggregate =>
    rw [hnode] at h
    exact absurd h List.not_mem_nil
  all_goals
    rw [hnode] at h inPlace
    exact inPlace h h h (.inl h) (.inl h)

end Parts

/-- An analysis knows what an expression with another one reads on a scene of a part, as far as it
    comes from the scene of the whole. -/
structure Shift.Covers (a c : Analysis) (shift : Shift) : Prop where
  caught : (∀ e, shift ≠ .catching e) → a.CoversCaught c
  rows : (∀ l r, shift ≠ .withRows l r) → a.CoversRows c
  input : shift = .same ∨ (∃ l r, shift = .withRows l r) ∨ (∃ e, shift = .catching e) →
    a.Idle → c.Idle
  emitting : ∀ view, shift = .emitting view → ¬a.Idle
  reducers : (∀ row, shift ≠ .onRow row) → (∀ view, shift ≠ .emitting view) → a.Quiet → c.Quiet

/-- What a node evaluates is covered by the analysis of the whole. -/
theorem Expr.covers_part {e : Expr} (he : e.Analyzed) (candid : e.Candid) {shift : Shift}
    {c : Smaller e} (h : e.parts.Evaluates shift c) :
    Within c.1 e ∧ shift.Covers e.analysis c.1.analysis := by
  have child (hc : c ∈ e.parts.children) : Within c.1 e := .child (mem_parts hc)
  have caught (hc : c ∈ e.parts.unhandled) : e.analysis.CoversCaught c.1.analysis :=
    he.unhandled (mem_unhandled hc)
  have rows (hc : c ∈ e.parts.besideRows) : e.analysis.CoversRows c.1.analysis :=
    he.besideRows (mem_besideRows hc)
  have idle (hc : c ∈ e.parts.sameInput) : e.analysis.Idle → c.1.analysis.Idle :=
    he.sameInput (mem_sameInput hc)
  have aggregate (hc : c ∈ e.parts.sameAggregate) : e.analysis.Quiet → c.1.analysis.Quiet :=
    he.sameAggregate (mem_sameAggregate hc)
  have reducers := candid e
  have quiet {shift : Shift} (h : ∀ view, shift ≠ .emitting view) :
      ∀ view, shift = .emitting view → ¬e.analysis.Idle := fun view hview => absurd hview (h view)
  -- The facts about children are taken before the node is opened; its constructor then says how
  -- the scene shifts, and a shift withdraws what the part no longer shares with the whole.
  generalize hnode : e.parts = node at h child caught rows idle aggregate reducers
  cases h with
  | here h =>
    obtain ⟨hwithin, hcovers⟩ := covers_onScene he (hnode ▸ h)
    exact ⟨hwithin, fun _ => hcovers.caught, fun _ => hcovers.rows, fun _ => hcovers.idle,
      quiet (by simp),
      fun _ _ => hcovers.quiet⟩
  | @item kind key filter element source c item h =>
    have hc : c ∈ (Node.comprehension kind key element source filter).children := by
      simp only [Node.children, List.cons_append]
      exact List.mem_cons_of_mem _ h
    exact ⟨child hc, fun _ => caught hc, fun _ => rows hc, by simp, quiet (by simp),
      fun _ _ => aggregate hc⟩
  | @sortItem source keys reverse k item h =>
    have hc : k.key ∈ source :: keys.map SortKey.key :=
      List.mem_cons_of_mem _ (List.mem_map_of_mem h)
    exact ⟨child hc, fun _ => caught hc, fun _ => rows hc, by simp, quiet (by simp),
      fun _ _ => aggregate hc⟩
  | @consumer producer _ input =>
    have hc : c ∈ [producer, c] := List.mem_cons_of_mem _ List.mem_cons_self
    exact ⟨child hc, fun _ => caught hc, fun _ => rows hc, by simp, quiet (by simp),
      fun _ _ => aggregate hc⟩
  | @handler body _ handlers _ err hh h =>
    have hc : c ∈ body :: handlers.flatMap Handler.children :=
      List.mem_cons_of_mem _ (List.mem_flatMap.mpr ⟨_, hh, h⟩)
    exact ⟨child hc, fun h => absurd rfl (h err), fun _ => rows hc, fun _ => idle hc,
      quiet (by simp),
      fun _ _ => aggregate hc⟩
  | @key keys output _ row h =>
    have hc : c ∈ keys ++ [output] := List.mem_append_left _ h
    exact ⟨child hc, fun _ => caught hc, fun _ => rows hc, by simp, quiet (by simp),
      fun h => absurd rfl (h _)⟩
  -- Reducers are evaluated on their rows; that they hide no `caught()` is what candid says.
  | @slot keys output c row rs r hslots hr h =>
    have hmem : output ∈ e.parts.children := by
      rw [hnode]
      exact List.mem_append_right _ List.mem_cons_self
    obtain ⟨hcaught, hrows⟩ := reducers keys output rs (.refl e) rfl hslots r hr c h
    have hunhandled : output ∈ e.parts.unhandled := by
      rw [hnode] at hmem ⊢
      exact hmem
    have hbeside : output ∈ e.parts.besideRows := by
      rw [hnode] at hmem ⊢
      exact hmem
    have hwithin : Within c.1 output.1 := by
      refine output.within_of_mem_reducers r (output.mem_reducers_of_mem_slots hslots r hr) c ?_
      exact List.mem_append_left _ h
    refine ⟨hwithin.trans (.child (mem_parts hmem)), fun _ hread => ?_,
      fun _ => (he.besideRows (mem_besideRows hbeside)).trans hrows, by simp, quiet (by simp),
      fun h => absurd rfl (h _)⟩
    exact he.unhandled (mem_unhandled hunhandled) (hcaught hread)
  | @output keys _ view =>
    have hc : c ∈ keys ++ [c] := List.mem_append_right _ List.mem_cons_self
    exact ⟨child hc, fun _ => caught hc, fun _ => rows hc, by simp,
      fun _ _ => not_idle he (.inr (.inr ⟨keys, c, hnode⟩)), fun _ h => absurd rfl (h _)⟩
  -- A condition is split, and each piece lies beside the rows of the whole condition.
  | @joined left right _ condition kind l r h =>
    have part : JoinPlan.PartOf condition c := by
      simp only [JoinPlan.onRows, List.mem_append, List.mem_map, Prod.exists] at h
      rcases h with (((⟨a, b, hk, rfl⟩ | ⟨a, b, hk, rfl⟩) | h) | h) | h
      · exact (JoinPlan.mem_keys hk).1.1
      · exact (JoinPlan.mem_keys hk).2.1
      · exact (JoinPlan.mem_leftFilter h).1
      · exact (JoinPlan.mem_rightFilter h).1
      · exact JoinPlan.mem_residual h
    obtain ⟨d, hd, hbeside, hcovers⟩ := part
    have hmem : d ∈ e.parts.children := by
      rw [hnode]
      exact List.mem_append_right [left, right] (Option.mem_toList.mpr hd)
    have hunhandled : d ∈ e.parts.unhandled := by
      rw [hnode] at hmem ⊢
      exact hmem
    have hinput : d ∈ e.parts.sameInput := by
      rw [hnode] at hmem ⊢
      exact hmem
    have haggregate : d ∈ e.parts.sameAggregate := by
      rw [hnode] at hmem ⊢
      exact hmem
    have hcond := hcovers (he.child (mem_parts hmem)).1
    refine ⟨hbeside.within.trans (.child (mem_parts hmem)), fun _ hread => ?_,
      fun h => absurd rfl (h l r),
      fun _ hidle => ?_, quiet (by simp), fun _ _ hquiet => ?_⟩
    · exact he.unhandled (mem_unhandled hunhandled) (hcond.caught hread)
    · exact hcond.idle (he.sameInput (mem_sameInput hinput) hidle)
    · exact hcond.quiet (he.sameAggregate (mem_sameAggregate haggregate) hquiet)

/-! ### Agreement of scenes -/

/-- No expression stands for a key of a group. -/
def Scene.Keyless (s : Scene) : Prop := ∀ e, s.key? e = none

namespace Scene.Keyless

variable {s : Scene}

theorem within (input : Result) : (s.within input).Keyless := by
  intro e
  cases h : s.output <;> simp [Scene.key?, Scene.within, h, OutputView.nested]

theorem withRows (left right : Option Value) : (s.withRows left right).Keyless := by
  intro e
  cases h : s.output <;> simp [Scene.key?, Scene.withRows, h, OutputView.nested]

end Scene.Keyless

/-- Two scenes agree in all that an expression with this analysis reads. -/
structure Scene.Agrees (a : Analysis) (s s' : Scene) : Prop where
  param : s'.param = s.param
  output : s'.output = s.output ∨ a.Quiet ∧ s.Keyless ∧ s'.Keyless
  input : s'.input = s.input ∨ a.Idle
  caught : a.readsCaught = true → s'.caught = s.caught
  left : a.sides.left = true → s'.left = s.left
  right : a.sides.right = true → s'.right = s.right

namespace Scene.Agrees

variable {a c : Analysis} {s s' : Scene} (h : Agrees a s s')
include h

theorem key?_eq (e : Expr) : s'.key? e = s.key? e := by
  rcases h.output with h | ⟨-, hs, hs'⟩
  · simp only [Scene.key?, h]
  · rw [hs e, hs' e]

/-- Outputs that agree do so for a part with rows or an input of its own. -/
theorem nested (hquiet : a.Quiet → c.Quiet) :
    s'.output.map OutputView.nested = s.output.map OutputView.nested ∨ c.Quiet :=
  h.output.imp (congrArg _) fun h => hquiet h.1

theorem inPlace (hcaught : a.CoversCaught c) (hrows : a.CoversRows c) (hidle : a.Idle → c.Idle)
    (hquiet : a.Quiet → c.Quiet) : Agrees c s s' :=
  ⟨h.param, h.output.imp_right (And.imp_left hquiet), h.input.imp_right hidle,
    fun hr => h.caught (hcaught hr), fun hr => h.left (hrows.left hr),
    fun hr => h.right (hrows.right hr)⟩

theorem within (hcaught : a.CoversCaught c) (hrows : a.CoversRows c) (hquiet : a.Quiet → c.Quiet)
    (input : Result) : Agrees c (s.within input) (s'.within input) :=
  ⟨h.param, (h.nested hquiet).imp_right fun h => ⟨h, .within input, .within input⟩, .inl rfl,
    fun hr => h.caught (hcaught hr), fun hr => h.left (hrows.left hr),
    fun hr => h.right (hrows.right hr)⟩

theorem onRow (hcaught : a.CoversCaught c) (hrows : a.CoversRows c) (row : Result) :
    Agrees c (s.onRow row) (s'.onRow row) :=
  ⟨h.param, .inl rfl, .inl rfl, fun hr => h.caught (hcaught hr),
    fun hr => h.left (hrows.left hr), fun hr => h.right (hrows.right hr)⟩

theorem emitting (hinput : ¬a.Idle) (hcaught : a.CoversCaught c) (hrows : a.CoversRows c)
    (view : OutputView) : Agrees c (s.emitting view) (s'.emitting view) :=
  ⟨h.param, .inl rfl, .inl (h.input.resolve_right hinput), fun hr => h.caught (hcaught hr),
    fun hr => h.left (hrows.left hr), fun hr => h.right (hrows.right hr)⟩

theorem withRows (hidle : a.Idle → c.Idle) (hcaught : a.CoversCaught c)
    (hquiet : a.Quiet → c.Quiet) (l r : Option Value) :
    Agrees c (s.withRows l r) (s'.withRows l r) :=
  ⟨h.param, (h.nested hquiet).imp_right fun h => ⟨h, .withRows l r, .withRows l r⟩,
    h.input.imp_right hidle, fun hr => h.caught (hcaught hr), fun _ => rfl, fun _ => rfl⟩

theorem catching (hidle : a.Idle → c.Idle) (hrows : a.CoversRows c) (hquiet : a.Quiet → c.Quiet)
    (e : Error) : Agrees c (s.catching e) (s'.catching e) :=
  ⟨h.param, h.output.imp_right (And.imp_left hquiet), h.input.imp_right hidle, fun _ => rfl,
    fun hr => h.left (hrows.left hr), fun hr => h.right (hrows.right hr)⟩

end Scene.Agrees

namespace Expr

variable {S : Semantics} {e : Expr}

/-- Scenes that agree for an expression agree for its parts. -/
theorem agrees_part (he : e.Analyzed) (candid : e.Candid) {s s' : Scene}
    (agrees : s.Agrees e.analysis s') {shift : Shift} {c : Smaller e}
    (h : e.parts.Evaluates shift c) :
    Within c.1 e ∧ (s.shift shift).Agrees c.1.analysis (s'.shift shift) := by
  obtain ⟨hwithin, covers⟩ := covers_part he candid h
  refine ⟨hwithin, ?_⟩
  cases shift with
  | same =>
    exact agrees.inPlace (covers.caught nofun) (covers.rows nofun) (covers.input (.inl rfl))
      (covers.reducers nofun nofun)
  | within input =>
    exact agrees.within (covers.caught nofun) (covers.rows nofun)
      (covers.reducers nofun nofun) input
  | onRow row => exact agrees.onRow (covers.caught nofun) (covers.rows nofun) row
  | emitting view =>
    exact agrees.emitting (covers.emitting view rfl) (covers.caught nofun) (covers.rows nofun) view
  | withRows l r =>
    exact agrees.withRows (covers.input (.inr (.inl ⟨l, r, rfl⟩))) (covers.caught nofun)
      (covers.reducers nofun nofun) l r
  | catching err =>
    exact agrees.catching (covers.input (.inr (.inr ⟨err, rfl⟩))) (covers.rows nofun)
      (covers.reducers nofun nofun) err

/-- **Only what the analysis names is read.**  An expression means the same on two scenes that
    agree in what its analysis says that it reads. -/
theorem meaning_congr (e : Expr) (he : e.Analyzed) (candid : e.Candid) {s s' : Scene}
    (agrees : s.Agrees e.analysis s') : e.meaning S s' = e.meaning S s := by
  have key : s'.key? e = s.key? e := agrees.key?_eq e
  cases h : s.key? e with
  | some v => rw [meaning_of_key h, meaning_of_key (key.trans h)]
  | none =>
    rw [meaning_of_node h, meaning_of_node (key.trans h)]
    have image (c : Smaller e) : image (fun c => c.id) c = c.1 := relabel_id c.1
    have ha := analysis_parts he
    refine AlikeOn.node (f := fun i => i) ⟨fun shift c hc c' hc' => ?_,
      fun name _ => congrFun agrees.param name,
      fun r hnode => ?_, fun hnode => ?_, fun hnode => ?_, fun hnode => ?_, fun hnode => ?_⟩ ?_
    · obtain ⟨hwithin, part⟩ := agrees_part he candid agrees hc
      rw [image] at hc'
      rw [hc']
      exact meaning_congr c.1 (hwithin.analyzed he).1 (candid.within hwithin) part
    · have loud : ¬(e.analysis.Quiet ∧ s.Keyless ∧ s'.Keyless) := fun h => not_quiet he hnode h.1
      simp only [Scene.slot?, agrees.output.resolve_right loud]
    · refine agrees.input.resolve_right (not_idle he ?_)
      exact hnode.imp_right .inr
    · refine agrees.caught ?_
      rw [hnode] at ha
      exact (congrArg Analysis.readsCaught (Except.ok.inj ha)).symm
    · refine agrees.left ?_
      rw [hnode] at ha
      exact (congrArg (fun a => a.sides.left) (Except.ok.inj ha)).symm
    · refine agrees.right ?_
      rw [hnode] at ha
      exact (congrArg (fun a => a.sides.right) (Except.ok.inj ha)).symm
    · exact congrArg (Node.map · e.parts) (funext fun c => (image c).symm)
termination_by sizeOf e
decreasing_by exact c.2

end Expr
end DataExpr
