import DataExpr.Proofs.Independence
import DataExpr.Proofs.Roles
import DataExpr.Proofs.WellScoped
import DataExpr.Proofs.Yields

/-!
# Where lowered operations are evaluated

A lowered operation is evaluated in a frame and on an input, the expression it comes from has its
meaning on a scene.  `Execution.Holds` says what the frame holds, by the roles of its slots;
`Execution.Sees` says that an expression finds in the frame, where lowering has put it, what it
sees on the scene.  `Execution.Sound` is the statement that the operation yields the meaning.

The bindings of a scope belong to different scenes: those that the producers of pipes lead to from
the scene of the scope (`Execution.Leads`).  `Execution.Binds` says of all of them that are still
ahead that they are there.
-/

namespace DataExpr

open Eval Lowering

variable {σ α : Type}

/-- The functions of a host, if they are pure, answer as the semantics says. -/
def Semantics.Describes (S : Semantics) (host : Host σ) : Prop :=
  ∀ (f : Function) (args : List Value) (s : σ), f.isPure = true →
    (host.call f args s).1 = S.function f args

/-- The value of a parameter. -/
def Signature.valueOf (signature : Signature) (values : List Value) (name : String) : Value :=
  ((signature.indexOf? name).bind fun i => values[i]?).getD .null

/-- What stays the same while a program runs: the functions, the room in the frame, the values of
    the parameters, what lowering goes by, and what is known of the state of the host. -/
structure Execution (σ : Type) where
  semantics : Semantics
  host : Host σ
  describes : semantics.Describes host
  room : Room
  values : List Value
  registry : Registry
  threshold : Weight.Threshold
  /-- The producers that are computed at each use of the input. -/
  inline : Expr → Bool
  inline_rename : ∀ f p, inline (p.rename f) = inline p
  /-- Pure functions leave the state of the host among these. -/
  still : σ → Prop
  stays : ∀ (f : Function) (args : List Value) (s : σ), f.isPure = true → still s →
    still (host.call f args s).2

/-- A slot keeps a value, or it holds a lazy binding with this result. -/
abbrev ValueRoles := Roles Value Result

/-- The groups that are being emitted. -/
abbrev Views := Nat → Option Group

def Views.put (views : Views) (g : Nat) (group : Group) : Views := fun k =>
  if k = g then some group else views k

namespace Execution

variable (X : Execution σ)

/-- The value of a parameter. -/
def param : String → Value := X.room.params.valueOf X.values

/-- What a frame holds: the parameters, a value in each slot that keeps one, and in the slot of a
    lazy binding nothing or the value of its result. -/
structure Holds (roles : ValueRoles) (views : Views) (w : World σ) : Prop where
  host : X.still w.host
  params : w.frame.params = X.values
  slots : X.room.slots ≤ w.frame.slots.size
  groups : X.room.groups ≤ w.frame.groups.size
  kept : ∀ n v, roles n = .kept v → w.frame.slot? n = some v
  memo : ∀ n r v, roles n = .memo r → w.frame.slot? n = some v → r = .ok v
  view : ∀ g group, views g = some group → w.frame.group? g = some group

variable {X} {roles : ValueRoles} {views : Views} {n : Nat} {v : Value}

/-- An evaluation with this result that leaves the frame as it is to be. -/
abbrev Within (X : Execution σ) (roles : ValueRoles) (views : Views) (m : Eval σ α)
    (r : Except Error α) : Prop :=
  Yields (X.Holds roles views) (X.Holds roles views) m r

/-! ### Changes of the frame -/

theorem keep (hn : n < X.room.slots) :
    Yields (X.Holds roles views) (X.Holds (roles.keep n v) views) (setSlot n v) (.ok ()) := by
  refine .updateFrame fun w h => ?_
  have hlt : n < w.frame.slots.size := Nat.lt_of_lt_of_le hn h.slots
  refine ⟨h.host, h.params, by simpa using h.slots, h.groups, fun m u hm => ?_,
    fun m r u hm hset => ?_,
    h.view⟩
  · by_cases hmn : m = n
    · subst hmn
      rw [Roles.keep_self] at hm
      cases hm
      exact Frame.slot?_setSlot_self _ _ hlt
    · rw [Roles.keep_ne _ hmn] at hm
      rw [Frame.slot?_setSlot_ne _ _ (Ne.symm hmn)]
      exact h.kept m u hm
  · by_cases hmn : m = n
    · subst hmn
      rw [Roles.keep_self] at hm
      cases hm
    · rw [Roles.keep_ne _ hmn] at hm
      rw [Frame.slot?_setSlot_ne _ _ (Ne.symm hmn)] at hset
      exact h.memo m r u hm hset

/-- What holds with more roles holds with fewer. -/
theorem forget {roles' : ValueRoles} (h : roles.Below roles') :
    Worlds.Within (X.Holds roles' views) (X.Holds roles views) := by
  intro w hw
  exact ⟨hw.host, hw.params, hw.slots, hw.groups, fun m u hm => hw.kept m u (h.kept hm),
    fun m r u hm => hw.memo m r u (h.memo hm), hw.view⟩

/-- A slot that was free need not be kept any longer. -/
theorem drop (hfree : roles n = .free) :
    Worlds.Within (X.Holds (roles.keep n v) views) (X.Holds roles views) :=
  forget (Roles.below_keep hfree v)

/-- A scope is entered: its bindings are forgotten. -/
theorem enter (memos : List (Nat × Result)) :
    Yields (X.Holds roles views) (X.Holds (roles.enter memos) views)
      (reset (memos.map Prod.fst)) (.ok ()) := by
  refine .updateFrame fun w h => ?_
  refine ⟨h.host, h.params, by simpa using h.slots, h.groups, fun m u hm => ?_,
    fun m r u hm hset => ?_,
    h.view⟩
  all_goals by_cases hmem : m ∈ memos.map Prod.fst
  · have : ∃ r, roles.enter memos m = .memo r := by
      obtain ⟨p, hp, rfl⟩ := List.mem_map.mp hmem
      unfold Roles.enter
      cases hfind : memos.find? fun q => q.1 == p.1 with
      | none => exact absurd (List.find?_eq_none.mp hfind p hp) (by simp)
      | some q => exact ⟨_, rfl⟩
    obtain ⟨r, hr⟩ := this
    rw [hr] at hm
    cases hm
  · rw [Roles.enter_of_not_mem _ hmem] at hm
    rw [Frame.slot?_reset_of_not_mem _ hmem]
    exact h.kept m u hm
  · rw [Frame.slot?_reset_of_mem _ hmem] at hset
    cases hset
  · rw [Roles.enter_of_not_mem _ hmem] at hm
    rw [Frame.slot?_reset_of_not_mem _ hmem] at hset
    exact h.memo m r u hm hset

/-- A scope whose slots were free is left. -/
theorem leave {memos : List (Nat × Result)} (hfree : ∀ n ∈ memos.map Prod.fst, roles n = .free) :
    Worlds.Within (X.Holds (roles.enter memos) views) (X.Holds roles views) :=
  forget fun m hm => Roles.enter_of_not_mem _ fun hmem => hm (hfree m hmem)

/-- A group is put in place for an evaluation. -/
theorem emitting {g : Nat} {group : Group} {m : Eval σ α} {r : Except Error α}
    (hg : g < X.room.groups)
    (h : Yields (X.Holds roles (views.put g group)) (X.Holds roles (views.put g group)) m r) :
    Yields (X.Holds roles views) (X.Holds roles views) (withGroup g group m) r := by
  refine .withGroup (fun w hw => ?_) h fun w w' hw hw' => ?_
  · have hlt : g < w.frame.groups.size := Nat.lt_of_lt_of_le hg hw.groups
    refine ⟨hw.host, hw.params, hw.slots, by simpa [Frame.setGroup] using hw.groups, hw.kept,
      hw.memo, fun k view hk => ?_⟩
    by_cases hkg : k = g
    · subst hkg
      rw [Views.put, if_pos rfl] at hk
      rw [Frame.group?_setGroup_self _ hlt]
      exact hk
    · rw [Views.put, if_neg hkg] at hk
      rw [Frame.group?_setGroup_ne _ (Ne.symm hkg)]
      exact hw.view k view hk
  · have hlt : g < w'.frame.groups.size := Nat.lt_of_lt_of_le hg hw'.groups
    refine ⟨hw'.host, hw'.params, hw'.slots, by simpa [Frame.setGroup] using hw'.groups, hw'.kept,
      hw'.memo, fun k view hk => ?_⟩
    by_cases hkg : k = g
    · subst hkg
      rw [Frame.group?_setGroup_self _ hlt]
      exact hw.view k view hk
    · rw [Frame.group?_setGroup_ne _ (Ne.symm hkg)]
      refine hw'.view k view ?_
      rw [Views.put, if_neg hkg]
      exact hk

/-- The result of a lazy binding is stored. -/
theorem store (hrole : roles n = .memo (.ok v)) (hn : n < X.room.slots) :
    Yields (X.Holds roles views) (X.Holds roles views) (setSlot n v) (.ok ()) := by
  refine .updateFrame fun w h => ?_
  have hlt : n < w.frame.slots.size := Nat.lt_of_lt_of_le hn h.slots
  refine ⟨h.host, h.params, by simpa using h.slots, h.groups, fun m u hm => ?_,
    fun m r u hm hset => ?_,
    h.view⟩
  · have hmn : n ≠ m := fun hnm => by
      rw [← hnm, hrole] at hm
      cases hm
    rw [Frame.slot?_setSlot_ne _ _ hmn]
    exact h.kept m u hm
  · by_cases hmn : n = m
    · subst hmn
      rw [Frame.slot?_setSlot_self _ _ hlt] at hset
      rw [hrole] at hm
      cases hset
      cases hm
      rfl
    · rw [Frame.slot?_setSlot_ne _ _ hmn] at hset
      exact h.memo m r u hm hset

/-- A lazy binding has the result of its definition, whether it is evaluated now or was before. -/
theorem readMemo {b : Binding} {r : Result} {m : Eval σ Value} (hrole : roles b.slot = .memo r)
    (hslot : b.slot < X.room.slots) (h : Yields (X.Holds roles views) (X.Holds roles views) m r) :
    Yields (X.Holds roles views) (X.Holds roles views) (Eval.readMemo b m) r := by
  have evaluated : Yields (X.Holds roles views) (X.Holds roles views)
      (do let v ← m; setSlot b.slot v; return v) r := by
    have whole := h.bindOk (f := fun v => do setSlot b.slot v; return v) (k := .ok)
      (fun v hv => ?_) (.refl _)
    · rwa [show r >>= .ok = r from bind_pure r] at whole
    · exact (store (hv ▸ hrole) hslot).after (.pure v (.refl _))
  intro w hw
  rw [run_readMemo]
  cases hset : w.frame.slot? b.slot with
  | some v => exact ⟨(hw.memo _ _ _ hrole hset).symm, hw⟩
  | none => exact evaluated w hw

/-! ### Reading the frame -/

/-- What the frame tells is known. -/
theorem ofFrame {k : Frame → Eval σ α} {r : Except Error α}
    (h : ∀ w, X.Holds roles views w → k w.frame = liftM r) :
    Yields (X.Holds roles views) (X.Holds roles views) (frame >>= k) r :=
  .ofFrame fun w hw => by
    rw [h w hw]
    exact .lift r (.refl _)

theorem readSlot {b : Binding} (h : roles b.slot = .kept v) :
    Yields (X.Holds roles views) (X.Holds roles views) (Eval.readSlot b) (.ok v) := by
  rw [readSlot_eq]
  refine ofFrame fun w hw => ?_
  rw [hw.kept _ _ h]
  rfl

theorem currentGroup {g : Nat} {group : Group} (h : views g = some group) :
    Yields (X.Holds roles views) (X.Holds roles views) (Eval.currentGroup g) (.ok group) := by
  rw [currentGroup_eq]
  refine ofFrame fun w hw => ?_
  rw [hw.view _ _ h]
  rfl

/-! ### Slots of an operation -/

variable (X) in
/-- An operation refers to what is there, and the slots that it overwrites are free. -/
structure Clear (roles : ValueRoles) (op : Op) : Prop where
  placed : ∃ a, op.Placed a
  inBounds : ∃ a, op.WellScoped X.room a
  free : ∀ n ∈ op.scratch, roles n = .free

namespace Clear

variable {node : OpNode Op} (h : X.Clear roles (.mk node))
include h

theorem here : node.Placed := by
  obtain ⟨a, ⟨here, -, -⟩⟩ := h.placed
  exact here

theorem reach : ∃ a, node.InBounds X.room a := by
  obtain ⟨a, ⟨here, -, -, -⟩⟩ := h.inBounds
  exact ⟨a, here⟩

theorem freePlaces : ∀ n ∈ node.places, roles n = .free :=
  fun n hn => h.free n (Op.mem_scratch.mpr (.inl hn))

/-- A part is clear as well, while the node may use its own slots. -/
theorem part {roles' : ValueRoles} (habove : ∀ n, n ∉ node.places → roles' n = roles n) {op : Op}
    (hop : op ∈ node.parts) : X.Clear roles' op := by
  obtain ⟨a, placed⟩ := h.placed
  obtain ⟨b, inBounds⟩ := h.inBounds
  refine ⟨?_, ?_, fun n hn => ?_⟩
  · cases placed with
    | mk here known parts =>
      rw [← OpNode.scopedParts_snd] at hop
      obtain ⟨p, hp, rfl⟩ := List.mem_map.mp hop
      exact ⟨_, parts p hp⟩
  · cases inBounds with
    | mk here slots definitions parts =>
      rw [← OpNode.entries_op] at hop
      obtain ⟨p, hp, rfl⟩ := List.mem_map.mp hop
      exact ⟨_, parts p hp⟩
  · rw [habove n fun hplace => h.here.apart n hplace op hop hn]
    exact h.free n (Op.mem_scratch.mpr (.inr ⟨op, hop, hn⟩))

/-- What has a role outside has it inside. -/
theorem below {roles' : ValueRoles} (habove : ∀ n, n ∉ node.places → roles' n = roles n) :
    roles.Below roles' := fun n hn =>
  habove n fun hplace => hn (h.freePlaces n hplace)

end Clear
end Execution

/-! ### Producers and scenes -/

/-- The producers that have led to an input in its scope, the last one first.  Their identities mean
    nothing. -/
def Context.producers : Context → List Expr
  | .part outer (.shape p _ _) .consumer => p.rename (fun _ => 0) :: outer.producers
  | _ => []

/-- Nothing but the consumer of a pipe comes after a producer. -/
theorem Context.producers_part {outer : Context} {key : NodeKey} {which : Part}
    (h : which ≠ .consumer) : (Context.part outer key which).producers = [] := by
  cases key <;> cases which <;> first | rfl | exact absurd rfl h

/-- The scene to which these producers lead. -/
def Scene.through (S : Semantics) (s : Scene) : List Expr → Scene
  | [] => s
  | p :: ps => (s.through S ps).within (p.meaning S (s.through S ps))

/-- An expression that means the same while an error is handled. -/
def Expr.Steady (S : Semantics) (e : Expr) : Prop :=
  ∀ s err, e.meaning S (s.catching err) = e.meaning S s

theorem Expr.Steady.rename {S : Semantics} {e : Expr} (h : e.Steady S) (f : Nat → Nat) :
    (e.rename f).Steady S := by
  intro s err
  rw [Expr.meaning_rename]
  exact h s err

namespace Lowering

/-- The result of a binding, given the scene of its scope. -/
def Bound.result (S : Semantics) (b : Bound) (s : Scene) : Result :=
  match b.site.node with
  | .shape e _ _ => e.meaning S (s.through S b.site.context.producers)
  | .identity _ => .error (.unboundLabel b.binding.name)

/-- The bindings of a scope with their results. -/
def State.results (S : Semantics) (t : State) (s : Scene) : List (Nat × Result) :=
  t.bound.map fun b => (b.binding.slot, b.result S s)

theorem State.results_fst (S : Semantics) (t : State) (s : Scene) :
    (t.results S s).map Prod.fst = t.scope.resets := by
  rw [results, resets_scope, List.map_map]
  rfl

/-- How the group that an aggregate emits is seen in a context. -/
def AggregateEnv.view (g : AggregateEnv) (context : Context) (group : Group) : OutputView :=
  if g.context.same context then .ofGroup g.keys g.slots group
  else (OutputView.ofGroup g.keys g.slots group).nested

/-- The group of an aggregate is emitted in the context of the output. -/
def AggregateEnv.Emitting (g : AggregateEnv) : Prop :=
  ∃ context key, g.context = .part context key .output

/-- From a part of what its context is the context of, no expression stands for a key. -/
theorem AggregateEnv.view_nested {g : AggregateEnv} {group : Group} {context : Context}
    {outer : Context} {key : NodeKey} {which : Part} (hg : g.Emitting) (hwhich : which ≠ .output) :
    g.view (.part outer key which) group = (g.view context group).nested := by
  obtain ⟨outer', key', hg⟩ := hg
  have hsame : g.context.same (.part outer key which) = false := by
    change g.context.alike (.part outer key which) = false
    rw [hg, Context.alike]
    simp [beq_eq_false_iff_ne.mpr (Ne.symm hwhich)]
  rw [view, view, if_neg (by simp [hsame])]
  split <;> rfl

end Lowering

namespace Execution

variable (X : Execution σ)

/-! ### What is found in a frame -/

/-- An operation yields a result wherever it is evaluated on an input from here on. -/
def Supplies (roles : ValueRoles) (views : Views) (op : Op) (x : Value) (r : Result) : Prop :=
  ∀ roles' : ValueRoles, roles.Below roles' → X.Clear roles' op →
    X.Within roles' views (op.eval X.host x) r

/-- The input, the parameters and the group of a scene are found on the input and in the frame
    where the surroundings say. -/
structure Finds (env : Env) (roles : ValueRoles) (views : Views) (x : Value) (s : Scene) :
    Prop where
  input : env.input = .value → s.input = .ok x
  computed : ∀ op, env.input = .inline op → X.Supplies roles views op x s.input
  param : s.param = X.param
  alone : env.aggregate = none → s.output = none
  output : ∀ g, env.aggregate = some g → g.Emitting ∧
    ∃ group, views g.group = some group ∧ s.output = some (g.view env.context group)

/-- The rows that an expression with this analysis sees on a scene are kept by the join. -/
structure Rows (join : Option JoinEnv) (roles : ValueRoles) (a : Analysis) (s : Scene) : Prop where
  left : a.sides.left = true → ∀ j, join = some j →
    ∃ v, roles j.left.slot = .kept v ∧ s.left = some v
  right : a.sides.right = true → ∀ j, join = some j →
    ∃ v, roles j.right.slot = .kept v ∧ s.right = some v

/-- What an expression with this analysis sees on a scene, it finds on the input and in the frame
    where its surroundings say. -/
structure Sees (env : Env) (roles : ValueRoles) (views : Views) (x : Value) (a : Analysis)
    (s : Scene) : Prop where
  finds : X.Finds env roles views x s
  caught : a.readsCaught = true → ∀ b, env.caught = some b →
    ∃ v, roles b.slot = .kept v ∧ s.caught = some v
  rows : Rows env.join roles a s

variable {X} {env : Env} {roles roles' : ValueRoles} {views : Views} {x : Value} {a c : Analysis}
  {s : Scene} {join : Option JoinEnv}

theorem Supplies.mono {op : Op} {r : Result} (h : X.Supplies roles views op x r)
    (hle : roles.Below roles') : X.Supplies roles' views op x r :=
  fun _ hle' => h _ (hle.trans hle')

namespace Finds

variable (h : X.Finds env roles views x s)
include h

theorem mono (hle : roles.Below roles') : X.Finds env roles' views x s :=
  { h with computed := fun op hop => (h.computed op hop).mono hle }

/-- A part with an input of its own. -/
theorem entering {which : Part} {input : Input} {y : Value} {r : Result} (key : NodeKey)
    (hwhich : which ≠ .output) (hvalue : input = .value → r = .ok y)
    (hcomputed : ∀ op, input = .inline op → X.Supplies roles' views op y r) :
    X.Finds (env.enter (.part env.context key which) input) roles' views y (s.within r) where
  input := hvalue
  computed := hcomputed
  param := h.param
  alone hg := by rw [Scene.within, h.alone hg]; rfl
  output g hg := by
    obtain ⟨emitting, group, hview, hs⟩ := h.output g hg
    refine ⟨emitting, group, hview, ?_⟩
    rw [Scene.within, hs, Option.map_some, ← AggregateEnv.view_nested emitting hwhich]
    rfl

theorem within {item : Value} (key : NodeKey) {which : Part} (hwhich : which ≠ .output) :
    X.Finds (env.enter (.part env.context key which) .value) roles' views item
      (s.within (.ok item)) :=
  h.entering key hwhich (fun _ => rfl) nofun

/-- The consumer of a producer that was computed before. -/
theorem piped (p : Expr) (v : Value) :
    X.Finds (env.consumer p .value) roles' views v (s.within (.ok v)) :=
  { h.within (.of p p.analysis) (by decide) with }

/-- The consumer of a producer that is computed at each use of the input. -/
theorem inlined (p : Expr) {op : Op} {r : Result} (hop : X.Supplies roles' views op x r) :
    X.Finds (env.consumer p (.inline op)) roles' views x (s.within r) := by
  have entered : X.Finds (env.enter (.part env.context (.of p p.analysis) .consumer) (.inline op))
      roles' views x (s.within r) := by
    refine h.entering _ (by decide) nofun fun op' hop' => ?_
    cases hop'
    exact hop
  exact { entered with }

theorem onRow {row : Value} (key : NodeKey) :
    X.Finds (env.row key) roles' views row (s.onRow (.ok row)) where
  input _ := rfl
  computed _ := nofun
  param := h.param
  alone _ := rfl
  output _ := nofun

theorem emitting {root : Expr} {g : Nat} {keys : List (Smaller root)}
    {reducers : List (Reducer (Smaller root))} {group : Group} (key : NodeKey) :
    X.Finds (env.output (.of env key g keys reducers)) roles' (views.put g group) x
      (s.emitting (.ofGroup (keys.map (·.1)) (reducers.map Smaller.plain) group)) where
  input := nofun
  computed _ := nofun
  param := h.param
  alone := nofun
  output g' hg := by
    cases hg
    have hsame : (AggregateEnv.of env key g keys reducers).context.same
        (env.output (.of env key g keys reducers)).context = true := Context.alike_self _
    exact ⟨⟨_, _, rfl⟩, group, if_pos rfl, congrArg some (if_pos hsame).symm⟩

theorem withRows {j : JoinEnv} {l r : Option Value} (hle : roles.Below roles') (key : NodeKey)
    {which : Part} (hwhich : which ≠ .output) :
    X.Finds { env.enter (.part env.context key which) env.input with join := some j } roles' views x
      (s.withRows l r) where
  input := h.input
  computed op hop := (h.computed op hop).mono hle
  param := h.param
  alone hg := by rw [Scene.withRows, h.alone hg]; rfl
  output g hg := by
    obtain ⟨emitting, group, hview, hs⟩ := h.output g hg
    refine ⟨emitting, group, hview, ?_⟩
    rw [Scene.withRows, hs, Option.map_some, ← AggregateEnv.view_nested emitting hwhich]
    rfl

end Finds

namespace Rows

variable (h : Rows join roles a s)
include h

theorem mono (hle : roles.Below roles') : Rows join roles' a s where
  left ha j hj := by
    obtain ⟨v, hv, hs⟩ := h.left ha j hj
    exact ⟨v, hle.kept hv, hs⟩
  right ha j hj := by
    obtain ⟨v, hv, hs⟩ := h.right ha j hj
    exact ⟨v, hle.kept hv, hs⟩

theorem part (covers : a.CoversRows c) : Rows join roles c s :=
  ⟨fun hc => h.left (covers.left hc), fun hc => h.right (covers.right hc)⟩

end Rows

namespace Sees

variable (h : X.Sees env roles views x a s)
include h

variable (hle : roles.Below roles')
include hle

theorem caughtInside (covers : a.CoversCaught c) (hc : c.readsCaught = true) {b : Binding}
    (hb : env.caught = some b) : ∃ v, roles' b.slot = .kept v ∧ s.caught = some v := by
  obtain ⟨v, hv, hs⟩ := h.caught (covers hc) b hb
  exact ⟨v, hle.kept hv, hs⟩

theorem same (covers : Shift.Covers a c .same) : X.Sees env roles' views x c s where
  finds := h.finds.mono hle
  caught hc _ := h.caughtInside hle (covers.caught nofun) hc
  rows := (h.rows.mono hle).part (covers.rows nofun)

theorem within {item : Value} (covers : Shift.Covers a c (.within (.ok item))) (key : NodeKey)
    {which : Part} (hwhich : which ≠ .output) :
    X.Sees (env.enter (.part env.context key which) .value) roles' views item c
      (s.within (.ok item)) where
  finds := h.finds.within key hwhich
  caught hc _ := h.caughtInside hle (covers.caught nofun) hc
  rows := ⟨((h.rows.mono hle).part (covers.rows nofun)).left,
    ((h.rows.mono hle).part (covers.rows nofun)).right⟩

/-- The consumer of a pipe, which finds its input. -/
theorem consumer {p : Expr} {input : Input} {y : Value} {r : Result}
    (covers : Shift.Covers a c (.within r))
    (finds : X.Finds (env.consumer p input) roles' views y (s.within r)) :
    X.Sees (env.consumer p input) roles' views y c (s.within r) where
  finds := finds
  caught hc _ := h.caughtInside hle (covers.caught nofun) hc
  rows := ⟨((h.rows.mono hle).part (covers.rows nofun)).left,
    ((h.rows.mono hle).part (covers.rows nofun)).right⟩

theorem onRow {row : Value} (covers : Shift.Covers a c (.onRow (.ok row))) (key : NodeKey) :
    X.Sees (env.row key) roles' views row c (s.onRow (.ok row)) where
  finds := h.finds.onRow key
  caught hc _ := h.caughtInside hle (covers.caught nofun) hc
  rows := ⟨((h.rows.mono hle).part (covers.rows nofun)).left,
    ((h.rows.mono hle).part (covers.rows nofun)).right⟩

theorem emitting {root : Expr} {g : Nat} {keys : List (Smaller root)}
    {reducers : List (Reducer (Smaller root))} {group : Group}
    (covers : Shift.Covers a c
      (.emitting (.ofGroup (keys.map (·.1)) (reducers.map Smaller.plain) group)))
    (key : NodeKey) :
    X.Sees (env.output (.of env key g keys reducers)) roles' (views.put g group) x c
      (s.emitting (.ofGroup (keys.map (·.1)) (reducers.map Smaller.plain) group)) where
  finds := h.finds.emitting key
  caught hc _ := h.caughtInside hle (covers.caught nofun) hc
  rows := ⟨((h.rows.mono hle).part (covers.rows nofun)).left,
    ((h.rows.mono hle).part (covers.rows nofun)).right⟩

theorem withRows {j : JoinEnv} {l r : Option Value} (covers : Shift.Covers a c (.withRows l r))
    (key : NodeKey) {which : Part} (hwhich : which ≠ .output)
    (hleft : c.sides.left = true → ∃ v, roles' j.left.slot = .kept v ∧ l = some v)
    (hright : c.sides.right = true → ∃ v, roles' j.right.slot = .kept v ∧ r = some v) :
    X.Sees { env.enter (.part env.context key which) env.input with join := some j } roles' views x
      c (s.withRows l r) where
  finds := h.finds.withRows hle key hwhich
  caught hc _ := h.caughtInside hle (covers.caught nofun) hc
  rows := by
    constructor
    · intro hc j' hj
      cases hj
      exact hleft hc
    · intro hc j' hj
      cases hj
      exact hright hc

theorem catching {e : Error} {b : Binding} (covers : Shift.Covers a c (.catching e))
    (hb : roles' b.slot = .kept (.str e.message)) :
    X.Sees { env with caught := some b } roles' views x c (s.catching e) where
  finds := { h.finds.mono hle with }
  caught _ b' hb' := by
    cases hb'
    exact ⟨_, hb, rfl⟩
  rows := ⟨((h.rows.mono hle).part (covers.rows nofun)).left,
    ((h.rows.mono hle).part (covers.rows nofun)).right⟩

end Sees

/-! ### Where producers lead -/

variable (X)

/-- On an input and a scene, these producers lead to another input and another scene.  A producer
    that is computed at each use of the input leaves the input as it is. -/
inductive Leads (join : Option JoinEnv) (roles : ValueRoles) (x : Value) (s : Scene) :
    List Expr → Value → Scene → Prop
  | here : Leads join roles x s [] x s
  | inlined {ps : List Expr} {y : Value} {u : Scene} {p : Expr}
      (before : Leads join roles x s ps y u) (mode : X.inline p = true)
      (steady : p.Steady X.semantics) (rows : Rows join roles p.analysis u) :
      Leads join roles x s (p :: ps) y (u.within (p.meaning X.semantics u))
  | piped {ps : List Expr} {y v : Value} {u : Scene} {p : Expr}
      (before : Leads join roles x s ps y u) (mode : X.inline p = false)
      (steady : p.Steady X.semantics) (rows : Rows join roles p.analysis u)
      (value : p.meaning X.semantics u = .ok v) :
      Leads join roles x s (p :: ps) v (u.within (.ok v))

variable {X}

namespace Leads

variable {ps : List Expr} {y : Value} {u : Scene} (h : X.Leads join roles x s ps y u)
include h

theorem mono (hle : roles.Below roles') : X.Leads join roles' x s ps y u := by
  induction h with
  | here => exact .here
  | inlined _ mode steady rows ih => exact .inlined ih mode steady (rows.mono hle)
  | piped _ mode steady rows value ih => exact .piped ih mode steady (rows.mono hle) value

theorem trans {qs : List Expr} {z : Value} {w : Scene} (h' : X.Leads join roles y u qs z w) :
    X.Leads join roles x s (qs ++ ps) z w := by
  induction h' with
  | here => exact h
  | inlined _ mode steady rows ih => exact .inlined ih mode steady rows
  | piped _ mode steady rows value ih => exact .piped ih mode steady rows value

theorem scene : u = s.through X.semantics ps := by
  induction h with
  | here => rfl
  | inlined _ _ _ _ ih => rw [Scene.through, ← ih]
  | piped _ _ _ _ value ih => rw [Scene.through, ← ih, value]

omit h in
/-- While an error is handled, producers lead to the same inputs. -/
theorem ofCatching {err : Error} (h : X.Leads join roles x (s.catching err) ps y u) :
    ∃ u', u = u'.catching err ∧ X.Leads join roles x s ps y u' := by
  induction h with
  | here => exact ⟨s, rfl, .here⟩
  | @inlined ps y u p _ mode steady rows ih =>
    obtain ⟨u', rfl, before⟩ := ih
    refine ⟨_, ?_, .inlined before mode steady ⟨rows.left, rows.right⟩⟩
    rw [steady u' err]
    rfl
  | @piped ps y v u p _ mode steady rows value ih =>
    obtain ⟨u', rfl, before⟩ := ih
    rw [steady u' err] at value
    exact ⟨_, rfl, .piped before mode steady ⟨rows.left, rows.right⟩ value⟩

end Leads

/-! ### Bindings of a scope -/

variable (X)

/-- A binding for an expression holds the result of this expression, and its definition yields
    it. -/
structure Ready (join : Option JoinEnv) (roles : ValueRoles) (views : Views) (b : Bound) (e : Expr)
    (x : Value) (s : Scene) : Prop where
  role : roles b.binding.slot = .memo (e.meaning X.semantics s)
  yields : Rows join roles e.analysis s → X.Clear roles b.definition →
    X.Within roles views (b.definition.eval X.host x) (e.meaning X.semantics s)

/-- The bindings of a scope are ready wherever the producers that are still to come lead. -/
def Binds (env : Env) (t : State) (roles : ValueRoles) (views : Views) (x : Value) (s : Scene) :
    Prop :=
  ∀ b ∈ t.bound, ∀ e size hsize, b.site.node = .shape e size hsize →
    ∀ roles' ps y u, roles.Below roles' → X.Leads env.join roles' x s ps y u →
      b.site.context.producers = ps ++ env.context.producers →
        X.Ready env.join roles' views b e y u

/-- In these surroundings an operation yields what is meant, wherever what is seen is found. -/
structure Yielding (env : Env) (t : State) (op : Op) (a : Analysis) (m : Meaning) : Prop where
  yields : ∀ {roles : ValueRoles} {views : Views} {x : Value} {s : Scene},
    X.Sees env roles views x a s → X.Clear roles op → X.Binds env t roles views x s →
      X.Within roles views (op.eval X.host x) (m s)

/-- In these surroundings an operation yields the meaning of an expression. -/
def Sound (env : Env) (t : State) (op : Op) (e : Expr) : Prop :=
  X.Yielding env t op e.analysis (e.meaning X.semantics)

/-- The bindings of a scope for expressions have the results that belong to this scene. -/
def Assigns (t : State) (roles : ValueRoles) (s : Scene) : Prop :=
  ∀ b ∈ t.bound, ∀ e size hsize, b.site.node = .shape e size hsize →
    roles b.binding.slot = .memo (b.result X.semantics s)

/-- The bindings of a scope are ready when the scope is entered. -/
def Opens (env : Env) (t : State) : Prop :=
  ∀ {roles : ValueRoles} {views : Views} {x : Value} {s : Scene}, X.Assigns t roles s →
    X.Finds env roles views x s → X.Binds env t roles views x s

variable {X}

namespace Binds

variable {t t' : State} {env' : Env}

theorem mono (h : X.Binds env t' roles views x s) (hext : Extends t t') :
    X.Binds env t roles views x s := fun b hb => h b (hext.mem_bound hb)

/-- The bindings are ready where producers have led. -/
theorem along {ps : List Expr} {y : Value} {u : Scene} (h : X.Binds env t roles views x s)
    (hle : roles.Below roles') (hleads : X.Leads env.join roles' x s ps y u)
    (hjoin : env'.join = env.join)
    (hproducers : env'.context.producers = ps ++ env.context.producers) :
    X.Binds env' t roles' views y u := by
  intro b hb e size hsize hnode roles'' qs z w hle' hleads' hsite
  rw [hjoin] at hleads' ⊢
  refine h b hb e size hsize hnode roles'' (qs ++ ps) z w (hle.trans hle')
    ((hleads.mono hle').trans hleads') ?_
  rw [hsite, hproducers, List.append_assoc]

theorem grow (h : X.Binds env t roles views x s) (hle : roles.Below roles') :
    X.Binds env t roles' views x s := h.along hle .here rfl rfl

/-- What stands where the current expression stands is ready. -/
theorem ready (h : X.Binds env t roles views x s) {b : Bound} (hb : b ∈ t.bound) {e : Expr}
    {size : UInt64} {hsize : size = e.size} (hnode : b.site.node = .shape e size hsize)
    (hproducers : b.site.context.producers = env.context.producers) :
    X.Ready env.join roles views b e x s :=
  h b hb e size hsize hnode roles [] x s (.refl _) .here hproducers

end Binds

theorem assigns_enter {t : State} (hnodup : t.scope.resets.Nodup) :
    X.Assigns t (roles.enter (t.results X.semantics s)) s := by
  intro b hb e size hsize hnode
  refine Roles.enter_of_mem _ ?_ (List.mem_map_of_mem (f := fun b : Bound => (_, _)) hb)
  rw [State.results_fst]
  exact hnodup

theorem Sound.mono {t t' : State} {op : Op} {e : Expr} (h : X.Sound env t op e)
    (hext : Extends t t') : X.Sound env t' op e :=
  ⟨fun sees clear binds => h.yields sees clear (binds.mono hext)⟩

end Execution
end DataExpr
