import DataExpr.Proofs.DefiniteAssignment

/-!
# No run reads a label before it is set

A program can be run with any meaning of its nodes; with the watching one it keeps a record
of its labels.  For the program of an orderly expression both runs give the same, whether the
program is called or its results are taken one by one, and the record stays clean.
-/

namespace DataExpr

open Eval DataExpr.Flow Op

variable {σ α : Type}

namespace Program

/-- The value of a program whose nodes have this meaning. -/
def callBy (meaning : OpNode (Evaluator σ) → Evaluator σ) (program : Program) (input : Value)
    (params : Params) : StateM σ (Except Error Value) := do
  return (← program.runFresh params (program.body.fold meaning input)).map (·.1)

/-- Starts a program whose nodes have this meaning. -/
def startBy (meaning : OpNode (Evaluator σ) → Evaluator σ) (program : Program) (input : Value)
    (params : Params) : StateM σ (Except Error (Cursor σ)) := do
  let whole : StateM σ (Except Error (Cursor σ)) := do
    let result ← program.runFresh params do (← program.body.fold meaning input).elements
    return result.map fun (items, _) => .values items
  match program.body.node with
  | .loop op =>
    if op.kind = .lazy then
      let op := Op.foldLoop meaning op
      let result ← program.runFresh params (op.items input)
      return result.map fun (items, frame) => .loop op items frame
    else whole
  | .join op =>
    let op := Op.foldJoin meaning op
    let result ← program.runFresh params (op.start input)
    return result.map fun ((rows, state), frame) => .join op input [] rows state frame
  | _ => whole

theorem start_eq_startBy (host : Host σ) (program : Program) :
    program.start host = program.startBy (OpNode.evaluate host) := rfl

end Program

/-- The first results of a cursor, up to its end. -/
def Cursor.take : Nat → Cursor σ → StateM σ (List (Except Error Value))
  | 0, _ => return []
  | n + 1, cursor => do
    match ← cursor.next with
    | (none, _) => return []
    | (some result, cursor) => return result :: (← take n cursor)

theorem Cursor.take_succ (count : Nat) (cursor : Cursor σ) (s : σ) :
    cursor.take (count + 1) s =
      match cursor.next s with
      | ((none, _), s') => ([], s')
      | ((some result, rest), s') =>
        (result :: (rest.take count s').1, (rest.take count s').2) := by
  rcases hnext : cursor.next s with ⟨⟨_ | result, rest⟩, s'⟩ <;>
    simp only [Cursor.take, bind, StateT.bind, hnext] <;> rfl

/-- The first results of a program whose nodes have this meaning. -/
def Program.takeBy (meaning : OpNode (Evaluator σ) → Evaluator σ) (count : Nat)
    (program : Program) (input : Value) (params : Params) :
    StateM σ (Except Error (List (Except Error Value))) := do
  match ← program.startBy meaning input params with
  | .error e => return .error e
  | .ok cursor => return .ok (← cursor.take count)

theorem Program.takeBy_eq (meaning : OpNode (Evaluator σ) → Evaluator σ) (count : Nat)
    (program : Program) (input : Value) (params : Params) (s : σ) :
    program.takeBy meaning count input params s =
      match program.startBy meaning input params s with
      | (.error e, s') => (.error e, s')
      | (.ok c, s') => (.ok (c.take count s').1, (c.take count s').2) := by
  rcases hstart : program.startBy meaning input params s with ⟨_ | c, s'⟩ <;>
    simp only [takeBy, bind, StateT.bind, hstart] <;> rfl

/-- A run beside which a record is kept gives what the run alone gives, and the record of the
    run is clean. -/
def Watched (m : StateM σ α) (n : StateM (σ × Trace) α) : Prop :=
  ∀ s, ∃ trace, n (s, .start) = ((m s).1, ((m s).2, trace)) ∧ trace.missed = false

/-! ### The start of a run -/

/-- The roles of the slots of a program, whose labels have these slots. -/
def Program.roles (program : Program) (labels : List Nat) : LabelRoles :=
  Roles.enter (fun n => if n ∈ labels then .kept () else .free) program.scope.sets

/-- In the frame of a call no slot is set. -/
theorem Tracks.start {roles : LabelRoles} (layout : Layout) (params : List Value) (s : σ) :
    Tracks layout.slots roles [] ⟨.ofLayout layout params, s⟩
      ⟨.ofLayout layout params, (s, .start)⟩ := by
  refine ⟨rfl, rfl, rfl, ?_, fun _ h => absurd h List.not_mem_nil,
    fun _ h => absurd h List.not_mem_nil, fun n _ _ hset => ?_⟩
  · simp [Frame.ofLayout]
  · rw [Frame.slot?_ofLayout] at hset
    cases hset

open Lowering in
/-- The program of an orderly expression needs no label, and its slots have their roles. -/
theorem Program.fits {e : Expr} {signature : Signature} {threshold : Weight.Threshold}
    {program : Program} (h : Program.ofExpr e signature threshold = .ok program)
    (horderly : e.Orderly) :
    ∃ (a : Ambient) (roles : LabelRoles), Fits a program.layout.slots roles program.body ∧
      program.body.flow.needs = [] := by
  obtain ⟨hanalyzed, counts, body, s, -, hlower, rfl⟩ := ofExpr_cases h
  obtain ⟨placed, tidy, apart⟩ := lower_start hlower
  obtain ⟨hmemos, hlabels, hboth⟩ := List.nodup_append.mp tidy.nodup
  have outside : ∀ n, n ∉ s.bound.map (fun b => b.binding.slot) →
      (s.program body).roles (s.ambient []).labels n =
        if n ∈ (s.ambient []).labels then .kept () else .free := by
    intro n hn
    refine Roles.enter_of_not_mem _ ?_
    rw [Scope.sets_fst]
    exact s.resets_scope ▸ hn
  refine ⟨s.ambient [], (s.program body).roles (s.ambient []).labels,
    ⟨placed, fun n hn => ?_, fun m hm => ?_, fun n hn => ?_⟩, ?_⟩
  · rw [outside n fun hmem => hboth n hmem n hn rfl, if_pos hn]
    exact ⟨rfl, tidy.taken_lt n (List.mem_append_right _ hn)⟩
  · refine Roles.enter_of_mem _ ?_ (List.mem_map_of_mem (f := fun m => (_, _)) hm)
    rw [Scope.sets_fst]
    exact s.resets_scope ▸ hmemos
  · have hout := apart.apart n hn
    rw [taken, List.mem_append, not_or] at hout
    rw [outside n hout.1]
    exact if_neg hout.2
  · have shelter : Sheltered e s.supply.labels (.plain []) (.start .emit threshold) :=
      ⟨fun _ h => absurd h (Option.not_mem_none _), rfl, fun _ h => absurd h List.not_mem_nil⟩
    have nothing (k : Nat) : ¬Given e s.supply.labels (.plain []) .root k := fun h => h.elim id id
    have flows := lower_flows hanalyzed tidy.names horderly (.refl e) rfl shelter hlower
    obtain ⟨charts, -⟩ := flows.charts (fun _ h => h) (fun _ h => absurd h List.not_mem_nil)
      fun k hk => absurd hk (nothing k)
    refine List.eq_nil_iff_forall_not_mem.mpr fun k hk => ?_
    rcases charts.needs k hk with hk | ⟨n, -, -, hn⟩
    · exact nothing k hk
    · exact absurd hn List.not_mem_nil

/-! ### Runs -/

/-- An evaluation in a new frame and the same with a record. -/
theorem Program.runFresh_watched {program : Program} {roles : LabelRoles}
    {post : Link σ (σ × Trace)} {m : Eval σ α} {n : Eval (σ × Trace) α}
    (h : Agree (Tracks program.layout.slots roles []) post (Tracks program.layout.slots roles [])
      m n) (params : Params) (s : σ) :
    match (program.runFresh params m s).1 with
    | .error e => ∃ trace, program.runFresh params n (s, .start) =
        (.error e, ((program.runFresh params m s).2, trace)) ∧ trace.missed = false
    | .ok (a, frame) => ∃ frame' state, program.runFresh params n (s, .start) =
        (.ok (a, frame'), state) ∧
        post ⟨frame, (program.runFresh params m s).2⟩ ⟨frame', state⟩ := by
  unfold Program.runFresh
  cases hframe : program.frame params with
  | error e => exact ⟨.start, rfl, rfl⟩
  | ok frame =>
    obtain ⟨values, -, rfl⟩ : ∃ values, program.params.bind params = .ok values ∧
        frame = .ofLayout program.layout values := by
      unfold Program.frame at hframe
      cases hbind : program.params.bind params with
      | error e =>
        rw [hbind] at hframe
        cases hframe
      | ok values =>
        rw [hbind] at hframe
        cases hframe
        exact ⟨values, rfl, rfl⟩
    obtain ⟨result, after⟩ := h _ _ (Tracks.start program.layout values s)
    dsimp only
    generalize m.run ⟨.ofLayout program.layout values, s⟩ = p at result after ⊢
    generalize n.run ⟨.ofLayout program.layout values, (s, .start)⟩ = q at result after ⊢
    obtain ⟨r, w⟩ := p
    obtain ⟨r', v⟩ := q
    obtain rfl : r = r' := result
    cases r with
    | error e =>
      have after : Tracks program.layout.slots roles [] w v := after
      exact ⟨v.host.2, congrArg (Prod.mk _) after.host_eq, after.clean⟩
    | ok a => exact ⟨v.frame, v.host, rfl, after⟩

/-- Two cursors that will give the same, of which the second one keeps a clean record. -/
inductive Cursor.Linked (room : Nat) (roles : LabelRoles) :
    Cursor σ → σ → Cursor (σ × Trace) → σ × Trace → Prop
  | values {rest : List Value} {s : σ} {trace : Trace} (clean : trace.missed = false) :
      Linked room roles (.values rest) s (.values rest) (s, trace)
  | loop {p : LoopOp (Evaluator σ)} {q : LoopOp (Evaluator (σ × Trace))} {A B : List Nat}
      {items : List Value} {frame : Frame} {s : σ} {trace : Trace}
      (h : Tracks room roles B ⟨frame, s⟩ ⟨frame, (s, trace)⟩)
      (step : ∀ item, Agree (Tracks room roles B) (Tracks room roles B) (Tracks room roles A)
        (p.step item) (q.step item)) :
      Linked room roles (.loop p items frame) s (.loop q items frame) (s, trace)
  | join {p : JoinOp (Evaluator σ)} {q : JoinOp (Evaluator (σ × Trace))} {A B : List Nat}
      {secondary primary accepted : Value → Link σ (σ × Trace)}
      {paired : Value → Value → Link σ (σ × Trace)} {x : Value} {waiting rows : List Value}
      {state : JoinState} {frame : Frame} {s : σ} {trace : Trace}
      (h : Tracks room roles B ⟨frame, s⟩ ⟨frame, (s, trace)⟩)
      (parts : JoinAgree (Tracks room roles B) (Tracks room roles A) secondary primary accepted
        paired x x p q) :
      Linked room roles (.join p x waiting rows state frame) s
        (.join q x waiting rows state frame) (s, trace)

namespace Cursor.Linked

variable {room : Nat} {roles : LabelRoles} {c : Cursor σ} {d : Cursor (σ × Trace)} {s : σ}
  {t : σ × Trace}

theorem clean (h : Linked room roles c s d t) : t.1 = s ∧ t.2.missed = false := by
  cases h with
  | values clean => exact ⟨rfl, clean⟩
  | loop h => exact ⟨rfl, h.clean⟩
  | join h => exact ⟨rfl, h.clean⟩

/-- After the end nothing comes. -/
theorem ended {A : List Nat} {w : World σ} {v : World (σ × Trace)} (h : Tracks room roles A w v) :
    Linked room roles done w.host done v.host := by
  rw [h.host_eq]
  exact .values h.clean

/-- Linked cursors give the same next result and stay linked. -/
theorem next (h : Linked room roles c s d t) :
    (d.next t).1.1 = (c.next s).1.1 ∧
      Linked room roles (c.next s).1.2 (c.next s).2 (d.next t).1.2 (d.next t).2 := by
  -- A cursor keeps its kind while it goes on, and the recorded one takes the same steps.
  cases h with
  | @values rest s trace clean =>
    cases rest with
    | nil => exact ⟨rfl, .values clean⟩
    | cons v rest => exact ⟨rfl, .values clean⟩
  | @loop p q A B items frame s trace h step =>
    obtain ⟨result, after⟩ := LoopOp.nextItem_agree step items _ _ h
    unfold Cursor.next
    dsimp only
    generalize (nextItem p items).run ⟨frame, s⟩ = found at result after ⊢
    generalize (nextItem q items).run ⟨frame, (s, trace)⟩ = found' at result after ⊢
    obtain ⟨r, w⟩ := found
    obtain ⟨r', v⟩ := found'
    obtain rfl : r = r' := result
    rcases r with e | _ | ⟨v, rest⟩
    · exact ⟨rfl, ended after⟩
    · exact ⟨rfl, ended after⟩
    · refine ⟨rfl, ?_⟩
      dsimp only at after ⊢
      rw [after.frame, after.host_eq]
      exact .loop after.split step
  | @join p q A B secondary primary accepted paired x waiting rows state frame s trace h parts =>
    cases waiting with
    | cons v waiting => exact ⟨rfl, .join h parts⟩
    | nil =>
      obtain ⟨result, after⟩ := parts.next rows state _ _ h
      unfold Cursor.next
      dsimp only
      generalize (p.next x rows state).run ⟨frame, s⟩ = found at result after ⊢
      generalize (q.next x rows state).run ⟨frame, (s, trace)⟩ = found' at result after ⊢
      obtain ⟨r, w⟩ := found
      obtain ⟨r', v⟩ := found'
      obtain rfl : r = r' := result
      rcases r with e | ⟨_ | ⟨y, waiting⟩, _ | ⟨rows, state⟩⟩
      · exact ⟨rfl, ended after⟩
      · exact ⟨rfl, ended after⟩
      · exact ⟨rfl, ended after⟩
      · refine ⟨rfl, ?_⟩
        dsimp only at after ⊢
        rw [after.host_eq]
        exact .values after.clean
      · refine ⟨rfl, ?_⟩
        dsimp only at after ⊢
        rw [after.frame, after.host_eq]
        exact .join after.split parts

/-- Linked cursors give the same results, and the record stays clean. -/
theorem take (h : Linked room roles c s d t) (count : Nat) :
    ∃ trace, d.take count t = ((c.take count s).1, ((c.take count s).2, trace)) ∧
      trace.missed = false := by
  induction count generalizing c s d t with
  | zero =>
    obtain ⟨rfl, clean⟩ := h.clean
    exact ⟨t.2, rfl, clean⟩
  | succ count ih =>
    obtain ⟨result, after⟩ := h.next
    rw [Cursor.take_succ, Cursor.take_succ]
    generalize c.next s = p at result after ⊢
    generalize d.next t = q at result after ⊢
    obtain ⟨⟨r, c'⟩, s'⟩ := p
    obtain ⟨⟨r', d'⟩, t'⟩ := q
    obtain rfl : r' = r := result
    cases r' with
    | none =>
      obtain ⟨rfl, clean⟩ := after.clean
      exact ⟨t'.2, rfl, clean⟩
    | some r =>
      obtain ⟨trace, htake, clean⟩ := ih after
      refine ⟨trace, ?_, clean⟩
      dsimp only at htake ⊢
      rw [htake]

end Cursor.Linked

/-- Two programs that are started alike. -/
def Starts (room : Nat) (roles : LabelRoles) (m : StateM σ (Except Error (Cursor σ)))
    (n : StateM (σ × Trace) (Except Error (Cursor (σ × Trace)))) : Prop :=
  ∀ s, match (m s).1 with
    | .error e => ∃ trace, n (s, .start) = (.error e, ((m s).2, trace)) ∧ trace.missed = false
    | .ok c => ∃ d t, n (s, .start) = (.ok d, t) ∧ Cursor.Linked room roles c (m s).2 d t

theorem Starts.ite {room : Nat} {roles : LabelRoles} {m m' : StateM σ (Except Error (Cursor σ))}
    {n n' : StateM (σ × Trace) (Except Error (Cursor (σ × Trace)))} (c : Prop) [Decidable c]
    (h : Starts room roles m n) (h' : Starts room roles m' n') :
    Starts room roles (if c then m else m') (if c then n else n') := by
  by_cases hc : c
  · simpa only [if_pos hc] using h
  · simpa only [if_neg hc] using h'

/-- An evaluation in a new frame after which results are taken. -/
theorem Starts.ofRun {program : Program} {roles : LabelRoles} {post : Link σ (σ × Trace)}
    {m : Eval σ α} {n : Eval (σ × Trace) α} {f : α × Frame → Cursor σ}
    {g : α × Frame → Cursor (σ × Trace)}
    (h : Agree (Tracks program.layout.slots roles []) post (Tracks program.layout.slots roles [])
      m n)
    (hlinked : ∀ a w v, post w v →
      Cursor.Linked program.layout.slots roles (f (a, w.frame)) w.host (g (a, v.frame)) v.host)
    (params : Params) :
    Starts program.layout.slots roles (do return (← program.runFresh params m).map f)
      (do return (← program.runFresh params n).map g) := by
  intro s
  have run := Program.runFresh_watched h params s
  have hm : (do return (← program.runFresh params m).map f : StateM σ _) s =
      ((program.runFresh params m s).1.map f, (program.runFresh params m s).2) := rfl
  have hn : (do return (← program.runFresh params n).map g : StateM (σ × Trace) _) (s, .start) =
      ((program.runFresh params n (s, .start)).1.map g,
      (program.runFresh params n (s, .start)).2) :=
    rfl
  rw [hm, hn]
  generalize program.runFresh params m s = p at run ⊢
  obtain ⟨r, s'⟩ := p
  cases r with
  | error e =>
    obtain ⟨trace, hrun, clean⟩ := run
    rw [hrun]
    exact ⟨trace, rfl, clean⟩
  | ok result =>
    obtain ⟨a, frame⟩ := result
    obtain ⟨frame', state, hrun, after⟩ := run
    rw [hrun]
    exact ⟨_, _, rfl, hlinked a _ _ after⟩

/-- The program of an orderly expression is started alike with a record. -/
theorem Program.starts {program : Program} {a : Ambient} {roles : LabelRoles}
    (fits : Fits a program.layout.slots roles program.body) (hneeds : program.body.flow.needs = [])
    (host : Host σ) (input : Value) (params : Params) :
    Starts program.layout.slots roles (program.startBy (OpNode.evaluate host) input params)
      (program.startBy (OpNode.watch host) input params) := by
  have needed : ∀ k ∈ program.body.flow.needs, k ∈ [] := fun k hk => hneeds ▸ hk
  have follows := (Op.follows host fits input).bindLift Value.elements
  have whole := Starts.ofRun (f := fun r => .values r.1) (g := fun r => .values r.1)
    (follows [] needed) (fun items w v t => ?_) params
  · unfold Program.startBy
    obtain ⟨signature, constants, scope, body, layout⟩ := program
    -- Loops and joins at the root are started as cursors; every other root is run as a whole.
    cases body with
    | mk node =>
      cases node with
      | loop op =>
        refine Starts.ite _ ?_ whole
        have parts : (OpNode.loop op).PartsFollow host layout.slots roles :=
          fun p hp => Op.follows host (fits.part hp)
        have items := Runs.loopItems (x := input) (parts (.empty, op.source) List.mem_cons_self)
        have step := Runs.loopStep (l := op)
          (fun n hn => fits.free_place (show n ∈ op.scope.resets from Scope.sets_fst op.scope ▸ hn))
          fun o ho => parts (op.scope, o) (List.mem_cons_of_mem _ (List.mem_map_of_mem ho))
        have needed : ∀ k ∈ (op.source.flow.andThen ((perhaps (op.filter.map Op.flow)).andThen
            ((perhaps (op.key.map Op.flow)).andThen op.element.flow)).contained).needs, k ∈ [] := by
          obtain ⟨kind, var, source, scope, filter, key, element⟩ := op
          simp only [Op.flow, Op.fold, foldNode, OpNode.flow, foldLoop, foldOption_eq] at needed
          exact needed
        refine Starts.ofRun (items [] fun k hk => needed k (Flow.mem_needs_andThen.mpr (.inl hk)))
          (fun items w v t => ?_) params
        rw [t.host_eq, t.frame]
        exact .loop t.split fun item => (step item).keeps fun k hk =>
          Flow.mem_append_of_needs needed hk
      | join op =>
        obtain ⟨B, -, -, start, parts⟩ := fits.join (x := input) (A := [])
          (fun p hp => Op.follows host (fits.part hp)) needed
        refine Starts.ofRun start (fun r w v t => ?_) params
        rw [t.host_eq, t.frame]
        exact .join t.split parts
      | _ => exact whole
  · rw [t.host_eq]
    exact .values t.clean

/-- **Labels are set before they are read.**  Whatever the input, the parameters and the
    functions of the host are, neither a call of the program of an orderly expression nor any
    number of its results reads a label that has not been set before in the same run. -/
theorem labels_set_before_read {e : Expr} {signature : Signature} {threshold : Weight.Threshold}
    {program : Program} (h : Program.ofExpr e signature threshold = .ok program)
    (horderly : e.Orderly) (host : Host σ) (input : Value) (params : Params) :
    Watched (program.callBy (OpNode.evaluate host) input params)
        (program.callBy (OpNode.watch host) input params) ∧
      ∀ count, Watched (program.takeBy (OpNode.evaluate host) count input params)
        (program.takeBy (OpNode.watch host) count input params) := by
  obtain ⟨a, roles, fits, hneeds⟩ := Program.fits h horderly
  -- A call runs the body at once; taking results starts a cursor, which stays linked.
  refine ⟨fun s => ?_, fun count s => ?_⟩
  · have body := Op.follows host fits input [] fun k hk => hneeds ▸ hk
    have run := Program.runFresh_watched body params s
    change ∃ trace, ((program.runFresh params (program.body.watch host input) (s, .start)).1.map
        (·.1), (program.runFresh params (program.body.watch host input) (s, .start)).2) =
      ((program.runFresh params (program.body.eval host input) s).1.map (·.1),
        ((program.runFresh params (program.body.eval host input) s).2, trace)) ∧ _
    generalize program.runFresh params (program.body.eval host input) s = p at run ⊢
    obtain ⟨r, s'⟩ := p
    cases r with
    | error e =>
      obtain ⟨trace, hrun, clean⟩ := run
      rw [hrun]
      exact ⟨trace, rfl, clean⟩
    | ok result =>
      obtain ⟨frame', state, hrun, after⟩ := run
      rw [hrun]
      exact ⟨state.2, congrArg (Prod.mk _) after.host_eq, after.clean⟩
  · have started := Program.starts fits hneeds host input params s
    rw [Program.takeBy_eq, Program.takeBy_eq]
    generalize program.startBy (OpNode.evaluate host) input params s = p at started ⊢
    obtain ⟨r, s'⟩ := p
    cases r with
    | error e =>
      obtain ⟨trace, hrun, clean⟩ := started
      rw [hrun]
      exact ⟨trace, rfl, clean⟩
    | ok c =>
      obtain ⟨d, t, hrun, linked⟩ := started
      obtain ⟨trace, htaken, clean⟩ := linked.take count
      rw [hrun]
      refine ⟨trace, ?_, clean⟩
      dsimp only
      rw [htaken]

/-- A host without functions. -/
def Host.none : Host Unit := ⟨fun f _ => return .error (.function f.name "unknown")⟩

/-- A label that is set and then read. -/
def writeThenRead : Expr :=
  .mk 0 (.collection .tuple [.mk 1 (.label "x" (.mk 2 .input)), .mk 3 (.labelRef "x")])

theorem within_writeThenRead {d : Expr} (h : Expr.Within d writeThenRead) :
    d = writeThenRead ∨ d = .mk 1 (.label "x" (.mk 2 .input)) ∨ d = .mk 2 .input ∨
      d = .mk 3 (.labelRef "x") := by
  rcases h.cases with rfl | ⟨c, hc, h⟩
  · exact .inl rfl
  simp only [writeThenRead, Expr.children, Expr.node, Node.children, List.mem_cons,
    List.not_mem_nil, or_false] at hc
  rcases hc with rfl | rfl
  · rcases h.cases with rfl | ⟨c, hc, h⟩
    · exact .inr (.inl rfl)
    obtain rfl := List.mem_singleton.mp hc
    rcases h.cases with rfl | ⟨c, hc, h⟩
    · exact .inr (.inr (.inl rfl))
    · exact absurd hc List.not_mem_nil
  · rcases h.cases with rfl | ⟨c, hc, h⟩
    · exact .inr (.inr (.inr rfl))
    · exact absurd hc List.not_mem_nil

theorem orderly_writeThenRead : writeThenRead.Orderly := by
  refine ⟨fun c d hc hd => ?_, fun e he => ?_, fun e he left right condition kind hjoin => ?_⟩
  · rcases within_writeThenRead hc with rfl | rfl | rfl | rfl <;>
      rcases within_writeThenRead hd with rfl | rfl | rfl | rfl <;>
        simp [writeThenRead, Expr.id]
  · rcases within_writeThenRead he with rfl | rfl | rfl | rfl <;> simp [writeThenRead, Expr.node]
  · rcases within_writeThenRead he with rfl | rfl | rfl | rfl <;> cases hjoin

theorem labels_set_before_read_once : ∃ program,
    Program.ofExpr writeThenRead [] Weight.bindingThreshold = .ok program ∧
      Watched (program.callBy (OpNode.evaluate Host.none) (.int 1) .none)
        (program.callBy (OpNode.watch Host.none) (.int 1) .none) := by
  have compiles :
      (Program.ofExpr writeThenRead [] Weight.bindingThreshold).toOption.isSome = true := by
    decide +kernel
  cases h : Program.ofExpr writeThenRead [] Weight.bindingThreshold with
  | error err =>
    rw [h] at compiles
    cases compiles
  | ok program =>
    exact ⟨program, rfl,
      (labels_set_before_read h orderly_writeThenRead Host.none (.int 1) .none).1⟩

/-- A label that is set in a key behind the step at which the path is left for its default. -/
def lateKey : Expr :=
  .mk 0 (.collection .tuple [
    .mk 1 (.access (.mk 2 .input)
      [.key (.mk 3 (.constant (.str "missing"))),
        .key (.mk 4 (.label "x" (.mk 5 (.constant (.int 1)))))]
      (some (.mk 6 (.constant (.int 0))))),
    .mk 7 (.labelRef "x")])

/-- Keys of a path count as evaluated although the default may be taken before them. -/
theorem late_key_read_unset :
    (match Program.ofExpr lateKey [] Weight.bindingThreshold with
      | .ok program =>
        match (program.call Host.none (.dict []) .none ()).1 with
        | .error (.unboundLabel name) => name == "label_x"
        | _ => false
      | .error _ => false) = true := by
  decide +kernel

end DataExpr
