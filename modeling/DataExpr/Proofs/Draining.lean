import DataExpr.Proofs.RunsAlike

/-!
# Taking results one by one

The results of a program can be taken all at once, by a call, or one by one from a cursor.  For
a lazy comprehension and for a join the two ways are separate: a cursor goes on only as far as it
is asked.  They agree all the same, also in what they call and when.
-/

namespace DataExpr

open Eval Op

variable {σ τ α : Type}

/-! ### Draining a cursor -/

namespace Cursor

/-- Taking results until none comes gives these ones. -/
def Drains (k : Cursor σ) (s : σ) (results : List (Except Error Value)) (s' : σ) : Prop :=
  ∃ n, k.take n s = (results, s') ∧ results.length < n

variable {k k' : Cursor σ} {s s' s'' : σ} {r : Except Error Value}
  {results : List (Except Error Value)}

theorem Drains.stop (h : k.next s = ((none, k'), s')) : k.Drains s [] s' :=
  ⟨1, by rw [take_succ, h], Nat.one_pos⟩

theorem Drains.cons (h : k.next s = ((some r, k'), s')) (rest : k'.Drains s' results s'') :
    k.Drains s (r :: results) s'' := by
  obtain ⟨n, htake, hn⟩ := rest
  exact ⟨n + 1, by rw [take_succ, h]; simp only [htake], Nat.succ_lt_succ hn⟩

/-- Cursors with the same next result drain alike. -/
theorem Drains.of_next (h : k.next s = k'.next s') (rest : k'.Drains s' results s'') :
    k.Drains s results s'' := by
  obtain ⟨n, htake, hn⟩ := rest
  cases n with
  | zero => exact absurd hn (Nat.not_lt_zero _)
  | succ n => exact ⟨n + 1, by rw [take_succ, h, ← take_succ, htake], hn⟩

/-- A failure is the last result. -/
theorem Drains.fail {e : Error} (h : k.next s = ((some (.error e), done), s')) :
    k.Drains s [.error e] s' := .cons h (.stop rfl)

/-- Once the end has been reached, asking more often gives the same. -/
theorem Drains.take_of_lt (h : k.Drains s results s') {n : Nat} (hn : results.length < n) :
    k.take n s = (results, s') := by
  obtain ⟨m, htake, hm⟩ := h
  induction m generalizing k s results n with
  | zero => exact absurd hm (Nat.not_lt_zero _)
  | succ m ih =>
    obtain ⟨n, rfl⟩ := Nat.exists_eq_succ_of_ne_zero (Nat.ne_of_gt (Nat.zero_lt_of_lt hn))
    rw [take_succ] at htake ⊢
    rcases hnext : k.next s with ⟨⟨_ | r, k'⟩, t⟩
    · rwa [hnext] at htake
    · rw [hnext] at htake
      obtain ⟨rfl, rfl⟩ := Prod.mk.inj htake
      simp only [List.length_cons] at hm hn
      dsimp only
      rw [ih (Nat.lt_of_succ_lt_succ hn) rfl (Nat.lt_of_succ_lt_succ hm)]

theorem Drains.unique {results' : List (Except Error Value)} (h : k.Drains s results s')
    (h' : k.Drains s results' s'') : results = results' ∧ s' = s'' := by
  have first := h.take_of_lt (Nat.lt_succ_of_le (Nat.le_add_right results.length results'.length))
  have second := h'.take_of_lt (Nat.lt_succ_of_le (Nat.le_add_left results'.length results.length))
  exact Prod.mk.inj (first.symm.trans second)

/-- After the end or after a failure nothing comes, and nothing is done any more. -/
theorem next_eq_done {result : Option (Except Error Value)} (h : k.next s = ((result, k'), s'))
    (hend : ∀ v, result ≠ some (.ok v)) : k' = done := by
  cases k with
  | values rest =>
    cases rest with
    | nil =>
      cases h
      rfl
    | cons v rest =>
      cases h
      exact absurd rfl (hend v)
  | loop op items frame =>
    unfold next at h
    dsimp only at h
    split at h
    · cases h
      exact absurd rfl (hend _)
    · cases h
      rfl
    · cases h
      rfl
  | join op input waiting rows state frame =>
    cases waiting with
    | cons v waiting =>
      cases h
      exact absurd rfl (hend v)
    | nil =>
      unfold next at h
      dsimp only at h
      split at h
      · cases h
        exact absurd rfl (hend _)
      · cases h
        exact absurd rfl (hend _)
      · cases h
        rfl
      · cases h
        rfl

/-! ### Draining a comprehension and a join -/

/-- Draining gives these values one by one and reaches the end, or it stops at this failure. -/
def Gives (k : Cursor σ) (s : σ) : Except Error (List Value) → σ → Prop
  | .ok taken, s' => k.Drains s (taken.map .ok) s'
  | .error e, s' => ∃ taken : List Value, k.Drains s (taken.map .ok ++ [.error e]) s'

variable {outcome : Except Error (List Value)} {v : Value}

theorem Gives.stop (h : k.next s = ((none, k'), s')) : k.Gives s (.ok []) s' :=
  Drains.stop (k := k) h

theorem Gives.fail {e : Error} (h : k.next s = ((some (.error e), done), s')) :
    k.Gives s (.error e) s' := ⟨[], .fail h⟩

theorem Gives.cons (h : k.next s = ((some (.ok v), k'), s')) (rest : k'.Gives s' outcome s'') :
    k.Gives s (outcome.map (v :: ·)) s'' := by
  cases outcome with
  | ok taken =>
    change k.Drains s (.ok v :: taken.map .ok) s''
    exact .cons h rest
  | error e =>
    obtain ⟨taken, drains⟩ := rest
    exact ⟨v :: taken, .cons h drains⟩

theorem Gives.of_next (h : k.next s = k'.next s') (rest : k'.Gives s' outcome s'') :
    k.Gives s outcome s'' := by
  cases outcome with
  | ok taken =>
    change k.Drains s (taken.map .ok) s''
    exact .of_next h rest
  | error e =>
    obtain ⟨taken, drains⟩ := rest
    exact ⟨taken, .of_next h drains⟩

theorem values_gives (values : List Value) (s : σ) :
    (Cursor.values values).Gives s (.ok values) s := by
  induction values with
  | nil => exact .stop rfl
  | cons v rest ih =>
    have first : (Cursor.values (v :: rest)).next s = ((some (.ok v), .values rest), s) := rfl
    exact .cons first ih

/-- Going through a comprehension one by one or all at once is the same. -/
theorem loop_gives (op : LoopOp (Evaluator σ)) (items : List Value) (frame : Frame) (s : σ) :
    (Cursor.loop op items frame).Gives s
      (((op.steps items).run ⟨frame, s⟩).1.map fun steps => steps.map (·.2))
      ((op.steps items).run ⟨frame, s⟩).2.host := by
  induction items generalizing frame s with
  | nil => exact .stop rfl
  | cons item rest ih =>
    rw [LoopOp.steps, run_bind]
    rcases hstep : (op.step item).run ⟨frame, s⟩ with ⟨e | _ | ⟨key, v⟩, w⟩
    · refine .fail ?_
      simp only [next, nextItem, run_bind, hstep]
    · refine .of_next ?_ (ih w.frame w.host)
      simp only [next, nextItem, run_bind, hstep]
    · have first : (Cursor.loop op (item :: rest) frame).next s =
          ((some (.ok v), .loop op rest w.frame), w.host) := by
        simp only [next, nextItem, run_bind, hstep, run_pure]
      have whole := Gives.cons first (ih w.frame w.host)
      dsimp only
      rw [run_bind]
      rcases hrest : (op.steps rest).run w with ⟨e | steps, w'⟩
      · rw [hrest] at whole
        exact whole
      · rw [hrest] at whole
        exact whole

/-- Values that are waiting come first. -/
theorem join_waiting (op : JoinOp (Evaluator σ)) (x : Value) (rows : List Value) (state : JoinState)
    (frame : Frame) (h : (Cursor.join op x [] rows state frame).Gives s outcome s')
    (waiting : List Value) :
    (Cursor.join op x waiting rows state frame).Gives s (outcome.map (waiting ++ ·)) s' := by
  induction waiting with
  | nil => cases outcome <;> exact h
  | cons v waiting ih =>
    have first : (Cursor.join op x (v :: waiting) rows state frame).next s =
        ((some (.ok v), .join op x waiting rows state frame), s) := rfl
    have whole := Gives.cons first ih
    cases outcome <;> exact whole

theorem join_gives (op : JoinOp (Evaluator σ)) (x : Value) (rows : List Value) (state : JoinState)
    (frame : Frame) (s : σ) :
    (Cursor.join op x [] rows state frame).Gives s ((op.pairs x rows state).run ⟨frame, s⟩).1
      ((op.pairs x rows state).run ⟨frame, s⟩).2.host := by
  -- By induction on the rows still to be matched; the other side's unmatched rows come last.
  induction rows generalizing state frame s with
  | nil =>
    rw [JoinOp.pairs, run_pure]
    cases hrest : op.unmatched state with
    | nil =>
      have ended : (Cursor.join op x [] [] state frame).next s = ((none, done), s) := by
        simp only [next, JoinOp.next, run_pure, hrest]
      exact .stop ended
    | cons v waiting =>
      have first : (Cursor.join op x [] [] state frame).next s =
          ((some (.ok v), .values waiting), s) := by
        simp only [next, JoinOp.next, run_pure, hrest]
      exact .cons first (values_gives waiting s)
  | cons row rest ih =>
    rw [JoinOp.pairs, run_bind]
    rcases hmatch : (op.matchRow x state row).run ⟨frame, s⟩ with
      ⟨e | ⟨_ | ⟨v, waiting⟩, state'⟩, w⟩
    · refine .fail ?_
      simp only [next, JoinOp.next, run_bind, hmatch]
    -- No partner for this row: the cursor goes on to the next one within the same step.
    · have skip := Gives.of_next (k := .join op x [] (row :: rest) state frame) (s := s) ?_
        (ih state' w.frame w.host)
      · dsimp only
        rw [run_bind]
        rcases hrest : (op.pairs x rest state').run w with ⟨e | pairs, w'⟩
        · rw [hrest] at skip
          exact skip
        · rw [hrest] at skip
          exact skip
      · simp only [next, JoinOp.next, run_bind, hmatch, List.isEmpty_nil, if_true]
    -- The pairs of this row wait in the cursor and come out before the next row is matched.
    · have first : (Cursor.join op x [] (row :: rest) state frame).next s =
          ((some (.ok v), .join op x waiting rest state' w.frame), w.host) := by
        simp only [next, JoinOp.next, run_bind, hmatch, List.isEmpty_cons, Bool.false_eq_true,
          if_false, run_pure]
      have whole := Gives.cons first (join_waiting op x rest state' w.frame
        (ih state' w.frame w.host) waiting)
      dsimp only
      rw [run_bind]
      rcases hrest : (op.pairs x rest state').run w with ⟨e | pairs, w'⟩
      · rw [hrest] at whole
        exact whole
      · rw [hrest] at whole
        exact whole

end Cursor

/-! ### Calls and starts of a program -/

namespace Program

variable (host : Host σ) (P : Program) (x : Value) (params : Params)

/-- The results are computed as they are taken: the body is a lazy comprehension or a join. -/
def isLazy : Bool :=
  match P.body.node with
  | .loop op => op.kind = .lazy
  | .join _ => true
  | _ => false

/-- A result of an evaluation in a new frame goes on in this frame. -/
theorem runFresh_bind {β : Type} (m : Eval σ α) (k : α → Eval σ β) (s : σ) :
    P.runFresh params (m >>= k) s =
      match P.runFresh params m s with
      | (.ok (a, frame), s') =>
        (((k a).run ⟨frame, s'⟩).1.map fun b => (b, ((k a).run ⟨frame, s'⟩).2.frame),
          ((k a).run ⟨frame, s'⟩).2.host)
      | (.error e, s') => (.error e, s') := by
  unfold runFresh
  cases P.frame params with
  | error e => rfl
  | ok frame =>
    dsimp only
    rw [run_bind]
    rcases m.run ⟨frame, s⟩ with ⟨_ | a, w⟩ <;> rfl

/-- What has been started ends like the call, or it gives the list of the call. -/
def Drained : Except Error (Cursor σ) × σ → Except Error Value × σ → Prop
  | (.error e, s'), (result, s'') => result = .error e ∧ s' = s''
  | (.ok k, s'), (result, s'') => ∃ outcome, k.Gives s' outcome s'' ∧ result = outcome.map .list

/-- A list that is prepared by `m` and then computed at once by `l`, or taken one by one. -/
theorem runFresh_drained {m : Eval σ α} {l : α → Eval σ (List Value)} {c : α × Frame → Cursor σ}
    (h : ∀ a frame s, (c (a, frame)).Gives s ((l a).run ⟨frame, s⟩).1
      ((l a).run ⟨frame, s⟩).2.host) (s : σ) :
    Drained ((do return (← P.runFresh params m).map c : StateM σ _) s)
      ((do return (← P.runFresh params do return .list (← l (← m))).map (·.1) : StateM σ _) s) := by
  change Drained ((P.runFresh params m s).1.map c, (P.runFresh params m s).2)
    ((P.runFresh params (m >>= fun a => l a >>= fun values =>
        pure (Value.list values)) s).1.map (·.1),
      (P.runFresh params (m >>= fun a => l a >>= fun values => pure (Value.list values)) s).2)
  rw [runFresh_bind]
  rcases P.runFresh params m s with ⟨e | ⟨a, frame⟩, s'⟩
  · exact ⟨rfl, rfl⟩
  · have gives := h a frame s'
    dsimp only
    rw [run_bind]
    rcases hl : (l a).run ⟨frame, s'⟩ with ⟨e | values, w⟩
    · rw [hl] at gives
      exact ⟨.error e, gives, rfl⟩
    · rw [hl] at gives
      exact ⟨.ok values, gives, rfl⟩

/-- Results that come lazily are those of the call, taken one by one. -/
theorem start_drained (h : P.isLazy = true) (s : σ) :
    Drained (P.start host x params s) (P.call host x params s) := by
  obtain ⟨signature, constants, scope, ⟨node⟩, layout⟩ := P
  cases node with
  | loop op =>
    have hkind : op.kind = .lazy := of_decide_eq_true h
    have hbody : (Op.mk (.loop op)).eval host x =
        (foldLoop (OpNode.evaluate host) op).items x >>= fun items =>
          ((foldLoop (OpNode.evaluate host) op).steps items >>= fun steps =>
            pure (steps.map (·.2))) >>= fun values => pure (.list values) := by
      have lazyKind : (foldLoop (OpNode.evaluate host) op).kind = .lazy := by
        rw [foldLoop_eq]
        exact hkind
      change (foldLoop (OpNode.evaluate host) op).collect x = _
      simp only [LoopOp.collect, lazyKind, bind_assoc, pure_bind]
      rfl
    unfold start call
    dsimp only [Op.node]
    rw [if_pos hkind, hbody]
    refine runFresh_drained _ params (fun items frame s => ?_) s
    have gives := Cursor.loop_gives (foldLoop (OpNode.evaluate host) op) items frame s
    rw [run_bind]
    rcases hsteps : ((foldLoop (OpNode.evaluate host) op).steps items).run ⟨frame, s⟩ with
      ⟨e | steps, w⟩
    · rw [hsteps] at gives
      exact gives
    · rw [hsteps] at gives
      exact gives
  | join op =>
    exact runFresh_drained _ params
      (fun r frame s => Cursor.join_gives (foldJoin (OpNode.evaluate host) op) x r.1 r.2 frame s) s
  | _ => cases h

/-- Other results are there when the program has been started. -/
theorem start_eq_elements (h : P.isLazy = false) (s : σ) :
    P.start host x params s =
      match P.call host x params s with
      | (.ok v, s') => (v.elements.map Cursor.values, s')
      | (.error e, s') => (.error e, s') := by
  have whole : (do
        let result ← P.runFresh params do (← P.body.eval host x).elements
        return result.map fun r => .values r.1 : StateM σ (Except Error (Cursor σ))) s =
      match P.call host x params s with
      | (.ok v, s') => (v.elements.map Cursor.values, s')
      | (.error e, s') => (.error e, s') := by
    change ((P.runFresh params (P.body.eval host x >>= fun v => liftM v.elements) s).1.map
        (fun r => Cursor.values r.1),
      (P.runFresh params (P.body.eval host x >>= fun v => liftM v.elements) s).2) =
      match ((P.runFresh params (P.body.eval host x) s).1.map (·.1),
        (P.runFresh params (P.body.eval host x) s).2) with
      | (.ok v, s') => (v.elements.map Cursor.values, s')
      | (.error e, s') => (.error e, s')
    rw [runFresh_bind]
    rcases P.runFresh params (P.body.eval host x) s with ⟨e | ⟨v, frame⟩, s'⟩
    · rfl
    · simp only [Except.map, run_lift]
      cases v.elements <;> rfl
  obtain ⟨signature, constants, scope, ⟨node⟩, layout⟩ := P
  cases node with
  | loop op =>
    have hkind : ¬ op.kind = .lazy := of_decide_eq_false h
    unfold start
    dsimp only [Op.node]
    rw [if_neg hkind]
    exact whole
  | join op => cases h
  | _ => exact whole

end Program

/-! ### Logs -/

/-- What has been called, in order. -/
abbrev CallLog := List (Function × List Value)

/-- The same functions beside a log of their calls. -/
def Host.logged (host : Host σ) : Host (σ × CallLog) where
  call f args := fun (s, log) =>
    ((host.call f args s).1, ((host.call f args s).2, log ++ [(f, args)]))

/-- A log goes on with what has been called since. -/
def Continues (earlier : CallLog) (t t' : σ × CallLog) : Prop := t' = (t.1, earlier ++ t.2)

theorem Host.logged_answers (host : Host σ) (earlier : CallLog) :
    Host.Answers (Continues earlier) host.logged host.logged := by
  rintro f args ⟨s, log⟩ _ rfl
  exact ⟨rfl, congrArg (Prod.mk _) (List.append_assoc earlier log [(f, args)])⟩

/-- A cursor whose operations are evaluated with this host. -/
inductive Cursor.Of (host : Host σ) : Cursor σ → Prop
  | values (rest : List Value) : Of host (.values rest)
  | loop (p : LoopOp Op) (items : List Value) (frame : Frame) :
      Of host (.loop (foldLoop (OpNode.evaluate host) p) items frame)
  | join (p : JoinOp Op) (x : Value) (waiting rows : List Value) (state : JoinState)
      (frame : Frame) :
      Of host (.join (foldJoin (OpNode.evaluate host) p) x waiting rows state frame)

namespace Cursor

variable {host : Host σ} {H : σ → σ → Prop} {k l : Cursor σ} {s t : σ}

theorem Of.alike (hk : k.Of host) (h : Host.Answers H host host) (hst : H s t) :
    (Setting.ofHosts H).CursorAlike H host host () k s k t := by
  have parts (node : OpNode Op) := (Setting.ofHosts_alike h node).imp
    fun _ o _ o' ho => (ho ▸ Program.runs_self h o : (Setting.ofHosts H).Runs host host () o o')
  cases hk with
  | values rest => exact .values hst
  | loop p items frame =>
    cases parts (.loop p) with
    | loop alike => exact .loop alike ⟨rfl, hst⟩
  | join p x waiting rows state frame =>
    cases parts (.join p) with
    | join alike => exact .join alike rfl ⟨rfl, hst⟩

theorem of_alike {κ : Type} {S : Setting κ σ τ} {K : σ → τ → Prop} {host' : Host τ} {c : κ}
    {l : Cursor τ} {t : τ} (h : S.CursorAlike K host host' c k s l t) : k.Of host := by
  cases h with
  | values => exact .values _
  | loop => exact .loop _ _ _
  | join => exact .join _ _ _ _ _ _

theorem Of.next (hk : k.Of host) (s : σ) : (k.next s).1.2.Of host := by
  have same : Host.Answers Eq host host := fun _ _ _ _ hst => hst ▸ ⟨rfl, rfl⟩
  exact of_alike ((hk.alike same (s := s) rfl).next Setting.ofHosts_hosts).2

end Cursor

theorem Program.start_of {host : Host σ} {P : Program} {x : Value} {params : Params}
    {s s' : σ} {k : Cursor σ} (h : P.start host x params s = (.ok k, s')) : k.Of host := by
  have same : Host.Answers Eq host host := fun _ _ _ _ hst => hst ▸ ⟨rfl, rfl⟩
  have started := P.start_alike same x params (s := s) (t := s) rfl
  rw [h] at started
  exact Cursor.of_alike started

/-- Steps of a cursor only add to the log. -/
theorem Cursor.Of.log_next {host : Host σ} {k : Cursor (σ × CallLog)} (hk : k.Of host.logged)
    (s : σ) (log : CallLog) : log <+: (k.next (s, log)).2.2 := by
  have alike := hk.alike (host.logged_answers log) (s := (s, [])) (t := (s, log))
    (by simp [Continues])
  have after := (alike.next Setting.ofHosts_hosts).2.hosts Setting.ofHosts_hosts
  exact ⟨_, (congrArg Prod.snd after).symm⟩

/-- The more results are taken, the longer the log. -/
theorem Cursor.Of.log_take {host : Host σ} {k : Cursor (σ × CallLog)} (hk : k.Of host.logged)
    {n m : Nat} (h : n ≤ m) (t : σ × CallLog) : (k.take n t).2.2 <+: (k.take m t).2.2 := by
  induction m generalizing k n t with
  | zero =>
    obtain rfl := Nat.le_zero.mp h
    exact List.prefix_rfl
  | succ m ih =>
    have first := hk.log_next t.1 t.2
    have rest := hk.next t
    rw [Cursor.take_succ]
    cases n with
    | zero =>
      rcases hnext : k.next t with ⟨⟨_ | r, k'⟩, t'⟩
      · rw [hnext] at first
        exact first
      · rw [hnext] at first rest
        exact first.trans (ih rest (Nat.zero_le m) t')
    | succ n =>
      rw [Cursor.take_succ]
      rcases hnext : k.next t with ⟨⟨_ | r, k'⟩, t'⟩
      · exact List.prefix_rfl
      · rw [hnext] at rest
        exact ih rest (Nat.le_of_succ_le_succ h) t'

/-- **Lazy and eager results agree.**  A lazy comprehension or a join gives the values of the
    list that its call returns, or it stops at the failure of the call, and it leaves the host in
    the state that the call leaves it in; its log after any number of steps is the beginning of the
    log of the call, and all of it once the end has been reached.  Any other program gives the
    elements of the value of its call.  After the end or a failure nothing more comes. -/
theorem call_eq_drained (host : Host σ) (P : Program) (x : Value) (params : Params) (s : σ) :
    (P.isLazy = true →
      (match P.start host x params s with
        | (.error e, s') => P.call host x params s = (.error e, s')
        | (.ok k, s') => ∃ (values : List Value) (s'' : σ),
            (k.Drains s' (values.map .ok) s'' ∧
              P.call host x params s = (.ok (.list values), s'')) ∨
            ∃ e, k.Drains s' (values.map .ok ++ [.error e]) s'' ∧
              P.call host x params s = (.error e, s'')) ∧
      match P.start host.logged x params (s, []), P.call host.logged x params (s, []) with
        | (.error _, (_, started)), (_, (_, log)) => started = log
        | (.ok k, t), (_, (_, log)) => ∀ n, (k.take n t).2.2 <+: log ∧
            ((k.take n t).1.length < n → (k.take n t).2.2 = log)) ∧
    (P.isLazy = false →
      P.start host x params s =
        match P.call host x params s with
        | (.ok v, s') => (v.elements.map .values, s')
        | (.error e, s') => (.error e, s')) ∧
    ∀ (k : Cursor σ) (s : σ), (∀ v, (k.next s).1.1 ≠ some (.ok v)) →
      ∀ t, (k.next s).1.2.next t = ((none, (k.next s).1.2), t) := by
  refine ⟨fun hlazy => ⟨?_, ?_⟩, fun hlazy => P.start_eq_elements host x params hlazy s,
    fun k s hend t => ?_⟩
  -- What a call returns is what the cursor gives when it is drained.
  · have drained := P.start_drained host x params hlazy s
    generalize P.start host x params s = p at drained ⊢
    generalize P.call host x params s = q at drained ⊢
    obtain ⟨result, s''⟩ := q
    rcases p with ⟨e | k, s'⟩
    · obtain ⟨rfl, rfl⟩ := drained
      rfl
    · obtain ⟨outcome, gives, rfl⟩ := drained
      cases outcome with
      | ok values => exact ⟨values, s'', .inl ⟨gives, rfl⟩⟩
      | error e =>
        obtain ⟨values, drains⟩ := gives
        exact ⟨values, s'', .inr ⟨e, drains, rfl⟩⟩
  -- The log only grows along a cursor, and drained to its end it is the log of the call.
  · have drained := P.start_drained host.logged x params hlazy (s, [])
    rcases hstart : P.start host.logged x params (s, []) with ⟨e | k, t⟩
    · rw [hstart] at drained
      obtain ⟨-, rfl⟩ := drained
      rfl
    · rw [hstart] at drained
      obtain ⟨outcome, gives, -⟩ := drained
      obtain ⟨results, drains⟩ : ∃ results, k.Drains t results
          (P.call host.logged x params (s, [])).2 := by
        cases outcome with
        | ok values => exact ⟨_, gives⟩
        | error e =>
          obtain ⟨values, drains⟩ := gives
          exact ⟨_, drains⟩
      intro n
      constructor
      · have whole := drains.take_of_lt (Nat.lt_succ_of_le (Nat.le_add_right results.length n))
        have grows := (Program.start_of hstart).log_take
          (Nat.le_succ_of_le (Nat.le_add_left n results.length)) t
        rw [whole] at grows
        exact grows
      · intro hn
        have ended : k.Drains t (k.take n t).1 (k.take n t).2 := ⟨n, rfl, hn⟩
        exact congrArg Prod.snd (ended.unique drains).2
  · rcases hnext : k.next s with ⟨⟨result, k'⟩, s'⟩
    rw [hnext] at hend
    obtain rfl := Cursor.next_eq_done hnext hend
    rfl

/-- The reciprocals of the elements, one by one. -/
def reciprocals : Expr :=
  .mk 0 (.comprehension .lazy none
    (.mk 1 (.binary .div (.mk 2 (.constant (.int 1))) (.mk 3 .input))) (.mk 4 .input) none)

-- The second element cannot be inverted; the third one is not looked at any more.
example : (match Program.ofExpr reciprocals [] Weight.bindingThreshold with
    | .ok P =>
      let items := Value.list [.int 1, .int 0, .int 2]
      match (P.takeBy (OpNode.evaluate Host.none) 5 items .none ()).1 with
      | .ok [.ok (.float _), .error e] => e.kind? == some .divisionByZero
      | _ => false
    | .error _ => false) = true := by
  decide +kernel

end DataExpr
