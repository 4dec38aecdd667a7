import DataExpr.Proofs.LabelSafety
import DataExpr.Proofs.Simulation

/-!
# Runs of programs that are alike

What `DataExpr.Proofs.Simulation` says about operations, for whole runs: programs that are
called, and programs that are started and whose results are taken one by one.  The states of
the two hosts are related by a relation that the links of the worlds imply.

A program is alike itself when its functions answer alike; so a run depends on the host only
through its answers.
-/

namespace DataExpr

open Eval Op

variable {κ σ τ α β : Type}

/-- Runs from related states have the same result and end in related states. -/
def Together (H : σ → τ → Prop) (m : StateM σ α) (n : StateM τ α) : Prop :=
  ∀ s t, H s t → (m s).1 = (n t).1 ∧ H (m s).2 (n t).2

namespace Setting

variable (S : Setting κ σ τ) (H : σ → τ → Prop)

/-- Programs that begin at a place: the worlds are linked there at the start, unless neither
    program starts, and the states of the hosts stay related while they are linked. -/
structure Begins (c : κ) (P Q : Program) (params params' : Params) : Prop where
  frames : ∀ s t, H s t → match P.frame params, Q.frame params' with
    | .ok frame, .ok frame' => S.link c ⟨frame, s⟩ ⟨frame', t⟩
    | .error e, .error e' => e = e'
    | _, _ => False
  hosts : ∀ w v, S.link c w v → H w.host v.host

/-- Results of two runs that are the same, in worlds that are linked after a success. -/
def SameFresh (c : κ) : Except Error (α × Frame) × σ → Except Error (α × Frame) × τ → Prop
  | (.ok (a, frame), s), (.ok (b, frame'), t) => a = b ∧ S.link c ⟨frame, s⟩ ⟨frame', t⟩
  | (.error e, s), (.error e', t) => e = e' ∧ H s t
  | _, _ => False

variable {S H} {c : κ} {host : Host σ} {host' : Host τ} {P Q : Program} {params params' : Params}
  {x y : Value}

theorem Begins.runFresh (h : S.Begins H c P Q params params') {m : Eval σ α} {n : Eval τ α}
    (hmn : S.Keeps c m n) {s : σ} {t : τ} (hst : H s t) :
    S.SameFresh H c (P.runFresh params m s) (Q.runFresh params' n t) := by
  have started := h.frames s t hst
  unfold Program.runFresh
  cases hP : P.frame params with
  | error e =>
    cases hQ : Q.frame params' with
    | error e' =>
      rw [hP, hQ] at started
      exact ⟨started, hst⟩
    | ok frame' =>
      rw [hP, hQ] at started
      exact started.elim
  | ok frame =>
    cases hQ : Q.frame params' with
    | error e' =>
      rw [hP, hQ] at started
      exact started.elim
    | ok frame' =>
      rw [hP, hQ] at started
      obtain ⟨result, after⟩ := hmn _ _ started
      dsimp only
      generalize m.run ⟨frame, s⟩ = p at result after ⊢
      generalize n.run ⟨frame', t⟩ = q at result after ⊢
      obtain ⟨r, w⟩ := p
      obtain ⟨r', v⟩ := q
      obtain rfl : r = r' := result
      cases r with
      | error e => exact ⟨rfl, h.hosts w v after⟩
      | ok a => exact ⟨rfl, after⟩

/-- Programs whose bodies run alike are called alike. -/
theorem Begins.call (h : S.Begins H c P Q params params')
    (hbody : S.Runs host host' c P.body Q.body) (hxy : S.inputs c x y) :
    Together H (P.call host x params) (Q.call host' y params') := by
  intro s t hst
  have run := h.runFresh (hbody x y hxy) hst
  change ((P.runFresh params (P.body.eval host x) s).1.map (·.1)) =
    ((Q.runFresh params' (Q.body.eval host' y) t).1.map (·.1)) ∧
      H (P.runFresh params (P.body.eval host x) s).2 (Q.runFresh params' (Q.body.eval host' y) t).2
  generalize P.runFresh params (P.body.eval host x) s = p at run ⊢
  generalize Q.runFresh params' (Q.body.eval host' y) t = q at run ⊢
  rcases p with ⟨e | ⟨a, frame⟩, s'⟩ <;> rcases q with ⟨e' | ⟨b, frame'⟩, t'⟩
  · obtain ⟨rfl, after⟩ := run
    exact ⟨rfl, after⟩
  · exact run.elim
  · exact run.elim
  · obtain ⟨rfl, after⟩ := run
    exact ⟨rfl, h.hosts _ _ after⟩

/-! ### Results one by one -/

variable (S H host host')

/-- Cursors whose results are the same in related states of the hosts. -/
inductive CursorAlike (c : κ) : Cursor σ → σ → Cursor τ → τ → Prop
  | values {rest : List Value} {s : σ} {t : τ} (h : H s t) :
      CursorAlike c (.values rest) s (.values rest) t
  | loop {p q : LoopOp Op} {items : List Value} {frame frame' : Frame} {s : σ} {t : τ}
      (alike : S.LoopAlike (S.Runs host host') c p q) (h : S.link c ⟨frame, s⟩ ⟨frame', t⟩) :
      CursorAlike c (.loop (foldLoop (OpNode.evaluate host) p) items frame) s
        (.loop (foldLoop (OpNode.evaluate host') q) items frame') t
  | join {p q : JoinOp Op} {x y : Value} {waiting rows : List Value} {state : JoinState}
      {frame frame' : Frame} {s : σ} {t : τ} (alike : S.JoinAlike (S.Runs host host') c p q)
      (hxy : S.inputs c x y) (h : S.link c ⟨frame, s⟩ ⟨frame', t⟩) :
      CursorAlike c (.join (foldJoin (OpNode.evaluate host) p) x waiting rows state frame) s
        (.join (foldJoin (OpNode.evaluate host') q) y waiting rows state frame') t

variable {S H host host'}

theorem CursorAlike.hosts (hosts : ∀ w v, S.link c w v → H w.host v.host) {k : Cursor σ}
    {l : Cursor τ} {s : σ} {t : τ} (h : S.CursorAlike H host host' c k s l t) : H s t := by
  cases h with
  | values h => exact h
  | loop _ h => exact hosts _ _ h
  | join _ _ h => exact hosts _ _ h

/-- Cursors that are alike give the same next result and are alike again. -/
theorem CursorAlike.next (hosts : ∀ w v, S.link c w v → H w.host v.host) {k : Cursor σ}
    {l : Cursor τ} {s : σ} {t : τ} (h : S.CursorAlike H host host' c k s l t) :
    (k.next s).1.1 = (l.next t).1.1 ∧
      S.CursorAlike H host host' c (k.next s).1.2 (k.next s).2 (l.next t).1.2 (l.next t).2 := by
  -- Related cursors are of one kind; once they end or fail only the hosts stay related.
  cases h with
  | @values rest s t h =>
    cases rest with
    | nil => exact ⟨rfl, .values h⟩
    | cons v rest => exact ⟨rfl, .values h⟩
  | @loop p q items frame frame' s t alike h =>
    obtain ⟨result, after⟩ := LoopOp.nextItem_agree alike.step items _ _ h
    unfold Cursor.next
    dsimp only
    generalize (Cursor.nextItem (foldLoop (OpNode.evaluate host) p) items).run ⟨frame, s⟩ = found
      at result after ⊢
    generalize (Cursor.nextItem (foldLoop (OpNode.evaluate host') q) items).run ⟨frame', t⟩ = found'
      at result after ⊢
    obtain ⟨r, w⟩ := found
    obtain ⟨r', v⟩ := found'
    obtain rfl : r = r' := result
    rcases r with e | _ | ⟨v, rest⟩
    · exact ⟨rfl, .values (hosts _ _ after)⟩
    · exact ⟨rfl, .values (hosts _ _ after)⟩
    · exact ⟨rfl, .loop alike after⟩
  | @join p q x y waiting rows state frame frame' s t alike hxy h =>
    cases waiting with
    | cons v waiting => exact ⟨rfl, .join alike hxy h⟩
    | nil =>
      obtain ⟨d, e, f, parts⟩ := alike.rows hxy
      obtain ⟨result, after⟩ := parts.next rows state _ _ h
      unfold Cursor.next
      dsimp only
      generalize ((foldJoin (OpNode.evaluate host) p).next x rows state).run ⟨frame, s⟩ = found
        at result after ⊢
      generalize ((foldJoin (OpNode.evaluate host') q).next y rows state).run ⟨frame', t⟩ = found'
        at result after ⊢
      obtain ⟨r, w⟩ := found
      obtain ⟨r', v⟩ := found'
      obtain rfl : r = r' := result
      rcases r with e | ⟨_ | ⟨v, waiting⟩, _ | ⟨rows, state⟩⟩
      · exact ⟨rfl, .values (hosts _ _ after)⟩
      · exact ⟨rfl, .values (hosts _ _ after)⟩
      · exact ⟨rfl, .values (hosts _ _ after)⟩
      · exact ⟨rfl, .values (hosts _ _ after)⟩
      · exact ⟨rfl, .join alike hxy after⟩

/-- Cursors that are alike give the same results. -/
theorem CursorAlike.take (hosts : ∀ w v, S.link c w v → H w.host v.host) {k : Cursor σ}
    {l : Cursor τ} {s : σ} {t : τ} (h : S.CursorAlike H host host' c k s l t) (count : Nat) :
    (k.take count s).1 = (l.take count t).1 ∧ H (k.take count s).2 (l.take count t).2 := by
  induction count generalizing k l s t with
  | zero => exact ⟨rfl, h.hosts hosts⟩
  | succ count ih =>
    obtain ⟨result, after⟩ := h.next hosts
    rw [Cursor.take_succ, Cursor.take_succ]
    generalize k.next s = p at result after ⊢
    generalize l.next t = q at result after ⊢
    obtain ⟨⟨r, k'⟩, s'⟩ := p
    obtain ⟨⟨r', l'⟩, t'⟩ := q
    obtain rfl : r = r' := result
    cases r with
    | none => exact ⟨rfl, after.hosts hosts⟩
    | some r =>
      obtain ⟨taken, ended⟩ := ih after
      exact ⟨congrArg (r :: ·) taken, ended⟩

/-- Outcomes of two programs that are started. -/
def SameStart (c : κ) (S : Setting κ σ τ) (H : σ → τ → Prop) (host : Host σ) (host' : Host τ) :
    Except Error (Cursor σ) × σ → Except Error (Cursor τ) × τ → Prop
  | (.ok k, s), (.ok l, t) => S.CursorAlike H host host' c k s l t
  | (.error e, s), (.error e', t) => e = e' ∧ H s t
  | _, _ => False

/-- Evaluations in new frames after which results are taken. -/
theorem Begins.ofRun (host : Host σ) (host' : Host τ) (h : S.Begins H c P Q params params')
    {m : Eval σ α} {n : Eval τ α} (hmn : S.Keeps c m n) {f : α × Frame → Cursor σ}
    {g : α × Frame → Cursor τ}
    (alike : ∀ a frame frame' s t, S.link c ⟨frame, s⟩ ⟨frame', t⟩ →
      S.CursorAlike H host host' c (f (a, frame)) s (g (a, frame')) t)
    {s : σ} {t : τ} (hst : H s t) :
    SameStart c S H host host' ((do return (← P.runFresh params m).map f : StateM σ _) s)
      ((do return (← Q.runFresh params' n).map g : StateM τ _) t) := by
  have run := h.runFresh hmn hst
  change SameStart c S H host host' ((P.runFresh params m s).1.map f, (P.runFresh params m s).2)
    ((Q.runFresh params' n t).1.map g, (Q.runFresh params' n t).2)
  generalize P.runFresh params m s = p at run ⊢
  generalize Q.runFresh params' n t = q at run ⊢
  rcases p with ⟨e | ⟨a, frame⟩, s'⟩ <;> rcases q with ⟨e' | ⟨b, frame'⟩, t'⟩
  · exact run
  · exact run.elim
  · exact run.elim
  · obtain ⟨rfl, after⟩ := run
    exact alike a _ _ _ _ after

/-- Programs whose bodies are alike are started alike. -/
theorem Begins.start (h : S.Begins H c P Q params params')
    (hbody : S.Alike host host' (S.Runs host host') c P.body.node Q.body.node)
    (hxy : S.inputs c x y) {s : σ} {t : τ} (hst : H s t) :
    SameStart c S H host host' (P.start host x params s) (Q.start host' y params' t) := by
  obtain ⟨signature, constants, scope, body, layout⟩ := P
  obtain ⟨signature', constants', scope', body', layout'⟩ := Q
  obtain ⟨node⟩ := body
  obtain ⟨node'⟩ := body'
  have elements : S.Keeps c (do (← (Op.mk node).eval host x).elements)
      (do (← (Op.mk node').eval host' y).elements) :=
    Agree.bind (hbody.runs x y hxy) fun v => .lift v.elements (.refl _) (.refl _)
  have whole := h.ofRun host host' elements (f := fun r => .values r.1)
    (g := fun r => .values r.1) (fun a frame frame' s t hlink => .values (h.hosts _ _ hlink)) hst
  unfold Program.start
  cases hbody with
  | @loop p q alike =>
    dsimp only [Op.node]
    by_cases hkind : p.kind = .lazy
    · rw [if_pos hkind, if_pos (alike.kind ▸ hkind)]
      exact h.ofRun host host' (alike.items hxy)
        (fun a frame frame' s t hlink => .loop alike hlink) hst
    · rw [if_neg hkind, if_neg (alike.kind ▸ hkind)]
      exact whole
  | @join p q alike =>
    exact h.ofRun host host' (alike.start hxy)
      (fun a frame frame' s t hlink => .join alike hxy hlink) hst
  | _ => exact whole

end Setting

/-! ### Hosts that answer alike -/

/-- Two hosts that give the same answers in related states, which stay related. -/
def Host.Answers (H : σ → τ → Prop) (host : Host σ) (host' : Host τ) : Prop :=
  ∀ f args, Together H (host.call f args) (host'.call f args)

/-- The same program runs twice, each time with a host of its own. -/
def Setting.ofHosts (H : σ → τ → Prop) : Setting Unit σ τ where
  link _ w v := w.frame = v.frame ∧ H w.host v.host
  inputs _ x y := x = y

namespace Setting

variable {H : σ → τ → Prop} {host : Host σ} {host' : Host τ}

theorem ofHosts_update (f : Frame → Frame) :
    (ofHosts H).Keeps () (updateFrame f) (updateFrame f) :=
  .updateFrame fun _ _ ⟨hframe, hhost⟩ => ⟨congrArg f hframe, hhost⟩

theorem ofHosts_bind {k : Frame → Eval σ α} {l : Frame → Eval τ α}
    (h : ∀ fr, (ofHosts H).Keeps () (k fr) (l fr)) :
    (ofHosts H).Keeps () (frame >>= k) (frame >>= l) := by
  intro w v hwv
  rw [run_bind, run_bind, run_frame, run_frame]
  dsimp only
  rw [← hwv.1]
  exact h w.frame w v hwv

theorem ofHosts_enters (f : Frame → Frame) :
    (ofHosts H).Enters () () (updateFrame f) (updateFrame f) :=
  ⟨ofHosts_update f, .refl _⟩

theorem ofHosts_call (h : Host.Answers H host host') (f : Function) (args : List Value) :
    (ofHosts H).Keeps () (call host f args) (call host' f args) := by
  rintro w v ⟨hframe, hhost⟩
  obtain ⟨result, after⟩ := h f args _ _ hhost
  rw [run_call, run_call, ← result]
  refine ⟨rfl, ?_⟩
  dsimp only
  cases (host.call f args w.host).1 with
  | ok v => exact ⟨hframe, after⟩
  | error e => exact ⟨hframe, after⟩

theorem ofHosts_takeRow (register : Binding) (scope : Scope Op) (row : Value) :
    (ofHosts H).Enters () () (takeRow register scope row) (takeRow register scope row) :=
  ⟨Agree.bind (ofHosts_update (·.setSlot register.slot row)) fun _ =>
    ofHosts_update (·.reset scope.resets), .refl _⟩

/-- A group is put in place and taken away alike. -/
theorem ofHosts_emits (group : Nat) (view : Group) :
    (ofHosts H).Emits () () group group view where
  enter _ _ := fun ⟨hframe, hhost⟩ => ⟨congrArg (·.setGroup group (some view)) hframe, hhost⟩
  leave _ _ _ _ := fun ⟨hframe, _⟩ ⟨hframe', hhost'⟩ =>
    ⟨by simp only [hframe, hframe'], hhost'⟩

theorem ofHosts_readSlot (b : Binding) : (ofHosts H).Keeps () (readSlot b) (readSlot b) := by
  rw [readSlot_eq, readSlot_eq]
  refine ofHosts_bind fun fr => ?_
  cases fr.slot? b.slot with
  | some v => exact .pure v (.refl _)
  | none => exact .throw _ (.refl _)

theorem ofHosts_currentGroup (group : Nat) :
    (ofHosts H).Keeps () (currentGroup group) (currentGroup group) := by
  rw [currentGroup_eq, currentGroup_eq]
  refine ofHosts_bind fun fr => ?_
  cases fr.group? group with
  | some view => exact .pure view (.refl _)
  | none => exact .throw _ (.refl _)

theorem ofHosts_rel_self {R : α → α → Prop} (h : ∀ a, R a a) (o : Option α) : Option.Rel R o o := by
  cases o with
  | none => exact .none
  | some a => exact .some (h a)

theorem forall₂_self {R : α → α → Prop} (h : ∀ a, R a a) (as : List α) : List.Forall₂ R as as :=
  List.forall₂_same.mpr fun a _ => h a

/-- Whatever a node is made of, it is alike itself. -/
theorem ofHosts_alike (h : Host.Answers H host host') (node : OpNode Op) :
    (ofHosts H).Alike host host' (fun _ o o' => o = o') () node node := by
  have all (ops : List Op) : List.Forall₂ (fun o o' => o = o') ops ops :=
    forall₂_self (fun _ => rfl) ops
  have optional (o : Option Op) : Option.Rel (fun o o' => o = o') o o :=
    ofHosts_rel_self (fun _ => rfl) o
  have same : ∀ x y, (ofHosts H).inputs () x y → (ofHosts H).inputs () x y := fun _ _ h => h
  cases node with
  | input => exact .input fun _ _ h => h
  | const name value => exact .const name name value
  | param i name => exact .param (ofHosts_bind fun fr => .pure (fr.param i) (.refl _))
  | access source steps default =>
    refine .access rfl (forall₂_self (fun step => ?_) steps) (optional default)
    cases step with
    | key op => exact .key rfl
    | attr name => exact .attr name
  | call name f args => exact .call (ofHosts_call h f) (all args)
  | builtin op args => exact .builtin (all args)
  | binary op left right => exact .binary rfl rfl
  | unary op operand => exact .unary rfl
  | and items => exact .and (all items)
  | or items => exact .or (all items)
  | collection kind items => exact .collection (all items)
  | dict pairs => exact .dict (forall₂_self (fun _ => ⟨rfl, rfl⟩) pairs)
  | loop op =>
    exact .loop ⟨rfl, rfl, fun _ => ⟨(), ofHosts_enters _, rfl, optional _, optional _, rfl⟩⟩
  | sort op =>
    exact .sort ⟨rfl, rfl, rfl, fun _ => ⟨(), ofHosts_enters _, rfl,
      List.forall₂_same.mpr fun _ _ => rfl⟩⟩
  | guarded op =>
    exact .guarded ⟨rfl, fun err => ⟨(), ofHosts_enters _, same,
      forall₂_self (fun k => ⟨rfl, rfl, optional _⟩) _⟩⟩
  | caught b => exact .caught (ofHosts_bind fun fr => .pure (fr.slot? b.slot) (.refl _))
  | cond condition yes no => exact .cond rfl rfl rfl
  | pipe producer consumer => exact .pipe rfl (.refl _) (.refl _) (fun _ => rfl) rfl
  | memo b definition =>
    exact .memo (ofHosts_bind fun fr => .pure (fr.slot? b.slot) (.refl _))
      (fun v => ofHosts_update _) rfl
  | setLabel b value => exact .setLabel (fun v => ofHosts_update _) rfl
  | getLabel b => exact .getLabel (ofHosts_readSlot b)
  | register b => exact .register (ofHosts_readSlot b)
  | aggregate op =>
    exact .aggregate ⟨rfl, rfl, List.forall₂_same.mpr fun _ _ => rfl,
      fun x y hxy => ⟨(), ofHosts_enters _, hxy.elim id id, ofHosts_call h, all _,
        forall₂_self (fun s => ⟨rfl, rfl, optional _, all _, optional _⟩) _⟩,
      fun group => ⟨(), (), ofHosts_emits _ group, ofHosts_enters _, same, rfl⟩⟩
  | join op =>
    exact .join ⟨rfl, rfl, rfl, optional _,
      fun row => ⟨(), ofHosts_takeRow _ _ row, same, ⟨all _, optional _⟩⟩,
      fun row => ⟨(), ofHosts_takeRow _ _ row, same, ⟨all _, optional _⟩,
        fun other => ⟨(), ofHosts_takeRow _ _ other, same, optional _⟩⟩⟩
  | groupKey group i => exact .groupKey (ofHosts_currentGroup group)
  | slotValue group i default => exact .slotValue (ofHosts_currentGroup group) rfl

theorem ofHosts_hosts (w : World σ) (v : World τ) (h : (ofHosts H).link () w v) :
    H w.host v.host := h.2

theorem ofHosts_begins (P : Program) (params : Params) :
    (ofHosts H).Begins H () P P params params where
  frames s t hst := by
    cases P.frame params with
    | error e => rfl
    | ok frame => exact ⟨rfl, hst⟩
  hosts := ofHosts_hosts

end Setting

namespace Program

variable {H : σ → τ → Prop} {host : Host σ} {host' : Host τ}

/-- An operation depends on the host only through its answers. -/
theorem runs_self (h : Host.Answers H host host') (o : Op) :
    (Setting.ofHosts H).Runs host host' () o o := by
  refine Setting.Alike.same (R := fun _ o o' => o = o') (fun _ o o' ho => ?_) rfl
  subst ho
  exact Setting.ofHosts_alike h o.node

/-- So do the outcome of a start and the results that are taken afterwards. -/
theorem start_alike (h : Host.Answers H host host') (P : Program) (x : Value) (params : Params)
    {s : σ} {t : τ} (hst : H s t) :
    Setting.SameStart () (Setting.ofHosts H) H host host' (P.start host x params s)
      (P.start host' x params t) := by
  refine (Setting.ofHosts_begins P params).start ?_ rfl hst
  exact (Setting.ofHosts_alike h P.body.node).imp fun _ o _ _ ho => ho ▸ runs_self h o

end Program
end DataExpr
