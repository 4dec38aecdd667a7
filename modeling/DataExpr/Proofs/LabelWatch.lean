import DataExpr.Proofs.LabelFlow
import DataExpr.Proofs.OpAgreement
import DataExpr.Proofs.Roles

/-!
# Watching labels

An evaluation that keeps a record of the labels it sets, and of whether it has ever read a
label that it had not set before.  Such a read is the one that fails with an unbound label.
The record changes nothing else.

`Runs` says that an evaluation and the watched one agree and that the record stays clean,
provided that the labels in a flow's `needs` have been set before; on success those in its
`sets` have been set too.
-/

namespace DataExpr

variable {σ α β γ δ : Type}

/-- What has happened to labels. -/
structure Trace where
  /-- The slots of the labels that have been set. -/
  written : List Nat
  /-- A label has been read before it was set. -/
  missed : Bool

namespace Trace

def start : Trace := ⟨[], false⟩

def write (trace : Trace) (slot : Nat) : Trace := { trace with written := slot :: trace.written }

/-- Reads a label in a frame. -/
def read (trace : Trace) (slot : Nat) (frame : Frame) : Trace :=
  { trace with
    missed := trace.missed || !(trace.written.contains slot && (frame.slot? slot).isSome) }

end Trace

/-- The same functions beside a record. -/
def Host.traced (host : Host σ) : Host (σ × Trace) where
  call f args := fun state =>
    let (result, after) := host.call f args state.1
    (result, (after, state.2))

def Eval.updateTrace (f : Frame → Trace → Trace) : Eval (σ × Trace) Unit :=
  modify fun world => { world with host := (world.host.1, f world.frame world.host.2) }

/-- The meaning of a node with a record of its labels. -/
def OpNode.watch (host : Host σ) : OpNode (Evaluator (σ × Trace)) → Evaluator (σ × Trace)
  | .setLabel label value, x => do
    let v ← value x
    Eval.setSlot label.slot v
    Eval.updateTrace fun _ trace => trace.write label.slot
    return v
  | .getLabel label, _ => do
    Eval.updateTrace fun frame trace => trace.read label.slot frame
    Eval.readSlot label
  | node, x => node.evaluate host.traced x

def Op.watch (host : Host σ) (op : Op) : Evaluator (σ × Trace) := op.fold (OpNode.watch host)

/-! ### Linked worlds -/

/-- The role of a slot: a label, or a lazy binding whose evaluation sets some labels. -/
abbrev LabelRoles := Roles Unit (List Nat)

/-- A world and the same world with a clean record, in which the labels in `A` have been
    set. -/
structure Tracks (room : Nat) (roles : LabelRoles) (A : List Nat) (w : World σ)
    (v : World (σ × Trace)) : Prop where
  frame : v.frame = w.frame
  host : v.host.1 = w.host
  clean : v.host.2.missed = false
  room : room ≤ w.frame.slots.size
  written : ∀ n ∈ v.host.2.written, roles n = .kept () ∧ (w.frame.slot? n).isSome = true
  recorded : ∀ n ∈ A, n ∈ v.host.2.written
  memo : ∀ n sets, roles n = .memo sets → (w.frame.slot? n).isSome = true →
    ∀ m ∈ sets, m ∈ v.host.2.written

namespace Tracks

variable {room : Nat} {roles : LabelRoles} {A A' : List Nat}

theorem mono (h : ∀ n ∈ A', n ∈ A) :
    Link.Within (Tracks (σ := σ) room roles A) (Tracks room roles A') :=
  fun _ _ t => { t with recorded := fun n hn => t.recorded n (h n hn) }

theorem host_eq {w : World σ} {v : World (σ × Trace)} (t : Tracks room roles A w v) :
    v.host = (w.host, v.host.2) := by rw [← t.host]

/-- Worlds that are linked have one frame and one state of the host. -/
theorem split {w : World σ} {v : World (σ × Trace)} (t : Tracks room roles A w v) :
    Tracks room roles A ⟨w.frame, w.host⟩ ⟨w.frame, (w.host, v.host.2)⟩ := by
  obtain ⟨frame, state, trace⟩ := v
  obtain rfl : frame = w.frame := t.frame
  obtain rfl : state = w.host := t.host
  exact t

/-- A slot that is free may be set. -/
theorem setFree {n : Nat} {w : World σ} {v : World (σ × Trace)} (hfree : roles n = .free)
    (t : Tracks room roles A w v) (x : Value) :
    Tracks room roles A { w with frame := w.frame.setSlot n x }
      { v with frame := v.frame.setSlot n x } := by
  have other : ∀ m, roles m ≠ .free → (w.frame.setSlot n x).slot? m = w.frame.slot? m :=
    fun m hm => Frame.slot?_setSlot_ne _ _ fun h => hm (h ▸ hfree)
  refine ⟨by rw [t.frame], t.host, t.clean, by simpa using t.room, fun m hm => ?_, t.recorded,
    fun m sets hm hset => ?_⟩
  · obtain ⟨hrole, hset⟩ := t.written m hm
    exact ⟨hrole, by rw [other m (by rw [hrole]; nofun)]; exact hset⟩
  · rw [other m (by rw [hm]; nofun)] at hset
    exact t.memo m sets hm hset

/-- A lazy binding may be set once its labels are. -/
theorem setMemo {n : Nat} {sets : List Nat} {w : World σ} {v : World (σ × Trace)}
    (hrole : roles n = .memo sets) (hsets : ∀ k ∈ sets, k ∈ A) (t : Tracks room roles A w v)
    (x : Value) :
    Tracks room roles A { w with frame := w.frame.setSlot n x }
      { v with frame := v.frame.setSlot n x } := by
  refine ⟨by rw [t.frame], t.host, t.clean, by simpa using t.room, fun m hm => ?_, t.recorded,
    fun m ks hm hset => ?_⟩
  · obtain ⟨hkept, hset⟩ := t.written m hm
    refine ⟨hkept, ?_⟩
    rw [Frame.slot?_setSlot_ne _ _ fun h => ?_]
    · exact hset
    · rw [← h, hrole] at hkept
      cases hkept
  · by_cases h : n = m
    · subst h
      rw [hrole] at hm
      cases hm
      exact fun k hk => t.recorded k (hsets k hk)
    · rw [Frame.slot?_setSlot_ne _ _ h] at hset
      exact t.memo m ks hm hset

/-- A label is set. -/
theorem setLabel {n : Nat} {w : World σ} {v : World (σ × Trace)} (hrole : roles n = .kept ())
    (hroom : n < room) (t : Tracks room roles A w v) (x : Value) :
    Tracks room roles (A ++ [n]) { w with frame := w.frame.setSlot n x }
      { frame := v.frame.setSlot n x, host := (v.host.1, v.host.2.write n) } := by
  refine ⟨by rw [t.frame], t.host, t.clean, by simpa using t.room, fun m hm => ?_, fun m hm => ?_,
    fun m ks hm hset k hk => ?_⟩
  · by_cases h : n = m
    · subst h
      rw [Frame.slot?_setSlot_self _ _ (Nat.lt_of_lt_of_le hroom t.room)]
      exact ⟨hrole, rfl⟩
    · rw [Frame.slot?_setSlot_ne _ _ h]
      exact t.written m ((List.mem_cons.mp hm).resolve_left (Ne.symm h))
  · rcases List.mem_append.mp hm with hm | hm
    · exact List.mem_cons_of_mem _ (t.recorded m hm)
    · rw [List.mem_singleton.mp hm]
      exact List.mem_cons_self
  · rw [Frame.slot?_setSlot_ne _ _ fun h => ?_] at hset
    · exact List.mem_cons_of_mem _ (t.memo m ks hm hset k hk)
    · rw [← h, hrole] at hm
      cases hm

/-- A group may be put in place. -/
theorem setGroup {g : Nat} {w : World σ} {v : World (σ × Trace)} (t : Tracks room roles A w v)
    (view : Option Group) :
    Tracks room roles A { w with frame := w.frame.setGroup g view }
      { v with frame := v.frame.setGroup g view } :=
  { t with frame := by rw [t.frame] }

variable {memos : List (Nat × List Nat)}

/-- A scope is entered. -/
theorem enter {w : World σ} {v : World (σ × Trace)} (t : Tracks room roles A w v)
    (hfree : ∀ n ∈ memos.map Prod.fst, roles n = .free) :
    Tracks room (roles.enter memos) A { w with frame := w.frame.reset (memos.map Prod.fst) }
      { v with frame := v.frame.reset (memos.map Prod.fst) } := by
  have other : ∀ m, roles m ≠ .free → m ∉ memos.map Prod.fst :=
    fun m hm hmem => hm (hfree m hmem)
  refine ⟨by rw [t.frame], t.host, t.clean, by simpa using t.room, fun m hm => ?_, t.recorded,
    fun m sets hm hset => ?_⟩
  · obtain ⟨hrole, hset⟩ := t.written m hm
    have hout := other m (by rw [hrole]; nofun)
    rw [Roles.enter_of_not_mem _ hout, Frame.slot?_reset_of_not_mem _ hout]
    exact ⟨hrole, hset⟩
  · by_cases hmem : m ∈ memos.map Prod.fst
    · rw [Frame.slot?_reset_of_mem _ hmem] at hset
      cases hset
    · rw [Roles.enter_of_not_mem _ hmem] at hm
      rw [Frame.slot?_reset_of_not_mem _ hmem] at hset
      exact t.memo m sets hm hset

/-- A scope is left. -/
theorem leave (hfree : ∀ n ∈ memos.map Prod.fst, roles n = .free) :
    Link.Within (Tracks (σ := σ) room (roles.enter memos) A) (Tracks room roles A) := by
  intro w v t
  refine { t with
    written := fun n hn => ⟨Roles.enter_eq_kept _ (t.written n hn).1, (t.written n hn).2⟩
    memo := fun n sets hn hset => t.memo n sets ?_ hset }
  rw [Roles.enter_of_not_mem _ fun hmem => ?_]
  · exact hn
  · rw [hfree n hmem] at hn
    cases hn

end Tracks

/-! ### Evaluations that follow a flow -/

open Eval

/-- An evaluation and the watched one agree when the labels that a flow needs have been set,
    and then set those that the flow sets. -/
def Runs (room : Nat) (roles : LabelRoles) (f : Flow) (m : Eval σ α) (n : Eval (σ × Trace) α) :
    Prop :=
  ∀ A, (∀ k ∈ f.needs, k ∈ A) →
    Agree (Tracks room roles A) (Tracks room roles (A ++ f.sets)) (Tracks room roles A) m n

namespace Runs

variable {room : Nat} {roles : LabelRoles} {f g : Flow} {m : Eval σ α} {n : Eval (σ × Trace) α}

theorem within_append (A B : List Nat) :
    Link.Within (Tracks (σ := σ) room roles (A ++ B)) (Tracks room roles A) :=
  Tracks.mono fun _ h => List.mem_append_left _ h

theorem within_nil (A : List Nat) :
    Link.Within (Tracks (σ := σ) room roles A) (Tracks room roles (A ++ [])) :=
  Tracks.mono fun _ h => by simpa using h

/-- A flow that needs more and sets less. -/
theorem weaken (h : Runs room roles f m n) (hfg : f.Refines g) : Runs room roles g m n := by
  intro A hA
  refine (h A fun k hk => hA k (hfg.needs k hk)).weaken (.refl _) ?_ (.refl _)
  refine Tracks.mono fun k hk => ?_
  rcases List.mem_append.mp hk with hk | hk
  · exact List.mem_append_left _ hk
  · exact List.mem_append_right _ (hfg.sets k hk)

/-- What an evaluation that sets nothing keeps. -/
theorem keeps (h : Runs room roles f m n) {A : List Nat} (hA : ∀ k ∈ f.needs, k ∈ A) :
    Agree (Tracks room roles A) (Tracks room roles A) (Tracks room roles A) m n :=
  (h A hA).weaken (.refl _) (within_append A _) (.refl _)

protected theorem pure (a : α) : Runs room roles .nothing (pure a : Eval σ α) (pure a) :=
  fun A _ => .pure a (within_nil A)

protected theorem throw (e : Error) : Runs room roles f (throw e : Eval σ α) (throw e) :=
  fun _ _ => .throw e (.refl _)

protected theorem lift (r : Except Error α) :
    Runs room roles .nothing (liftM r : Eval σ α) (liftM r) :=
  fun A _ => .lift r (within_nil A) (.refl _)

protected theorem bind {k : α → Eval σ β} {l : α → Eval (σ × Trace) β}
    (h : Runs room roles f m n) (h' : ∀ a, Runs room roles g (k a) (l a)) :
    Runs room roles (f.andThen g) (m >>= k) (n >>= l) := by
  intro A hA
  have hm := h A fun k hk => hA k (Flow.mem_needs_andThen.mpr (.inl hk))
  refine hm.bind fun a => ?_
  refine (h' a _ fun k hk => Flow.mem_append_of_needs hA hk).weaken (.refl _) ?_ (within_append A _)
  refine Tracks.mono fun k hk => ?_
  simpa [Flow.andThen, or_assoc] using hk

/-- An evaluation whose result is only changed. -/
theorem map (h : Runs room roles f m n) (k : α → β) :
    Runs room roles f (do return k (← m)) (do return k (← n)) :=
  (h.bind fun a => .pure (k a)).weaken (.before_nothing f)

/-- An evaluation that ends with a computation. -/
theorem bindLift (h : Runs room roles f m n) (k : α → Except Error β) :
    Runs room roles f (do liftM (k (← m))) (do liftM (k (← n))) :=
  (h.bind fun a => .lift (k a)).weaken (.before_nothing f)

protected theorem ite {m' : Eval σ α} {n' : Eval (σ × Trace) α} (c : Prop) [Decidable c]
    (h : Runs room roles f m n) (h' : Runs room roles f m' n') :
    Runs room roles f (if c then m else m') (if c then n else n') :=
  fun A hA => .ite c (h A hA) (h' A hA)

/-- Evaluations that go on with what they find in the frame. -/
theorem ofFrame {k : Frame → Eval σ α} {l : Frame → Eval (σ × Trace) α}
    (h : ∀ fr, Runs room roles f (k fr) (l fr)) :
    Runs room roles f (frame >>= k) (frame >>= l) := by
  intro A hA w v t
  have hm : (frame >>= k).run w = (k w.frame).run w := rfl
  have hn : (frame >>= l).run v = (l w.frame).run v := by rw [← t.frame]; rfl
  rw [hm, hn]
  exact h w.frame A hA w v t

/-- A call changes neither the frame nor the record. -/
protected theorem call (host : Host σ) (g : Function) (args : List Value) :
    Runs room roles .nothing (Eval.call host g args) (Eval.call host.traced g args) := by
  intro A _ w v t
  rw [run_call, run_call, t.host_eq]
  have after : Tracks room roles A { w with host := (host.call g args w.host).2 }
      { v with host := (host.traced.call g args (w.host, v.host.2)).2 } :=
    { t with host := rfl }
  refine ⟨rfl, ?_⟩
  cases (host.call g args w.host).1 with
  | ok x => exact within_nil A _ _ after
  | error e => exact after

/-- A slot that is free is set. -/
theorem setFree {slot : Nat} (hfree : roles slot = .free) (x : Value) :
    Runs room roles .nothing (setSlot slot x : Eval σ Unit) (setSlot slot x) :=
  fun A _ => .updateFrame fun _ _ t => within_nil A _ _ (t.setFree hfree x)

/-- A scope is entered for an evaluation. -/
theorem inScope {memos : List (Nat × List Nat)}
    (hfree : ∀ k ∈ memos.map Prod.fst, roles k = .free)
    (h : Runs room (roles.enter memos) f m n) :
    Runs room roles f.contained (do reset (memos.map Prod.fst); m)
      (do reset (memos.map Prod.fst); n) := by
  intro A hA
  have entered : Agree (Tracks (σ := σ) room roles A) (Tracks room (roles.enter memos) A)
      (Tracks room roles A) (reset (memos.map Prod.fst)) (reset (memos.map Prod.fst)) :=
    .updateFrame fun _ _ t => t.enter hfree
  refine entered.bind fun _ => ?_
  refine (h A hA).weaken (.refl _) ?_ (Tracks.leave hfree)
  exact (within_append A _).trans ((Tracks.leave hfree).trans (within_nil A))

/-- A lazy binding whose evaluation sets some labels. -/
theorem memo {b : Binding} (hrole : roles b.slot = .memo f.sets) {m : Eval σ Value}
    {n : Eval (σ × Trace) Value} (h : Runs room roles f m n) :
    Runs room roles f (readMemo b m) (readMemo b n) := by
  intro A hA
  refine .of_run (run_readMemo b m) (run_readMemo b n) fun w v t => ?_
  rw [t.frame]
  cases hslot : w.frame.slot? b.slot with
  | some x =>
    refine .pure x fun _ _ => ?_
    rintro ⟨rfl, rfl⟩
    refine { t with recorded := fun k hk => ?_ }
    rcases List.mem_append.mp hk with hk | hk
    · exact t.recorded k hk
    · exact t.memo b.slot _ hrole (by rw [hslot]; rfl) k hk
  | none =>
    have defined : Agree (fun w' v' => w' = w ∧ v' = v) (Tracks room roles (A ++ f.sets))
        (Tracks room roles A) m n := by
      refine (h A hA).weaken (fun _ _ => ?_) (.refl _) (.refl _)
      rintro ⟨rfl, rfl⟩
      exact t
    refine defined.bind fun x => Agree.bind ?_ fun _ => .pure x (.refl _)
    exact .updateFrame fun _ _ t => t.setMemo hrole (fun k hk => List.mem_append_right _ hk) x

section Lists

variable {c : γ → Eval σ α} {d : δ → Eval (σ × Trace) α}

theorem mapM {ι : Type} {F : ι → Flow} {p : ι → γ} {q : ι → δ} (is : List ι)
    (h : ∀ i ∈ is, Runs room roles (F i) (c (p i)) (d (q i))) :
    Runs room roles (Flow.all (is.map F)) ((is.map p).mapM c) ((is.map q).mapM d) := by
  induction is with
  | nil => exact .pure []
  | cons i is ih =>
    simp only [List.map_cons, List.mapM_cons]
    refine (h i List.mem_cons_self).bind fun a => ?_
    exact (ih fun j hj => h j (List.mem_cons_of_mem _ hj)).map (a :: ·)

theorem mapM_option {ι : Type} {F : ι → Flow} {p : ι → γ} {q : ι → δ} (i : Option ι)
    (h : ∀ j ∈ i, Runs room roles (F j) (c (p j)) (d (q j))) :
    Runs room roles (Flow.perhaps (i.map F)) ((i.map p).mapM c) ((i.map q).mapM d) := by
  cases i with
  | none => exact .pure none
  | some i => exact (h i rfl).map some

end Lists

end Runs
end DataExpr
