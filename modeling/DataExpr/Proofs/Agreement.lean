import DataExpr.Eval.Op
import Mathlib.Data.List.Forall2

/-!
# Agreement of two evaluations

Two evaluations that run in different worlds agree when, started in worlds that are
linked, they give the same result and end in worlds that are linked again.  The link
may grow along an evaluation (a label becomes known to be set) and may be a weaker one
after a failure, so an agreement has three links: before, after a success and after a
failure.

This file has the rules for the parts evaluations are made of.  The rules for whole
operations are in `DataExpr.Proofs.OpAgreement`.
-/

namespace DataExpr

variable {σ τ α β γ δ : Type}

/-- A relation between the worlds of two evaluations. -/
abbrev Link (σ τ : Type) := World σ → World τ → Prop

/-- Whatever is linked by the first link is linked by the second. -/
def Link.Within (p q : Link σ τ) : Prop := ∀ w v, p w v → q w v

namespace Link.Within

variable {p q r : Link σ τ}

theorem refl (p : Link σ τ) : p.Within p := fun _ _ h => h

theorem trans (hpq : p.Within q) (hqr : q.Within r) : p.Within r :=
  fun w v h => hqr w v (hpq w v h)

end Link.Within

namespace Eval

/-- Started in worlds linked by `pre`, two evaluations give the same result; they end in
    worlds linked by `post` if that is a success and by `fail` if it is a failure. -/
def Agree (pre post fail : Link σ τ) (m : Eval σ α) (n : Eval τ α) : Prop :=
  ∀ w v, pre w v →
    (m.run w).1 = (n.run v).1 ∧
      match (m.run w).1 with
      | .ok _ => post (m.run w).2 (n.run v).2
      | .error _ => fail (m.run w).2 (n.run v).2

theorem run_pure (a : α) (w : World σ) : (pure a : Eval σ α).run w = (.ok a, w) := rfl

theorem run_bind (m : Eval σ α) (f : α → Eval σ β) (w : World σ) :
    (m >>= f).run w =
      match m.run w with
      | (.ok a, w') => (f a).run w'
      | (.error e, w') => (.error e, w') := by
  change (ExceptT.bindCont f (m.run w).1) (m.run w).2 = _
  rcases m.run w with ⟨_ | _, _⟩ <;> rfl

theorem run_attempt (m : Eval σ α) (w : World σ) :
    (attempt m).run w = (.ok (m.run w).1, (m.run w).2) := rfl

theorem run_frame (w : World σ) : (frame : Eval σ Frame).run w = (.ok w.frame, w) := rfl

theorem run_call (host : Host σ) (f : Function) (args : List Value) (w : World σ) :
    (call host f args).run w =
      ((host.call f args w.host).1, { w with host := (host.call f args w.host).2 }) := rfl

theorem run_lift (r : Except Error α) (w : World σ) :
    (liftM r : Eval σ α).run w = (r, w) := rfl

theorem run_slot? (n : Nat) (w : World σ) :
    (slot? n : Eval σ (Option Value)).run w = (.ok (w.frame.slot? n), w) := rfl

theorem run_readSlot {b : Binding} {w : World σ} {v : Value} (h : w.frame.slot? b.slot = some v) :
    (readSlot b).run w = (.ok v, w) := by
  simp only [readSlot, run_bind, run_slot?, h, run_pure]

theorem readSlot_eq (b : Binding) : (readSlot b : Eval σ Value) =
    frame >>= fun fr => (fr.slot? b.slot).elim (throw (.unboundLabel b.name)) pure := by
  simp only [readSlot, slot?, bind_assoc, pure_bind]
  congr 1
  funext fr
  cases fr.slot? b.slot <;> rfl

theorem currentGroup_eq (group : Nat) : (currentGroup group : Eval σ Group) =
    frame >>= fun fr => (fr.group? group).elim
      (throw (.invalidArgument "aggregate" "group state read outside of its aggregate")) pure := by
  simp only [currentGroup]
  congr 1
  funext fr
  cases fr.group? group <;> rfl

/-- A lazy binding is evaluated only if its slot is empty. -/
theorem run_readMemo (b : Binding) (m : Eval σ Value) (w : World σ) :
    (readMemo b m).run w =
      ((w.frame.slot? b.slot).elim (do let v ← m; setSlot b.slot v; return v)
        (pure : Value → Eval σ Value)).run w := by
  rw [readMemo, run_bind, run_slot?]
  cases h : w.frame.slot? b.slot with
  | none => simp only [Option.elim_none]
  | some v => simp only [Option.elim_some]

namespace Agree

variable {pre mid post fail pre' post' fail' : Link σ τ}

/-- An agreement holds with a stronger link before and weaker ones after. -/
theorem weaken {m : Eval σ α} {n : Eval τ α} (h : Agree pre post fail m n)
    (hpre : pre'.Within pre) (hpost : post.Within post') (hfail : fail.Within fail') :
    Agree pre' post' fail' m n := by
  intro w v hwv
  obtain ⟨result, after⟩ := h w v (hpre w v hwv)
  refine ⟨result, ?_⟩
  cases hr : (m.run w).1 with
  | ok a =>
    rw [hr] at after
    exact hpost _ _ after
  | error e =>
    rw [hr] at after
    exact hfail _ _ after

protected theorem pure (a : α) (h : pre.Within post) :
    Agree pre post fail (pure a : Eval σ α) (pure a : Eval τ α) :=
  fun w v hwv => ⟨rfl, h w v hwv⟩

protected theorem throw (e : Error) (h : pre.Within fail) :
    Agree pre post fail (throw e : Eval σ α) (throw e : Eval τ α) :=
  fun w v hwv => ⟨rfl, h w v hwv⟩

/-- A result that does not depend on the world. -/
protected theorem lift (r : Except Error α) (hpost : pre.Within post) (hfail : pre.Within fail) :
    Agree pre post fail (liftM r : Eval σ α) (liftM r : Eval τ α) := by
  intro w v hwv
  refine ⟨rfl, ?_⟩
  cases r with
  | ok a => exact hpost w v hwv
  | error e => exact hfail w v hwv

protected theorem bind {m : Eval σ α} {n : Eval τ α} {f : α → Eval σ β} {g : α → Eval τ β}
    (hm : Agree pre mid fail m n) (hf : ∀ a, Agree mid post fail (f a) (g a)) :
    Agree pre post fail (m >>= f) (n >>= g) := by
  intro w v hwv
  obtain ⟨result, after⟩ := hm w v hwv
  rw [run_bind, run_bind]
  generalize m.run w = p at result after ⊢
  generalize n.run v = q at result after ⊢
  obtain ⟨r, w'⟩ := p
  obtain ⟨r', v'⟩ := q
  obtain rfl : r = r' := result
  cases r with
  | ok a => exact hf a w' v' after
  | error e => exact ⟨rfl, after⟩

/-- A caught failure goes on in worlds linked as after a failure. -/
theorem attempt_bind {m : Eval σ α} {n : Eval τ α} {f : Except Error α → Eval σ β}
    {g : Except Error α → Eval τ β} {fail₁ : Link σ τ} (hm : Agree pre mid fail₁ m n)
    (hok : ∀ a, Agree mid post fail (f (.ok a)) (g (.ok a)))
    (herror : ∀ e, Agree fail₁ post fail (f (.error e)) (g (.error e))) :
    Agree pre post fail (attempt m >>= f) (attempt n >>= g) := by
  intro w v hwv
  obtain ⟨result, after⟩ := hm w v hwv
  rw [run_bind, run_bind, run_attempt, run_attempt]
  generalize m.run w = p at result after ⊢
  generalize n.run v = q at result after ⊢
  obtain ⟨r, w'⟩ := p
  obtain ⟨r', v'⟩ := q
  obtain rfl : r = r' := result
  cases r with
  | ok a => exact hok a w' v' after
  | error e => exact herror e w' v' after

/-- A change of both frames. -/
protected theorem updateFrame {f g : Frame → Frame}
    (h : ∀ w v, pre w v → post { w with frame := f w.frame } { v with frame := g v.frame }) :
    Agree pre post fail (updateFrame f : Eval σ Unit) (updateFrame g : Eval τ Unit) :=
  fun w v hwv => ⟨rfl, h w v hwv⟩

/-- Evaluations that go on with what they find in linked worlds. -/
theorem of_run {m : Eval σ α} {n : Eval τ α} {m' : World σ → Eval σ α} {n' : World τ → Eval τ α}
    (hm : ∀ w, m.run w = (m' w).run w) (hn : ∀ v, n.run v = (n' v).run v)
    (h : ∀ w v, pre w v → Agree (fun w' v' => w' = w ∧ v' = v) post fail (m' w) (n' v)) :
    Agree pre post fail m n := by
  intro w v hwv
  rw [hm w, hn v]
  exact h w v hwv w v ⟨rfl, rfl⟩

/-- A choice that both evaluations make in the same way. -/
protected theorem ite {m m' : Eval σ α} {n n' : Eval τ α} (c : Prop) [Decidable c]
    (hyes : Agree pre post fail m n) (hno : Agree pre post fail m' n') :
    Agree pre post fail (if c then m else m') (if c then n else n') := by
  by_cases h : c
  · simpa only [if_pos h] using hyes
  · simpa only [if_neg h] using hno

end Agree

/-! ### Lists and options of evaluations -/

/-- Evaluations that agree one after the other. -/
inductive AgreeAll (fail : Link σ τ) (f : γ → Eval σ α) (g : δ → Eval τ α) :
    Link σ τ → List γ → List δ → Link σ τ → Prop
  | nil {pre post : Link σ τ} (h : pre.Within post) : AgreeAll fail f g pre [] [] post
  | cons {pre mid post : Link σ τ} {c : γ} {d : δ} {cs : List γ} {ds : List δ}
      (head : Agree pre mid fail (f c) (g d)) (tail : AgreeAll fail f g mid cs ds post) :
      AgreeAll fail f g pre (c :: cs) (d :: ds) post

namespace AgreeAll

variable {pre post fail link : Link σ τ} {f : γ → Eval σ α} {g : δ → Eval τ α}
  {cs : List γ} {ds : List δ}

/-- Evaluations that keep a link agree one after the other. -/
theorem of_forall₂ (h : List.Forall₂ (fun c d => Agree link link fail (f c) (g d)) cs ds) :
    AgreeAll fail f g link cs ds link := by
  induction h with
  | nil => exact .nil (.refl link)
  | cons head _ ih => exact .cons head ih

protected theorem mapM (h : AgreeAll fail f g pre cs ds post) :
    Agree pre post fail (cs.mapM f) (ds.mapM g) := by
  induction h with
  | nil hpre => exact .pure [] hpre
  | cons head _ ih =>
    rw [List.mapM_cons, List.mapM_cons]
    exact head.bind fun a => ih.bind fun as => .pure (a :: as) (.refl _)

end AgreeAll

namespace Agree

variable {pre mid post fail link : Link σ τ}

/-- The same results of each element of a list. -/
theorem mapM_same {f : γ → Eval σ α} {g : γ → Eval τ α} (cs : List γ)
    (h : ∀ c ∈ cs, Agree link link fail (f c) (g c)) :
    Agree link link fail (cs.mapM f) (cs.mapM g) := by
  induction cs with
  | nil => exact .pure [] (.refl link)
  | cons c cs ih =>
    rw [List.mapM_cons, List.mapM_cons]
    refine (h c List.mem_cons_self).bind fun a => ?_
    exact (ih fun d hd => h d (List.mem_cons_of_mem c hd)).bind fun as =>
      .pure (a :: as) (.refl link)

/-- A fold over a list in which each step agrees. -/
theorem foldlM_same {f : β → γ → Eval σ β} {g : β → γ → Eval τ β} (cs : List γ)
    (h : ∀ b, ∀ c ∈ cs, Agree link link fail (f b c) (g b c)) (b : β) :
    Agree link link fail (cs.foldlM f b) (cs.foldlM g b) := by
  induction cs generalizing b with
  | nil => exact .pure b (.refl link)
  | cons c cs ih =>
    rw [List.foldlM_cons, List.foldlM_cons]
    refine (h b c List.mem_cons_self).bind fun b' => ?_
    exact ih (fun b d hd => h b d (List.mem_cons_of_mem c hd)) b'

/-- An optional evaluation; without one nothing happens. -/
theorem mapM_option {f : γ → Eval σ α} {g : δ → Eval τ α} {c : Option γ} {d : Option δ}
    (h : Option.Rel (fun c d => Agree pre post fail (f c) (g d)) c d)
    (hnone : pre.Within post) :
    Agree pre post fail (c.mapM f) (d.mapM g) := by
  cases h with
  | some hcd => exact hcd.bind fun a => .pure (some a) (.refl post)
  | none => exact .pure none hnone

/-- An optional condition. -/
protected theorem holds {c : Option (Evaluator σ)} {d : Option (Evaluator τ)} {x y : Value}
    (h : Option.Rel (fun c d => Agree pre post fail (c x) (d y)) c d)
    (hnone : pre.Within post) :
    Agree pre post fail (holds c x) (holds d y) := by
  cases h with
  | some hcd => exact hcd.bind fun v => .pure v.isTruthy (.refl post)
  | none => exact .pure true hnone

end Agree
end Eval
end DataExpr
