import DataExpr.Proofs.ComparisonOrder
import Mathlib.Data.List.Perm.Subperm

/-!
# What parts of a sort guarantee

A sort goes on after a comparison has failed, so each part of it is described twice: by what holds
of its result in any case, and by what holds of it if no comparison has failed so far.  Failures are
those of two elements at different positions, which is why the lists that meet in a part are
kept as a part of the whole list.  That elements which tie keep their order is an equivalence of
lists, kept when lists are put side by side and when a part jumps over greater elements.
-/

namespace DataExpr

namespace Sorting

variable {β γ : Type}

/-- What a part of a sort guarantees, when `known` holds unless a comparison has failed before.  Of
    its result `always` holds, and `clean` unless a comparison has failed by then; a new failure is
    one of those that `fails` names; and it stops only if there is such a failure. -/
structure Gives (fails : Error → Prop) (known : Prop) (m : Sorting β) (always clean : β → Prop) :
    Prop where
  done : ∀ {failure b failure'}, (failure = none → known) → m failure = .ok (b, failure') →
    always b ∧ (failure' = none → failure = none ∧ clean b) ∧
      ∀ e, failure' = some e → failure = some e ∨ failure = none ∧ fails e
  stopped : ∀ {failure e}, (failure = none → known) → m failure = .error e →
    e = .disorder ∧ (failure = none → ∃ e', fails e')

namespace Gives

variable {fails : Error → Prop} {known known' : Prop} {m : Sorting β} {k : β → Sorting γ}
  {always clean always' clean' : β → Prop} {alwaysK cleanK : γ → Prop}

theorem pure {b : β} (hb : always b) (hb' : known → clean b) :
    Gives fails known (pure b) always clean where
  done {failure _ _} hknown run := by
    cases run
    exact ⟨hb, fun h => ⟨h, hb' (hknown h)⟩, fun e h => .inl h⟩
  stopped _ run := by cases run

/-- A part that knows what the part before it guarantees. -/
theorem bind (h : Gives fails known m always clean)
    (next : ∀ b, always b → Gives fails (known ∧ clean b) (k b) alwaysK cleanK) :
    Gives fails known (m >>= k) alwaysK cleanK where
  done {failure c failure'} hknown run := by
    have run : (m failure >>= fun r => k r.1 r.2) = .ok (c, failure') := run
    cases hm : m failure with
    | error e => simp [hm, Bind.bind, Except.bind] at run
    | ok r =>
      obtain ⟨b, between⟩ := r
      obtain ⟨hb, hclean, hfails⟩ := h.done hknown hm
      simp only [hm, Bind.bind, Except.bind] at run
      have hknown' : between = none → known ∧ clean b := fun h =>
        ⟨hknown (hclean h).1, (hclean h).2⟩
      obtain ⟨hc, hclean', hfails'⟩ := (next b hb).done hknown' run
      refine ⟨hc, fun h => ⟨(hclean (hclean' h).1).1, (hclean' h).2⟩, ?_⟩
      intro e he
      rcases hfails' e he with h | ⟨h, hfail⟩
      · exact hfails e h
      · exact .inr ⟨(hclean h).1, hfail⟩
  stopped {failure e} hknown run := by
    have run : (m failure >>= fun r => k r.1 r.2) = .error e := run
    cases hm : m failure with
    | error e' =>
      simp only [hm, Bind.bind, Except.bind, Except.error.injEq] at run
      exact run ▸ h.stopped hknown hm
    | ok r =>
      obtain ⟨b, between⟩ := r
      obtain ⟨hb, hclean, hfails⟩ := h.done hknown hm
      simp only [hm, Bind.bind, Except.bind] at run
      have hknown' : between = none → known ∧ clean b := fun h =>
        ⟨hknown (hclean h).1, (hclean h).2⟩
      obtain ⟨he, hstop⟩ := (next b hb).stopped hknown' run
      refine ⟨he, fun h => ?_⟩
      cases between with
      | none => exact hstop rfl
      | some e' => exact (hfails e' rfl).elim (fun h' => by simp [h] at h') fun h' => ⟨e', h'.2⟩

/-- What is guaranteed may be weakened. -/
theorem imp (h : Gives fails known m always clean) (hknown : known' → known)
    (halways : ∀ b, always b → always' b)
    (hclean : ∀ b, known' → always b → clean b → clean' b) :
    Gives fails known' m always' clean' where
  done hknown' run := by
    obtain ⟨hb, hb', hfails⟩ := h.done (fun h => hknown (hknown' h)) run
    exact ⟨halways _ hb,
      fun h => ⟨(hb' h).1, hclean _ (hknown' (hb' h).1) hb (hb' h).2⟩, hfails⟩
  stopped hknown' run := h.stopped (fun h => hknown (hknown' h)) run

/-- A part that stops finds a failure to have occurred. -/
theorem throw (h : known → ∃ e, fails e) :
    Gives fails known (throw .disorder : Sorting β) always clean where
  done _ run := by cases run
  stopped hknown run := by
    cases run
    exact ⟨rfl, fun hf => h (hknown hf)⟩

end Gives

/-- A part of a sort that goes on to its end, whatever the comparisons answer. -/
def Total (m : Sorting β) : Prop := ∀ failure, ∃ r, m failure = .ok r

theorem Total.pure (b : β) : Total (Pure.pure b) := fun failure => ⟨(b, failure), rfl⟩

theorem Total.bind {m : Sorting β} {k : β → Sorting γ} (hm : Total m) (hk : ∀ b, Total (k b)) :
    Total (m >>= k) := by
  intro failure
  obtain ⟨⟨b, between⟩, run⟩ := hm failure
  obtain ⟨r, run'⟩ := hk b between
  refine ⟨r, ?_⟩
  show (m failure >>= fun r => k r.1 r.2) = _
  rw [run]
  exact run'
end Sorting

namespace Comparison

variable {α : Type}

/-- An error of comparing two elements at different positions. -/
def Clash (cmp : Comparison α) (items : List α) (e : Error) : Prop :=
  ∃ a b, [a, b].Subperm items ∧ cmp a b = .error e

/-- Whether an element ties with a given one. -/
def ties (cmp : Comparison α) (k a : α) : Bool :=
  match cmp k a with
  | .ok .eq => true
  | _ => false

theorem ties_eq_true {cmp : Comparison α} {k a : α} :
    cmp.ties k a = true ↔ cmp k a = .ok .eq := by
  unfold ties
  split <;> simp_all

/-- Elements that tie have the same order in both lists. -/
def Stable (cmp : Comparison α) (whole xs ys : List α) : Prop :=
  ∀ k ∈ whole, xs.filter (cmp.ties k) = ys.filter (cmp.ties k)

/-- The elements of a list put in order, where those that tie keep their order. -/
structure Arranged (cmp : Comparison α) (whole items sorted : List α) : Prop where
  increasing : sorted.Pairwise cmp.AtMost
  stable : cmp.Stable whole items sorted

namespace Stable

variable {cmp : Comparison α} {whole xs ys zs xs' ys' : List α}

theorem refl (xs : List α) : cmp.Stable whole xs xs := fun _ _ => rfl

theorem trans (h : cmp.Stable whole xs ys) (h' : cmp.Stable whole ys zs) :
    cmp.Stable whole xs zs := fun k hk => (h k hk).trans (h' k hk)

instance : Trans (cmp.Stable whole) (cmp.Stable whole) (cmp.Stable whole) := ⟨Stable.trans⟩

theorem append (h : cmp.Stable whole xs ys) (h' : cmp.Stable whole xs' ys') :
    cmp.Stable whole (xs ++ xs') (ys ++ ys') := fun k hk => by
  rw [List.filter_append, List.filter_append, h k hk, h' k hk]

theorem append_left (xs : List α) (h : cmp.Stable whole ys zs) :
    cmp.Stable whole (xs ++ ys) (xs ++ zs) := (refl xs).append h

theorem append_right (h : cmp.Stable whole xs ys) (zs : List α) :
    cmp.Stable whole (xs ++ zs) (ys ++ zs) := h.append (refl zs)

theorem cons (a : α) (h : cmp.Stable whole xs ys) : cmp.Stable whole (a :: xs) (a :: ys) :=
  append_left [a] h

/-- Smaller elements jump over greater ones. -/
theorem jump (laws : cmp.OrdersOn (· ∈ whole)) (hxs : xs ⊆ whole) (hys : ys ⊆ whole)
    (h : ∀ x ∈ xs, ∀ y ∈ ys, cmp.Below y x) : cmp.Stable whole (xs ++ ys) (ys ++ xs) := by
  intro k hk
  rw [List.filter_append, List.filter_append]
  by_cases tied : ∃ y ∈ ys, cmp.ties k y = true
  · -- what ties with one of the smaller elements ties with none of the greater ones
    obtain ⟨y, hy, hky⟩ := tied
    have none : xs.filter (cmp.ties k) = [] := by
      rw [List.filter_eq_nil_iff]
      intro x hx hkx
      have below : cmp.Below k x := laws.below_of_atMost_of_below hk (hys hy) (hxs hx)
        ⟨.eq, ties_eq_true.1 hky, by decide⟩ (h x hx y hy)
      simp [Below, ties_eq_true.1 hkx] at below
    simp [none]
  · have none : ys.filter (cmp.ties k) = [] := by
      rw [List.filter_eq_nil_iff]
      exact fun y hy hky => tied ⟨y, hy, hky⟩
    simp [none]

end Stable

/-! ### Single comparisons -/

theorem subperm_pair_cons {a b : α} {xs : List α} (hb : b ∈ xs) : [a, b].Subperm (a :: xs) :=
  (List.subperm_cons a).2 (List.singleton_subperm_iff.2 hb)

/-- Elements of two lists side by side are at different positions. -/
theorem subperm_pair_append {a b : α} {xs ys : List α} (ha : a ∈ xs) (hb : b ∈ ys) :
    [a, b].Subperm (xs ++ ys) :=
  (List.singleton_sublist.2 ha).subperm.append (List.singleton_sublist.2 hb).subperm

section Steps

variable {cmp : Comparison α} {whole : List α} {known : Prop}

/-- Asking whether one element is smaller than another. -/
theorem gives_precedes (laws : cmp.OrdersOn (· ∈ whole)) {a b : α} (ha : a ∈ whole)
    (hb : b ∈ whole) (fails : known → ∀ e, cmp a b = .error e → cmp.Clash whole e) :
    Sorting.Gives (cmp.Clash whole) known (cmp.precedes a b) (fun r => r = true ↔ cmp.Below a b)
      (fun r => r = false → cmp.AtMost b a) where
  done {failure r failure'} hknown run := by
    unfold precedes at run
    cases hab : cmp a b with
    | ok order =>
      simp only [hab, Except.ok.injEq, Prod.mk.injEq] at run
      obtain ⟨rfl, rfl⟩ := run
      refine ⟨?_, fun h => ⟨h, fun hne => ?_⟩, fun e h => .inl h⟩
      · rw [Below, hab, beq_iff_eq, Except.ok.injEq]
      · exact laws.atMost_of_not_below ha hb hab (by simpa using hne)
    | error e =>
      simp only [hab, Except.ok.injEq, Prod.mk.injEq] at run
      obtain ⟨rfl, rfl⟩ := run
      refine ⟨by simp [Below, hab], by cases failure <;> simp, fun e' h => ?_⟩
      cases failure with
      | none =>
        simp only [Option.none_or, Option.some.injEq] at h
        exact .inr ⟨rfl, fails (hknown rfl) e' (h ▸ hab)⟩
      | some _ => exact .inl (by simpa using h)
  stopped _ run := by
    unfold precedes at run
    split at run <;> cases run

/-- Asking it of two elements at different positions. -/
theorem gives_precedes_apart (laws : cmp.OrdersOn (· ∈ whole)) {a b : α}
    (apart : [a, b].Subperm whole) :
    Sorting.Gives (cmp.Clash whole) known (cmp.precedes a b) (fun r => r = true ↔ cmp.Below a b)
      (fun r => r = false → cmp.AtMost b a) :=
  gives_precedes laws (apart.subset List.mem_cons_self) (apart.subset (by simp))
    fun _ _ h => ⟨a, b, apart, h⟩

end Steps

/-- A function that arranges every part of a list. -/
def Sorts (cmp : Comparison α) (whole : List α) (sort : List α → Sorting (List α)) : Prop :=
  ∀ {known : Prop} {items : List α}, items.Subperm whole →
    Sorting.Gives (cmp.Clash whole) known (sort items) (fun out => out.Perm items)
      (fun out => cmp.Arranged whole items out)

end Comparison
end DataExpr
