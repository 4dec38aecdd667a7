import DataExpr.Sort.Comparison

/-!
# Comparisons that order where they succeed

A comparison may have no answer for two elements.  It is an order where it succeeds if swapping the
elements swaps the answer, and if of two steps that do not go down the way from the first element to
the last one is known: it does not go down either, and it is level only if both steps are.  In
particular whatever lies between two elements makes these two comparable.
-/

namespace DataExpr.Comparison

variable {α : Type}

/-- The first of two elements is known not to be the greater one. -/
def AtMost (cmp : Comparison α) (a b : α) : Prop := ∃ order, cmp a b = .ok order ∧ order ≠ .gt

/-- The first of two elements is known to be the smaller one. -/
def Below (cmp : Comparison α) (a b : α) : Prop := cmp a b = .ok .lt

/-- A comparison that, among certain elements, is an order where it succeeds. -/
structure OrdersOn (cmp : Comparison α) (S : α → Prop) : Prop where
  swap : ∀ {a b order}, S a → S b → cmp a b = .ok order → cmp b a = .ok order.swap
  step : ∀ {a b c order order'}, S a → S b → S c → cmp a b = .ok order → cmp b c = .ok order' →
    order ≠ .gt → order' ≠ .gt → cmp a c = .ok (order.then order')

theorem Below.atMost {cmp : Comparison α} {a b : α} (h : cmp.Below a b) : cmp.AtMost a b :=
  ⟨.lt, h, by decide⟩

namespace OrdersOn

variable {cmp : Comparison α} {S T : α → Prop}

theorem mono (h : cmp.OrdersOn S) (sub : ∀ a, T a → S a) : cmp.OrdersOn T where
  swap ha hb := h.swap (sub _ ha) (sub _ hb)
  step ha hb hc := h.step (sub _ ha) (sub _ hb) (sub _ hc)

theorem ok_iff_swap (h : cmp.OrdersOn S) {a b : α} (ha : S a) (hb : S b) {order : Ordering} :
    cmp a b = .ok order ↔ cmp b a = .ok order.swap := by
  constructor
  · exact h.swap ha hb
  · intro hba
    have := h.swap hb ha hba
    rwa [Ordering.swap_swap] at this

/-- Comparing fails in both directions or in neither. -/
theorem error_swap (h : cmp.OrdersOn S) {a b : α} (ha : S a) (hb : S b) {e : Error}
    (failed : cmp a b = .error e) : ∃ e', cmp b a = .error e' := by
  cases hba : cmp b a with
  | error e' => exact ⟨e', rfl⟩
  | ok order => simp [h.swap hb ha hba] at failed

theorem trans (h : cmp.OrdersOn S) {a b c : α} (ha : S a) (hb : S b) (hc : S c)
    (hab : cmp.AtMost a b) (hbc : cmp.AtMost b c) : cmp.AtMost a c := by
  obtain ⟨o, ho, hne⟩ := hab
  obtain ⟨o', ho', hne'⟩ := hbc
  refine ⟨o.then o', h.step ha hb hc ho ho' hne hne', ?_⟩
  cases o <;> simp_all [Ordering.then]

theorem below_of_below_of_atMost (h : cmp.OrdersOn S) {a b c : α} (ha : S a) (hb : S b)
    (hc : S c) (hab : cmp.Below a b) (hbc : cmp.AtMost b c) : cmp.Below a c := by
  obtain ⟨o', ho', hne'⟩ := hbc
  exact h.step ha hb hc hab ho' (by decide) hne'

theorem below_of_atMost_of_below (h : cmp.OrdersOn S) {a b c : α} (ha : S a) (hb : S b)
    (hc : S c) (hab : cmp.AtMost a b) (hbc : cmp.Below b c) : cmp.Below a c := by
  obtain ⟨o, ho, hne⟩ := hab
  have := h.step ha hb hc ho hbc hne (by decide)
  cases o <;> simp_all [Ordering.then, Below]

/-- No element is both below and at least another one. -/
theorem not_below_of_atMost (h : cmp.OrdersOn S) {a b : α} (ha : S a) (hb : S b)
    (hab : cmp.AtMost a b) : ¬ cmp.Below b a := by
  intro hba
  obtain ⟨o, ho, hne⟩ := hab
  have := h.swap hb ha hba
  simp_all

/-- What is not below another element, though they compare, is at least that element. -/
theorem atMost_of_not_below (h : cmp.OrdersOn S) {a b : α} (ha : S a) (hb : S b)
    {order : Ordering} (hab : cmp a b = .ok order) (hne : order ≠ .lt) : cmp.AtMost b a := by
  refine ⟨order.swap, h.swap ha hb hab, ?_⟩
  cases order <;> simp_all

/-- An element that is at most and at least another one compares with itself. -/
theorem refl_of_atMost (h : cmp.OrdersOn S) {a b : α} (ha : S a) (hb : S b)
    (hab : cmp.AtMost a b) (hba : cmp.AtMost b a) : cmp.AtMost a a :=
  h.trans ha hb ha hab hba

end OrdersOn

/-! ### Descending order -/

theorem OrdersOn.reversed {cmp : Comparison α} {S : α → Prop} (h : cmp.OrdersOn S)
    (reverse : Bool) : (cmp.reversed reverse).OrdersOn S := by
  cases reverse with
  | false => exact h
  | true =>
    refine ⟨fun ha hb hab => h.swap hb ha hab, ?_⟩
    intro a b c o o' ha hb hc hab hbc hne hne'
    have hca : cmp c a = .ok (o'.then o) := h.step hc hb ha hbc hab hne' hne
    show cmp c a = .ok (o.then o')
    rw [hca]
    cases o <;> cases o' <;> simp_all [Ordering.then]

/-! ### Comparisons made of others -/

/-- What holds of the answers of a comparison holds where another one gives the same answers. -/
theorem OrdersOn.of_ok_iff {cmp cmp' : Comparison α} {S : α → Prop} (h : cmp.OrdersOn S)
    (same : ∀ {a b order}, S a → S b → (cmp' a b = .ok order ↔ cmp a b = .ok order)) :
    cmp'.OrdersOn S where
  swap ha hb hab := (same hb ha).2 (h.swap ha hb ((same ha hb).1 hab))
  step ha hb hc hab hbc hne hne' :=
    (same ha hc).2 (h.step ha hb hc ((same ha hb).1 hab) ((same hb hc).1 hbc) hne hne')

theorem OrdersOn.comap {β : Type} {cmp : Comparison α} {S : α → Prop} (h : cmp.OrdersOn S)
    (f : β → α) {T : β → Prop} (sub : ∀ b, T b → S (f b)) :
    OrdersOn (fun a b => cmp (f a) (f b)) T where
  swap ha hb := h.swap (sub _ ha) (sub _ hb)
  step ha hb hc := h.step (sub _ ha) (sub _ hb) (sub _ hc)

/-- Where a comparison is level another one decides. -/
def thenBy (first next : Comparison α) : Comparison α := fun a b =>
  match first a b with
  | .ok .eq => next a b
  | decided => decided

theorem thenBy_eq_ok {first next : Comparison α} {a b : α} {order : Ordering} :
    first.thenBy next a b = .ok order ↔
      first a b = .ok order ∧ order ≠ .eq ∨ first a b = .ok .eq ∧ next a b = .ok order := by
  unfold thenBy
  cases first a b with
  | error e => simp
  | ok o => cases o <;> cases order <;> simp

theorem OrdersOn.thenBy {first next : Comparison α} {S : α → Prop} (h : first.OrdersOn S)
    (h' : next.OrdersOn S) : (first.thenBy next).OrdersOn S where
  swap {a b order} ha hb hab := by
    rw [thenBy_eq_ok] at hab ⊢
    rcases hab with ⟨hab, hne⟩ | ⟨hab, hab'⟩
    · refine .inl ⟨h.swap ha hb hab, ?_⟩
      cases order <;> simp_all
    · exact .inr ⟨h.swap ha hb hab, h'.swap ha hb hab'⟩
  step {a b c order order'} ha hb hc hab hbc hne hne' := by
    rw [thenBy_eq_ok] at hab hbc ⊢
    rcases hab with ⟨hab, hlt⟩ | ⟨hab, hab'⟩ <;> rcases hbc with ⟨hbc, hlt'⟩ | ⟨hbc, hbc'⟩
    · refine .inl ⟨h.step ha hb hc hab hbc hne hne', ?_⟩
      cases order <;> simp_all [Ordering.then]
    · -- the second comparison plays no part, since the first one has decided already
      have hac := h.step ha hb hc hab hbc hne (by decide)
      refine .inl ⟨?_, ?_⟩ <;> cases order <;> simp_all [Ordering.then]
    · have hac := h.step ha hb hc hab hbc (by decide) hne'
      refine .inl ⟨?_, ?_⟩ <;> cases order <;> cases order' <;> simp_all [Ordering.then]
    · exact .inr ⟨h.step ha hb hc hab hbc (by decide) (by decide),
        h'.step ha hb hc hab' hbc' hne hne'⟩

end DataExpr.Comparison
