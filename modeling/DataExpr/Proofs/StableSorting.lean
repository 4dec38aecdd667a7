import DataExpr.Proofs.SortedParts
import DataExpr.Sort

/-!
# Sorting arranges or finds a failure

A list that has been put in order without a failure shows that all its elements compare, whatever
comparisons have been made: of two elements the one that comes first is at most the other.  So a
failure is missed only if there is none.
-/

namespace DataExpr

theorem Sorting.result_eq {β : Type} (sorting : Sorting β) :
    sorting.result =
      match sorting none with
      | .error e | .ok (_, some e) => .error e
      | .ok (b, none) => .ok b := by
  unfold result StateT.run
  cases sorting none with
  | error e => rfl
  | ok r =>
    obtain ⟨b, failure⟩ := r
    cases failure <;> rfl

namespace Comparison

variable {α : Type} {cmp : Comparison α}

/-- What a sort of a list answers.  If two elements at different positions do not compare, then it
    fails as comparing does, or stops, which takes more than 20 elements.  Else the result holds the
    same elements in order, and those that tie keep their order. -/
def SortsOrFails (cmp : Comparison α) (reverse : Bool) (items : List α) :
    Except Error (List α) → Prop
  | .error e => (∃ e', cmp.Clash items e') ∧
      (e.kind? = some .notComparable ∨ e = .disorder ∧ 20 < items.length)
  | .ok sorted => (¬ ∃ e, cmp.Clash items e) ∧ sorted.Perm items ∧
      (sorted.Pairwise fun a b => ∃ order, cmp a b = .ok order ∧
        order ≠ if reverse then .lt else .gt) ∧
      ∀ k ∈ items, items.filter (cmp.ties k) = sorted.filter (cmp.ties k)

section Laws

variable {items : List α}

theorem sorts_arrange (laws : cmp.OrdersOn (· ∈ items)) : cmp.Sorts items cmp.arrange := by
  intro known part hpart
  unfold arrange
  split
  · exact sorts_sortByInsertion laws hpart
  · exact sorts_sortByRuns laws (fun _ {known part} => sorts_quicksort laws _) hpart

/-- Two elements of a list in order compare. -/
theorem not_clash_of_increasing (laws : cmp.OrdersOn (· ∈ items)) {sorted : List α}
    (perm : sorted.Perm items) (increasing : sorted.Pairwise cmp.AtMost) (e : Error) :
    ¬ cmp.Clash items e := by
  rintro ⟨a, b, apart, failed⟩
  have inside := apart.subset
  have compared : [a, b].Pairwise fun a b =>
      (∃ order, cmp a b = .ok order) ∨ ∃ order, cmp b a = .ok order := by
    obtain ⟨pair, hpair, hsub⟩ := apart.trans perm.symm.subperm
    refine (hpair.pairwise_iff fun h => h.symm).1 ((increasing.sublist hsub).imp ?_)
    rintro a b ⟨order, h, -⟩
    exact .inl ⟨order, h⟩
  rcases List.pairwise_pair.1 compared with ⟨order, h⟩ | ⟨order, h⟩
  · simp [failed] at h
  · simp [laws.swap (inside (by simp)) (inside (by simp)) h] at failed

theorem arrange_error {items : List α} {failure : Option Error} {e : Error}
    (h : cmp.arrange items failure = .error e) : 20 < items.length := by
  refine Nat.lt_of_not_le fun short => ?_
  obtain ⟨r, hr⟩ := total_sortByInsertion cmp items failure
  simp [arrange, short, hr] at h

/-- Sorting in increasing order. -/
theorem sort_arranges (laws : cmp.OrdersOn (· ∈ items)) :
    (∀ e, cmp.sort items = .error e →
      cmp.Clash items e ∨ e = .disorder ∧ 20 < items.length ∧ ∃ e', cmp.Clash items e') ∧
    ∀ sorted, cmp.sort items = .ok sorted →
      (∀ e, ¬ cmp.Clash items e) ∧ sorted.Perm items ∧ cmp.Arranged items items sorted := by
  have gives : Sorting.Gives (cmp.Clash items) True (cmp.arrange items) (·.Perm items)
      (cmp.Arranged items items) := sorts_arrange laws (.refl items)
  have known : (none : Option Error) = none → True := fun _ => trivial
  rw [sort, Sorting.result_eq]
  cases run : cmp.arrange items none with
  | error e =>
    obtain ⟨he, hclash⟩ := gives.stopped known run
    refine ⟨fun e' h => .inr ?_, fun _ h => nomatch h⟩
    obtain rfl : e = e' := Except.error.inj h
    exact ⟨he, arrange_error run, hclash rfl⟩
  | ok r =>
    obtain ⟨sorted, failure⟩ := r
    obtain ⟨perm, hclean, hfails⟩ := gives.done known run
    cases failure with
    | some e =>
      refine ⟨fun e' h => .inl ?_, fun _ h => nomatch h⟩
      obtain rfl : e = e' := Except.error.inj h
      exact (hfails e rfl).elim (fun h => nomatch h) (·.2)
    | none =>
      have arranged := (hclean rfl).2
      refine ⟨fun _ h => (nomatch h), fun sorted' h => ?_⟩
      obtain rfl : sorted = sorted' := Except.ok.inj h
      exact ⟨not_clash_of_increasing laws perm arranged.increasing, perm, arranged⟩

/-- **Sorting is stable sorting, or it fails.** -/
theorem sort_sortsOrFails (laws : cmp.OrdersOn (· ∈ items)) (reverse : Bool)
    (kinds : ∀ a b e, cmp a b = .error e → e.kind? = some .notComparable) :
    cmp.SortsOrFails reverse items (Comparison.sort (cmp.reversed reverse) items) := by
  obtain ⟨hfails, hsorts⟩ := sort_arranges (laws.reversed reverse)
  rw [clash_reversed reverse] at hfails hsorts
  cases h : Comparison.sort (cmp.reversed reverse) items with
  | error e =>
    rcases hfails e h with ⟨a, b, apart, hab⟩ | ⟨he, long, hclash⟩
    · exact ⟨⟨e, a, b, apart, hab⟩, .inl (kinds a b e hab)⟩
    · exact ⟨hclash, .inr ⟨he, long⟩⟩
  | ok sorted =>
    obtain ⟨none, perm, increasing, stable⟩ := hsorts sorted h
    refine ⟨fun ⟨e, hclash⟩ => none e hclash, perm,
      increasing.imp_of_mem fun {a b} ha hb h => ?_,
      (stable_reversed laws reverse (.refl _) perm.subset).1 stable⟩
    cases reverse with
    | false => exact h
    | true =>
      obtain ⟨order, h, hne⟩ := h
      refine ⟨order.swap, laws.swap (perm.subset hb) (perm.subset ha) h, ?_⟩
      cases order <;> simp_all

end Laws

end Comparison
end DataExpr
