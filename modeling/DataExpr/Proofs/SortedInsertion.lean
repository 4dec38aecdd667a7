import DataExpr.Proofs.SortingSteps
import DataExpr.Sort.Insertion

/-!
# Insertion arranges

An element that is inserted from the right jumps over the greater elements only, so that insertion
keeps the order of elements that tie.  The sorted part is given from its last element on, and the
statements are about its reverse.  Insertion never stops, whatever the comparison.
-/

namespace DataExpr.Comparison

variable {α : Type} {cmp : Comparison α} {whole : List α} {known : Prop}

theorem increasing_concat {xs : List α} {b : α} :
    (xs ++ [b]).Pairwise cmp.AtMost ↔ xs.Pairwise cmp.AtMost ∧ ∀ x ∈ xs, cmp.AtMost x b := by
  simp [List.pairwise_append]

theorem gives_insertLast (laws : cmp.OrdersOn (· ∈ whole)) {a : α} {sorted : List α}
    (part : (a :: sorted).Subperm whole) (h : known → sorted.reverse.Pairwise cmp.AtMost) :
    Sorting.Gives (cmp.Clash whole) known (cmp.insertLast a sorted)
      (fun out => out.Perm (a :: sorted))
      (fun out => cmp.Arranged whole (sorted.reverse ++ [a]) out.reverse) := by
  -- By induction on the sorted part, read from its end.
  induction sorted generalizing known with
  | nil => exact .pure (.refl _) fun _ => ⟨by simp, .refl _⟩
  | cons b rest ih =>
    have mem := part.subset
    rw [insertLast]
    refine (gives_precedes_apart laws
      ((subperm_pair_cons List.mem_cons_self).trans part)).bind fun smaller below => ?_
    cases smaller with
    | true =>
      have below : cmp.Below a b := below.1 rfl
      have part' : (a :: rest).Subperm whole :=
        (((List.sublist_cons_self b rest).cons_cons a).subperm).trans part
      refine (ih part' fun hk => ?_).bind fun out perm => ?_
      · have increasing := h hk.1
        rw [List.reverse_cons, increasing_concat] at increasing
        exact increasing.1
      refine .pure ((perm.cons b).trans (.swap a b rest)) fun ⟨⟨hk, _⟩, arranged⟩ => ?_
      have increasing := h hk
      rw [List.reverse_cons, increasing_concat] at increasing
      rw [List.reverse_cons, List.reverse_cons]
      refine ⟨increasing_concat.2 ⟨arranged.increasing, fun x hx => ?_⟩, ?_⟩
      · rcases List.mem_cons.1 (perm.mem_iff.1 (List.mem_reverse.1 hx)) with rfl | hx
        · exact below.atMost
        · exact increasing.2 x (List.mem_reverse.2 hx)
      · -- the element jumps over `b`, and then on over a part of `rest`
        have jumped : cmp.Stable whole ([b] ++ [a]) ([a] ++ [b]) :=
          .jump laws (by simpa using mem (by simp)) (by simpa using mem (by simp))
            (by simpa using below)
        have step := jumped.append_left rest.reverse
        rw [← List.append_assoc, ← List.append_assoc] at step
        exact step.trans (arranged.stable.append_right [b])
    | false =>
      refine .pure (.refl _) fun ⟨hk, atMost⟩ => ?_
      have atMost : cmp.AtMost b a := atMost rfl
      have increasing := h hk
      have last : (a :: b :: rest).reverse = (b :: rest).reverse ++ [a] := List.reverse_cons
      rw [last]
      refine ⟨increasing_concat.2 ⟨increasing, fun x hx => ?_⟩, .refl _⟩
      rw [List.reverse_cons] at increasing hx
      rcases List.mem_append.1 hx with hx | hx
      · have hxb := (increasing_concat.1 increasing).2 x hx
        exact laws.trans (mem (by simp_all)) (mem (by simp)) (mem (by simp)) hxb atMost
      · exact List.mem_singleton.1 hx ▸ atMost

theorem gives_insertAll (laws : cmp.OrdersOn (· ∈ whole)) {items : List α} (sorted : List α)
    (part : (sorted ++ items).Subperm whole) (h : known → sorted.reverse.Pairwise cmp.AtMost) :
    Sorting.Gives (cmp.Clash whole) known (cmp.insertAll sorted items)
      (fun out => out.Perm (sorted ++ items))
      (fun out => cmp.Arranged whole (sorted.reverse ++ items) out.reverse) := by
  induction items generalizing sorted known with
  | nil =>
    rw [List.append_nil] at part ⊢
    exact .pure (.refl _) fun hk => ⟨h hk, by rw [List.append_nil]; exact .refl _⟩
  | cons a rest ih =>
    rw [insertAll]
    have middle : (a :: sorted ++ rest).Perm (sorted ++ a :: rest) := List.perm_middle.symm
    have part : (a :: sorted ++ rest).Subperm whole := middle.subperm.trans part
    have first : (a :: sorted).Subperm whole :=
      (List.sublist_append_left (a :: sorted) rest).subperm.trans part
    refine (gives_insertLast laws first h).bind fun sorted' perm => ?_
    have perm := perm.append_right rest
    refine (ih sorted' (perm.subperm.trans part) fun hk => hk.2.increasing).imp id
      (fun out perm' => perm'.trans (perm.trans middle)) fun out hk _ arranged => ?_
    refine ⟨arranged.increasing, ?_⟩
    have inserted := hk.2.stable.append_right rest
    rw [List.append_assoc, List.singleton_append] at inserted
    exact inserted.trans arranged.stable

/-- Sorting by insertion arranges. -/
theorem sorts_sortByInsertion (laws : cmp.OrdersOn (· ∈ whole)) :
    cmp.Sorts whole cmp.sortByInsertion := by
  intro known items part
  unfold sortByInsertion
  refine (gives_insertAll laws [] part fun _ => .nil).bind fun out perm => ?_
  exact .pure ((List.reverse_perm out).trans perm) fun hk => hk.2

/-! ### Insertion never stops -/

theorem total_precedes (cmp : Comparison α) (a b : α) : Sorting.Total (cmp.precedes a b) := by
  intro failure
  unfold precedes
  cases cmp a b with
  | ok order => exact ⟨_, rfl⟩
  | error e => exact ⟨_, rfl⟩

theorem total_insertLast (cmp : Comparison α) (a : α) (sorted : List α) :
    Sorting.Total (cmp.insertLast a sorted) := by
  induction sorted with
  | nil => exact .pure [a]
  | cons b rest ih =>
    rw [insertLast]
    refine (total_precedes cmp a b).bind fun smaller => ?_
    cases smaller with
    | true => exact ih.bind fun _ => .pure _
    | false => exact .pure _

theorem total_insertAll (cmp : Comparison α) (sorted items : List α) :
    Sorting.Total (cmp.insertAll sorted items) := by
  induction items generalizing sorted with
  | nil => exact .pure sorted
  | cons a rest ih => exact (total_insertLast cmp a sorted).bind ih

theorem total_sortByInsertion (cmp : Comparison α) (items : List α) :
    Sorting.Total (cmp.sortByInsertion items) :=
  (total_insertAll cmp [] items).bind fun _ => .pure _

end DataExpr.Comparison
