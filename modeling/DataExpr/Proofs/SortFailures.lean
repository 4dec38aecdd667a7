import DataExpr.Sort

/-!
# How sorts fail

A sort fails as comparing two elements fails, or because the comparison turns out to be no order.
This holds of every comparison, whatever it answers (`Comparison.sort_error`); what else holds of
the result takes an order.
-/

namespace DataExpr

namespace Sorting

variable {β γ : Type} {fails : Error → Prop}

/-- All failures of a part of a sort are of some kind, the one that it keeps if the one it has
    kept before is, and the one at which it stops. -/
def FailsOnly (fails : Error → Prop) (m : Sorting β) : Prop :=
  ∀ failure, (∀ e ∈ failure, fails e) →
    match m failure with
    | .ok (_, kept) => ∀ e ∈ kept, fails e
    | .error e => fails e

namespace FailsOnly

theorem pure (b : β) : FailsOnly fails (pure b) := fun _ h => h

theorem throw {e : Error} (h : fails e) : FailsOnly fails (throw e : Sorting β) := fun _ _ => h

theorem bind {m : Sorting β} {k : β → Sorting γ} (hm : FailsOnly fails m)
    (hk : ∀ b, FailsOnly fails (k b)) : FailsOnly fails (m >>= k) := by
  intro failure h
  have first := hm failure h
  change match (m failure >>= fun r => k r.1 r.2) with
    | .ok (_, kept) => ∀ e ∈ kept, fails e
    | .error e => fails e
  cases hrun : m failure with
  | error e =>
    rw [hrun] at first
    exact first
  | ok r =>
    rw [hrun] at first
    exact hk r.1 r.2 first

theorem ite {m n : Sorting β} (c : Prop) [Decidable c] (hm : FailsOnly fails m)
    (hn : FailsOnly fails n) : FailsOnly fails (if c then m else n) := by
  split
  · exact hm
  · exact hn

end FailsOnly

/-- The failure of a sort is the one it has kept or the one at which it stops. -/
theorem error_of_result {m : Sorting β} (h : FailsOnly fails m) {e : Error}
    (failed : m.result = .error e) : fails e := by
  have run := h none (fun _ h => nomatch h)
  unfold result StateT.run at failed
  cases hm : m none with
  | error e' =>
    rw [hm] at failed run
    cases failed
    exact run
  | ok r =>
    obtain ⟨b, kept⟩ := r
    rw [hm] at failed run
    cases kept with
    | none => cases failed
    | some e' =>
      cases failed
      exact run e rfl

end Sorting

namespace Comparison

open Sorting

variable {α : Type} {cmp : Comparison α}

/-- A comparison of two elements fails like this, or the comparison is no order. -/
def Fails (cmp : Comparison α) (e : Error) : Prop := (∃ a b, cmp a b = .error e) ∨ e = .disorder

theorem precedes_fails (a b : α) : FailsOnly cmp.Fails (cmp.precedes a b) := by
  intro failure h
  unfold precedes
  cases hcmp : cmp a b with
  | ok order => exact h
  | error e =>
    cases failure with
    | some e' => exact h
    | none =>
      rintro _ ⟨⟩
      exact .inl ⟨a, b, hcmp⟩

/-! ### Insertion -/

theorem insertLast_fails (a : α) (sorted : List α) :
    FailsOnly cmp.Fails (cmp.insertLast a sorted) := by
  induction sorted with
  | nil => exact .pure _
  | cons b rest ih =>
    refine (precedes_fails a b).bind fun smaller => .ite _ ?_ (.pure _)
    exact ih.bind fun _ => .pure _

theorem insertAll_fails (sorted items : List α) :
    FailsOnly cmp.Fails (cmp.insertAll sorted items) := by
  induction items generalizing sorted with
  | nil => exact .pure _
  | cons a rest ih => exact (insertLast_fails a sorted).bind fun sorted => ih sorted

theorem sortByInsertion_fails (items : List α) :
    FailsOnly cmp.Fails (cmp.sortByInsertion items) :=
  (insertAll_fails [] items).bind fun _ => .pure _

/-! ### Merging -/

theorem mergeFront_fails (merged left right : List α) :
    FailsOnly cmp.Fails (cmp.mergeFront merged left right) := by
  fun_induction mergeFront cmp merged left right with
  | case1 => exact .pure _
  | case2 => exact .pure _
  | case3 merged a left b right ihRight ihLeft =>
    exact (precedes_fails b a).bind fun _ => .ite _ ihRight ihLeft

theorem mergeBack_fails (merged left right : List α) :
    FailsOnly cmp.Fails (cmp.mergeBack merged left right) := by
  fun_induction mergeBack cmp merged left right with
  | case1 => exact .pure _
  | case2 => exact .pure _
  | case3 merged a left b right ihLeft ihRight =>
    exact (precedes_fails b a).bind fun _ => .ite _ ihLeft ihRight

theorem merge_fails (left right : List α) : FailsOnly cmp.Fails (cmp.merge left right) :=
  .ite _ (mergeFront_fails _ _ _) (mergeBack_fails _ _ _)

theorem advance_fails (steps : Nat) (m : Meeting α) :
    FailsOnly cmp.Fails (Meeting.advance cmp steps m) := by
  fun_induction Meeting.advance cmp steps m with
  | case1 => exact .pure _
  | case2 steps low high a left b right c leftBack d rightBack ih =>
    refine (precedes_fails b a).bind fun front => ?_
    exact (precedes_fails d c).bind fun back => ih _ _ _ _ _ _
  | case3 => exact .pure _

theorem mergeEnds_fails (left right : List α) : FailsOnly cmp.Fails (cmp.mergeEnds left right) :=
  (advance_fails _ _).bind fun _ => .ite _ (.pure _) (.throw (.inr rfl))

/-! ### Blocks -/

theorem sortPair_fails (a b : α) : FailsOnly cmp.Fails (cmp.sortPair a b) :=
  (precedes_fails b a).bind fun _ => .ite _ (.pure _) (.pure _)

theorem sortFour_fails (a b c d : α) : FailsOnly cmp.Fails (cmp.sortFour a b c d) := by
  refine (sortPair_fails a b).bind fun ⟨a, b⟩ => (sortPair_fails c d).bind fun ⟨c, d⟩ => ?_
  refine (precedes_fails c a).bind fun least => (precedes_fails d b).bind fun greatest => ?_
  cases least <;> cases greatest <;> exact (sortPair_fails _ _).bind fun _ => .pure _

theorem startHalf_fails (byFour : Bool) (items : List α) :
    FailsOnly cmp.Fails (cmp.startHalf byFour items) := by
  unfold startHalf
  split
  · exact .ite _ ((sortFour_fails _ _ _ _).bind fun _ => .pure _) (.pure _)
  · exact .pure _
  · exact .pure _

theorem sortBlock_fails (items : List α) : FailsOnly cmp.Fails (cmp.sortBlock items) := by
  refine .ite _ (.pure _) ?_
  refine (startHalf_fails _ _).bind fun ⟨leftStart, leftRest⟩ => ?_
  refine (startHalf_fails _ _).bind fun ⟨rightStart, rightRest⟩ => ?_
  refine (insertAll_fails _ _).bind fun left => (insertAll_fails _ _).bind fun right => ?_
  exact mergeEnds_fails _ _

/-! ### Runs -/

theorem extendRun_fails (falling : Bool) (last : α) (run items : List α) :
    FailsOnly cmp.Fails (cmp.extendRun falling last run items) := by
  induction items generalizing last run with
  | nil => exact .pure _
  | cons b rest ih => exact (precedes_fails b last).bind fun _ => .ite _ (ih _ _) (.pure _)

theorem naturalRun_fails (items : List α) : FailsOnly cmp.Fails (cmp.naturalRun items) := by
  unfold naturalRun
  split
  · exact (precedes_fails _ _).bind fun _ => (extendRun_fails _ _ _ _).bind fun _ => .pure _
  · exact .pure _

theorem nextRun_fails (loose : Bool) (good : Nat) (items : List α) :
    FailsOnly cmp.Fails (cmp.nextRun loose good items) := by
  have last (run : List α) : FailsOnly cmp.Fails (do
      if good ≤ run.length then return ⟨run, true⟩
      else if loose then return ⟨items.take good, false⟩
      else return ⟨← cmp.sortBlock (items.take blockLength), true⟩ : Sorting (Run α)) :=
    .ite _ (.pure _) (.ite _ (.pure _) ((sortBlock_fails _).bind fun _ => .pure _))
  unfold nextRun
  exact .ite _ ((naturalRun_fails items).bind last) (.bind (.pure _) last)

section Loose

variable {sortLoose : List α → Sorting (List α)}
  (hloose : ∀ items, FailsOnly cmp.Fails (sortLoose items))

include hloose

theorem settle_fails (run : Run α) : FailsOnly cmp.Fails (settle sortLoose run) :=
  .ite _ (.pure _) (hloose _)

theorem join_fails (left right : Run α) :
    FailsOnly cmp.Fails (cmp.join sortLoose left right) := by
  refine .ite _ ?_ (.pure _)
  refine (settle_fails hloose left).bind fun l => (settle_fails hloose right).bind fun r => ?_
  exact (merge_fails l r).bind fun _ => .pure _

theorem collapse_fails (depth : Nat) (before : List (Run α × Nat)) (run : Run α) :
    FailsOnly cmp.Fails (cmp.collapse sortLoose depth before run) := by
  induction before generalizing run with
  | nil => exact .pure _
  | cons left before ih =>
    obtain ⟨left, d⟩ := left
    exact .ite _ ((join_fails hloose left run).bind fun run => ih run) (.pure _)

theorem joinRuns_fails (loose : Bool) (length done : Nat) (before : List (Run α × Nat))
    (run : Run α) (items : List α) :
    FailsOnly cmp.Fails (cmp.joinRuns loose sortLoose length done before run items) := by
  fun_induction joinRuns cmp loose sortLoose length done before run items with
  | case1 => exact (collapse_fails hloose _ _ _).bind fun _ => .pure _
  | case2 done before run a rest ih =>
    refine (nextRun_fails _ _ _).bind fun next => ?_
    exact (collapse_fails hloose _ _ _).bind fun ⟨before, run⟩ => ih next before run

theorem sortByRuns_fails (loose : Bool) (items : List α) :
    FailsOnly cmp.Fails (cmp.sortByRuns loose sortLoose items) := by
  refine (nextRun_fails _ _ _).bind fun first => ?_
  exact (joinRuns_fails hloose _ _ _ _ _ _).bind fun run => settle_fails hloose run

end Loose

/-! ### Division -/

theorem medianOfThree_fails (items : Array α) (i j k : Nat) :
    FailsOnly cmp.Fails (cmp.medianOfThree items i j k) := by
  unfold medianOfThree
  split
  · refine (precedes_fails _ _).bind fun x => (precedes_fails _ _).bind fun y => ?_
    exact .ite _ ((precedes_fails _ _).bind fun _ => .pure _) (.pure _)
  · exact .pure _

theorem medianOfParts_fails (items : Array α) (length i j k : Nat) :
    FailsOnly cmp.Fails (cmp.medianOfParts items length i j k) := by
  induction length using Nat.strongRecOn generalizing i j k with
  | _ length ih =>
    rw [medianOfParts]
    split
    · have ih := ih (length / 8) (by omega)
      refine (ih _ _ _).bind fun i => (ih _ _ _).bind fun j => (ih _ _ _).bind fun k => ?_
      exact medianOfThree_fails items i j k
    · exact medianOfThree_fails items i j k

theorem divide_fails {test : α → Sorting Bool} (htest : ∀ a, FailsOnly cmp.Fails (test a))
    (parts : List α × List α) (items : List α) : FailsOnly cmp.Fails (divide test parts items) := by
  induction items generalizing parts with
  | nil => exact .pure _
  | cons a rest ih =>
    obtain ⟨yes, no⟩ := parts
    exact (htest a).bind fun _ => .ite _ (ih _) (ih _)

theorem divideBelow_fails (before : List α) (pivot : α) (after : List α) :
    FailsOnly cmp.Fails (cmp.divideBelow before pivot after) :=
  (divide_fails (precedes_fails · pivot) _ _).bind fun ⟨_, _⟩ =>
    (divide_fails (precedes_fails · pivot) _ _).bind fun ⟨_, _⟩ => .pure _

theorem divideAbove_fails (before : List α) (pivot : α) (after : List α) :
    FailsOnly cmp.Fails (cmp.divideAbove before pivot after) :=
  (divide_fails (precedes_fails pivot) _ _).bind fun ⟨_, _⟩ =>
    (divide_fails (precedes_fails pivot) _ _).bind fun ⟨_, _⟩ => .pure _

theorem isLeast_fails (bound : Option α) (pivot : α) :
    FailsOnly cmp.Fails (cmp.isLeast bound pivot) := by
  cases bound with
  | none => exact .pure _
  | some a => exact (precedes_fails a pivot).bind fun _ => .pure _

theorem quicksort_fails (divisions : Nat) (bound : Option α) (items : List α) :
    FailsOnly cmp.Fails (cmp.quicksort divisions bound items) := by
  induction divisions generalizing bound items with
  | zero =>
    unfold quicksort
    exact .ite _ (sortBlock_fails _) (sortByRuns_fails (fun _ => .pure _) _ _)
  | succ divisions ih =>
    unfold quicksort
    refine .ite _ (sortBlock_fails _) ((medianOfParts_fails _ _ _ _ _).bind fun position => ?_)
    split
    · rename_i before pivot after _
      have parts (low high : List α) : FailsOnly cmp.Fails (do
          if low.isEmpty then
            let parts ← cmp.divideAbove before pivot after
            return parts.1 ++ (← cmp.quicksort divisions none parts.2)
          else
            let high ← cmp.quicksort divisions (some pivot) high
            return (← cmp.quicksort divisions bound low) ++ high) := by
        refine .ite _ ?_ ?_
        · exact (divideAbove_fails _ _ _).bind fun _ => (ih _ _).bind fun _ => .pure _
        · exact (ih _ _).bind fun high => (ih _ _).bind fun _ => .pure _
      refine (isLeast_fails bound pivot).bind fun least => .ite _ ?_ ?_
      · exact .bind (.pure _) fun p => parts p.1 p.2
      · exact (divideBelow_fails _ _ _).bind fun p => parts p.1 p.2
    · exact .pure _

/-! ### The whole -/

theorem arrange_fails (items : List α) : FailsOnly cmp.Fails (cmp.arrange items) :=
  .ite _ (sortByInsertion_fails _) (sortByRuns_fails (fun _ => quicksort_fails _ _ _) _ _)

/-- **A sort fails as comparing fails**, or because the comparison is no order. -/
theorem sort_error {items : List α} {e : Error} (h : cmp.sort items = .error e) : cmp.Fails e :=
  error_of_result (arrange_fails items) h

end Comparison
end DataExpr
