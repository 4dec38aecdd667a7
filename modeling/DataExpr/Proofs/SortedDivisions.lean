import DataExpr.Proofs.SortedRuns
import DataExpr.Sort.Quick

/-!
# Dividing around a pivot

The pivot is a median of elements at different positions, so that one of the others is at most it.
A division tests every element but the pivot, which is put without a test on the side on which it
would be.  If what passes the test is below all that does not, then the two parts side by side keep
elements that tie in their order.
-/

namespace DataExpr.Comparison

variable {α : Type} {cmp : Comparison α} {whole : List α} {known : Prop}

/-! ### Pivots -/

/-- An element of a list is at least another one. -/
def HasLower (cmp : Comparison α) (items : List α) (m : Nat) : Prop :=
  ∃ o a b, o ≠ m ∧ items[o]? = some a ∧ items[m]? = some b ∧ cmp.AtMost a b

/-- Elements at different positions. -/
theorem subperm_pair_getElem? {items : List α} {i j : Nat} {a b : α} (hi : items[i]? = some a)
    (hj : items[j]? = some b) (h : i ≠ j) : [a, b].Subperm items := by
  have ordered {i j : Nat} {a b : α} (hi : items[i]? = some a) (hj : items[j]? = some b)
      (h : i < j) : [a, b].Subperm items := by
    rw [← List.take_append_drop j items]
    refine subperm_pair_append ?_ ?_
    · exact List.mem_of_getElem? (by rw [List.getElem?_take_of_lt h, hi])
    · exact List.mem_of_getElem? (i := 0) (by rw [List.getElem?_drop, Nat.add_zero, hj])
  rcases Nat.lt_or_gt_of_ne h with h | h
  · exact ordered hi hj h
  · exact (List.Perm.swap b a []).subperm.trans (ordered hj hi h)

theorem gives_medianOfThree (laws : cmp.OrdersOn (· ∈ whole)) {items : Array α}
    (part : items.toList.Subperm whole) {i j k : Nat} (hij : i < j) (hjk : j < k)
    (hk : k < items.size) :
    Sorting.Gives (cmp.Clash whole) known (cmp.medianOfThree items i j k)
      (fun m => i ≤ m ∧ m ≤ k) (fun m => cmp.HasLower items.toList m) := by
  obtain ⟨a, ha⟩ : ∃ a, items.toList[i]? = some a := ⟨items[i], by simp⟩
  obtain ⟨b, hb⟩ : ∃ b, items.toList[j]? = some b := ⟨items[j], by simp⟩
  obtain ⟨c, hc⟩ : ∃ c, items.toList[k]? = some c := ⟨items[k], by simp⟩
  have apart {m n : Nat} {x y : α} (hx : items.toList[m]? = some x) (hy : items.toList[n]? = some y)
      (h : m ≠ n) : [x, y].Subperm whole := (subperm_pair_getElem? hx hy h).trans part
  unfold medianOfThree
  rw [← Array.getElem?_toList, ← Array.getElem?_toList, ← Array.getElem?_toList, ha, hb, hc]
  refine (gives_precedes_apart laws (apart ha hb (by omega))).bind fun x hx => ?_
  refine (gives_precedes_apart laws (apart ha hc (by omega))).bind fun y hy => ?_
  split
  next same =>
    obtain rfl : x = y := eq_of_beq same
    refine (gives_precedes_apart laws (apart hb hc (by omega))).bind fun z hz => ?_
    split
    next same' =>
      obtain rfl : z = x := eq_of_beq same'
      refine .pure (by omega) fun ⟨_, hcb⟩ => ?_
      cases z with
      | true => exact ⟨i, a, b, by omega, ha, hb, (hx.1 rfl).atMost⟩
      | false => exact ⟨k, c, b, by omega, hc, hb, hcb rfl⟩
    next other =>
      refine .pure (by omega) fun _ => ?_
      cases x with
      | true => exact ⟨i, a, c, by omega, ha, hc, (hy.1 rfl).atMost⟩
      | false =>
        have hz := hz.1 (by simpa using other)
        exact ⟨j, b, c, by omega, hb, hc, hz.atMost⟩
  next other =>
    refine .pure (by omega) fun ⟨⟨_, hba⟩, hca⟩ => ?_
    cases x with
    | true => exact ⟨k, c, a, by omega, hc, ha, hca (by simpa using other)⟩
    | false => exact ⟨j, b, a, by omega, hb, ha, hba rfl⟩

theorem gives_medianOfParts (laws : cmp.OrdersOn (· ∈ whole)) (items : Array α)
    (part : items.toList.Subperm whole) (length i j k : Nat) (positive : 0 < length)
    (hij : i + length ≤ j) (hjk : j + length ≤ k) (hk : k + length ≤ items.size) :
    Sorting.Gives (cmp.Clash whole) known (cmp.medianOfParts items length i j k)
      (fun m => i ≤ m ∧ m < k + length) (fun m => cmp.HasLower items.toList m) := by
  induction length using Nat.strongRecOn generalizing i j k known with
  | _ length ih =>
    rw [medianOfParts]
    split
    next long =>
      have ih {known : Prop} (i : Nat) (hi : i + length ≤ items.size) :
          Sorting.Gives (cmp.Clash whole) known
            (cmp.medianOfParts items (length / 8) i (i + 4 * (length / 8)) (i + 7 * (length / 8)))
            (fun m => i ≤ m ∧ m < i + 7 * (length / 8) + length / 8)
            (fun m => cmp.HasLower items.toList m) :=
        ih (length / 8) (by omega) _ _ _ (by omega) (by omega) (by omega) (by omega)
      refine (ih i (by omega)).bind fun i' hi => ?_
      refine (ih j (by omega)).bind fun j' hj => ?_
      refine (ih k (by omega)).bind fun k' hk => ?_
      exact (gives_medianOfThree laws part (by omega) (by omega) (by omega)).imp id
        (fun m hm => by omega) fun m _ _ hm => hm
    next =>
      exact (gives_medianOfThree laws part (by omega) (by omega) (by omega)).imp id
        (fun m hm => by omega) fun m _ _ hm => hm

/-- The pivot is an element of the list and is at least another one. -/
theorem gives_pivotPosition (laws : cmp.OrdersOn (· ∈ whole)) {items : List α}
    (part : items.Subperm whole) (long : blockLength < items.length) :
    Sorting.Gives (cmp.Clash whole) known (cmp.pivotPosition items.toArray)
      (fun m => m < items.length) (fun m => cmp.HasLower items m) := by
  unfold pivotPosition
  simp only [blockLength] at long
  have size : items.toArray.size = items.length := List.size_toArray
  exact (gives_medianOfParts laws items.toArray part _ 0 _ _ (by omega) (by omega) (by omega)
    (by omega)).imp id (fun m hm => by omega) fun m _ _ hm => hm

/-! ### Dividing -/

/-- Whether an element is smaller than another one. -/
def isBelow (cmp : Comparison α) (a b : α) : Bool :=
  match cmp a b with
  | .ok .lt => true
  | _ => false

theorem isBelow_eq_true {a b : α} : cmp.isBelow a b = true ↔ cmp.Below a b := by
  unfold isBelow Below
  split <;> simp_all

theorem gives_isBelow (laws : cmp.OrdersOn (· ∈ whole)) {a b : α}
    (apart : [a, b].Subperm whole) :
    Sorting.Gives (cmp.Clash whole) known (cmp.precedes a b) (fun r => r = cmp.isBelow a b)
      (fun _ => cmp.isBelow a b = false → cmp.AtMost b a) := by
  refine (gives_precedes_apart laws apart).imp id (fun r hr => ?_) fun r _ hr hclean => ?_
  · rw [Bool.eq_iff_iff, isBelow_eq_true, hr]
  · intro h
    refine hclean (Bool.eq_false_iff.2 fun hr' => ?_)
    rw [isBelow_eq_true.2 (hr.1 hr')] at h
    exact Bool.noConfusion h

/-- A list is divided by a test; of the elements that do not pass it is known why. -/
theorem gives_divide {fails : Error → Prop} {test : α → Sorting Bool} {p : α → Bool}
    {R : α → Prop} {items : List α}
    (htest : ∀ {known : Prop}, ∀ a ∈ items,
      Sorting.Gives fails known (test a) (fun r => r = p a) (fun _ => p a = false → R a))
    (yes no : List α) :
    Sorting.Gives fails known (divide test (yes, no) items)
      (fun out => out = ((items.filter p).reverse ++ yes, (items.filter (!p ·)).reverse ++ no))
      (fun _ => ∀ a ∈ items, p a = false → R a) := by
  induction items generalizing yes no known with
  | nil => exact .pure rfl fun _ => by simp
  | cons a rest ih =>
    rw [divide]
    refine (htest a List.mem_cons_self).bind fun r hr => ?_
    have ih {known : Prop} := @ih known fun b hb => htest b (List.mem_cons_of_mem a hb)
    subst hr
    cases h : p a with
    | true =>
      refine (ih (a :: yes) no).imp id (by simp [h]) fun _ _ _ hclean => ?_
      simpa [h] using hclean
    | false =>
      refine (ih yes (a :: no)).imp id (by simp [h]) fun _ hk _ hclean => ?_
      exact List.forall_mem_cons.2 ⟨fun _ => hk.2 rfl, hclean⟩

theorem isBelow_self (laws : cmp.OrdersOn (· ∈ whole)) {a : α} (ha : a ∈ whole) :
    cmp.isBelow a a = false := by
  refine Bool.eq_false_iff.2 fun h => ?_
  have below := isBelow_eq_true.1 h
  exact laws.not_below_of_atMost ha ha below.atMost below

section Divide

variable {before after : List α} {pivot : α}

/-- A list is divided around an element that does not pass the test and is not tested. -/
theorem gives_divide_around {fails : Error → Prop} {test : α → Sorting Bool} {p : α → Bool}
    {R : α → Prop} (htest : ∀ {known : Prop}, ∀ a ∈ before ++ after,
      Sorting.Gives fails known (test a) (fun r => r = p a) (fun _ => p a = false → R a))
    (hpivot : p pivot = false) :
    Sorting.Gives fails known
      (divide test ([], []) before >>= fun parts => divide test (parts.1, pivot :: parts.2) after)
      (fun out => out = (((before ++ pivot :: after).filter p).reverse,
        ((before ++ pivot :: after).filter (!p ·)).reverse))
      (fun _ => ∀ a ∈ before ++ after, p a = false → R a) := by
  refine (gives_divide (fun a ha => htest a (List.mem_append_left after ha)) [] []).bind
    fun out hout => ?_
  subst hout
  refine (gives_divide (fun a ha => htest a (List.mem_append_right before ha)) _ _).imp id
    (fun out hout => ?_) fun _ hk _ hclean => List.forall_mem_append.2 ⟨hk.2, hclean⟩
  simp [hout, hpivot]

/-- The elements that are smaller than the pivot are set apart from those that are not. -/
theorem gives_divideBelow (laws : cmp.OrdersOn (· ∈ whole))
    (part : (before ++ pivot :: after).Subperm whole) :
    Sorting.Gives (cmp.Clash whole) known (cmp.divideBelow before pivot after)
      (fun out => out = ((before ++ pivot :: after).filter (cmp.isBelow · pivot),
        (before ++ pivot :: after).filter (!cmp.isBelow · pivot)))
      (fun _ => ∀ a ∈ before ++ after, cmp.isBelow a pivot = false → cmp.AtMost pivot a) := by
  have middle := List.perm_middle.symm.subperm.trans part
  have split : cmp.divideBelow before pivot after =
      (divide (cmp.precedes · pivot) ([], []) before >>= fun parts =>
        divide (cmp.precedes · pivot) (parts.1, pivot :: parts.2) after) >>= fun parts =>
          pure (parts.1.reverse, parts.2.reverse) := by
    rw [bind_assoc]
    rfl
  rw [split]
  refine (gives_divide_around (fun a ha => gives_isBelow laws
    ((List.Perm.swap pivot a []).subperm.trans ((subperm_pair_cons ha).trans middle)))
    (isBelow_self laws (part.subset (by simp)))).bind fun out hout => ?_
  exact .pure (by simp [hout]) fun hk => hk.2

/-- The elements that are greater than the pivot are set apart from those that are not. -/
theorem gives_divideAbove (laws : cmp.OrdersOn (· ∈ whole))
    (part : (before ++ pivot :: after).Subperm whole) :
    Sorting.Gives (cmp.Clash whole) known (cmp.divideAbove before pivot after)
      (fun out => out = ((before ++ pivot :: after).filter (!cmp.isBelow pivot ·),
        (before ++ pivot :: after).filter (cmp.isBelow pivot ·)))
      (fun _ => ∀ a ∈ before ++ after, cmp.isBelow pivot a = false → cmp.AtMost a pivot) := by
  have middle := List.perm_middle.symm.subperm.trans part
  have split : cmp.divideAbove before pivot after =
      (divide (cmp.precedes pivot ·) ([], []) before >>= fun parts =>
        divide (cmp.precedes pivot ·) (parts.1, pivot :: parts.2) after) >>= fun parts =>
          pure (parts.2.reverse, parts.1.reverse) := by
    rw [bind_assoc]
    rfl
  rw [split]
  refine (gives_divide_around (fun a ha => gives_isBelow laws
    ((subperm_pair_cons ha).trans middle)) (isBelow_self laws (part.subset (by simp)))).bind
    fun out hout => ?_
  exact .pure (by simp [hout]) fun hk => hk.2

end Divide

/-- What passes a test is put before what does not, all of which is greater. -/
theorem stable_filter (laws : cmp.OrdersOn (· ∈ whole)) {p : α → Bool} {items : List α}
    (inside : items ⊆ whole)
    (h : ∀ a ∈ items, p a = false → ∀ b ∈ items, p b = true → cmp.Below b a) :
    cmp.Stable whole items (items.filter p ++ items.filter (!p ·)) := by
  induction items with
  | nil => exact .refl _
  | cons a rest ih =>
    have inside := List.cons_subset.1 inside
    have ih := ih inside.2 fun b hb hpb c hc => h b (List.mem_cons_of_mem a hb) hpb c
      (List.mem_cons_of_mem a hc)
    cases hp : p a with
    | true => simpa [hp] using ih.cons a
    | false =>
      have jumped : cmp.Stable whole ([a] ++ rest.filter p) (rest.filter p ++ [a]) := by
        refine .jump laws (by simpa using inside.1)
          (fun b hb => inside.2 (List.mem_of_mem_filter hb)) fun x hx b hb => ?_
        rw [List.mem_singleton.1 hx]
        obtain ⟨hb, hpb⟩ := List.mem_filter.1 hb
        exact h a List.mem_cons_self hp b (List.mem_cons_of_mem a hb) hpb
      simpa [hp] using (ih.cons a).trans (jumped.append_right (rest.filter (!p ·)))

end DataExpr.Comparison
