import DataExpr.Proofs.SortedDivisions

/-!
# Quicksort arranges

The bound that a division hands on is one of the least elements of the part it is for.  If the pivot
is not above the bound, then all that is not above the pivot ties with it, so that this part is in
order as it stands; likewise if no element is below the pivot.  The bound may be the pivot of a
part itself, which compares with itself since another element is at most it.
-/

namespace DataExpr.Comparison

variable {α : Type} {cmp : Comparison α} {whole : List α} {known : Prop}

/-- The first of the least elements of a list. -/
def LeastOf (cmp : Comparison α) (items : List α) (b : α) : Prop :=
  ∃ others, items.Perm (b :: others) ∧ ∀ a ∈ others, cmp.AtMost b a

section Bound

variable {items before after : List α} {b pivot : α}

/-- The least element may be compared with a pivot, even where it is the pivot. -/
theorem LeastOf.clash (laws : cmp.OrdersOn (· ∈ whole))
    (part : (before ++ pivot :: after).Subperm whole)
    (least : cmp.LeastOf (before ++ pivot :: after) b)
    (lower : ∃ a ∈ before ++ after, cmp.AtMost a pivot) {e : Error}
    (failed : cmp b pivot = .error e) : cmp.Clash whole e := by
  obtain ⟨others, perm, atMost⟩ := least
  obtain ⟨a, ha, hlower⟩ := lower
  have part' : (pivot :: (before ++ after)).Subperm whole :=
    List.perm_middle.symm.subperm.trans part
  have inside := part'.subset
  have perm : (pivot :: (before ++ after)).Perm (b :: others) := List.perm_middle.symm.trans perm
  rcases List.mem_cons.1 (perm.mem_iff.2 List.mem_cons_self) with rfl | hb
  · -- the pivot is at least another element and at most all others
    have hupper := atMost a (perm.cons_inv.mem_iff.1 ha)
    obtain ⟨order, hself, -⟩ := laws.refl_of_atMost (inside List.mem_cons_self)
      (inside (List.mem_cons_of_mem b ha)) hupper hlower
    simp [failed] at hself
  · exact ⟨b, pivot, (List.Perm.swap pivot b []).subperm.trans
      ((subperm_pair_cons hb).trans part'), failed⟩

theorem LeastOf.trans (laws : cmp.OrdersOn (· ∈ whole)) (inside : items ⊆ whole)
    (least : cmp.LeastOf items b) (hpivot : pivot ∈ items) (h : cmp.AtMost pivot b) :
    ∀ a ∈ items, cmp.AtMost pivot a := by
  obtain ⟨others, perm, atMost⟩ := least
  intro a ha
  rcases List.mem_cons.1 (perm.mem_iff.1 ha) with rfl | hothers
  · exact h
  · exact laws.trans (inside hpivot) (inside (perm.mem_iff.2 List.mem_cons_self)) (inside ha) h
      (atMost a hothers)

theorem LeastOf.filter {p : α → Bool} (least : cmp.LeastOf items b) (hb : p b = true) :
    cmp.LeastOf (items.filter p) b := by
  obtain ⟨others, perm, atMost⟩ := least
  refine ⟨others.filter p, ?_, fun a ha => atMost a (List.mem_of_mem_filter ha)⟩
  simpa [hb] using perm.filter p

/-- The pivot is the least of the elements that are not below it. -/
theorem leastOf_pivot (laws : cmp.OrdersOn (· ∈ whole)) (hpivot : pivot ∈ whole)
    (h : ∀ a ∈ before ++ after, cmp.isBelow a pivot = false → cmp.AtMost pivot a) :
    cmp.LeastOf ((before ++ pivot :: after).filter (!cmp.isBelow · pivot)) pivot := by
  refine ⟨(before ++ after).filter (!cmp.isBelow · pivot), ?_, fun a ha => ?_⟩
  · simp [isBelow_self laws hpivot, List.perm_middle]
  · obtain ⟨ha, hbelow⟩ := List.mem_filter.1 ha
    exact h a ha (by simpa using hbelow)

theorem gives_isLeast (laws : cmp.OrdersOn (· ∈ whole)) {bound : Option α} (hpivot : pivot ∈ whole)
    (hbound : ∀ b, bound = some b → b ∈ whole)
    (fails : known → ∀ b, bound = some b → ∀ e, cmp b pivot = .error e → cmp.Clash whole e) :
    Sorting.Gives (cmp.Clash whole) known (cmp.isLeast bound pivot)
      (fun least => least = false → ∀ b, bound = some b → cmp.Below b pivot)
      (fun least => least = true → ∃ b, bound = some b ∧ cmp.AtMost pivot b) := by
  cases bound with
  | none => exact .pure (by simp) fun _ => by simp
  | some b =>
    unfold isLeast
    refine (gives_precedes laws (hbound b rfl) hpivot fun hk => fails hk b rfl).bind
      fun smaller below => ?_
    refine .pure (fun h c hc => ?_) fun hk h => ⟨b, rfl, hk.2 (by simpa using h)⟩
    obtain rfl := Option.some.inj hc
    exact below.1 (by simpa using h)

end Bound

/-- Two parts, one of which is before the other, are arranged each on its own. -/
theorem Arranged.append {items low high low' high' : List α}
    (stable : cmp.Stable whole items (low ++ high)) (perm : low'.Perm low) (perm' : high'.Perm high)
    (h : cmp.Arranged whole low low') (h' : cmp.Arranged whole high high')
    (between : ∀ a ∈ low, ∀ b ∈ high, cmp.AtMost a b) :
    cmp.Arranged whole items (low' ++ high') :=
  ⟨List.pairwise_append.2 ⟨h.increasing, h'.increasing, fun a ha b hb =>
    between a (perm.mem_iff.1 ha) b (perm'.mem_iff.1 hb)⟩,
    stable.trans (h.stable.append h'.stable)⟩

/-- Elements that tie with one of them are in order as they stand. -/
theorem pairwise_around (laws : cmp.OrdersOn (· ∈ whole)) {xs ys : List α} {pivot : α}
    (inside : xs ++ pivot :: ys ⊆ whole)
    (h : ∀ a ∈ xs ++ ys, cmp.AtMost a pivot ∧ cmp.AtMost pivot a) :
    (xs ++ pivot :: ys).Pairwise cmp.AtMost := by
  have apart {a b : α} (ha : a ∈ xs ++ ys) (hb : b ∈ xs ++ ys) : cmp.AtMost a b := by
    have mem {x : α} (hx : x ∈ xs ++ ys) : x ∈ whole := inside (by
      simp only [List.mem_append, List.mem_cons] at hx ⊢
      tauto)
    exact laws.trans (mem ha) (inside (by simp)) (mem hb) (h a ha).1 (h b hb).2
  refine List.pairwise_append.2 ⟨?_, List.pairwise_cons.2 ⟨fun b hb => ?_, ?_⟩, fun a ha b hb => ?_⟩
  · exact List.pairwise_of_forall_mem_list fun a ha b hb =>
      apart (List.mem_append_left ys ha) (List.mem_append_left ys hb)
  · exact (h b (List.mem_append_right xs hb)).2
  · exact List.pairwise_of_forall_mem_list fun a ha b hb =>
      apart (List.mem_append_right xs ha) (List.mem_append_right xs hb)
  · rcases List.mem_cons.1 hb with rfl | hb
    · exact (h a (List.mem_append_left ys ha)).1
    · exact apart (List.mem_append_left ys ha) (List.mem_append_right xs hb)

/-! ### One division -/

section Division

variable {bound : Option α} {before after : List α} {pivot : α}

/-- The first division, which is left out if the pivot is one of the least elements.  That it
    finds no smaller element means that there is none. -/
theorem gives_below (laws : cmp.OrdersOn (· ∈ whole))
    (part : (before ++ pivot :: after).Subperm whole)
    (hbound : ∀ b, bound = some b → b ∈ before ++ pivot :: after)
    (h : known → (∀ b, bound = some b → cmp.LeastOf (before ++ pivot :: after) b) ∧
      ∃ a ∈ before ++ after, cmp.AtMost a pivot) :
    Sorting.Gives (cmp.Clash whole) known
      (cmp.isLeast bound pivot >>= fun least =>
        if least then pure ([], before ++ pivot :: after) else cmp.divideBelow before pivot after)
      (fun out => out.1 ≠ [] →
        out = ((before ++ pivot :: after).filter (cmp.isBelow · pivot),
          (before ++ pivot :: after).filter (!cmp.isBelow · pivot)) ∧
        ∀ b, bound = some b → cmp.Below b pivot)
      (fun out => ∀ a ∈ before ++ after, out.1 = [] ∨ cmp.isBelow a pivot = false →
        cmp.AtMost pivot a) := by
  have inside := part.subset
  have hpivot : pivot ∈ before ++ pivot :: after := by simp
  refine (gives_isLeast laws (inside hpivot) (fun b hb => inside (hbound b hb))
    fun hk b hb e => ((h hk).1 b hb).clash laws part (h hk).2).bind fun least below => ?_
  cases least with
  | true =>
    refine .pure (fun h => absurd rfl h) fun ⟨hk, hleast⟩ a ha _ => ?_
    obtain ⟨b, hb, hpb⟩ := hleast rfl
    refine ((h hk).1 b hb).trans laws inside hpivot hpb a ?_
    simp only [List.mem_append, List.mem_cons] at ha ⊢
    tauto
  | false =>
    refine (gives_divideBelow laws part).imp id (fun out hout _ => ⟨hout, below rfl⟩)
      fun out _ hout hclean a ha hcase => hclean a ha ?_
    rcases hcase with empty | hbelow
    · rw [hout, List.filter_eq_nil_iff] at empty
      exact Bool.eq_false_iff.2 (empty a (by
        simp only [List.mem_append, List.mem_cons] at ha ⊢
        tauto))
    · exact hbelow

/-- No element is below the pivot.  Those that tie with it are in order as they stand. -/
theorem gives_above (laws : cmp.OrdersOn (· ∈ whole))
    (part : (before ++ pivot :: after).Subperm whole) {sortHigh : List α → Sorting (List α)}
    (sorts : cmp.Sorts whole sortHigh)
    (h : known → ∀ a ∈ before ++ after, cmp.AtMost pivot a) :
    Sorting.Gives (cmp.Clash whole) known
      (cmp.divideAbove before pivot after >>= fun parts =>
        sortHigh parts.2 >>= fun high => pure (parts.1 ++ high))
      (fun out => out.Perm (before ++ pivot :: after))
      (fun out => cmp.Arranged whole (before ++ pivot :: after) out) := by
  have inside := part.subset
  have hpivot : pivot ∈ whole := inside (by simp)
  have self := isBelow_self laws hpivot
  refine (gives_divideAbove laws part).bind fun out hout => ?_
  subst hout
  refine (sorts (List.filter_sublist.subperm.trans part)).bind fun high perm => ?_
  have halves : ((before ++ pivot :: after).filter (!cmp.isBelow pivot ·) ++
      (before ++ pivot :: after).filter (cmp.isBelow pivot ·)).Perm (before ++ pivot :: after) :=
    List.perm_append_comm.trans (List.filter_append_perm _ _)
  refine .pure ((perm.append_left _).trans halves) fun ⟨⟨hk, hlow⟩, arranged⟩ => ?_
  have between : ∀ b ∈ before ++ pivot :: after, cmp.isBelow pivot b = false →
      ∀ a ∈ before ++ pivot :: after, cmp.isBelow pivot a = true → cmp.Below b a := by
    intro b hb hbelow a ha hpa
    have hpa := isBelow_eq_true.1 hpa
    rcases List.mem_cons.1 (List.perm_middle.mem_iff.1 hb) with rfl | hb'
    · exact hpa
    · exact laws.below_of_atMost_of_below (inside hb) hpivot (inside ha) (hlow b hb' hbelow) hpa
  refine .append ?_ (.refl _) perm ⟨?_, .refl _⟩ arranged fun b hb a ha => ?_
  · simpa using stable_filter laws (p := (!cmp.isBelow pivot ·)) inside fun a ha hpa b hb hpb =>
      between b hb (by simpa using hpb) a ha (by simpa using hpa)
  · rw [List.filter_append, List.filter_cons_of_pos (by simp [self])]
    refine pairwise_around laws (fun a ha => inside ?_) fun a ha => ?_
    · simp only [List.mem_append, List.mem_cons, List.mem_filter] at ha ⊢
      tauto
    · rw [← List.filter_append, List.mem_filter] at ha
      exact ⟨hlow a ha.1 (by simpa using ha.2), h hk a ha.1⟩
  · simp only [List.mem_filter] at ha hb
    exact (between b hb.1 (by simpa using hb.2) a ha.1 ha.2).atMost

end Division

/-- A division of a long list. -/
theorem quicksort_succ {items : List α} (long : blockLength < items.length) (divisions : Nat)
    (bound : Option α) :
    cmp.quicksort (divisions + 1) bound items =
      cmp.pivotPosition items.toArray >>= fun m =>
        match items.splitAt m with
        | (before, pivot :: after) =>
          (cmp.isLeast bound pivot >>= fun least =>
            if least then pure ([], items) else cmp.divideBelow before pivot after) >>= fun parts =>
          if parts.1.isEmpty then
            cmp.divideAbove before pivot after >>= fun parts =>
            cmp.quicksort divisions none parts.2 >>= fun high => pure (parts.1 ++ high)
          else
            cmp.quicksort divisions (some pivot) parts.2 >>= fun high =>
            cmp.quicksort divisions bound parts.1 >>= fun low => pure (low ++ high)
        | (_, []) => pure items := by
  rw [quicksort, if_neg (by omega)]
  refine congrArg (cmp.pivotPosition items.toArray >>= ·) (funext fun m => ?_)
  obtain ⟨before, rest⟩ := items.splitAt m
  cases rest with
  | nil => rfl
  | cons pivot after =>
    simp only [bind_assoc]
    refine congrArg (cmp.isLeast bound pivot >>= ·) (funext fun least => ?_)
    cases least <;> rfl

theorem HasLower.exists_atMost {before after : List α} {pivot : α}
    (h : cmp.HasLower (before ++ pivot :: after) before.length) :
    ∃ a ∈ before ++ after, cmp.AtMost a pivot := by
  obtain ⟨o, a, b, apart, ha, hb, atMost⟩ := h
  obtain rfl : pivot = b := by simpa using hb
  refine ⟨a, ?_, atMost⟩
  rcases Nat.lt_or_gt_of_ne apart with ho | ho
  · rw [List.getElem?_append_left ho] at ha
    exact List.mem_append_left after (List.mem_of_getElem? ha)
  · rw [List.getElem?_append_right (by omega), List.getElem?_cons, if_neg (by omega)] at ha
    exact List.mem_append_right before (List.mem_of_getElem? ha)

/-- Quicksort arranges, whatever the number of divisions. -/
theorem gives_quicksort (laws : cmp.OrdersOn (· ∈ whole)) (divisions : Nat) {bound : Option α}
    {items : List α} (part : items.Subperm whole) (hbound : ∀ b, bound = some b → b ∈ items)
    (h : known → ∀ b, bound = some b → cmp.LeastOf items b) :
    Sorting.Gives (cmp.Clash whole) known (cmp.quicksort divisions bound items)
      (fun out => out.Perm items) (fun out => cmp.Arranged whole items out) := by
  -- By induction on the divisions left; short blocks and the last division are sorted otherwise.
  induction divisions generalizing bound items known with
  | zero =>
    rw [quicksort]
    split
    · exact sorts_sortBlock laws part
    · exact sorts_sortByRuns laws (fun h => Bool.noConfusion h) part
  | succ divisions ih =>
    have sorts : cmp.Sorts whole (cmp.quicksort divisions none) :=
      fun part => ih part (fun _ h => by cases h) fun _ _ h => by cases h
    by_cases long : blockLength < items.length
    swap
    · rw [quicksort, if_pos (by omega)]
      exact sorts_sortBlock laws part
    rw [quicksort_succ long]
    refine (gives_pivotPosition laws part long).bind fun m hm => ?_
    obtain ⟨before, pivot, after, rfl, rfl⟩ : ∃ before pivot after,
        items = before ++ pivot :: after ∧ before.length = m :=
      ⟨items.take m, items[m], items.drop (m + 1), by simp, by simp; omega⟩
    rw [List.splitAt_eq, List.take_left, List.drop_left]
    have inside := part.subset
    have hpivot : pivot ∈ whole := inside (by simp)
    refine (gives_below laws part hbound fun hk => ⟨h hk.1, hk.2.exists_atMost⟩).bind
      fun ⟨low, high⟩ hparts => ?_
    split
    next empty =>
      have empty : low = [] := List.isEmpty_iff.1 empty
      exact gives_above laws part sorts fun hk a ha => hk.2 a ha (.inl empty)
    next nonempty =>
      obtain ⟨hparts, below⟩ := hparts fun empty => nonempty (List.isEmpty_iff.2 empty)
      obtain ⟨rfl, rfl⟩ := Prod.mk.inj hparts
      refine (ih (List.filter_sublist.subperm.trans part) (fun b hb => ?_)
        fun hk b hb => ?_).bind fun high perm' => ?_
      · cases hb
        simp [isBelow_self laws hpivot]
      · cases hb
        exact leastOf_pivot laws hpivot fun a ha hbelow => hk.2 a ha (.inr hbelow)
      refine (ih (List.filter_sublist.subperm.trans part) (fun b hb => ?_)
        fun hk b hb => ?_).bind fun low perm => ?_
      · exact List.mem_filter.2 ⟨hbound b hb, isBelow_eq_true.2 (below b hb)⟩
      · exact (h hk.1.1.1 b hb).filter (isBelow_eq_true.2 (below b hb))
      refine .pure ((perm.append perm').trans (List.filter_append_perm _ _))
        fun ⟨⟨⟨_, hclean⟩, arrangedHigh⟩, arrangedLow⟩ => ?_
      -- Everything that is not below the pivot lies above everything that is.
      have between : ∀ a ∈ before ++ pivot :: after, cmp.isBelow a pivot = false →
          ∀ b ∈ before ++ pivot :: after, cmp.isBelow b pivot = true → cmp.Below b a := by
        intro a ha hbelow b hb hbp
        have hbp := isBelow_eq_true.1 hbp
        rcases List.mem_cons.1 (List.perm_middle.mem_iff.1 ha) with rfl | ha'
        · exact hbp
        · exact laws.below_of_below_of_atMost (inside hb) hpivot (inside ha) hbp
            (hclean a ha' (.inr hbelow))
      refine .append (stable_filter laws inside between) perm perm' arrangedLow arrangedHigh ?_
      intro b hb a ha
      simp only [List.mem_filter] at ha hb
      exact (between a ha.1 (by simpa using ha.2) b hb.1 hb.2).atMost

theorem sorts_quicksort (laws : cmp.OrdersOn (· ∈ whole)) (divisions : Nat) :
    cmp.Sorts whole (cmp.quicksort divisions none) :=
  fun part => gives_quicksort laws divisions part (fun _ h => by cases h) fun _ _ h => by cases h

end DataExpr.Comparison
