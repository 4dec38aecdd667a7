import DataExpr.Proofs.SortedMerges
import DataExpr.Sort.Block

/-!
# Sorting a block arranges

The first four elements of a half are arranged by five comparisons.  After the least and the
greatest element have been found, two elements remain, in the order in which they came; what has
been moved jumps over elements that are known to be smaller or greater.  Each half is then arranged
by insertion, and both halves by merging.
-/

namespace DataExpr.Comparison

variable {α : Type} {cmp : Comparison α} {whole : List α} {known : Prop}

theorem gives_sortPair (laws : cmp.OrdersOn (· ∈ whole)) {a b : α}
    (apart : [a, b].Subperm whole) :
    Sorting.Gives (cmp.Clash whole) known (cmp.sortPair a b) (fun out => [out.1, out.2].Perm [a, b])
      (fun out => cmp.Arranged whole [a, b] [out.1, out.2]) := by
  unfold sortPair
  refine (gives_precedes_apart laws ((List.Perm.swap a b []).subperm.trans apart)).bind
    fun smaller below => ?_
  cases smaller with
  | true =>
    refine .pure (.swap a b []) fun _ => ⟨by simpa using (below.1 rfl).atMost, ?_⟩
    show cmp.Stable whole ([a] ++ [b]) ([b] ++ [a])
    exact .jump laws (by simpa using apart.subset (by simp))
      (by simpa using apart.subset (by simp)) (by simpa using below.1 rfl)
  | false => exact .pure (.refl _) fun hk => ⟨by simpa using hk.2 rfl, .refl _⟩

/-- Two elements are put in order between the least and the greatest one. -/
theorem gives_sortPair_between (laws : cmp.OrdersOn (· ∈ whole)) {items : List α}
    {least a b greatest : α} (part : items.Subperm whole)
    (perm : [least, a, b, greatest].Perm items)
    (h : known → cmp.Stable whole items [least, a, b, greatest] ∧
      (cmp.AtMost least a ∧ cmp.AtMost least b) ∧ cmp.AtMost a greatest ∧ cmp.AtMost b greatest) :
    Sorting.Gives (cmp.Clash whole) known
      (cmp.sortPair a b >>= fun out => pure [least, out.1, out.2, greatest])
      (fun out => out.Perm items) (fun out => cmp.Arranged whole items out) := by
  have part' : [least, a, b, greatest].Subperm whole := perm.subperm.trans part
  have apart : [a, b].Subperm whole :=
    (List.Sublist.subperm (by simp [List.sublist_cons_iff])).trans part'
  refine (gives_sortPair laws apart).bind fun out pair => ?_
  refine .pure (((pair.append_right [greatest]).cons least).trans perm) fun ⟨hk, arranged⟩ => ?_
  obtain ⟨stable, ⟨leastA, leastB⟩, aGreatest, bGreatest⟩ := h hk
  have ends : cmp.AtMost least greatest :=
    laws.trans (part'.subset (by simp)) (part'.subset (by simp)) (part'.subset (by simp)) leastA
      aGreatest
  have between : ∀ x ∈ [out.1, out.2], cmp.AtMost least x ∧ cmp.AtMost x greatest := by
    intro x hx
    rcases List.mem_pair.1 (pair.mem_iff.1 hx) with rfl | rfl
    · exact ⟨leastA, aGreatest⟩
    · exact ⟨leastB, bGreatest⟩
  refine ⟨?_, stable.trans ((arranged.stable.append_right [greatest]).cons least)⟩
  have increasing := arranged.increasing
  simp only [List.pairwise_cons, List.mem_cons, List.not_mem_nil, or_false, forall_eq_or_imp,
    forall_eq] at increasing between ⊢
  exact ⟨⟨between.1.1, between.2.1, ends⟩, ⟨increasing.1, between.1.2⟩, between.2.2, by simp⟩

theorem gives_sortFour (laws : cmp.OrdersOn (· ∈ whole)) {a b c d : α}
    (part : [a, b, c, d].Subperm whole) :
    Sorting.Gives (cmp.Clash whole) known (cmp.sortFour a b c d)
      (fun out => out.Perm [a, b, c, d]) (fun out => cmp.Arranged whole [a, b, c, d] out) := by
  unfold sortFour
  have partLeft : [a, b].Subperm whole :=
    (List.sublist_append_left [a, b] [c, d]).subperm.trans part
  have partRight : [c, d].Subperm whole :=
    (List.sublist_append_right [a, b] [c, d]).subperm.trans part
  refine (gives_sortPair laws partLeft).bind fun ⟨a', b'⟩ pairLeft => ?_
  refine (gives_sortPair laws partRight).bind fun ⟨c', d'⟩ pairRight => ?_
  have perm : [a', b', c', d'].Perm [a, b, c, d] := pairLeft.append pairRight
  have part' : [a', b', c', d'].Subperm whole := perm.subperm.trans part
  have ha : a' ∈ whole := part'.subset (by simp)
  have hb : b' ∈ whole := part'.subset (by simp)
  have hc : c' ∈ whole := part'.subset (by simp)
  have hd : d' ∈ whole := part'.subset (by simp)
  have apart {x y : α} (hx : x ∈ [a', b']) (hy : y ∈ [c', d']) : [y, x].Subperm whole :=
    (List.Perm.swap x y []).subperm.trans ((subperm_pair_append hx hy).trans part')
  refine (gives_precedes_apart laws (apart (x := a') (y := c') (by simp) (by simp))).bind
    fun least below => ?_
  refine (gives_precedes_apart laws (apart (x := b') (y := d') (by simp) (by simp))).bind
    fun greatest below' => ?_
  have pairs (hk : (known ∧ cmp.Arranged whole [a, b] [a', b']) ∧
      cmp.Arranged whole [c, d] [c', d']) : cmp.Stable whole [a, b, c, d] [a', b', c', d'] ∧
        cmp.AtMost a' b' ∧ cmp.AtMost c' d' :=
    ⟨hk.1.2.stable.append hk.2.stable, by simpa using hk.1.2.increasing,
      by simpa using hk.2.increasing⟩
  -- `least` says that the lowest comes from the right pair, `greatest` that the highest comes from
  -- the left one; what remains between them is sorted last.
  cases least with
  | false =>
    cases greatest with
    | false =>
      refine gives_sortPair_between laws part perm fun ⟨⟨hk, atMost⟩, atMost'⟩ => ?_
      obtain ⟨stable, left, right⟩ := pairs hk
      exact ⟨stable, ⟨left, atMost rfl⟩, atMost' rfl, right⟩
    | true =>
      have below' : cmp.Below d' b' := below'.1 rfl
      have moved : [a', c', d', b'].Perm [a', b', c', d'] :=
        (List.perm_append_comm : ([c', d'] ++ [b']).Perm ([b'] ++ [c', d'])).cons a'
      refine gives_sortPair_between laws part (moved.trans perm) fun ⟨⟨hk, atMost⟩, _⟩ => ?_
      obtain ⟨stable, left, right⟩ := pairs hk
      have below : cmp.Below c' b' := laws.below_of_atMost_of_below hc hd hb right below'
      have jumped : cmp.Stable whole ([b'] ++ [c', d']) ([c', d'] ++ [b']) :=
        .jump laws (by simp [hb]) (by simp [hc, hd]) (by simp [below, below'])
      exact ⟨stable.trans (jumped.cons a'),
        ⟨atMost rfl, laws.trans ha hc hd (atMost rfl) right⟩, below.atMost, below'.atMost⟩
  | true =>
    have below : cmp.Below c' a' := below.1 rfl
    have moved : [c', a', b', d'].Perm [a', b', c', d'] :=
      (List.perm_append_comm : ([c'] ++ [a', b']).Perm ([a', b'] ++ [c'])).append_right [d']
    have jumped (left : cmp.AtMost a' b') :
        cmp.Stable whole ([a', b'] ++ [c'] ++ [d']) ([c'] ++ [a', b'] ++ [d']) := by
      refine Stable.append_right (.jump laws (by simp [ha, hb]) (by simp [hc]) ?_) [d']
      simpa using ⟨below, laws.below_of_below_of_atMost hc ha hb below left⟩
    cases greatest with
    | false =>
      refine gives_sortPair_between laws part (moved.trans perm) fun ⟨⟨hk, _⟩, atMost'⟩ => ?_
      obtain ⟨stable, left, right⟩ := pairs hk
      have aboveLeast := laws.below_of_below_of_atMost hc ha hb below left
      exact ⟨stable.trans (jumped left), ⟨below.atMost, aboveLeast.atMost⟩,
        laws.trans ha hb hd left (atMost' rfl), atMost' rfl⟩
    | true =>
      have below' : cmp.Below d' b' := below'.1 rfl
      have moved' : [c', a', d', b'].Perm [c', a', b', d'] :=
        ((List.Perm.swap b' d' []).cons a').cons c'
      refine gives_sortPair_between laws part (moved'.trans (moved.trans perm))
        fun ⟨⟨hk, _⟩, _⟩ => ?_
      obtain ⟨stable, left, right⟩ := pairs hk
      have last : cmp.Stable whole ([b'] ++ [d']) ([d'] ++ [b']) :=
        .jump laws (by simp [hb]) (by simp [hd]) (by simpa using below')
      exact ⟨stable.trans ((jumped left).trans ((last.cons a').cons c')), ⟨below.atMost, right⟩,
        left, below'.atMost⟩

/-- The start of a half is put in order. -/
theorem gives_startHalf (laws : cmp.OrdersOn (· ∈ whole)) (byFour : Bool) {items : List α}
    (part : items.Subperm whole) :
    Sorting.Gives (cmp.Clash whole) known (cmp.startHalf byFour items)
      (fun out => (out.1 ++ out.2).Perm items)
      (fun out => out.1.reverse.Pairwise cmp.AtMost ∧
        cmp.Stable whole items (out.1.reverse ++ out.2)) := by
  have single (a : α) (rest : List α) : Sorting.Gives (cmp.Clash whole) known
      (pure ([a], rest)) (fun out => (out.1 ++ out.2).Perm (a :: rest))
      (fun out => out.1.reverse.Pairwise cmp.AtMost ∧
        cmp.Stable whole (a :: rest) (out.1.reverse ++ out.2)) :=
    .pure (.refl _) fun _ => ⟨by simp, .refl _⟩
  unfold startHalf
  split
  · split
    next a b c d rest _ =>
      have start : [a, b, c, d].Subperm whole :=
        (List.sublist_append_left [a, b, c, d] rest).subperm.trans part
      refine (gives_sortFour laws start).bind fun out perm => ?_
      refine .pure (((List.reverse_perm out).trans perm).append_right rest) fun hk => ?_
      rw [List.reverse_reverse]
      exact ⟨hk.2.increasing, hk.2.stable.append_right rest⟩
    next => exact single _ _
  · exact single _ _
  · exact .pure (.refl _) fun _ => ⟨by simp, .refl _⟩

/-- A half is put in order, from its last element on. -/
theorem gives_sortHalf (laws : cmp.OrdersOn (· ∈ whole)) {items start rest : List α}
    (part : items.Subperm whole) (perm : (start ++ rest).Perm items)
    (h : known → start.reverse.Pairwise cmp.AtMost ∧
      cmp.Stable whole items (start.reverse ++ rest)) :
    Sorting.Gives (cmp.Clash whole) known (cmp.insertAll start rest)
      (fun out => out.reverse.Perm items) (fun out => cmp.Arranged whole items out.reverse) :=
  (gives_insertAll laws _ (perm.subperm.trans part) fun hk => (h hk).1).imp id
    (fun out perm' => (List.reverse_perm out).trans (perm'.trans perm))
    fun _ hk _ arranged => ⟨arranged.increasing, (h hk).2.trans arranged.stable⟩

/-- Sorting a block arranges it. -/
theorem sorts_sortBlock (laws : cmp.OrdersOn (· ∈ whole)) : cmp.Sorts whole cmp.sortBlock := by
  intro known items part
  unfold sortBlock
  split
  next short =>
    refine .pure (.refl _) fun _ => ⟨?_, .refl _⟩
    match items, short with
    | [], _ => exact .nil
    | [a], _ => exact List.pairwise_singleton _ a
  next =>
    rw [List.splitAt_eq]
    have halves := List.take_append_drop (items.length / 2) items
    generalize hleft : items.take (items.length / 2) = left at halves ⊢
    generalize hright : items.drop (items.length / 2) = right at halves ⊢
    have leftLength := congrArg List.length hleft
    have rightLength := congrArg List.length hright
    rw [← halves] at part ⊢
    have partLeft := (List.sublist_append_left left right).subperm.trans part
    have partRight := (List.sublist_append_right left right).subperm.trans part
    refine (gives_startHalf laws _ partLeft).bind fun ⟨start, rest⟩ perm => ?_
    refine (gives_startHalf laws _ partRight).bind fun ⟨start', rest'⟩ perm' => ?_
    refine (gives_sortHalf laws partLeft perm fun hk => hk.1.2).bind fun out sorted => ?_
    refine (gives_sortHalf laws partRight perm' fun hk => hk.1.2).bind fun out' sorted' => ?_
    have both := sorted.append sorted'
    refine (gives_mergeEnds laws (both.subperm.trans part) ?_ fun hk =>
      ⟨hk.1.2.increasing, hk.2.increasing⟩).imp id (fun _ perm => perm.trans both)
      fun _ hk _ arranged => ⟨arranged.increasing, ?_⟩
    · rw [sorted.length_eq, sorted'.length_eq, ← leftLength, ← rightLength]
      simp only [List.length_take, List.length_drop]
      omega
    · exact (hk.1.2.stable.append hk.2.stable).trans arranged.stable

end DataExpr.Comparison
