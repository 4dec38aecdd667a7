import DataExpr.Proofs.SortedInsertion
import DataExpr.Sort.Merge

/-!
# Merging arranges

While two lists are merged from the front, what has been taken of the right list is smaller than
all that remains of the left one, and what has been taken of the left list is at most what remains
of the right one.  A merge from the back is a merge from the front in descending order.  Of a merge
from both ends both facts hold at once; therefore the two ends cannot pass each other, and the
merge stops only if a comparison has failed.
-/

namespace DataExpr.Comparison

variable {α : Type}

/-! ### Descending order -/

section Mirror

variable {cmp : Comparison α} {whole : List α}

theorem clash_reversed (reverse : Bool) :
    (cmp.reversed reverse).Clash whole = cmp.Clash whole := by
  cases reverse with
  | false => rfl
  | true =>
    funext e
    apply propext
    constructor
    · rintro ⟨a, b, apart, h⟩
      exact ⟨b, a, (List.Perm.swap a b []).subperm.trans apart, h⟩
    · rintro ⟨a, b, apart, h⟩
      exact ⟨b, a, (List.Perm.swap a b []).subperm.trans apart, h⟩

/-- What ties does not depend on the direction. -/
theorem stable_reversed (laws : cmp.OrdersOn (· ∈ whole)) (reverse : Bool) {xs ys : List α}
    (hxs : xs ⊆ whole) (hys : ys ⊆ whole) :
    (cmp.reversed reverse).Stable whole xs ys ↔ cmp.Stable whole xs ys := by
  cases reverse with
  | false => exact .rfl
  | true =>
    have tied {k : α} (hk : k ∈ whole) {xs : List α} (hxs : xs ⊆ whole) :
        xs.filter ((cmp.reversed true).ties k) = xs.filter (cmp.ties k) := by
      refine List.filter_congr fun x hx => ?_
      rw [Bool.eq_iff_iff, ties_eq_true, ties_eq_true]
      exact laws.ok_iff_swap (hxs hx) hk
    exact forall₂_congr fun k hk => by rw [tied hk hxs, tied hk hys]

/-- A list arranged in descending order is arranged from its end. -/
theorem Arranged.of_reversed (laws : cmp.OrdersOn (· ∈ whole)) {items sorted : List α}
    (hitems : items ⊆ whole) (hsorted : sorted ⊆ whole)
    (h : (cmp.reversed true).Arranged whole items sorted) :
    cmp.Arranged whole items.reverse sorted.reverse := by
  refine ⟨List.pairwise_reverse.2 h.increasing, fun k hk => ?_⟩
  rw [List.filter_reverse, List.filter_reverse,
    (stable_reversed laws true hitems hsorted).1 h.stable k hk]

end Mirror

/-! ### Merging from the front -/

/-- Of two lists the last parts remain, and `low` is what has been taken. -/
def FrontOf (L R low left right : List α) : Prop :=
  ∃ l r, L = l ++ left ∧ R = r ++ right ∧ low.Perm (l ++ r)

/-- What has been taken of two lists by a merge from the front.  It is given from its last element
    on. -/
def FrontInOrder (cmp : Comparison α) (whole L R low left right : List α) : Prop :=
  ∃ l r, L = l ++ left ∧ R = r ++ right ∧ low.Perm (l ++ r) ∧
    cmp.Arranged whole (l ++ r) low.reverse ∧ (∀ y ∈ r, ∀ x ∈ left, cmp.Below y x) ∧
    ∀ x ∈ l, ∀ y ∈ right, cmp.AtMost x y

theorem FrontOf.start (L R : List α) : FrontOf L R [] L R := ⟨[], [], rfl, rfl, .refl _⟩

theorem FrontOf.takeLeft {L R low left right : List α} {a : α}
    (h : FrontOf L R low (a :: left) right) : FrontOf L R (a :: low) left right := by
  obtain ⟨l, r, hl, hr, perm⟩ := h
  refine ⟨l ++ [a], r, by simp [hl], hr, ?_⟩
  rw [List.append_assoc, List.singleton_append]
  exact (perm.cons a).trans List.perm_middle.symm

theorem FrontOf.takeRight {L R low left right : List α} {b : α}
    (h : FrontOf L R low left (b :: right)) : FrontOf L R (b :: low) left right := by
  obtain ⟨l, r, hl, hr, perm⟩ := h
  refine ⟨l, r ++ [b], hl, by simp [hr], ?_⟩
  rw [← List.append_assoc]
  exact (perm.cons b).trans (List.perm_append_singleton b (l ++ r)).symm

namespace FrontInOrder

variable {cmp : Comparison α} {whole L R low left right : List α} {a b : α}

theorem start (L R : List α) : cmp.FrontInOrder whole L R [] L R :=
  ⟨[], [], rfl, rfl, .refl _, ⟨by simp, .refl _⟩, by simp, by simp⟩

theorem takeRight (laws : cmp.OrdersOn (· ∈ whole)) (hL : L ⊆ whole) (hR : R ⊆ whole)
    (incL : L.Pairwise cmp.AtMost) (incR : R.Pairwise cmp.AtMost)
    (h : cmp.FrontInOrder whole L R low (a :: left) (b :: right)) (hba : cmp.Below b a) :
    cmp.FrontInOrder whole L R (b :: low) (a :: left) right := by
  obtain ⟨l, r, rfl, rfl, perm, arranged, strict, atMost⟩ := h
  refine ⟨l, r ++ [b], rfl, by simp, ?_, ⟨?_, ?_⟩, ?_, ?_⟩
  · rw [← List.append_assoc]
    exact (perm.cons b).trans (List.perm_append_singleton b (l ++ r)).symm
  · rw [List.reverse_cons, increasing_concat]
    refine ⟨arranged.increasing, fun x hx => ?_⟩
    rcases List.mem_append.1 (perm.mem_iff.1 (List.mem_reverse.1 hx)) with hx | hx
    · exact atMost x hx b List.mem_cons_self
    · exact (List.pairwise_append.1 incR).2.2 x hx b List.mem_cons_self
  · rw [List.reverse_cons, ← List.append_assoc]
    exact arranged.stable.append_right [b]
  · -- what remains on the left is at least its first element
    intro y hy x hx
    rcases List.mem_append.1 hy with hy | hy
    · exact strict y hy x hx
    · rw [List.mem_singleton.1 hy]
      rcases List.mem_cons.1 hx with rfl | hx'
      · exact hba
      · have hax := List.rel_of_pairwise_cons (List.pairwise_append.1 incL).2.1 hx'
        exact laws.below_of_below_of_atMost (hR (by simp)) (hL (by simp)) (hL (by simp [hx']))
          hba hax
  · exact fun x hx y hy => atMost x hx y (List.mem_cons_of_mem b hy)

theorem takeLeft (laws : cmp.OrdersOn (· ∈ whole)) (hL : L ⊆ whole) (hR : R ⊆ whole)
    (incL : L.Pairwise cmp.AtMost) (incR : R.Pairwise cmp.AtMost)
    (h : cmp.FrontInOrder whole L R low (a :: left) (b :: right)) (hab : cmp.AtMost a b) :
    cmp.FrontInOrder whole L R (a :: low) left (b :: right) := by
  obtain ⟨l, r, rfl, rfl, perm, arranged, strict, atMost⟩ := h
  refine ⟨l ++ [a], r, by simp, rfl, ?_, ⟨?_, ?_⟩, ?_, ?_⟩
  · rw [List.append_assoc, List.singleton_append]
    exact (perm.cons a).trans List.perm_middle.symm
  · rw [List.reverse_cons, increasing_concat]
    refine ⟨arranged.increasing, fun x hx => ?_⟩
    rcases List.mem_append.1 (perm.mem_iff.1 (List.mem_reverse.1 hx)) with hx | hx
    · exact (List.pairwise_append.1 incL).2.2 x hx a List.mem_cons_self
    · exact (strict x hx a List.mem_cons_self).atMost
  · -- the new element is greater than what has been taken of the right list
    have jumped : cmp.Stable whole ([a] ++ r) (r ++ [a]) :=
      .jump laws (by simpa using hL (by simp)) (fun y hy => hR (by simp [hy]))
        fun x hx y hy => List.mem_singleton.1 hx ▸ strict y hy a List.mem_cons_self
    rw [List.reverse_cons]
    have moved := jumped.append_left l
    rw [← List.append_assoc, ← List.append_assoc] at moved
    exact moved.trans (arranged.stable.append_right [a])
  · exact fun y hy x hx => strict y hy x (List.mem_cons_of_mem a hx)
  · intro x hx y hy
    rcases List.mem_append.1 hx with hx | hx
    · exact atMost x hx y hy
    · rw [List.mem_singleton.1 hx]
      rcases List.mem_cons.1 hy with rfl | hy'
      · exact hab
      · have hby := List.rel_of_pairwise_cons (List.pairwise_append.1 incR).2.1 hy'
        exact laws.trans (hL (by simp)) (hR (by simp)) (hR (by simp [hy'])) hab hby

/-- The left list is used up. -/
theorem finishRight (incR : R.Pairwise cmp.AtMost)
    (h : cmp.FrontInOrder whole L R low [] right) :
    cmp.Arranged whole (L ++ R) (low.reverse ++ right) := by
  obtain ⟨l, r, rfl, rfl, perm, arranged, -, atMost⟩ := h
  refine ⟨List.pairwise_append.2 ⟨arranged.increasing, (List.pairwise_append.1 incR).2.1, ?_⟩, ?_⟩
  · intro x hx y hy
    rcases List.mem_append.1 (perm.mem_iff.1 (List.mem_reverse.1 hx)) with hx | hx
    · exact atMost x hx y hy
    · exact (List.pairwise_append.1 incR).2.2 x hx y hy
  · rw [List.append_nil, ← List.append_assoc]
    exact arranged.stable.append_right right

/-- The right list is used up. -/
theorem finishLeft (laws : cmp.OrdersOn (· ∈ whole)) (hL : L ⊆ whole) (hR : R ⊆ whole)
    (incL : L.Pairwise cmp.AtMost) (h : cmp.FrontInOrder whole L R low left []) :
    cmp.Arranged whole (L ++ R) (low.reverse ++ left) := by
  obtain ⟨l, r, rfl, rfl, perm, arranged, strict, -⟩ := h
  refine ⟨List.pairwise_append.2 ⟨arranged.increasing, (List.pairwise_append.1 incL).2.1, ?_⟩, ?_⟩
  · intro x hx y hy
    rcases List.mem_append.1 (perm.mem_iff.1 (List.mem_reverse.1 hx)) with hx | hx
    · exact (List.pairwise_append.1 incL).2.2 x hx y hy
    · exact (strict x hx y hy).atMost
  · have jumped : cmp.Stable whole (left ++ r) (r ++ left) :=
      .jump laws (fun x hx => hL (by simp [hx])) (fun y hy => hR (by simp [hy]))
        fun x hx y hy => strict y hy x hx
    have moved := jumped.append_left l
    rw [← List.append_assoc, ← List.append_assoc] at moved
    rw [List.append_nil]
    exact moved.trans (arranged.stable.append_right left)

end FrontInOrder

section Merge

variable {cmp : Comparison α} {whole : List α} {known : Prop}

theorem gives_mergeFront (laws : cmp.OrdersOn (· ∈ whole)) {L R : List α}
    (part : (L ++ R).Subperm whole) {low left right : List α}
    (front : FrontOf L R low left right)
    (h : known → L.Pairwise cmp.AtMost ∧ R.Pairwise cmp.AtMost ∧
      cmp.FrontInOrder whole L R low left right) :
    Sorting.Gives (cmp.Clash whole) known (cmp.mergeFront low left right)
      (fun out => out.Perm (L ++ R)) (fun out => cmp.Arranged whole (L ++ R) out) := by
  have hL : L ⊆ whole := fun x hx => part.subset (List.mem_append_left R hx)
  have hR : R ⊆ whole := fun x hx => part.subset (List.mem_append_right L hx)
  -- The induction follows the merge: either list is used up, or the smaller head is taken.
  induction low, left, right using mergeFront.induct generalizing known with
  | case1 low right =>
    rw [mergeFront, List.reverseAux_eq]
    obtain ⟨l, r, rfl, rfl, perm⟩ := front
    refine .pure ?_ fun hk => (h hk).2.2.finishRight (h hk).2.1
    rw [List.append_nil, ← List.append_assoc]
    exact ((List.reverse_perm low).trans perm).append_right right
  | case2 low left hne =>
    rw [mergeFront, List.reverseAux_eq]
    · obtain ⟨l, r, rfl, rfl, perm⟩ := front
      refine .pure ?_ fun hk => (h hk).2.2.finishLeft laws hL hR (h hk).1
      rw [List.append_nil]
      have taken := ((List.reverse_perm low).trans perm).append_right left
      have exchanged : (l ++ (r ++ left)).Perm (l ++ (left ++ r)) :=
        List.perm_append_comm.append_left l
      rw [List.append_assoc] at taken
      rw [List.append_assoc]
      exact taken.trans exchanged
    · exact hne
  | case3 low a left b right ihRight ihLeft =>
    rw [mergeFront]
    have apart : [b, a].Subperm whole := by
      obtain ⟨l, r, rfl, rfl, -⟩ := front
      exact (List.Perm.swap a b []).subperm.trans
        ((subperm_pair_append (by simp) (by simp)).trans part)
    refine (gives_precedes_apart laws apart).bind fun smaller below => ?_
    cases smaller with
    | true =>
      refine ihRight front.takeRight fun hk => ⟨(h hk.1).1, (h hk.1).2.1, ?_⟩
      exact (h hk.1).2.2.takeRight laws hL hR (h hk.1).1 (h hk.1).2.1 (below.1 rfl)
    | false =>
      refine ihLeft front.takeLeft fun hk => ⟨(h hk.1).1, (h hk.1).2.1, ?_⟩
      exact (h hk.1).2.2.takeLeft laws hL hR (h hk.1).1 (h hk.1).2.1 (hk.2 rfl)

/-- Merging from the back is merging from the front in descending order. -/
theorem mergeBack_eq (high left right : List α) :
    cmp.mergeBack high left right =
      (cmp.reversed true).mergeFront high right left >>= fun out => pure out.reverse := by
  induction high, left, right using mergeBack.induct with
  | case1 high right => cases right <;> simp [mergeBack, mergeFront, List.reverseAux_eq]
  | case2 high left hne =>
    cases left with
    | nil => exact absurd rfl hne
    | cons a left => simp [mergeBack, mergeFront, List.reverseAux_eq]
  | case3 high a left b right ihLeft ihRight =>
    rw [mergeBack, mergeFront, bind_assoc]
    refine congrArg _ (funext fun smaller => ?_)
    cases smaller with
    | true => exact ihLeft
    | false => exact ihRight

/-- Merging two lists in order arranges them. -/
theorem gives_merge (laws : cmp.OrdersOn (· ∈ whole)) {left right : List α}
    (part : (left ++ right).Subperm whole)
    (h : known → left.Pairwise cmp.AtMost ∧ right.Pairwise cmp.AtMost) :
    Sorting.Gives (cmp.Clash whole) known (cmp.merge left right)
      (fun out => out.Perm (left ++ right))
      (fun out => cmp.Arranged whole (left ++ right) out) := by
  unfold merge
  split
  · exact gives_mergeFront laws part (.start left right)
      fun hk => ⟨(h hk).1, (h hk).2, .start left right⟩
  · have swapped : (right.reverse ++ left.reverse).Perm (left ++ right) := by
      rw [← List.reverse_append]
      exact List.reverse_perm _
    rw [mergeBack_eq, ← clash_reversed true]
    refine (gives_mergeFront (laws.reversed true) (swapped.subperm.trans part)
      (.start right.reverse left.reverse) fun hk =>
        ⟨List.pairwise_reverse.2 (h hk).2, List.pairwise_reverse.2 (h hk).1,
          .start _ _⟩).bind fun out perm => ?_
    have perm := perm.trans swapped
    refine .pure ((List.reverse_perm out).trans perm) fun hk => ?_
    have arranged := hk.2.of_reversed laws (swapped.subperm.trans part).subset
      (perm.subperm.trans part).subset
    rwa [List.reverse_append, List.reverse_reverse, List.reverse_reverse] at arranged

end Merge

/-! ### Merging from both ends -/

/-- Where the first part of one cut of a list is longer than that of another cut, they overlap. -/
theorem exists_mem_overlap {xs ys xs' ys' : List α} (h : xs ++ ys = xs' ++ ys')
    (longer : xs'.length < xs.length) : ∃ x, x ∈ xs ∧ x ∈ ys' := by
  rcases List.append_eq_append_iff.1 h with ⟨zs, rfl, -⟩ | ⟨zs, rfl, rfl⟩
  · simp only [List.length_append] at longer
    omega
  · cases zs with
    | nil => simp at longer
    | cons z zs => exact ⟨z, by simp, by simp⟩

/-- Cuts of a list at the same place give the same parts. -/
theorem cut_eq {xs ys zs suffix rest suffix' : List α} (h : xs = ys ++ (zs ++ suffix))
    (h' : xs = rest.reverse ++ suffix') (met : suffix.length + rest.length = xs.length) :
    ys ++ zs = rest.reverse ∧ suffix = suffix' := by
  rw [← List.append_assoc] at h
  refine List.append_inj (h.symm.trans h') ?_
  have := congrArg List.length h
  simp only [List.length_append, List.length_reverse] at this ⊢
  omega

/-- What has been taken of two lists from their ends. -/
theorem FrontOf.back {L R high leftBack rightBack : List α}
    (h : FrontOf R.reverse L.reverse high rightBack leftBack) :
    ∃ l r, L = leftBack.reverse ++ l ∧ R = rightBack.reverse ++ r ∧ high.Perm (l ++ r) := by
  obtain ⟨r, l, hr, hl, perm⟩ := h
  refine ⟨l.reverse, r.reverse, List.reverse_eq_append_iff.1 hl, List.reverse_eq_append_iff.1 hr,
    ?_⟩
  rw [← List.reverse_append]
  exact perm.trans (List.reverse_perm _).symm

theorem FrontInOrder.back {cmp : Comparison α} {whole L R high leftBack rightBack : List α}
    (laws : cmp.OrdersOn (· ∈ whole)) (part : (L ++ R).Subperm whole)
    (h : (cmp.reversed true).FrontInOrder whole R.reverse L.reverse high rightBack leftBack) :
    ∃ l r, L = leftBack.reverse ++ l ∧ R = rightBack.reverse ++ r ∧ high.Perm (l ++ r) ∧
      cmp.Arranged whole (l ++ r) high ∧ (∀ x ∈ l, ∀ y ∈ rightBack, cmp.Below y x) ∧
      ∀ y ∈ r, ∀ x ∈ leftBack, cmp.AtMost x y := by
  obtain ⟨r, l, hr, hl, perm, arranged, strict, atMost⟩ := h
  have hl' := List.reverse_eq_append_iff.1 hl
  have hr' := List.reverse_eq_append_iff.1 hr
  have inside : r ++ l ⊆ whole := fun x hx => part.subset (by
    rw [hl', hr']
    simp only [List.mem_append, List.mem_reverse] at hx ⊢
    tauto)
  have arranged := arranged.of_reversed laws inside
    fun x hx => inside (perm.mem_iff.1 (List.mem_reverse.1 hx))
  rw [List.reverse_append, List.reverse_reverse] at arranged
  refine ⟨l.reverse, r.reverse, hl', hr', ?_, arranged,
    fun x hx y hy => strict x (List.mem_reverse.1 hx) y hy,
    fun y hy x hx => atMost y (List.mem_reverse.1 hy) x hx⟩
  rw [← List.reverse_append]
  exact perm.trans (List.reverse_perm _).symm

namespace Meeting

variable {cmp : Comparison α} {whole L R : List α} {known : Prop}

/-- A merge of two lists from both ends. -/
def Of (L R : List α) (m : Meeting α) : Prop :=
  FrontOf L R m.low m.left m.right ∧
    FrontOf R.reverse L.reverse m.high m.rightBack m.leftBack

/-- What has been taken at the two ends is in order. -/
def InOrder (cmp : Comparison α) (whole L R : List α) (m : Meeting α) : Prop :=
  cmp.FrontInOrder whole L R m.low m.left m.right ∧
    (cmp.reversed true).FrontInOrder whole R.reverse L.reverse m.high m.rightBack m.leftBack

/-- What one step at the front leaves, as the three lists taken, left and right. -/
def front (smaller : Bool) (low : List α) (a : α) (left : List α) (b : α) (right : List α) :
    List α × List α × List α :=
  if smaller then (b :: low, a :: left, right) else (a :: low, left, b :: right)

theorem of_front {low left right : List α} {a b : α} (smaller : Bool)
    (h : FrontOf L R low (a :: left) (b :: right)) :
    FrontOf L R (front smaller low a left b right).1 (front smaller low a left b right).2.1
        (front smaller low a left b right).2.2 ∧
      (front smaller low a left b right).1.length = low.length + 1 ∧
      left.length ≤ (front smaller low a left b right).2.1.length ∧
      right.length ≤ (front smaller low a left b right).2.2.length := by
  cases smaller with
  | true => exact ⟨h.takeRight, by simp [front], by simp [front], by simp [front]⟩
  | false => exact ⟨h.takeLeft, by simp [front], by simp [front], by simp [front]⟩

theorem inOrder_front (laws : cmp.OrdersOn (· ∈ whole)) (hL : L ⊆ whole) (hR : R ⊆ whole)
    (incL : L.Pairwise cmp.AtMost) (incR : R.Pairwise cmp.AtMost) {low left right : List α}
    {a b : α} {smaller : Bool} (h : cmp.FrontInOrder whole L R low (a :: left) (b :: right))
    (below : smaller = true → cmp.Below b a) (atMost : smaller = false → cmp.AtMost a b) :
    cmp.FrontInOrder whole L R (front smaller low a left b right).1
      (front smaller low a left b right).2.1 (front smaller low a left b right).2.2 := by
  cases smaller with
  | true => exact h.takeRight laws hL hR incL incR (below rfl)
  | false => exact h.takeLeft laws hL hR incL incR (atMost rfl)

/-- A step takes one element at the front and, in descending order, one at the back. -/
theorem advance_succ (cmp : Comparison α) (steps : Nat)
    (low high left right leftBack rightBack : List α) (a b c d : α) :
    advance cmp (steps + 1) ⟨low, high, a :: left, b :: right, c :: leftBack, d :: rightBack⟩ =
      cmp.precedes b a >>= fun first => (cmp.reversed true).precedes c d >>= fun last =>
        advance cmp steps
          ⟨(front first low a left b right).1, (front last high d rightBack c leftBack).1,
            (front first low a left b right).2.1, (front first low a left b right).2.2,
            (front last high d rightBack c leftBack).2.2,
            (front last high d rightBack c leftBack).2.1⟩ := by
  rw [advance]
  refine congrArg (cmp.precedes b a >>= ·) (funext fun first => ?_)
  cases first <;>
  · refine congrArg (cmp.precedes d c >>= ·) (funext fun last => ?_)
    cases last <;> rfl

theorem gives_advance (laws : cmp.OrdersOn (· ∈ whole)) (part : (L ++ R).Subperm whole)
    (steps : Nat) {m : Meeting α} (of : m.Of L R)
    (enough : steps ≤ m.left.length ∧ steps ≤ m.right.length ∧ steps ≤ m.leftBack.length ∧
      steps ≤ m.rightBack.length)
    (h : known → L.Pairwise cmp.AtMost ∧ R.Pairwise cmp.AtMost ∧ m.InOrder cmp whole L R) :
    Sorting.Gives (cmp.Clash whole) known (advance cmp steps m)
      (fun m' => m'.Of L R ∧ m'.low.length = m.low.length + steps ∧
        m'.high.length = m.high.length + steps)
      (fun m' => m'.InOrder cmp whole L R) := by
  have hL : L ⊆ whole := fun x hx => part.subset (List.mem_append_left R hx)
  have hR : R ⊆ whole := fun x hx => part.subset (List.mem_append_right L hx)
  have hL' : L.reverse ⊆ whole := fun x hx => hL (List.mem_reverse.1 hx)
  have hR' : R.reverse ⊆ whole := fun x hx => hR (List.mem_reverse.1 hx)
  -- Each step takes one from the front and one from the back; the back is a front of the
  -- reversed lists under the reversed order.
  induction steps generalizing m known with
  | zero => exact .pure ⟨of, rfl, rfl⟩ fun hk => (h hk).2.2
  | succ steps ih =>
    obtain ⟨low, high, left, right, leftBack, rightBack⟩ := m
    obtain ⟨(hfront : FrontOf L R low left right),
      (hback : FrontOf R.reverse L.reverse high rightBack leftBack)⟩ := of
    match left, right, leftBack, rightBack with
    | [], _, _, _ | _ :: _, [], _, _ | _ :: _, _ :: _, [], _ | _ :: _, _ :: _, _ :: _, [] =>
      simp at enough
    | a :: left, b :: right, c :: leftBack, d :: rightBack =>
      have apart : [b, a].Subperm whole := by
        obtain ⟨l, r, rfl, rfl, -⟩ := hfront
        exact (List.Perm.swap a b []).subperm.trans
          ((subperm_pair_append (by simp) (by simp)).trans part)
      have apart' : [c, d].Subperm whole := by
        obtain ⟨r, l, hr, hl, -⟩ := hback
        exact (subperm_pair_append (List.mem_reverse.1 (by simp [hl]))
          (List.mem_reverse.1 (by simp [hr]))).trans part
      rw [advance_succ]
      refine (gives_precedes_apart laws apart).bind fun first below => ?_
      rw [← clash_reversed true]
      refine (gives_precedes_apart (laws.reversed true) apart').bind fun last below' => ?_
      rw [clash_reversed true]
      obtain ⟨hfront', lowLength, leftLength, rightLength⟩ := of_front first hfront
      obtain ⟨hback', highLength, rightBackLength, leftBackLength⟩ := of_front last hback
      simp only [List.length_cons, Nat.add_le_add_iff_right] at enough
      have enough' : steps ≤ (front first low a left b right).2.1.length ∧
          steps ≤ (front first low a left b right).2.2.length ∧
          steps ≤ (front last high d rightBack c leftBack).2.2.length ∧
          steps ≤ (front last high d rightBack c leftBack).2.1.length := by omega
      refine (ih ⟨hfront', hback'⟩ enough' fun hk => ?_).imp id ?_ fun _ _ _ => id
      · obtain ⟨⟨hk, atMost⟩, atMost'⟩ := hk
        obtain ⟨incL, incR, inOrder, inOrder'⟩ := h hk
        exact ⟨incL, incR, inOrder_front laws hL hR incL incR inOrder below.1 atMost,
          inOrder_front (laws.reversed true) hR' hL' (List.pairwise_reverse.2 incR)
            (List.pairwise_reverse.2 incL) inOrder' below'.1 atMost'⟩
      · rintro m' ⟨of', hlow, hhigh⟩
        exact ⟨of', by simp only [hlow, lowLength]; omega, by simp only [hhigh, highLength]; omega⟩

/-- The two ends meet: what remains at the front, less a middle part of each list, is what the
    back has taken. -/
theorem perm_of_met {m : Meeting α} (of : m.Of L R) {midL midR l' r' : List α}
    (hleft : m.left = midL ++ l') (hright : m.right = midR ++ r')
    (metLeft : l'.length + m.leftBack.length = L.length)
    (metRight : r'.length + m.rightBack.length = R.length) :
    (m.low.reverse ++ (midL ++ midR ++ m.high)).Perm (L ++ R) := by
  obtain ⟨⟨l, r, hl, hr, low⟩, hback⟩ := of
  obtain ⟨lBack, rBack, hl', hr', high⟩ := hback.back
  obtain ⟨-, rfl⟩ := cut_eq (hl.trans (by rw [hleft])) hl' metLeft
  obtain ⟨-, rfl⟩ := cut_eq (hr.trans (by rw [hright])) hr' metRight
  rw [hl, hr, hleft, hright]
  classical
  refine List.perm_iff_count.2 fun x => ?_
  have low := low.count_eq x
  have high := high.count_eq x
  simp only [List.count_append, List.count_reverse] at low high ⊢
  omega

/-- The start of the right list jumps over the rest of the left one, and then the end of the left
    list over the middle of the right one. -/
theorem stable_meet (laws : cmp.OrdersOn (· ∈ whole)) {l midL l' r midR r' : List α}
    (hL : l ++ (midL ++ l') ⊆ whole) (hR : r ++ (midR ++ r') ⊆ whole)
    (low : ∀ x ∈ midL ++ l', ∀ y ∈ r, cmp.Below y x)
    (high : ∀ x ∈ l', ∀ y ∈ midR, cmp.Below y x) :
    cmp.Stable whole (l ++ (midL ++ l') ++ (r ++ (midR ++ r')))
      (l ++ r ++ (midL ++ midR ++ (l' ++ r'))) := by
  have jumpedLow : cmp.Stable whole ((midL ++ l') ++ r) (r ++ (midL ++ l')) :=
    .jump laws (fun x hx => hL (List.mem_append_right l hx)) (fun y hy => hR (by simp [hy])) low
  have jumpedHigh : cmp.Stable whole (l' ++ midR) (midR ++ l') :=
    .jump laws (fun x hx => hL (by simp [hx])) (fun y hy => hR (by simp [hy])) high
  calc cmp.Stable whole (l ++ (midL ++ l') ++ (r ++ (midR ++ r')))
        (l ++ (r ++ (midL ++ l')) ++ (midR ++ r')) := by
        simpa using (jumpedLow.append_left l).append_right (midR ++ r')
    cmp.Stable whole _ (l ++ r ++ (midL ++ midR ++ (l' ++ r'))) := by
        simpa using (jumpedHigh.append_right r').append_left (l ++ r ++ midL)

/-- Where the two ends meet, the lists are arranged. -/
theorem arranged_of_met (laws : cmp.OrdersOn (· ∈ whole)) (part : (L ++ R).Subperm whole)
    (incL : L.Pairwise cmp.AtMost) (incR : R.Pairwise cmp.AtMost) {m : Meeting α}
    (inOrder : m.InOrder cmp whole L R) {midL midR l' r' : List α} (hleft : m.left = midL ++ l')
    (hright : m.right = midR ++ r') (metLeft : l'.length + m.leftBack.length = L.length)
    (metRight : r'.length + m.rightBack.length = R.length)
    (middle : (midL ++ midR).Pairwise cmp.AtMost) :
    cmp.Arranged whole (L ++ R) (m.low.reverse ++ (midL ++ midR ++ m.high)) := by
  have hL : L ⊆ whole := fun x hx => part.subset (List.mem_append_left R hx)
  have hR : R ⊆ whole := fun x hx => part.subset (List.mem_append_right L hx)
  obtain ⟨⟨l, r, hl, hr, low, arrangedLow, strict, atMost⟩, hback⟩ := inOrder
  obtain ⟨lBack, rBack, hl', hr', high, arrangedHigh, strictBack, atMostBack⟩ :=
    hback.back laws part
  rw [hleft] at hl strict
  rw [hright] at hr atMost
  -- Front and back have met: each list is what the front took, the middle, and what the back took.
  obtain ⟨cutL, rfl⟩ := cut_eq hl hl' metLeft
  obtain ⟨cutR, rfl⟩ := cut_eq hr hr' metRight
  have inLeftBack : ∀ x ∈ l ++ midL, x ∈ m.leftBack := fun x hx => by simpa [cutL] using hx
  have inRightBack : ∀ x ∈ r ++ midR, x ∈ m.rightBack := fun x hx => by simpa [cutR] using hx
  subst hl hr
  constructor
  · have inLow {x : α} (hx : x ∈ m.low.reverse) : x ∈ l ∨ x ∈ r :=
      List.mem_append.1 (low.mem_iff.1 (List.mem_reverse.1 hx))
    have inHigh {x : α} (hx : x ∈ m.high) : x ∈ l' ∨ x ∈ r' :=
      List.mem_append.1 (high.mem_iff.1 hx)
    have leftLow := (List.pairwise_append.1 incL).2.2
    have leftHigh := (List.pairwise_append.1 (List.pairwise_append.1 incL).2.1).2.2
    have rightLow := (List.pairwise_append.1 incR).2.2
    have rightHigh := (List.pairwise_append.1 (List.pairwise_append.1 incR).2.1).2.2
    refine List.pairwise_append.2 ⟨arrangedLow.increasing, List.pairwise_append.2
      ⟨middle, arrangedHigh.increasing, fun x hx y hy => ?_⟩, fun x hx y hy => ?_⟩
    · rcases List.mem_append.1 hx with hx | hx <;> rcases inHigh hy with hy | hy
      · exact leftHigh x hx y hy
      · exact atMostBack y hy x (inLeftBack x (by simp [hx]))
      · exact (strictBack y hy x (inRightBack x (by simp [hx]))).atMost
      · exact rightHigh x hx y hy
    · have hy : y ∈ midL ++ l' ∨ y ∈ midR ++ r' := by
        simp only [List.mem_append] at hy ⊢
        rcases hy with (hy | hy) | hy
        · exact .inl (.inl hy)
        · exact .inr (.inl hy)
        · exact (inHigh hy).imp .inr .inr
      rcases inLow hx with hx | hx <;> rcases hy with hy | hy
      · exact leftLow x hx y hy
      · exact atMost x hx y hy
      · exact (strict x hx y hy).atMost
      · exact rightLow x hx y hy
  · have met := stable_meet laws hL hR (fun x hx y hy => strict y hy x hx)
      fun x hx y hy => strictBack x hx y (inRightBack y (by simp [hy]))
    exact met.trans
      (arrangedLow.stable.append (arrangedHigh.stable.append_left (midL ++ midR)))

/-- What has been taken of one list at both ends can not have been taken twice, while a part of the
    other list has not been taken. -/
theorem not_crossed (laws : cmp.OrdersOn (· ∈ whole)) (part : (L ++ R).Subperm whole)
    {m : Meeting α} (inOrder : m.InOrder cmp whole L R) :
    (m.left.length + m.leftBack.length < L.length →
      m.right.length + m.rightBack.length ≤ R.length) ∧
    (m.right.length + m.rightBack.length < R.length →
      m.left.length + m.leftBack.length ≤ L.length) := by
  have hL : L ⊆ whole := fun x hx => part.subset (List.mem_append_left R hx)
  have hR : R ⊆ whole := fun x hx => part.subset (List.mem_append_right L hx)
  obtain ⟨⟨l, r, hl, hr, -, -, strict, atMost⟩, hback⟩ := inOrder
  obtain ⟨l', r', hl', hr', -, -, strictBack, atMostBack⟩ := hback.back laws part
  have lengthL := congrArg List.length hl
  have lengthR := congrArg List.length hr
  simp only [List.length_append] at lengthL lengthR
  refine ⟨fun twice => Nat.not_lt.1 fun never => ?_, fun twice => Nat.not_lt.1 fun never => ?_⟩
  · -- an element taken twice is at most one that neither end has taken, and is above it
    obtain ⟨x, hx, hx'⟩ := exists_mem_overlap (hl.symm.trans hl')
      (by rw [List.length_reverse]; omega)
    obtain ⟨y, hy, hy'⟩ := exists_mem_overlap (hr'.symm.trans hr)
      (by rw [List.length_reverse]; omega)
    exact laws.not_below_of_atMost (hL (by simp [hl, hx])) (hR (by simp [hr, hy']))
      (atMost x hx y hy') (strictBack x hx' y (List.mem_reverse.1 hy))
  · obtain ⟨y, hy, hy'⟩ := exists_mem_overlap (hr.symm.trans hr')
      (by rw [List.length_reverse]; omega)
    obtain ⟨x, hx, hx'⟩ := exists_mem_overlap (hl'.symm.trans hl)
      (by rw [List.length_reverse]; omega)
    exact laws.not_below_of_atMost (hL (by simp [hl, hx'])) (hR (by simp [hr, hy]))
      (atMostBack y hy' x (List.mem_reverse.1 hx)) (strict y hy x hx')

/-- What has been taken and what remains are the elements of both lists, at the front and at the
    back. -/
theorem Of.lengths {m : Meeting α} (of : m.Of L R) :
    m.low.length + (m.left.length + m.right.length) = L.length + R.length ∧
      m.high.length + (m.leftBack.length + m.rightBack.length) = L.length + R.length ∧
      m.leftBack.length ≤ L.length := by
  obtain ⟨⟨l, r, hl, hr, low⟩, hback⟩ := of
  obtain ⟨l', r', hl', hr', high⟩ := hback.back
  have hl := congrArg List.length hl
  have hr := congrArg List.length hr
  have hl' := congrArg List.length hl'
  have hr' := congrArg List.length hr'
  have low := low.length_eq
  have high := high.length_eq
  simp only [List.length_append, List.length_reverse] at hl hr hl' hr' low high
  omega

/-- The end of a merge from both ends.  A middle element may remain; if the two ends can not have
    crossed, then they meet. -/
theorem gives_close (laws : cmp.OrdersOn (· ∈ whole)) (part : (L ++ R).Subperm whole)
    {m : Meeting α} (of : m.Of L R) (midL midR : List α) {middle l' r' : List α}
    (hmiddle : middle = midL ++ midR) (single : middle.length ≤ 1)
    (hleft : m.left = midL ++ l') (hright : m.right = midR ++ r')
    (meet : (m.left.length + m.leftBack.length < L.length →
        m.right.length + m.rightBack.length ≤ R.length) →
      (m.right.length + m.rightBack.length < R.length →
        m.left.length + m.leftBack.length ≤ L.length) →
      l'.length + m.leftBack.length = L.length ∧ r'.length + m.rightBack.length = R.length)
    (h : known → L.Pairwise cmp.AtMost ∧ R.Pairwise cmp.AtMost ∧ m.InOrder cmp whole L R) :
    Sorting.Gives (cmp.Clash whole) known
      (if l'.length + m.leftBack.length = L.length ∧ r'.length + m.rightBack.length = R.length
        then pure (m.low.reverseAux (middle ++ m.high)) else throw .disorder)
      (fun out => out.Perm (L ++ R)) (fun out => cmp.Arranged whole (L ++ R) out) := by
  subst hmiddle
  split
  next met =>
    rw [List.reverseAux_eq]
    refine .pure (perm_of_met of hleft hright met.1 met.2) fun hk => ?_
    obtain ⟨incL, incR, inOrder⟩ := h hk
    refine arranged_of_met laws part incL incR inOrder hleft hright met.1 met.2 ?_
    match midL ++ midR, single with
    | [], _ => exact .nil
    | [x], _ => exact List.pairwise_singleton _ x
  next apart =>
    refine .throw fun hk => absurd ?_ apart
    obtain ⟨crossL, crossR⟩ := not_crossed laws part (h hk).2.2
    exact meet crossL crossR

end Meeting

section Ends

variable {cmp : Comparison α} {whole : List α} {known : Prop}

/-- Merging two lists in order from both ends arranges them. -/
theorem gives_mergeEnds (laws : cmp.OrdersOn (· ∈ whole)) {left right : List α}
    (part : (left ++ right).Subperm whole)
    (lengths : left.length ≤ right.length ∧ right.length ≤ left.length + 1)
    (h : known → left.Pairwise cmp.AtMost ∧ right.Pairwise cmp.AtMost) :
    Sorting.Gives (cmp.Clash whole) known (cmp.mergeEnds left right)
      (fun out => out.Perm (left ++ right))
      (fun out => cmp.Arranged whole (left ++ right) out) := by
  unfold mergeEnds
  refine (Meeting.gives_advance laws part _ ⟨.start _ _, .start _ _⟩ (by simp; omega)
    fun hk => ⟨(h hk).1, (h hk).2, .start _ _, .start _ _⟩).bind fun m hm => ?_
  obtain ⟨of, lowLength, highLength⟩ := hm
  have total := of.lengths
  simp only [List.length_nil, Nat.zero_add] at lowLength highLength
  have h : known ∧ m.InOrder cmp whole left right → left.Pairwise cmp.AtMost ∧
      right.Pairwise cmp.AtMost ∧ m.InOrder cmp whole left right :=
    fun hk => ⟨(h hk.1).1, (h hk.1).2, hk.2⟩
  by_cases even : (left.length + right.length) % 2 = 0
  · simp only [if_pos even]
    exact Meeting.gives_close laws part of [] [] rfl (by simp) rfl rfl
      (by omega) h
  by_cases spare : left.length < m.left.length + m.leftBack.length
  · simp only [if_neg even, if_pos spare]
    exact Meeting.gives_close laws part of _ [] (List.append_nil _).symm
      (List.length_take_le 1 _) (List.take_append_drop 1 m.left).symm rfl
      (by simp only [List.length_drop]; omega) h
  · simp only [if_neg even, if_neg spare]
    exact Meeting.gives_close laws part of [] _ (List.nil_append _).symm
      (List.length_take_le 1 _) rfl (List.take_append_drop 1 m.right).symm
      (by simp only [List.length_drop]; omega) h

end Ends
end DataExpr.Comparison
