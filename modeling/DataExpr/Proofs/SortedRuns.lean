import DataExpr.Proofs.SortedBlocks
import DataExpr.Sort.Run

/-!
# Sorting by runs arranges

The runs that have been found hold, one after the other, the first elements of the list, and those
marked as sorted are increasing.  Cutting off a run and joining two adjacent runs keep both facts,
whatever the depth at which they are joined.  A run stays loose only if there is a function that
sorts it in the end.
-/

namespace DataExpr.Comparison

variable {α : Type} {cmp : Comparison α} {whole : List α} {known : Prop}

/-! ### Parts that are in order already -/

/-- How an element of a run stands to one before it. -/
def Follows (cmp : Comparison α) (falling : Bool) (b a : α) : Prop :=
  if falling then cmp.Below b a else cmp.AtMost a b

theorem Follows.trans (laws : cmp.OrdersOn (· ∈ whole)) {falling : Bool} {c b a : α}
    (hc : c ∈ whole) (hb : b ∈ whole) (ha : a ∈ whole) (hcb : cmp.Follows falling c b)
    (hba : cmp.Follows falling b a) : cmp.Follows falling c a := by
  cases falling with
  | true => exact laws.below_of_below_of_atMost hc hb ha hcb (Below.atMost hba)
  | false => exact laws.trans ha hb hc hba hcb

theorem follows_of_precedes {smaller : Bool} {a b : α} (below : smaller = true → cmp.Below b a)
    (atMost : smaller = false → cmp.AtMost a b) : cmp.Follows smaller b a := by
  cases smaller with
  | true => exact below rfl
  | false => exact atMost rfl

/-- A run is extended by the elements that come next. -/
theorem gives_extendRun (laws : cmp.OrdersOn (· ∈ whole)) (falling : Bool) {last : α}
    (run : List α) {rest : List α} (part : (run.reverse ++ last :: rest).Subperm whole)
    (h : known → (last :: run).Pairwise (cmp.Follows falling)) :
    Sorting.Gives (cmp.Clash whole) known (cmp.extendRun falling last run rest)
      (fun out => out.reverse <+: run.reverse ++ last :: rest ∧ run.length < out.length)
      (fun out => out.Pairwise (cmp.Follows falling)) := by
  induction rest generalizing last run known with
  | nil => exact .pure ⟨by simp, by simp⟩ h
  | cons b rest ih =>
    rw [extendRun]
    have inside := part.subset
    have apart : [b, last].Subperm whole :=
      (List.Perm.swap last b []).subperm.trans
        (List.Subperm.trans (List.Sublist.subperm (by simp)) part)
    refine (gives_precedes_apart laws apart).bind fun smaller below => ?_
    split
    next same =>
      obtain rfl : smaller = falling := eq_of_beq same
      have shift : (last :: run).reverse ++ b :: rest = run.reverse ++ last :: b :: rest := by simp
      refine (ih (last :: run) (shift ▸ part) fun hk => ?_).imp id (fun out hout => ?_)
        fun _ _ _ => id
      · have follows := follows_of_precedes below.1 hk.2
        refine List.pairwise_cons.2 ⟨fun x hx => ?_, h hk.1⟩
        rcases List.mem_cons.1 hx with rfl | hx
        · exact follows
        · exact follows.trans laws (inside (by simp)) (inside (by simp)) (inside (by simp [hx]))
            (List.rel_of_pairwise_cons (h hk.1) hx)
      · rw [shift] at hout
        exact ⟨hout.1, by have := hout.2; simp only [List.length_cons] at this; omega⟩
    next => exact .pure ⟨by simp, by simp⟩ fun hk => h hk.1

/-- A list that falls strictly is arranged by turning it round. -/
theorem arranged_reverse (laws : cmp.OrdersOn (· ∈ whole)) {items : List α} (inside : items ⊆ whole)
    (h : items.Pairwise cmp.Below) : cmp.Arranged whole items.reverse items := by
  refine ⟨h.imp Below.atMost, ?_⟩
  induction items with
  | nil => exact .refl _
  | cons a rest ih =>
    obtain ⟨least, h⟩ := List.pairwise_cons.1 h
    have inside := List.cons_subset.1 inside
    have jumped : cmp.Stable whole (rest ++ [a]) ([a] ++ rest) :=
      .jump laws inside.2 (by simpa using inside.1) fun x hx y hy =>
        List.mem_singleton.1 hy ▸ least x hx
    rw [List.reverse_cons]
    exact ((ih inside.2 h).append_right [a]).trans jumped

/-- The run at the start of a list. -/
theorem gives_naturalRun (laws : cmp.OrdersOn (· ∈ whole)) {items : List α}
    (part : items.Subperm whole) :
    Sorting.Gives (cmp.Clash whole) known (cmp.naturalRun items)
      (fun out => out.Perm (items.take out.length))
      (fun out => cmp.Arranged whole (items.take out.length) out) := by
  unfold naturalRun
  split
  next a b rest =>
    refine (gives_precedes_apart laws ((List.Perm.swap a b []).subperm.trans
      (List.Subperm.trans (List.Sublist.subperm (by simp)) part))).bind fun falling below => ?_
    refine (gives_extendRun laws falling [a] part fun hk =>
      List.pairwise_pair.2 (follows_of_precedes below.1 hk.2)).bind fun run hrun => ?_
    have start : run.reverse = (a :: b :: rest).take run.length := by
      rw [← List.length_reverse]
      exact List.prefix_iff_eq_take.1 hrun.1
    cases falling with
    | true =>
      refine .pure (start ▸ run.reverse_perm.symm) fun hk => ?_
      have inside : run ⊆ whole := fun x hx =>
        part.subset (hrun.1.subset (List.mem_reverse.2 hx))
      exact start ▸ arranged_reverse laws inside hk.2
    | false =>
      refine .pure ?_ fun hk => ?_
      · simp [← start]
      · simp only [Bool.false_eq_true, if_false, List.length_reverse, ← start]
        exact ⟨List.pairwise_reverse.2 hk.2, .refl _⟩
  next short =>
    refine .pure (by simp) fun _ => ⟨?_, by simpa using .refl _⟩
    match items, short with
    | [], _ => exact .nil
    | [a], _ => exact List.pairwise_singleton _ a
    | a :: b :: rest, short => exact absurd rfl (short a b rest)

/-! ### Runs -/

/-- A run that is marked as sorted is increasing. -/
def Neat (cmp : Comparison α) (run : Run α) : Prop :=
  run.sorted = true → run.items.Pairwise cmp.AtMost

/-- A run is loose only if a function sorts it in the end. -/
def Settles (cmp : Comparison α) (whole : List α) (sortLoose : List α → Sorting (List α))
    (run : Run α) : Prop :=
  run.sorted = true ∨ cmp.Sorts whole sortLoose

/-- The elements of runs that are given from the last one on. -/
def itemsOf : List (Run α × Nat) → List α
  | [] => []
  | (run, _) :: before => itemsOf before ++ run.items

theorem goodRunLength_pos {length : Nat} (h : 0 < length) : 0 < goodRunLength length := by
  unfold goodRunLength
  split
  · omega
  · have log : 1 ≤ length.log2 := (Nat.le_log2 (by omega)).2 (by omega)
    have root : 2 ≤ 1 <<< ((1 + length.log2) / 2) := by
      rw [Nat.one_shiftLeft]
      exact Nat.le_self_pow (by omega) 2
    exact Nat.div_pos (Nat.le_trans root (Nat.le_add_right _ _)) (by decide)

/-- A run that is in order already is looked for first. -/
theorem nextRun_eq (loose : Bool) (good : Nat) (items : List α) :
    cmp.nextRun loose good items =
      (if good ≤ items.length then cmp.naturalRun items else pure []) >>= fun run =>
        if good ≤ run.length then pure ⟨run, true⟩
        else if loose then pure ⟨items.take good, false⟩
        else cmp.sortBlock (items.take blockLength) >>= fun block => pure ⟨block, true⟩ := by
  unfold nextRun
  by_cases h : good ≤ items.length
  · simp only [if_pos h]
  · simp only [if_neg h]

/-- The next run holds the first elements of the list. -/
theorem gives_nextRun (laws : cmp.OrdersOn (· ∈ whole)) (loose : Bool) {good : Nat}
    {items : List α} (part : items.Subperm whole) :
    Sorting.Gives (cmp.Clash whole) known (cmp.nextRun loose good items)
      (fun run => run.items.Perm (items.take run.items.length) ∧
        (0 < good → items ≠ [] → run.items ≠ []) ∧ (run.sorted = true ∨ loose = true))
      (fun run => cmp.Stable whole (items.take run.items.length) run.items ∧ cmp.Neat run) := by
  rw [nextRun_eq]
  have natural : Sorting.Gives (cmp.Clash whole) known
      (if good ≤ items.length then cmp.naturalRun items else pure [])
      (fun out => out.Perm (items.take out.length))
      (fun out => cmp.Arranged whole (items.take out.length) out) := by
    split
    · exact gives_naturalRun laws part
    · exact .pure (by simp) fun _ => ⟨.nil, by simpa using .refl _⟩
  refine natural.bind fun run start => ?_
  split
  next long =>
    refine .pure ⟨start, fun hgood _ => ?_, .inl rfl⟩ fun hk =>
      ⟨hk.2.stable, fun _ => hk.2.increasing⟩
    exact List.ne_nil_of_length_pos (Nat.lt_of_lt_of_le hgood long)
  split
  next isLoose =>
    have taken : items.take (items.take good).length = items.take good := by
      rw [List.length_take, List.take_eq_take_iff]
      omega
    refine .pure ⟨by simp only [taken]; exact .refl _, fun hgood hne => ?_, .inr isLoose⟩ fun _ =>
      ⟨by simp only [taken]; exact .refl _, fun h => absurd h (by simp)⟩
    simpa using ⟨by omega, hne⟩
  next =>
    have part' := (List.take_sublist blockLength items).subperm.trans part
    refine (sorts_sortBlock laws part').bind fun block perm => ?_
    have taken : items.take block.length = items.take blockLength := by
      rw [perm.length_eq, List.length_take, List.take_eq_take_iff]
      omega
    refine .pure ⟨by simpa only [taken] using perm, fun _ hne => ?_, .inl rfl⟩ fun hk =>
      ⟨by simpa only [taken] using hk.2.stable, fun _ => hk.2.increasing⟩
    rw [← List.length_pos_iff, perm.length_eq, List.length_take]
    exact Nat.lt_min.2 ⟨by decide, List.length_pos_iff.2 hne⟩

section Join

variable {sortLoose : List α → Sorting (List α)}

theorem gives_settle {run : Run α} (part : run.items.Subperm whole)
    (settles : cmp.Settles whole sortLoose run) (h : known → cmp.Neat run) :
    Sorting.Gives (cmp.Clash whole) known (settle sortLoose run) (fun out => out.Perm run.items)
      (fun out => cmp.Arranged whole run.items out) := by
  unfold settle
  split
  next sorted => exact .pure (.refl _) fun hk => ⟨h hk sorted, .refl _⟩
  next isLoose => exact settles.resolve_left isLoose part

/-- Two adjacent runs are joined. -/
theorem gives_join (laws : cmp.OrdersOn (· ∈ whole)) {left right : Run α}
    (part : (left.items ++ right.items).Subperm whole)
    (settles : cmp.Settles whole sortLoose left ∧ cmp.Settles whole sortLoose right)
    (h : known → cmp.Neat left ∧ cmp.Neat right) :
    Sorting.Gives (cmp.Clash whole) known (cmp.join sortLoose left right)
      (fun run => run.items.Perm (left.items ++ right.items) ∧ cmp.Settles whole sortLoose run)
      (fun run => cmp.Stable whole (left.items ++ right.items) run.items ∧ cmp.Neat run) := by
  unfold join
  split
  next =>
    have partLeft := (List.sublist_append_left left.items right.items).subperm.trans part
    have partRight := (List.sublist_append_right left.items right.items).subperm.trans part
    refine (gives_settle partLeft settles.1 fun hk => (h hk).1).bind fun l perm => ?_
    refine (gives_settle partRight settles.2 fun hk => (h hk.1).2).bind fun r perm' => ?_
    have both := perm.append perm'
    refine (gives_merge laws (both.subperm.trans part) fun hk =>
      ⟨hk.1.2.increasing, hk.2.increasing⟩).bind fun out merged => ?_
    refine .pure ⟨merged.trans both, .inl rfl⟩ fun ⟨⟨⟨_, left⟩, right⟩, arranged⟩ => ⟨?_, ?_⟩
    · exact (left.stable.append right.stable).trans arranged.stable
    · exact fun _ => arranged.increasing
  next isLoose =>
    simp only [Bool.or_eq_true, not_or] at isLoose
    exact .pure ⟨.refl _, .inr (settles.1.resolve_left isLoose.1)⟩ fun _ =>
      ⟨.refl _, fun h => absurd h (by simp)⟩

/-- Joining a run with some of those before it keeps their elements. -/
theorem gives_collapse (laws : cmp.OrdersOn (· ∈ whole)) (depth : Nat)
    {before : List (Run α × Nat)} {run : Run α} (part : (itemsOf before ++ run.items).Subperm whole)
    (settles : ∀ r ∈ run :: before.map Prod.fst, cmp.Settles whole sortLoose r)
    (h : known → ∀ r ∈ run :: before.map Prod.fst, cmp.Neat r) :
    Sorting.Gives (cmp.Clash whole) known (cmp.collapse sortLoose depth before run)
      (fun out => (itemsOf out.1 ++ out.2.items).Perm (itemsOf before ++ run.items) ∧
        (∀ r ∈ out.2 :: out.1.map Prod.fst, cmp.Settles whole sortLoose r) ∧
        (depth = 0 → out.1 = []))
      (fun out => cmp.Stable whole (itemsOf before ++ run.items) (itemsOf out.1 ++ out.2.items) ∧
        ∀ r ∈ out.2 :: out.1.map Prod.fst, cmp.Neat r) := by
  induction before generalizing run known with
  | nil => exact .pure ⟨.refl _, settles, fun _ => rfl⟩ fun hk => ⟨.refl _, h hk⟩
  | cons last before ih =>
    obtain ⟨left, d⟩ := last
    rw [collapse]
    split
    next deep =>
      simp only [itemsOf, List.append_assoc] at part ⊢
      simp only [List.map_cons, List.forall_mem_cons] at settles h
      have part' := (List.sublist_append_right (itemsOf before) _).subperm.trans part
      refine (gives_join laws part' ⟨settles.2.1, settles.1⟩
        fun hk => ⟨(h hk).2.1, (h hk).1⟩).bind fun joined ⟨perm, settled⟩ => ?_
      have perm := perm.append_left (itemsOf before)
      refine (ih (perm.subperm.trans part) (List.forall_mem_cons.2 ⟨settled, settles.2.2⟩)
        fun hk => List.forall_mem_cons.2 ⟨hk.2.2, (h hk.1).2.2⟩).imp id ?_ ?_
      · rintro out ⟨perm', settles', alone⟩
        exact ⟨perm'.trans perm, settles', alone⟩
      · rintro out ⟨_, stable, _⟩ _ ⟨stable', neat⟩
        exact ⟨(stable.append_left _).trans stable', neat⟩
    next shallow =>
      exact .pure ⟨.refl _, settles, fun hdepth => by omega⟩ fun hk => ⟨.refl _, h hk⟩

/-- All runs of a list are joined. -/
theorem gives_joinRuns (laws : cmp.OrdersOn (· ∈ whole)) {loose : Bool}
    (sorts : loose = true → cmp.Sorts whole sortLoose) {length : Nat} (done : Nat)
    (before : List (Run α × Nat)) {run : Run α} {items : List α}
    (positive : items ≠ [] → 0 < length)
    (part : (itemsOf before ++ run.items ++ items).Subperm whole)
    (settles : ∀ r ∈ run :: before.map Prod.fst, cmp.Settles whole sortLoose r)
    (h : known → ∀ r ∈ run :: before.map Prod.fst, cmp.Neat r) :
    Sorting.Gives (cmp.Clash whole) known
      (cmp.joinRuns loose sortLoose length done before run items)
      (fun out => out.items.Perm (itemsOf before ++ run.items ++ items) ∧
        cmp.Settles whole sortLoose out)
      (fun out => cmp.Stable whole (itemsOf before ++ run.items ++ items) out.items ∧
        cmp.Neat out) := by
  -- The induction follows the walk over the runs; the invariant is that the runs held back settle
  -- on their items and are in order.
  induction done, before, run, items using joinRuns.induct length generalizing known with
  | case1 done before run =>
    rw [joinRuns]
    simp only [List.append_nil] at part ⊢
    refine (gives_collapse laws 0 part settles h).bind fun out hout => ?_
    obtain ⟨perm, settled, alone⟩ := hout
    rw [alone rfl] at perm
    refine .pure ⟨perm, settled _ List.mem_cons_self⟩ fun ⟨_, stable, neat⟩ => ?_
    rw [alone rfl] at stable
    exact ⟨stable, neat _ List.mem_cons_self⟩
  | case2 done before run a rest ih =>
    rw [joinRuns]
    have partHeld := (List.sublist_append_left _ (a :: rest)).subperm.trans part
    have partRest := (List.sublist_append_right (itemsOf before ++ run.items) _).subperm.trans part
    refine (gives_nextRun laws loose partRest).bind fun next ⟨start, nonempty, loose'⟩ => ?_
    have nonempty := List.length_pos_iff.2
      (nonempty (goodRunLength_pos (positive (by simp))) (by simp))
    have remains : rest.drop (next.items.length - 1) = (a :: rest).drop next.items.length := by
      rw [← Nat.sub_add_cancel nonempty, List.drop_succ_cons, Nat.add_sub_cancel]
    have cut := List.take_append_drop next.items.length (a :: rest)
    refine (gives_collapse laws _ partHeld settles fun hk => h hk.1).bind
      fun ⟨before', run'⟩ ⟨perm, settled, _⟩ => ?_
    simp only at perm settled
    have perm' : (itemsOf before' ++ run'.items ++ next.items ++
        (a :: rest).drop next.items.length).Perm (itemsOf before ++ run.items ++ a :: rest) := by
      have := perm.append (start.append_right ((a :: rest).drop next.items.length))
      rwa [cut, ← List.append_assoc] at this
    have ih := @ih next before' run'
    rw [remains] at ih
    simp only [remains]
    refine (ih (fun _ => positive (by simp)) (perm'.subperm.trans part)
      (List.forall_mem_cons.2 ⟨loose'.imp_right sorts, settled⟩)
      fun hk => List.forall_mem_cons.2 ⟨hk.1.2.2, hk.2.2⟩).imp id
      (fun out hout => ⟨hout.1.trans perm', hout.2⟩) fun out hk _ hclean => ⟨?_, hclean.2⟩
    have stable := hk.2.1.append (hk.1.2.1.append_right ((a :: rest).drop next.items.length))
    rw [cut, ← List.append_assoc] at stable
    exact stable.trans hclean.1

/-- Sorting by runs arranges. -/
theorem sorts_sortByRuns (laws : cmp.OrdersOn (· ∈ whole)) {loose : Bool}
    (sorts : loose = true → cmp.Sorts whole sortLoose) :
    cmp.Sorts whole (cmp.sortByRuns loose sortLoose) := by
  intro known items part
  unfold sortByRuns
  refine (gives_nextRun laws loose part).bind fun first ⟨start, _, loose'⟩ => ?_
  have cut := List.take_append_drop first.items.length items
  have perm := start.append_right (items.drop first.items.length)
  rw [cut] at perm
  have settles : ∀ r ∈ [first], cmp.Settles whole sortLoose r :=
    List.forall_mem_singleton.2 (loose'.imp_right sorts)
  have joined : Sorting.Gives (cmp.Clash whole)
      (known ∧ cmp.Stable whole (items.take first.items.length) first.items ∧ cmp.Neat first)
      (cmp.joinRuns loose sortLoose items.length first.items.length [] first
        (items.drop first.items.length))
      (fun out => out.items.Perm items ∧ cmp.Settles whole sortLoose out)
      (fun out => cmp.Stable whole items out.items ∧ cmp.Neat out) := by
    have positive (rest : items.drop first.items.length ≠ []) : 0 < items.length :=
      List.length_pos_iff.2 fun h => rest (by rw [h, List.drop_nil])
    refine (gives_joinRuns laws sorts first.items.length [] positive
      (perm.subperm.trans part) settles fun hk => List.forall_mem_singleton.2 hk.2.2).imp id
      (fun run hrun => ⟨hrun.1.trans perm, hrun.2⟩) fun run hk _ hrun => ⟨?_, hrun.2⟩
    have stable := hk.2.1.append_right (items.drop first.items.length)
    rw [cut] at stable
    exact stable.trans hrun.1
  refine joined.bind fun run ⟨perm, settles⟩ => ?_
  refine (gives_settle (perm.subperm.trans part) settles fun hk => hk.2.2).imp id
    (fun _ perm' => perm'.trans perm) fun _ hk _ arranged => ⟨arranged.increasing, ?_⟩
  exact hk.2.1.trans arranged.stable

end Join

end DataExpr.Comparison
