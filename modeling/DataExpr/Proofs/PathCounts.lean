import DataExpr.Proofs.Subexpressions
import DataExpr.Proofs.Paths

/-!
# Reference counts are numbers of paths

The reference counts are the sum over the last arcs of all paths, taken arc by arc.  What is passed
on along an arc is final, since no later arc leads to its parent: the nodes are taken in the reverse
of an order in which children come first (`parentsFirst_postorder`).
-/

namespace DataExpr.Expr

open Classical

/-! ### Children first -/

theorem postorderFrom_seen {e : Expr} {seen : List Nat × List Expr}
    (h : seen.1.contains e.id = true) : postorderFrom e seen = seen := by
  rw [postorderFrom, if_pos h]

/-- The walk over several expressions, one after the other. -/
abbrev postorderAll (cs : List Expr) (seen : List Nat × List Expr) : List Nat × List Expr :=
  cs.foldl (fun seen c => postorderFrom c seen) seen

theorem postorderFrom_new {e : Expr} {seen : List Nat × List Expr}
    (h : ¬ seen.1.contains e.id = true) :
    postorderFrom e seen =
      ((postorderAll e.children (e.id :: seen.1, seen.2)).1,
        (postorderAll e.children (e.id :: seen.1, seen.2)).2 ++ [e]) := by
  rw [postorderFrom, if_neg h, List.foldl_attach (f := fun seen c => postorderFrom c seen)]

/-- Nodes without repetition, in which the children of a node come after it. -/
def ParentsFirst : List Expr → Prop
  | [] => True
  | e :: rest => e ∉ rest ∧ (∀ c ∈ e.children, c ∈ rest) ∧ ParentsFirst rest

/-- What holds while a walk goes on that has entered some nodes and not left them: it has seen them
    and those that it has left, and from the last one on these stand before their children. -/
structure Walked (root : Expr) (entered : List Expr) (seen : List Nat × List Expr) : Prop where
  within : ∀ e ∈ seen.2, Within e root
  ids : ∀ e, Within e root → (e.id ∈ seen.1 ↔ e ∈ entered ∨ e ∈ seen.2)
  apart : ∀ e ∈ entered, e ∉ seen.2
  order : ParentsFirst seen.2.reverse

/-- What a visit of some expressions leads to. -/
structure Visited (root : Expr) (entered : List Expr) (es : List Expr)
    (seen seen' : List Nat × List Expr) : Prop where
  walked : Walked root entered seen'
  kept : ∀ e ∈ seen.2, e ∈ seen'.2
  visited : ∀ e ∈ es, e ∈ seen'.2

variable {root : Expr}

theorem visited_all {entered : List Expr} (cs : List Expr)
    (visit : ∀ c ∈ cs, ∀ seen, Walked root entered seen →
      Visited root entered [c] seen (postorderFrom c seen))
    {seen : List Nat × List Expr} (h : Walked root entered seen) :
    Visited root entered cs seen (postorderAll cs seen) := by
  induction cs generalizing seen with
  | nil => exact ⟨h, fun _ h => h, fun _ h => absurd h List.not_mem_nil⟩
  | cons c cs ih =>
    have first := visit c List.mem_cons_self seen h
    have rest := ih (fun d hd => visit d (List.mem_cons_of_mem c hd)) first.walked
    constructor
    case walked => exact rest.walked
    case kept =>
      intro e he
      exact rest.kept e (first.kept e he)
    case visited =>
      intro e he
      rcases List.mem_cons.mp he with rfl | he
      · exact rest.kept e (first.visited e (List.mem_singleton_self e))
      · exact rest.visited e he

/-- A visit that enters a node goes on as one that has entered it. -/
theorem Walked.enter (coherent : root.Coherent) {entered : List Expr} {seen : List Nat × List Expr}
    (h : Walked root entered seen) {e : Expr} (he : Within e root) (new : e.id ∉ seen.1) :
    Walked root (e :: entered) (e.id :: seen.1, seen.2) where
  within := h.within
  ids := by
    intro d hd
    have same : d.id = e.id ↔ d = e := ⟨coherent d e hd he, congrArg id⟩
    rw [List.mem_cons, List.mem_cons, same, h.ids d hd, or_assoc]
  apart := by
    intro d hd hmem
    rcases List.mem_cons.mp hd with rfl | hd
    · exact new ((h.ids d he).mpr (.inr hmem))
    · exact h.apart d hd hmem
  order := h.order

/-- A node is left after its children have been visited. -/
theorem Walked.leave {entered : List Expr} {seen : List Nat × List Expr} {e : Expr}
    (h : Walked root (e :: entered) seen) (he : Within e root) (new : e ∉ entered)
    (children : ∀ c ∈ e.children, c ∈ seen.2) : Walked root entered (seen.1, seen.2 ++ [e]) where
  within := by
    intro d hd
    rcases List.mem_append.mp hd with hd | hd
    · exact h.within d hd
    · exact List.mem_singleton.mp hd ▸ he
  ids := by
    intro d hd
    rw [h.ids d hd, List.mem_cons, List.mem_append, List.mem_singleton]
    tauto
  apart := by
    intro d hd hmem
    rcases List.mem_append.mp hmem with hmem | hmem
    · exact h.apart d (List.mem_cons_of_mem e hd) hmem
    · exact new (List.mem_singleton.mp hmem ▸ hd)
  order := by
    have first : e ∉ seen.2.reverse := by
      intro hmem
      exact h.apart e List.mem_cons_self (List.mem_reverse.mp hmem)
    rw [List.reverse_append]
    exact ⟨first, fun c hc => List.mem_reverse.mpr (children c hc), h.order⟩

/-- A node is listed after its children.  Those that have been entered and not left are larger, so
    that none of them is met again. -/
theorem visited_postorderFrom (coherent : root.Coherent) (e : Expr) (he : Within e root)
    (entered : List Expr) (larger : ∀ d ∈ entered, sizeOf e < sizeOf d)
    (seen : List Nat × List Expr) (h : Walked root entered seen) :
    Visited root entered [e] seen (postorderFrom e seen) := by
  have new : e ∉ entered := fun hmem => absurd (larger e hmem) (Nat.lt_irrefl _)
  by_cases hseen : seen.1.contains e.id = true
  · rw [postorderFrom_seen hseen]
    have listed := ((h.ids e he).mp (List.contains_iff_mem.mp hseen)).resolve_left new
    constructor
    case walked => exact h
    case kept => exact fun _ hd => hd
    case visited => exact fun d hd => List.mem_singleton.mp hd ▸ listed
  · rw [postorderFrom_new hseen]
    have enter : Walked root (e :: entered) (e.id :: seen.1, seen.2) := by
      apply h.enter coherent he
      exact fun hmem => hseen (List.contains_iff_mem.mpr hmem)
    have visit (c : Expr) (hc : c ∈ e.children) (seen : List Nat × List Expr)
        (h : Walked root (e :: entered) seen) :
        Visited root (e :: entered) [c] seen (postorderFrom c seen) := by
      have smaller := Expr.sizeOf_lt_of_mem hc
      apply visited_postorderFrom coherent c (.trans (.child hc) he) (e :: entered) _ seen h
      intro d hd
      rcases List.mem_cons.mp hd with rfl | hd
      · exact smaller
      · exact smaller.trans (larger d hd)
    have all := visited_all e.children visit enter
    constructor
    case walked => exact all.walked.leave he new all.visited
    case kept => exact fun d hd => List.mem_append_left [e] (all.kept d hd)
    case visited => exact fun d hd => List.mem_append_right _ hd
termination_by sizeOf e
decreasing_by exact Expr.sizeOf_lt_of_mem hc

theorem ParentsFirst.closed {nodes : List Expr} (h : ParentsFirst nodes) :
    ∀ e ∈ nodes, ∀ c ∈ e.children, c ∈ nodes := by
  induction nodes with
  | nil => exact fun _ he => absurd he List.not_mem_nil
  | cons d nodes ih =>
    intro e he c hc
    rcases List.mem_cons.mp he with rfl | he
    · exact List.mem_cons_of_mem _ (h.2.1 c hc)
    · exact List.mem_cons_of_mem d (ih h.2.2 e he c hc)

theorem ParentsFirst.nodup {nodes : List Expr} (h : ParentsFirst nodes) : nodes.Nodup := by
  induction nodes with
  | nil => exact List.nodup_nil
  | cons d nodes ih => exact List.nodup_cons.mpr ⟨h.1, ih h.2.2⟩

/-- The nodes in the reverse of the order in which a walk leaves them: each node of the expression
    once, before its children. -/
theorem parentsFirst_postorder (coherent : root.Coherent) :
    ParentsFirst root.postorder.reverse ∧
      ∀ e, e ∈ root.postorder.reverse ↔ Within e root := by
  have start : Walked root [] ([], []) :=
    ⟨fun _ h => absurd h List.not_mem_nil, fun _ _ => by simp, fun _ h => absurd h List.not_mem_nil,
      trivial⟩
  have walk := visited_postorderFrom coherent root (.refl root) []
    (fun _ h => absurd h List.not_mem_nil) ([], []) start
  have order : ParentsFirst root.postorder.reverse := walk.walked.order
  have listed : root ∈ root.postorder.reverse :=
    List.mem_reverse.mpr (walk.visited root (List.mem_singleton_self root))
  have reached {d e : Expr} (h : Within d e) (he : e ∈ root.postorder.reverse) :
      d ∈ root.postorder.reverse := by
    induction h with
    | refl => exact he
    | under hc _ ih => exact ih (order.closed _ he _ hc)
  refine ⟨order, fun e => ?_⟩
  constructor
  · intro he
    exact walk.walked.within e (List.mem_reverse.mp he)
  · intro he
    exact reached he listed

/-- No arc leads to a node from which an earlier one starts. -/
theorem ParentsFirst.pairwise_arcs {nodes : List Expr} (h : ParentsFirst nodes) :
    (arcs nodes).Pairwise fun a b => b.2 ≠ a.1 := by
  induction nodes with
  | nil => exact List.Pairwise.nil
  | cons e nodes ih =>
    have other (b : Expr × Expr) (hb : b.2 ∈ nodes) : b.2 ≠ e := fun same => h.1 (same ▸ hb)
    refine List.pairwise_append.mpr ⟨?_, ih h.2.2, fun a ha b hb => ?_⟩
    · refine List.pairwise_map.mpr (List.pairwise_of_forall_mem_list ?_)
      exact fun c _ d hd => other (e, d) (h.2.1 d hd)
    · obtain ⟨c, -, rfl⟩ := List.mem_map.mp ha
      obtain ⟨hb, hb'⟩ := mem_arcs.mp hb
      exact other b (h.2.2.closed b.1 hb b.2 hb')

/-! ### Counts -/

namespace Counts

variable {counts counts' : Counts} {i j : Nat} {n k : UInt64}

@[simp] theorem get_nil (i : Nat) : get [] i = 0 := rfl

theorem get_cons (j : Nat) (k : UInt64) (counts : Counts) (i : Nat) :
    get ((j, k) :: counts) i = if j = i then k else get counts i := by
  by_cases h : j = i <;> simp [get, h]

theorem add_cons (j : Nat) (k : UInt64) (counts : Counts) (i : Nat) (n : UInt64) :
    add ((j, k) :: counts) i n =
      if j = i then (Word.add k n).map fun sum => (j, sum) :: counts
      else (add counts i n).map ((j, k) :: ·) := by
  rw [add]
  split
  · cases Word.add k n <;> rfl
  · cases add counts i n <;> rfl

/-- An addition changes the first entry of the identity or goes past one of another identity. -/
theorem add_cases (h : add ((j, k) :: counts) i n = .ok counts') :
    (j = i ∧ ∃ sum, Word.add k n = .ok sum ∧ counts' = (j, sum) :: counts) ∨
      (j ≠ i ∧ ∃ rest, add counts i n = .ok rest ∧ counts' = (j, k) :: rest) := by
  rw [add_cons] at h
  split at h
  · rename_i hj
    cases hsum : Word.add k n with
    | error e => rw [hsum] at h; cases h
    | ok sum =>
      rw [hsum] at h
      exact .inl ⟨hj, sum, rfl, (Except.ok.inj h).symm⟩
  · rename_i hj
    cases hrest : add counts i n with
    | error e => rw [hrest] at h; cases h
    | ok rest =>
      rw [hrest] at h
      exact .inr ⟨hj, rest, rfl, (Except.ok.inj h).symm⟩

/-- An addition changes the count of one identity. -/
theorem get_add (h : add counts i n = .ok counts') (j : Nat) :
    (counts'.get j).toNat = (counts.get j).toNat + if j = i then n.toNat else 0 := by
  induction counts generalizing counts' with
  | nil =>
    obtain rfl := Except.ok.inj h
    rw [get_cons, get_nil]
    by_cases hj : j = i
    · simp [hj]
    · simp [hj, Ne.symm hj]
  | cons entry counts ih =>
    obtain ⟨l, k⟩ := entry
    obtain ⟨rfl, sum, hsum, rfl⟩ | ⟨hl, rest, hrest, rfl⟩ := add_cases h
    · rw [Word.add_eq_ok_iff] at hsum
      by_cases hj : l = j
      · simp [get_cons, hj, hsum]
      · simp [get_cons, hj, Ne.symm hj]
    · by_cases hj : l = j
      · simp [get_cons, hj, hj ▸ hl]
      · simp [get_cons, hj, ih hrest]

/-- An addition is no overflow if the sum is a word. -/
theorem exists_add (fits : (counts.get i).toNat + n.toNat < UInt64.size) :
    ∃ counts', add counts i n = .ok counts' := by
  induction counts with
  | nil => exact ⟨_, rfl⟩
  | cons entry counts ih =>
    obtain ⟨l, k⟩ := entry
    rw [get_cons] at fits
    rw [add_cons]
    by_cases hl : l = i
    · rw [if_pos hl] at fits
      rw [if_pos hl, Word.add, if_pos fits]
      exact ⟨_, rfl⟩
    · rw [if_neg hl] at fits
      obtain ⟨rest, hrest⟩ := ih fits
      rw [if_neg hl, hrest]
      exact ⟨_, rfl⟩

theorem keys_add (h : add counts i n = .ok counts') :
    counts'.map Prod.fst =
      if i ∈ counts.map Prod.fst then counts.map Prod.fst else counts.map Prod.fst ++ [i] := by
  induction counts generalizing counts' with
  | nil =>
    obtain rfl := Except.ok.inj h
    rfl
  | cons entry counts ih =>
    obtain ⟨l, k⟩ := entry
    obtain ⟨rfl, sum, -, rfl⟩ | ⟨hl, rest, hrest, rfl⟩ := add_cases h
    · simp
    · rw [List.map_cons, ih hrest]
      split <;> simp_all [eq_comm]

theorem mem_iff_get (nodup : (counts.map Prod.fst).Nodup) :
    (i, k) ∈ counts ↔ i ∈ counts.map Prod.fst ∧ counts.get i = k := by
  induction counts with
  | nil => simp
  | cons entry counts ih =>
    obtain ⟨l, m⟩ := entry
    obtain ⟨hl, nodup⟩ := List.nodup_cons.mp nodup
    rw [List.mem_cons, ih nodup, get_cons, List.map_cons, List.mem_cons, Prod.mk.injEq]
    by_cases h : l = i
    · subst h
      simp [hl, eq_comm]
    · simp [h, Ne.symm h]

/-- Passes the count of a parent on along an arc. -/
def pass (counts : Counts) (a : Expr × Expr) : Except Word.Overflow Counts :=
  counts.add a.2.id (counts.get a.1.id)

theorem foldlM_addChildren (nodes : List Expr) (counts : Counts) :
    nodes.foldlM addChildren counts = (arcs nodes).foldlM pass counts := by
  induction nodes generalizing counts with
  | nil => rfl
  | cons e nodes ih =>
    rw [List.foldlM_cons, arcs_cons, List.foldlM_append, List.foldlM_map, addChildren]
    exact congrArg _ (funext ih)

end Counts

/-! ### Passing counts on -/

/-- What the counts are when they have been passed on along some arcs: each is the number of paths
    that arrive along these. -/
structure Tallied (root : Expr) (passed : List (Expr × Expr)) (counts : Counts) : Prop where
  get : ∀ e, Within e root →
    (counts.get e.id).toNat = (if root = e then 1 else 0) + root.arrivals e passed
  keys : ∀ i, i ∈ counts.map Prod.fst ↔ i = root.id ∨ ∃ a ∈ passed, a.2.id = i
  nodup : (counts.map Prod.fst).Nodup

theorem tallied_start (coherent : root.Coherent) : Tallied root [] [(root.id, 1)] where
  get := by
    intro e he
    have same : root.id = e.id ↔ root = e := ⟨coherent root e (.refl root) he, congrArg id⟩
    by_cases h : root = e <;> simp [Counts.get_cons, same, h, arrivals]
  keys := by simp
  nodup := by simp

/-- A step along an arc, if the count of its parent is final. -/
theorem Tallied.step (coherent : root.Coherent) {passed : List (Expr × Expr)}
    {counts counts' : Counts} (h : Tallied root passed counts) {a : Expr × Expr}
    (within : Within a.2 root)
    (final : (counts.get a.1.id).toNat = root.pathCount a.1) (hstep : counts.pass a = .ok counts') :
    Tallied root (passed ++ [a]) counts' where
  get := by
    intro e he
    have same : e.id = a.2.id ↔ a.2 = e :=
      ⟨fun h => coherent a.2 e within he h.symm, fun h => congrArg id h.symm⟩
    rw [Counts.get_add hstep, h.get e he, final, arrivals_append, Nat.add_assoc]
    simp only [same, arrivals, List.map_cons, List.map_nil, List.sum_cons, List.sum_nil,
      Nat.add_zero]
  keys := by
    intro i
    have keys := h.keys
    rw [Counts.keys_add hstep]
    split
    · rename_i there
      simp only [keys, List.mem_append, List.mem_singleton, or_and_right, exists_or,
        exists_eq_left]
      constructor
      · intro h
        exact h.imp_right .inl
      · rintro (h | h | rfl)
        · exact .inl h
        · exact .inr h
        · exact (keys _).mp there
    · simp only [List.mem_append, keys, List.mem_singleton, or_and_right, exists_or,
        exists_eq_left, or_assoc, eq_comm (a := i)]
  nodup := by
    rw [Counts.keys_add hstep]
    split
    · exact h.nodup
    · rename_i new
      exact List.nodup_append'.mpr ⟨h.nodup, List.nodup_singleton _, by simpa using new⟩

/-- The arcs of an expression, in the order in which counts are passed on along them. -/
structure Inbound (root : Expr) (all : List (Expr × Expr)) : Prop where
  within : ∀ a ∈ all, Within a.1 root ∧ a.2 ∈ a.1.children
  order : all.Pairwise fun a b => b.2 ≠ a.1
  paths : ∀ e, root.pathCount e = (if root = e then 1 else 0) + root.arrivals e all

theorem inbound_postorder (coherent : root.Coherent) :
    Inbound root (arcs root.postorder.reverse) := by
  obtain ⟨order, nodes⟩ := parentsFirst_postorder coherent
  constructor
  case within =>
    intro a ha
    obtain ⟨listed, hchild⟩ := mem_arcs.mp ha
    exact ⟨(nodes a.1).mp listed, hchild⟩
  case order => exact order.pairwise_arcs
  case paths =>
    intro e
    exact pathCount_eq order.nodup order.closed root e ((nodes root).mpr (.refl root))

/-- All arcs to a node come before those that start from it. -/
theorem Inbound.final {passed rest : List (Expr × Expr)} {a : Expr × Expr}
    (h : Inbound root (passed ++ a :: rest)) {counts : Counts}
    (tally : Tallied root passed counts) :
    (counts.get a.1.id).toNat = root.pathCount a.1 := by
  obtain ⟨within, hchild⟩ := h.within a (by simp)
  have later := (List.pairwise_cons.mp (List.pairwise_append.mp h.order).2.1).1
  have none : root.arrivals a.1 (a :: rest) = 0 := by
    refine arrivals_eq_zero fun b hb same => ?_
    rcases List.mem_cons.mp hb with rfl | hb
    · exact absurd (Expr.sizeOf_lt_of_mem hchild) (same ▸ Nat.lt_irrefl _)
    · exact later b hb same
  rw [tally.get a.1 within, h.paths, arrivals_append, none, Nat.add_zero]

/-- Counts that are passed on along all arcs, without overflow if all of them are words. -/
theorem Inbound.run (coherent : root.Coherent) (passed rest : List (Expr × Expr))
    (h : Inbound root (passed ++ rest)) {counts : Counts} (tally : Tallied root passed counts) :
    (∀ final, rest.foldlM Counts.pass counts = .ok final → Tallied root (passed ++ rest) final) ∧
      ((∀ e, Within e root → root.pathCount e < UInt64.size) →
        ∃ final, rest.foldlM Counts.pass counts = .ok final) := by
  induction rest generalizing passed counts with
  | nil =>
    refine ⟨fun final hfinal => ?_, fun _ => ⟨counts, rfl⟩⟩
    obtain rfl := Except.ok.inj hfinal
    rwa [List.append_nil]
  | cons a rest ih =>
    obtain ⟨within, hchild⟩ := h.within a (by simp)
    have within' : Within a.2 root := .trans (.child hchild) within
    have final := h.final tally
    have next : passed ++ a :: rest = (passed ++ [a]) ++ rest := by simp
    have step (counts' : Counts) (hstep : counts.pass a = .ok counts') :=
      ih (passed ++ [a]) (next ▸ h) (tally.step coherent within' final hstep)
    constructor
    · intro result hresult
      rw [List.foldlM_cons] at hresult
      cases hstep : counts.pass a with
      | error e => rw [hstep] at hresult; cases hresult
      | ok counts' =>
        rw [hstep] at hresult
        exact next ▸ (step counts' hstep).1 result hresult
    · intro fits
      have bound : (counts.get a.2.id).toNat + (counts.get a.1.id).toNat < UInt64.size := by
        refine Nat.lt_of_le_of_lt ?_ (fits a.2 within')
        rw [tally.get a.2 within', final, h.paths a.2, next, arrivals_append, arrivals_append]
        simp [arrivals]
        omega
      obtain ⟨counts', hstep⟩ := Counts.exists_add bound
      obtain ⟨result, hresult⟩ := (step counts' hstep).2 fits
      exact ⟨result, by rw [List.foldlM_cons, Counts.pass, hstep]; exact hresult⟩

/-- Counts that have been passed on along all arcs have an entry for each node. -/
theorem Inbound.entries (coherent : root.Coherent) {all : List (Expr × Expr)}
    (h : Inbound root all) (complete : ∀ e, Within e root → ∀ c ∈ e.children, (e, c) ∈ all)
    {counts : Counts} (tally : Tallied root all counts) (i : Nat) (k : UInt64) :
    (i, k) ∈ counts ↔ ∃ e, Within e root ∧ e.id = i ∧ root.pathCount e = k.toNat := by
  have count (e : Expr) (he : Within e root) : (counts.get e.id).toNat = root.pathCount e := by
    rw [tally.get e he, h.paths]
  have key (e : Expr) (he : Within e root) : e.id ∈ counts.map Prod.fst := by
    rw [tally.keys]
    rcases he.root_or_child with rfl | ⟨d, hd, hchild⟩
    · exact .inl rfl
    · exact .inr ⟨(d, e), complete d hd e hchild, rfl⟩
  rw [Counts.mem_iff_get tally.nodup]
  constructor
  · rintro ⟨hi, rfl⟩
    rcases (tally.keys i).mp hi with rfl | ⟨a, ha, rfl⟩
    · exact ⟨root, .refl root, rfl, (count root (.refl root)).symm⟩
    · obtain ⟨within, hchild⟩ := h.within a ha
      have within' : Within a.2 root := .trans (.child hchild) within
      exact ⟨a.2, within', rfl, (count a.2 within').symm⟩
  · rintro ⟨e, he, rfl, hk⟩
    exact ⟨key e he, UInt64.toNat_inj.mp ((count e he).trans hk)⟩

/-- **Reference counts are numbers of paths.**  There are counts unless the number of paths to some
    node is no word.  They have one entry for the identity of each node that occurs in the
    expression and no others; the entry holds the number of positions at which the node stands,
    which is one for the expression itself. -/
theorem referenceCounts_eq_paths (coherent : root.Coherent) :
    ((∃ counts, root.referenceCounts = .ok counts) ↔
      ∀ e, Within e root → (root.positions e).encard < UInt64.size) ∧
    ∀ counts, root.referenceCounts = .ok counts →
      (counts.map Prod.fst).Nodup ∧ (root.id, 1) ∈ counts ∧
        ∀ i k, (i, k) ∈ counts ↔
          ∃ e, Within e root ∧ e.id = i ∧ (root.positions e).encard = k.toNat := by
  have inbound := inbound_postorder coherent
  have complete (e : Expr) (he : Within e root) (c : Expr) (hc : c ∈ e.children) :
      (e, c) ∈ arcs root.postorder.reverse :=
    mem_arcs.mpr ⟨((parentsFirst_postorder coherent).2 e).mpr he, hc⟩
  have run := Inbound.run coherent [] (arcs root.postorder.reverse) inbound (tallied_start coherent)
  rw [← Counts.foldlM_addChildren] at run
  obtain ⟨tallied, exists_counts⟩ := run
  have entries (counts : Counts) (h : root.referenceCounts = .ok counts) :=
    inbound.entries coherent complete (tallied counts h)
  have fits (counts : Counts) (h : root.referenceCounts = .ok counts) (e : Expr)
      (he : Within e root) : root.pathCount e < UInt64.size := by
    have count : (counts.get e.id).toNat = root.pathCount e := by
      rw [inbound.paths e]
      exact (tallied counts h).get e he
    exact count ▸ UInt64.toNat_lt_size _
  simp only [encard_positions, Nat.cast_inj, Nat.cast_lt]
  constructor
  · constructor
    · rintro ⟨counts, h⟩
      exact fits counts h
    · exact exists_counts
  · intro counts h
    refine ⟨(tallied counts h).nodup, ?_, entries counts h⟩
    rw [entries counts h]
    exact ⟨root, .refl root, rfl, pathCount_self root⟩

/-- An item of the input. -/
def itemX : Expr := .mk 2 (.access (.mk 3 .input) [.key (.mk 4 (.constant (.str "x")))] none)

def itemTwice : Expr := .mk 1 (.collection .tuple [itemX, itemX])

/-- A pair of one handle, twice, and a constant. -/
def pairTwice : Expr :=
  .mk 0 (.collection .tuple [itemTwice, itemTwice, .mk 5 (.constant (.int 1))])

theorem coherent_pairTwice : pairTwice.Coherent := by
  refine coherent_of_nodes [pairTwice, itemTwice, itemX, .mk 3 .input,
    .mk 4 (.constant (.str "x")), .mk 5 (.constant (.int 1))] List.mem_cons_self ?_ ?_
  · simp [pairTwice, itemTwice, itemX, children, node, Node.children, PathStep.children]
  · simp [pairTwice, itemTwice, itemX, id]

/-- Four paths lead to the item, since each of the two paths to the pair goes on in two ways. -/
theorem referenceCounts_eq_paths_pairTwice : pairTwice.Coherent ∧
    pairTwice.referenceCounts = .ok [(0, 1), (1, 2), (5, 1), (2, 4), (3, 4), (4, 4)] ∧
      (pairTwice.positions itemX).encard = 4 := by
  have counts :
      pairTwice.referenceCounts = .ok [(0, 1), (1, 2), (5, 1), (2, 4), (3, 4), (4, 4)] := by
    have value : pairTwice.referenceCounts.toOption =
        some [(0, 1), (1, 2), (5, 1), (2, 4), (3, 4), (4, 4)] := by decide +kernel
    cases h : pairTwice.referenceCounts with
    | error e => rw [h] at value; cases value
    | ok counts => rw [h] at value; exact congrArg Except.ok (Option.some.inj value)
  obtain ⟨-, -, entries⟩ := (referenceCounts_eq_paths coherent_pairTwice).2 _ counts
  obtain ⟨e, he, hid, four⟩ := (entries 2 4).mp (by simp)
  have item : Within itemX pairTwice :=
    .under (c := itemTwice) List.mem_cons_self (.child List.mem_cons_self)
  obtain rfl := coherent_pairTwice e itemX he item hid
  exact ⟨coherent_pairTwice, counts, four⟩

end DataExpr.Expr
