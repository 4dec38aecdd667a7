import DataExpr.Proofs.Positions
import Mathlib.Algebra.BigOperators.Group.Multiset.Basic
import Mathlib.Data.Set.Card

/-!
# Numbers of paths

The paths from an expression to what occurs in it are the positions at which that stands.  Their
number can be found from the first arc of each path, by recursion on the expression
(`encard_positions`), and from the last one: it is the sum of the numbers of paths to the parents, a
parent counted as often as the node is its child (`pathCount_eq`).
-/

namespace DataExpr.Expr

open Classical

/-- The positions at which a subexpression stands, which are the paths to it. -/
def positions (e d : Expr) : Set (List Nat) := {p | e.at? p = some d}

/-! ### The number of paths -/

/-- The number of paths from one expression to another, found from the first arc on. -/
noncomputable def pathCount (e d : Expr) : Nat :=
  (if e = d then 1 else 0) + (e.children.attach.map fun c => pathCount c.1 d).sum
termination_by sizeOf e
decreasing_by exact Expr.sizeOf_lt_of_mem c.2

theorem pathCount_eq_children (e d : Expr) :
    e.pathCount d = (if e = d then 1 else 0) + (e.children.map fun c => c.pathCount d).sum := by
  rw [pathCount, List.attach_map_val (f := fun c => pathCount c d)]

/-- The paths that start at one of several expressions, with its index. -/
def positionsBelow (cs : List Expr) (d : Expr) : Set (List Nat) :=
  {p | ∃ i q c, p = i :: q ∧ cs[i]? = some c ∧ q ∈ c.positions d}

/-- The path that starts with the next index. -/
def shift : List Nat → List Nat
  | [] => []
  | i :: p => (i + 1) :: p

theorem shift_injective : shift.Injective := by
  intro p q h
  cases p <;> cases q <;> simp_all [shift]

theorem positionsBelow_cons (c : Expr) (cs : List Expr) (d : Expr) :
    positionsBelow (c :: cs) d =
      List.cons 0 '' c.positions d ∪ shift '' positionsBelow cs d := by
  ext p
  constructor
  · rintro ⟨i, q, c', rfl, hc, hq⟩
    cases i with
    | zero =>
      obtain rfl : c = c' := Option.some.inj hc
      exact .inl ⟨q, hq, rfl⟩
    | succ i => exact .inr ⟨i :: q, ⟨i, q, c', rfl, hc, hq⟩, rfl⟩
  · rintro (⟨q, hq, rfl⟩ | ⟨p, ⟨i, q, c', rfl, hc, hq⟩, rfl⟩)
    · exact ⟨0, q, c, rfl, rfl, hq⟩
    · exact ⟨i + 1, q, c', rfl, hc, hq⟩

theorem encard_positionsBelow (cs : List Expr) (d : Expr)
    (h : ∀ c ∈ cs, (c.positions d).encard = c.pathCount d) :
    (positionsBelow cs d).encard = (cs.map fun c => c.pathCount d).sum := by
  induction cs with
  | nil => simp [positionsBelow]
  | cons c cs ih =>
    have apart : Disjoint (List.cons 0 '' c.positions d) (shift '' positionsBelow cs d) := by
      refine Set.disjoint_left.mpr ?_
      rintro p ⟨q, -, rfl⟩ ⟨p, ⟨i, q', c', rfl, -, -⟩, same⟩
      cases same
    rw [positionsBelow_cons, Set.encard_union_eq apart, (List.cons_injective).encard_image,
      shift_injective.encard_image, h c List.mem_cons_self,
      ih fun x hx => h x (List.mem_cons_of_mem c hx), List.map_cons, List.sum_cons, Nat.cast_add]

theorem positions_eq (e d : Expr) :
    e.positions d = {p | p = [] ∧ e = d} ∪ positionsBelow e.children d := by
  ext p
  cases p with
  | nil => simp [positions, positionsBelow]
  | cons i p => simp [positions, positionsBelow, at?_cons, Option.bind_eq_some_iff]

/-- There are as many positions as paths. -/
theorem encard_positions (e d : Expr) : (e.positions d).encard = e.pathCount d := by
  have below : (positionsBelow e.children d).encard = _ :=
    encard_positionsBelow e.children d fun c hc => encard_positions c d
  have apart : Disjoint {p | p = [] ∧ e = d} (positionsBelow e.children d) := by
    refine Set.disjoint_left.mpr ?_
    rintro p ⟨rfl, -⟩ ⟨i, q, c, h, -⟩
    cases h
  have here : {p : List Nat | p = [] ∧ e = d}.encard = (if e = d then 1 else 0 : Nat) := by
    by_cases h : e = d <;> simp [h]
  rw [positions_eq, Set.encard_union_eq apart, here, below, pathCount_eq_children, Nat.cast_add]
termination_by sizeOf e
decreasing_by exact Expr.sizeOf_lt_of_mem hc

/-- Only the empty path leads from an expression to itself. -/
theorem pathCount_self (e : Expr) : e.pathCount e = 1 := by
  have only : e.positions e = {[]} := by
    ext p
    cases p with
    | nil => simp [positions]
    | cons i p =>
      refine iff_of_false (fun h => ?_) (List.cons_ne_nil i p)
      obtain ⟨c, hc, h⟩ := Option.bind_eq_some_iff.mp (show e.at? (i :: p) = some e from h)
      have smaller := Expr.sizeOf_lt_of_mem (List.mem_of_getElem? hc)
      exact absurd (within_of_at? h).sizeOf_le (Nat.not_le.mpr smaller)
  have one := encard_positions e e
  rw [only, Set.encard_singleton] at one
  exact_mod_cast one.symm

/-! ### The last arc -/

/-- The arcs from nodes to their children. -/
def arcs (nodes : List Expr) : List (Expr × Expr) :=
  nodes.flatMap fun e => e.children.map fun c => (e, c)

theorem mem_arcs {nodes : List Expr} {a : Expr × Expr} :
    a ∈ arcs nodes ↔ a.1 ∈ nodes ∧ a.2 ∈ a.1.children := by
  simp only [arcs, List.mem_flatMap, List.mem_map]
  constructor
  · rintro ⟨e, he, c, hc, rfl⟩
    exact ⟨he, hc⟩
  · rintro ⟨he, hc⟩
    exact ⟨a.1, he, a.2, hc, rfl⟩

theorem arcs_cons (e : Expr) (nodes : List Expr) :
    arcs (e :: nodes) = (e.children.map fun c => (e, c)) ++ arcs nodes := rfl

/-- The number of paths whose last arc is one of several. -/
noncomputable def arrivals (e d : Expr) (arcs : List (Expr × Expr)) : Nat :=
  (arcs.map fun a => if a.2 = d then e.pathCount a.1 else 0).sum

theorem arrivals_append (e d : Expr) (as bs : List (Expr × Expr)) :
    e.arrivals d (as ++ bs) = e.arrivals d as + e.arrivals d bs := by
  rw [arrivals, List.map_append, List.sum_append, arrivals, arrivals]

theorem arrivals_eq_zero {e d : Expr} {as : List (Expr × Expr)} (h : ∀ a ∈ as, a.2 ≠ d) :
    e.arrivals d as = 0 := by
  refine List.sum_eq_zero fun n hn => ?_
  obtain ⟨a, ha, rfl⟩ := List.mem_map.mp hn
  exact if_neg (h a ha)

/-- The arcs that leave one of the nodes are those to its children. -/
theorem sum_leaving {nodes : List Expr} (nodup : nodes.Nodup) {e : Expr} (he : e ∈ nodes)
    (f : Expr → Nat) :
    ((arcs nodes).map fun a => if e = a.1 then f a.2 else 0).sum = (e.children.map f).sum := by
  induction nodes with
  | nil => cases he
  | cons d nodes ih =>
    obtain ⟨hd, nodup⟩ := List.nodup_cons.mp nodup
    rw [arcs_cons, List.map_append, List.sum_append, List.map_map]
    by_cases h : e = d
    · subst h
      have later : ((arcs nodes).map fun a => if e = a.1 then f a.2 else 0).sum = 0 := by
        refine List.sum_eq_zero fun n hn => ?_
        obtain ⟨a, ha, rfl⟩ := List.mem_map.mp hn
        exact if_neg fun h : e = a.1 => hd (h ▸ (mem_arcs.mp ha).1)
      simp [later, Function.comp_def]
    · have he := (List.mem_cons.mp he).resolve_left h
      simp [ih nodup he, Function.comp_def, h]

/-- A path is empty or has a last arc: the number of paths is the number of those that arrive along
    one of the arcs, for any nodes that contain their children. -/
theorem pathCount_eq {nodes : List Expr} (nodup : nodes.Nodup)
    (closed : ∀ d ∈ nodes, ∀ c ∈ d.children, c ∈ nodes) (e d : Expr) (he : e ∈ nodes) :
    e.pathCount d = (if e = d then 1 else 0) + e.arrivals d (arcs nodes) := by
  have first (c : Expr) (hc : c ∈ e.children) :
      c.pathCount d = (if c = d then 1 else 0) + c.arrivals d (arcs nodes) :=
    pathCount_eq nodup closed c d (closed e he c hc)
  have split (a : Expr × Expr) : (if a.2 = d then e.pathCount a.1 else 0) =
      (if e = a.1 then (if a.2 = d then 1 else 0) else 0) +
        (e.children.map fun c => if a.2 = d then c.pathCount a.1 else 0).sum := by
    rw [pathCount_eq_children]
    by_cases h : a.2 = d <;> simp [h]
  have arriving : e.arrivals d (arcs nodes) =
      (e.children.map fun c => if c = d then 1 else 0).sum +
        (e.children.map fun c => c.arrivals d (arcs nodes)).sum := by
    have swap := Multiset.sum_map_sum_map (arcs nodes : Multiset (Expr × Expr))
      (e.children : Multiset Expr) (f := fun a c => if a.2 = d then c.pathCount a.1 else 0)
    simp only [Multiset.map_coe, Multiset.sum_coe] at swap
    rw [arrivals, List.map_congr_left fun a _ => split a, List.sum_map_add,
      sum_leaving nodup he fun c => if c = d then 1 else 0, swap]
    rfl
  rw [pathCount_eq_children, List.map_congr_left first, List.sum_map_add, arriving]
termination_by sizeOf e
decreasing_by exact Expr.sizeOf_lt_of_mem hc

end DataExpr.Expr
