import DataExpr.Proofs.Positions
import DataExpr.Proofs.SharingPattern
import Mathlib.Data.Set.Function

/-!
# Patterns and shared positions

The sharing pattern is a list of numbers and does not say where in the tree they stand.  Together
with the structure it says all about sharing: two expressions of one structure have the same pattern
exactly when the same positions hold one node (`sharingPattern_eq_iff`).

From positions to patterns the walk decides: identities that correspond to each other are met in the
same places.  The way back goes through outlines, which keep of a node only its identity and its
children, so that alike expressions with the same pattern are copies of each other.
-/

namespace DataExpr.Expr

variable {e d : Expr}

/-! ### Corresponding identities -/

/-- The first expression has at each position of the second one the corresponding identity, and no
    other positions. -/
def Corresponds (f : Nat → Nat) (e d : Expr) : Prop := ∀ p, e.idAt? p = (d.idAt? p).map f

/-- The identities of what occurs in an expression. -/
def ids (e : Expr) : Set Nat := {i | ∃ c, Within c e ∧ c.id = i}

theorem ids_subset {c : Expr} (h : c ∈ e.children) : c.ids ⊆ e.ids := by
  rintro i ⟨d, hd, rfl⟩
  exact ⟨d, hd.trans (.child h), rfl⟩

theorem id_mem_ids (e : Expr) : e.id ∈ e.ids := ⟨e, .refl e, rfl⟩

namespace Corresponds

variable {f : Nat → Nat}

theorem id_eq (h : Corresponds f e d) : e.id = f d.id := Option.some.inj (h [])

theorem children (h : Corresponds f e d) :
    List.Forall₂ (Corresponds f) e.children d.children := by
  have at_index (i : Nat) (p : List Nat) : (e.children[i]?.bind fun c => c.idAt? p) =
      (d.children[i]?.bind fun c => c.idAt? p).map f := by
    rw [← idAt?_cons, ← idAt?_cons]
    exact h (i :: p)
  have there (i : Nat) : (e.children[i]?).isSome = (d.children[i]?).isSome := by
    have := congrArg Option.isSome (at_index i [])
    cases he : e.children[i]? <;> cases hd : d.children[i]? <;> simp_all [idAt?]
  have length : e.children.length = d.children.length := by
    rcases Nat.lt_trichotomy e.children.length d.children.length with shorter | same | longer
    · simpa [shorter] using there e.children.length
    · exact same
    · simpa [longer] using there d.children.length
  refine List.forall₂_iff_get.mpr ⟨length, fun i hi hi' p => ?_⟩
  simpa [hi, hi'] using at_index i p

end Corresponds

/-- The walk with the corresponding identities. -/
def Numbering.relabel (f : Nat → Nat) (w : Numbering) : Numbering := ⟨w.ids.map f, w.pattern⟩

theorem idxOf?_map {f : Nat → Nat} {S : Set Nat} (hf : S.InjOn f) {ids : List Nat}
    (hids : ∀ i ∈ ids, i ∈ S) {i : Nat} (hi : i ∈ S) :
    (ids.map f).idxOf? (f i) = ids.idxOf? i := by
  induction ids with
  | nil => rfl
  | cons j ids ih =>
    have same : (f j == f i) = (j == i) := by
      rw [Bool.eq_iff_iff, beq_iff_eq, beq_iff_eq]
      exact hf.eq_iff (hids j List.mem_cons_self) hi
    rw [List.map_cons, List.idxOf?_cons, List.idxOf?_cons, same,
      ih fun k hk => hids k (List.mem_cons_of_mem j hk)]

/-- The identities that a walk has met after a visit. -/
theorem mem_ids_numberFrom (e : Expr) (w : Numbering) {i : Nat}
    (hi : i ∈ (numberFrom e w).ids) : i ∈ w.ids ∨ i ∈ e.ids := by
  have visits (cs : List Expr) (hcs : ∀ c ∈ cs, c ∈ e.children) (w : Numbering)
      (hi : i ∈ (numberAll cs w).ids) : i ∈ w.ids ∨ i ∈ e.ids := by
    induction cs generalizing w with
    | nil => exact .inl hi
    | cons c cs ih =>
      have hc := hcs c List.mem_cons_self
      rcases ih (fun d hd => hcs d (List.mem_cons_of_mem c hd)) _ hi with hi | hi
      · exact (mem_ids_numberFrom c w hi).imp_right fun h => ids_subset hc h
      · exact .inr hi
  cases h : w.ids.idxOf? e.id with
  | some n =>
    rw [numberFrom_known h] at hi
    exact .inl hi
  | none =>
    rw [numberFrom_new h] at hi
    rcases visits e.children (fun _ h => h) _ hi with hi | hi
    · rcases List.mem_append.mp hi with hi | hi
      · exact .inl hi
      · exact .inr (List.mem_singleton.mp hi ▸ e.id_mem_ids)
    · exact .inr hi
termination_by sizeOf e
decreasing_by exact Expr.sizeOf_lt_of_mem hc

/-- A walk meets corresponding identities in the same places. -/
theorem numberFrom_relabel {f : Nat → Nat} {S : Set Nat} (hf : S.InjOn f) (d e : Expr)
    (h : Corresponds f e d) (hd : d.ids ⊆ S) (w : Numbering) (hw : ∀ i ∈ w.ids, i ∈ S) :
    numberFrom e (w.relabel f) = (numberFrom d w).relabel f := by
  have visits (cs ds : List Expr) (hds : ∀ c ∈ ds, c ∈ d.children)
      (h : List.Forall₂ (Corresponds f) cs ds) (w : Numbering) (hw : ∀ i ∈ w.ids, i ∈ S) :
      numberAll cs (w.relabel f) = (numberAll ds w).relabel f := by
    induction h generalizing w with
    | nil => rfl
    | @cons c d' cs ds hcd _ ih =>
      have hd' := hds d' List.mem_cons_self
      have below := (ids_subset hd').trans hd
      have first := numberFrom_relabel hf d' c hcd below w hw
      rw [numberAll, List.foldl_cons, first]
      refine ih (fun x hx => hds x (List.mem_cons_of_mem d' hx)) _ fun i hi => ?_
      exact (mem_ids_numberFrom d' w hi).elim (hw i) fun hi => below hi
  have place : (w.relabel f).ids.idxOf? e.id = w.ids.idxOf? d.id := by
    rw [h.id_eq]
    exact idxOf?_map hf hw (hd d.id_mem_ids)
  cases hn : w.ids.idxOf? d.id with
  | some n =>
    rw [numberFrom_known hn, numberFrom_known (place.trans hn)]
    rfl
  | none =>
    have entered : (w.relabel f).enter e.id = (w.enter d.id).relabel f := by
      simp only [Numbering.enter, Numbering.relabel, h.id_eq, List.map_append, List.map_cons,
        List.map_nil, List.length_map]
    rw [numberFrom_new hn, numberFrom_new (place.trans hn), entered]
    refine visits _ _ (fun _ h => h) h.children _ fun i hi => ?_
    rcases List.mem_append.mp hi with hi | hi
    · exact hw i hi
    · exact List.mem_singleton.mp hi ▸ hd d.id_mem_ids
termination_by sizeOf d
decreasing_by exact Expr.sizeOf_lt_of_mem hd'

/-- Expressions with corresponding identities have one pattern. -/
theorem Corresponds.sharingPattern_eq {f : Nat → Nat} (h : Corresponds f e d)
    (hf : Set.InjOn f d.ids) : e.sharingPattern = d.sharingPattern := by
  have walk := numberFrom_relabel hf d e h (Set.Subset.refl _) ⟨[], []⟩ (by simp)
  exact congrArg (fun w => w.pattern.reverse) walk

/-! ### Expressions that share the same positions -/

theorem mem_ids_iff {i : Nat} : i ∈ e.ids ↔ ∃ p, e.idAt? p = some i := by
  constructor
  · rintro ⟨c, hc, rfl⟩
    obtain ⟨p, hp⟩ := exists_at?_of_within hc
    exact ⟨p, by rw [idAt?, hp]; rfl⟩
  · rintro ⟨p, hp⟩
    obtain ⟨c, hc, rfl⟩ := Option.map_eq_some_iff.mp hp
    exact ⟨c, within_of_at? hc, rfl⟩

/-- Expressions that share the same positions have corresponding identities. -/
theorem exists_corresponds (h : ∀ p q, e.SharedAt p q ↔ d.SharedAt p q) :
    ∃ f, Corresponds f e d ∧ Set.InjOn f d.ids := by
  classical
  let f (i : Nat) : Nat := if h : ∃ p, d.idAt? p = some i then (e.idAt? h.choose).getD 0 else 0
  have apply {p : List Nat} {i : Nat} (hp : d.idAt? p = some i) : e.idAt? p = some (f i) := by
    have there : ∃ p, d.idAt? p = some i := ⟨p, hp⟩
    obtain ⟨j, hj, hj'⟩ := sharedAt_iff.mp
      ((h p there.choose).mpr (sharedAt_iff.mpr ⟨i, hp, there.choose_spec⟩))
    rw [hj, show f i = j by simp only [f, dif_pos there, hj', Option.getD_some]]
  have corresponds : Corresponds f e d := by
    intro p
    cases hp : d.idAt? p with
    | some i => exact apply hp
    | none =>
      cases hp' : e.idAt? p with
      | none => rfl
      | some j =>
        obtain ⟨i, hi, -⟩ := sharedAt_iff.mp ((h p p).mp (sharedAt_iff.mpr ⟨j, hp', hp'⟩))
        cases hp.symm.trans hi
  have injective : Set.InjOn f d.ids := by
    intro i hi j hj same
    obtain ⟨p, hp⟩ := mem_ids_iff.mp hi
    obtain ⟨q, hq⟩ := mem_ids_iff.mp hj
    have shared : e.SharedAt p q := sharedAt_iff.mpr ⟨f i, apply hp, same ▸ apply hq⟩
    obtain ⟨k, hk, hk'⟩ := sharedAt_iff.mp ((h p q).mp shared)
    rw [hp] at hk
    rw [hq] at hk'
    exact (Option.some.inj hk).trans (Option.some.inj hk').symm
  exact ⟨f, corresponds, injective⟩

/-! ### Outlines -/

/-- The identities of an expression and of what is in it, and nothing else: each node is a
    conjunction of its children. -/
def outline (e : Expr) : Expr := .mk e.id (.and (e.children.attach.map fun c => outline c.1))
termination_by sizeOf e
decreasing_by exact Expr.sizeOf_lt_of_mem c.2

theorem outline_eq (e : Expr) : e.outline = .mk e.id (.and (e.children.map outline)) := by
  rw [outline, List.attach_map_val]

@[simp] theorem id_outline (e : Expr) : e.outline.id = e.id := by
  rw [outline_eq]
  rfl

@[simp] theorem children_outline (e : Expr) : e.outline.children = e.children.map outline := by
  rw [outline_eq]
  rfl

theorem at?_outline (e : Expr) (p : List Nat) : e.outline.at? p = (e.at? p).map outline := by
  induction p generalizing e with
  | nil => rfl
  | cons i p ih =>
    rw [at?_cons, at?_cons, children_outline, List.getElem?_map, Option.bind_map, Option.map_bind]
    exact congrArg _ (funext ih)

theorem idAt?_outline (e : Expr) (p : List Nat) : e.outline.idAt? p = e.idAt? p := by
  rw [idAt?, at?_outline, Option.map_map, idAt?]
  exact congrArg (Option.map · _) (funext id_outline)

theorem idAt?_rename (f : Nat → Nat) (e : Expr) (p : List Nat) :
    (e.rename f).idAt? p = (e.idAt? p).map f := by
  induction p generalizing e with
  | nil => simp [idAt?, rename_eq_relabel]
  | cons i p ih =>
    have children : (e.rename f).children = e.children.map (rename f) := by
      rw [rename_eq_relabel, children_relabel]
    rw [idAt?_cons, idAt?_cons, children, List.getElem?_map, Option.bind_map, Option.map_bind]
    exact congrArg _ (funext ih)

theorem within_outline {c : Expr} (h : Within c e.outline) : ∃ d, Within d e ∧ c = d.outline := by
  obtain ⟨p, hp⟩ := exists_at?_of_within h
  rw [at?_outline] at hp
  obtain ⟨d, hd, rfl⟩ := Option.map_eq_some_iff.mp hp
  exact ⟨d, within_of_at? hd, rfl⟩

theorem Coherent.outline (h : e.Coherent) : e.outline.Coherent := by
  intro c c' hc hc' same
  obtain ⟨d, hd, rfl⟩ := within_outline hc
  obtain ⟨d', hd', rfl⟩ := within_outline hc'
  rw [id_outline, id_outline] at same
  rw [h d d' hd hd' same]

theorem exact_outline (r : Registry) (e : Expr) : e.outline.Exact r := by
  intro c hc
  obtain ⟨d, -, rfl⟩ := within_outline hc
  rw [outline_eq]
  trivial

theorem sharingPattern_outline (e : Expr) : e.outline.sharingPattern = e.sharingPattern :=
  Corresponds.sharingPattern_eq (f := fun i => i)
    (fun p => by rw [idAt?_outline, Option.map_id']) fun _ _ _ _ h => h

/-- Outlines of expressions of one structure are alike. -/
theorem alike_outline {constants : Value → Value → Bool} (e d : Expr)
    (h : e.sameBy constants d = true) : e.outline.sameBy Value.alike d.outline = true := by
  have lists (cs ds : List Expr) (hcs : ∀ c ∈ cs, c ∈ e.children)
      (h : zipList (sameBy constants) cs ds = true) :
      zipList (sameBy Value.alike) (cs.map outline) (ds.map outline) = true := by
    induction cs generalizing ds with
    | nil => cases ds <;> first | rfl | cases h
    | cons c cs ih =>
      cases ds with
      | nil => cases h
      | cons d ds =>
        have hc := hcs c List.mem_cons_self
        rw [zipList, Bool.and_eq_true] at h
        rw [List.map_cons, List.map_cons, zipList, Bool.and_eq_true]
        exact ⟨alike_outline c d h.1, ih ds (fun x hx => hcs x (List.mem_cons_of_mem c hx)) h.2⟩
  rw [sameBy_eq] at h
  rw [sameBy_eq, outline_eq, outline_eq]
  exact lists _ _ (fun _ h => h) (Node.zip_children h)
termination_by sizeOf e
decreasing_by exact Expr.sizeOf_lt_of_mem hc

/-- Expressions of one structure with the same pattern have identities that correspond to each
    other both ways. -/
theorem exists_idAt?_eq (he : e.Coherent) (hd : d.Coherent) (h : (e == d) = true)
    (pattern : e.sharingPattern = d.sharingPattern) :
    ∃ f g : Nat → Nat, f.Injective ∧ g.Injective ∧
      ∀ p, (e.idAt? p).map f = (d.idAt? p).map g := by
  -- an outline holds nothing that would have to be registered
  let r : Registry := ⟨fun i => ⟨i, "", true⟩, fun _ => ("", [])⟩
  obtain ⟨f, g, hf, hg, same⟩ := rename_eq_of_alike he.outline hd.outline (exact_outline r e)
    (exact_outline r d) (alike_outline e d h)
    (by rw [sharingPattern_outline, sharingPattern_outline, pattern])
  refine ⟨f, g, hf, hg, fun p => ?_⟩
  rw [← idAt?_outline e, ← idAt?_outline d, ← idAt?_rename, ← idAt?_rename, same]

/-! ### The pattern and the shared positions -/

/-- **The pattern is exactly the sharing.**  Two expressions of one structure have the same sharing
    pattern exactly when two positions hold one and the same node in both of them or in none. -/
theorem sharingPattern_eq_iff (he : e.Coherent) (hd : d.Coherent) (h : (e == d) = true) :
    e.sharingPattern = d.sharingPattern ↔ ∀ p q, e.SharedAt p q ↔ d.SharedAt p q := by
  constructor
  · intro pattern p q
    obtain ⟨f, g, hf, hg, same⟩ := exists_idAt?_eq he hd h pattern
    have transfer {e d : Expr} {f g : Nat → Nat} (hg : g.Injective)
        (same : ∀ p, (e.idAt? p).map f = (d.idAt? p).map g) (shared : e.SharedAt p q) :
        d.SharedAt p q := by
      obtain ⟨i, hp, hq⟩ := sharedAt_iff.mp shared
      have hp' := same p
      have hq' := same q
      rw [hp, eq_comm] at hp'
      rw [hq, eq_comm] at hq'
      obtain ⟨j, hj, hji⟩ := Option.map_eq_some_iff.mp hp'
      obtain ⟨k, hk, hki⟩ := Option.map_eq_some_iff.mp hq'
      exact sharedAt_iff.mpr ⟨j, hj, hg (hji.trans hki.symm) ▸ hk⟩
    exact ⟨transfer hg same, transfer hf fun p => (same p).symm⟩
  · intro shared
    obtain ⟨f, corresponds, injective⟩ := exists_corresponds shared
    exact corresponds.sharingPattern_eq injective

/-- A pair of equal conjunctions over one handle of the input. -/
def pairOfBoth (i j : Nat) : Expr :=
  .mk 0 (.collection .tuple [.mk i (.and [.mk 1 .input, .mk 1 .input]),
    .mk j (.and [.mk 1 .input, .mk 1 .input])])

theorem coherent_pairOfBoth : (pairOfBoth 2 2).Coherent ∧ (pairOfBoth 2 3).Coherent := by
  let half (i : Nat) : Expr := .mk i (.and [.mk 1 .input, .mk 1 .input])
  constructor
  · exact coherent_of_nodes [pairOfBoth 2 2, half 2, .mk 1 .input] List.mem_cons_self
      (by simp [pairOfBoth, half, children, node, Node.children])
      (by simp [pairOfBoth, half, id])
  · exact coherent_of_nodes [pairOfBoth 2 3, half 2, half 3, .mk 1 .input] List.mem_cons_self
      (by simp [pairOfBoth, half, children, node, Node.children])
      (by simp [pairOfBoth, half, id])

/-- Whether the two conjunctions are one handle shows in the pattern, although the input below them
    is one handle in any case. -/
theorem sharingPattern_eq_iff_pairOfBoth :
    (pairOfBoth 2 2).Coherent ∧ (pairOfBoth 2 3).Coherent ∧
      (pairOfBoth 2 2 == pairOfBoth 2 3) = true ∧
      (pairOfBoth 2 2).sharingPattern = [0, 1, 2, 2, 1] ∧
      (pairOfBoth 2 3).sharingPattern = [0, 1, 2, 2, 3, 2, 2] ∧
      ¬ ∀ p q, (pairOfBoth 2 2).SharedAt p q ↔ (pairOfBoth 2 3).SharedAt p q := by
  obtain ⟨one, two⟩ := coherent_pairOfBoth
  have same : (pairOfBoth 2 2 == pairOfBoth 2 3) = true := by decide +kernel
  have pattern : (pairOfBoth 2 2).sharingPattern = [0, 1, 2, 2, 1] := by decide +kernel
  have pattern' : (pairOfBoth 2 3).sharingPattern = [0, 1, 2, 2, 3, 2, 2] := by decide +kernel
  refine ⟨one, two, same, pattern, pattern', fun shared => ?_⟩
  have equal := (sharingPattern_eq_iff one two same).mpr shared
  rw [pattern, pattern'] at equal
  exact absurd equal (by decide)

end DataExpr.Expr
