import DataExpr.Lowering.Lower
import DataExpr.Proofs.Subexpressions

/-!
# Expressions with other identities

New identities for an expression and what is in it change neither its analysis nor its structure.
Where lowering knows an expression by its shape its identity does not matter at all; if the
identities by which it knows the others are kept apart, no comparison that it makes changes: two
sites are the same under the new identities exactly when they were before, and a site has been
counted as often.
-/

namespace DataExpr

variable {ε δ γ : Type}

/-! ### Comparison after mapping the second node -/

theorem zipOption_map_right (p : ε → γ → Bool) (g : δ → γ) (a : Option ε) (b : Option δ) :
    zipOption p a (b.map g) = zipOption (fun x y => p x (g y)) a b := by
  cases a <;> cases b <;> rfl

theorem zipList_map_right (p : ε → γ → Bool) (g : δ → γ) (as : List ε) (bs : List δ) :
    zipList p as (bs.map g) = zipList (fun x y => p x (g y)) as bs := by
  induction as generalizing bs with
  | nil => cases bs <;> rfl
  | cons a as ih => cases bs <;> simp [zipList, ih]

theorem PathStep.zip_map_right (p : ε → γ → Bool) (g : δ → γ) :
    (fun (a : PathStep ε) (b : PathStep δ) => a.zip p (b.map g)) =
      PathStep.zip fun x y => p x (g y) := by
  funext a b
  cases a <;> cases b <;> rfl

theorem SortKey.zip_map_right (p : ε → γ → Bool) (g : δ → γ) :
    (fun (a : SortKey ε) (b : SortKey δ) => a.zip p (b.map g)) =
      SortKey.zip fun x y => p x (g y) := rfl

theorem Handler.zip_map_right (p : ε → γ → Bool) (g : δ → γ) :
    (fun (a : Handler ε) (b : Handler δ) => a.zip p (b.map g)) =
      Handler.zip fun x y => p x (g y) := by
  funext a b
  simp [map, zip, zipOption_map_right]

theorem Reducer.zipSlot_map (p : γ → γ → Bool) (f : ε → γ) (g : δ → γ) (a : Reducer ε)
    (b : Reducer δ) : (a.map f).zipSlot p (b.map g) = a.zipSlot (fun x y => p (f x) (g y)) b := by
  simp [map, zipSlot, zipOption_map_left, zipList_map_left, zipOption_map_right,
    zipList_map_right]

theorem Reducer.zip_map_right (p : ε → γ → Bool) (g : δ → γ) (a : Reducer ε) (b : Reducer δ) :
    a.zip p (b.map g) = a.zip (fun x y => p x (g y)) b := by
  simp [map, zip, zipSlot, zipOption_map_right, zipList_map_right]

theorem Node.zip_map_right (constants : Value → Value → Bool) (p : ε → γ → Bool) (g : δ → γ)
    (a : Node ε) (b : Node δ) :
    a.zip constants p (b.map g) = a.zip constants (fun x y => p x (g y)) b := by
  cases a <;> cases b <;> try rfl
  all_goals
    simp [map, zip, zipOption_map_right, zipList_map_right, PathStep.zip_map_right,
      SortKey.zip_map_right, Handler.zip_map_right, Reducer.zip_map_right]

/-- Only the subexpressions of a node are compared. -/
theorem Node.zip_congr {constants : Value → Value → Bool} {p q : ε → δ → Bool} {a : Node ε}
    {b : Node δ} (h : ∀ x ∈ a.children, ∀ y, p x y = q x y) :
    a.zip constants p b = a.zip constants q b := by
  have left (r : ε → δ → Bool) := Node.zip_map_left constants r (fun c => c.1) a.attach b
  rw [Node.attach_map_val] at left
  have same : (fun (x : { e // e ∈ a.children }) y => p x.1 y) = fun x y => q x.1 y := by
    funext x y
    exact h x.1 x.2 y
  rw [left p, left q, same]

/-- Only the images of the subexpressions of a node matter. -/
theorem Node.map_congr {f g : ε → δ} {a : Node ε} (h : ∀ x ∈ a.children, f x = g x) :
    a.map f = a.map g := by
  have split (k : ε → δ) := Node.map_map (fun c : { e // e ∈ a.children } => c.1) k a.attach
  rw [Node.attach_map_val] at split
  have same : (fun x : { e // e ∈ a.children } => f x.1) = fun x => g x.1 := by
    funext x
    exact h x.1 x.2
  rw [split f, split g, same]

/-! ### Relabeling and renaming -/

namespace Expr

/-- The expression with the identities that a labeling gives to it and to what is in it. -/
def relabel (label : Expr → Nat) (e : Expr) : Expr :=
  .mk (label e) (e.node.attach.map fun c => relabel label c.1)
termination_by sizeOf e
decreasing_by exact Expr.sizeOf_lt_of_mem c.2

section Relabel

variable (label : Expr → Nat)

theorem relabel_eq (e : Expr) :
    e.relabel label = .mk (label e) (e.node.map (relabel label)) := by
  have h := Node.map_map (fun c : { c // c ∈ e.node.children } => c.1) (relabel label) e.node.attach
  rw [Node.attach_map_val] at h
  rw [relabel, h]

@[simp] theorem id_relabel (e : Expr) : (e.relabel label).id = label e := by
  rw [relabel_eq]
  rfl

@[simp] theorem node_relabel (e : Expr) :
    (e.relabel label).node = e.node.map (relabel label) := by
  rw [relabel_eq]
  rfl

@[simp] theorem children_relabel (e : Expr) :
    (e.relabel label).children = e.children.map (relabel label) := by
  rw [children, node_relabel, Node.children_map]
  rfl

theorem analyze_relabel (e : Expr) : (e.relabel label).analyze = e.analyze := by
  rw [analyze_eq, analyze_eq, node_relabel, Node.map_map]
  exact congrArg Node.analysis (Node.map_congr fun c hc => analyze_relabel c)
termination_by sizeOf e
decreasing_by exact Expr.sizeOf_lt_of_mem hc

@[simp] theorem analysis_relabel (e : Expr) : (e.relabel label).analysis = e.analysis := by
  rw [analysis, analysis, analyze_relabel]

@[simp] theorem size_relabel (e : Expr) : (e.relabel label).size = e.size := by
  have parts (es : List Expr) (h : ∀ c ∈ es, (c.relabel label).size = c.size) :
      (es.map (relabel label)).foldr (fun c n => c.size + n) 1 =
        es.foldr (fun c n => c.size + n) 1 := by
    induction es with
    | nil => rfl
    | cons c cs ih =>
      rw [List.map_cons, List.foldr_cons, List.foldr_cons, h c List.mem_cons_self,
        ih fun c hc => h c (List.mem_cons_of_mem _ hc)]
  rw [size_eq, size_eq, children_relabel]
  exact parts e.children fun c hc => size_relabel c
termination_by sizeOf e
decreasing_by exact Expr.sizeOf_lt_of_mem hc

theorem kindName_relabel (e : Expr) : (e.relabel label).node.kindName = e.node.kindName := by
  rw [node_relabel]
  cases e.node <;> rfl

theorem isAtomic_relabel (e : Expr) :
    Lowering.isAtomic (e.relabel label).node = Lowering.isAtomic e.node := by
  rw [node_relabel]
  cases e.node <;> rfl

/-- Comparisons do not see identities. -/
theorem sameBy_relabel_right (constants : Value → Value → Bool) (e d : Expr) :
    sameBy constants e (d.relabel label) = sameBy constants e d := by
  rw [sameBy_eq, sameBy_eq, node_relabel, Node.zip_map_right]
  exact Node.zip_congr fun c hc y => sameBy_relabel_right constants c y
termination_by sizeOf e
decreasing_by exact Expr.sizeOf_lt_of_mem hc

theorem sameBy_relabel_left (constants : Value → Value → Bool) (e d : Expr) :
    sameBy constants (e.relabel label) d = sameBy constants e d := by
  rw [sameBy_eq, sameBy_eq, node_relabel, Node.zip_map_left]
  exact Node.zip_congr fun c hc y => sameBy_relabel_left constants c y
termination_by sizeOf e
decreasing_by exact Expr.sizeOf_lt_of_mem hc

theorem sameBy_relabel (constants : Value → Value → Bool) (e d : Expr) :
    sameBy constants (e.relabel label) (d.relabel label) = sameBy constants e d := by
  rw [sameBy_relabel_right, sameBy_relabel_left]

theorem beq_relabel_right (e d : Expr) : (e == d.relabel label) = (e == d) :=
  sameBy_relabel_right label Value.beq e d

theorem beq_relabel_left (e d : Expr) : (e.relabel label == d) = (e == d) :=
  sameBy_relabel_left label Value.beq e d

theorem beq_relabel (e d : Expr) : (e.relabel label == d.relabel label) = (e == d) :=
  sameBy_relabel label Value.beq e d

theorem alike_relabel (e d : Expr) : (e.relabel label).alike (d.relabel label) = e.alike d :=
  sameBy_relabel label Value.alike e d

variable {label} in
/-- Only the labels of what is in an expression matter. -/
theorem relabel_congr {label' : Expr → Nat} (e : Expr)
    (h : ∀ c, Within c e → label c = label' c) : e.relabel label = e.relabel label' := by
  have parts : e.node.map (relabel label) = e.node.map (relabel label') :=
    Node.map_congr fun c hc => relabel_congr c fun d hd => h d (hd.trans (.child hc))
  rw [relabel_eq, relabel_eq, h e (.refl e), parts]
termination_by sizeOf e
decreasing_by exact Expr.sizeOf_lt_of_mem hc

end Relabel

/-- The expression with other identities. -/
def rename (f : Nat → Nat) (e : Expr) : Expr :=
  .mk (f e.id) (e.node.attach.map fun c => rename f c.1)
termination_by sizeOf e
decreasing_by exact Expr.sizeOf_lt_of_mem c.2

section Rename

variable (f g : Nat → Nat)

theorem rename_eq (e : Expr) : e.rename f = .mk (f e.id) (e.node.map (rename f)) := by
  have h := Node.map_map (fun c : { c // c ∈ e.node.children } => c.1) (rename f) e.node.attach
  rw [Node.attach_map_val] at h
  rw [rename, h]

/-- Renaming is relabeling by the identities that there are. -/
theorem rename_apply (e : Expr) : e.rename f = e.relabel fun c => f c.id := by
  rw [rename_eq, relabel_eq]
  exact congrArg _ (Node.map_congr fun c hc => rename_apply c)
termination_by sizeOf e
decreasing_by exact Expr.sizeOf_lt_of_mem hc

theorem rename_eq_relabel : rename f = relabel fun c => f c.id := funext (rename_apply f)

theorem rename_rename (e : Expr) : (e.rename f).rename g = e.rename fun i => g (f i) := by
  rw [rename_eq, rename_eq f, rename_eq fun i => g (f i)]
  refine congrArg _ ((Node.map_map _ _ _).trans ?_)
  exact Node.map_congr fun c hc => rename_rename c
termination_by sizeOf e
decreasing_by exact Expr.sizeOf_lt_of_mem hc

theorem analysis_rename (e : Expr) : (e.rename f).analysis = e.analysis := by
  rw [rename_eq_relabel, analysis_relabel]

theorem beq_rename_right (e d : Expr) : (e == d.rename f) = (e == d) := by
  rw [rename_eq_relabel, beq_relabel_right]

theorem beq_rename_left (e d : Expr) : (e.rename f == d) = (e == d) := by
  rw [rename_eq_relabel, beq_relabel_left]

theorem alike_rename (e d : Expr) : (e.rename f).alike (d.rename f) = e.alike d := by
  rw [rename_eq_relabel, alike_relabel]

end Rename

end Expr

/-- Lowering knows the expression by its identity, not by its shape: it has effects, or depends on
    more than its input. -/
def Expr.KnownById (e : Expr) : Prop :=
  (e.analysis.hasSideEffects || e.analysis.readsLabels || e.analysis.readsCaught) = true

instance : DecidablePred Expr.KnownById := fun _ => inferInstanceAs (Decidable (_ = true))

/-- New identities under which lowering goes on as before.  Where it knows an expression by its
    identity, the new one depends on the old one only, and different ones stay different. -/
structure Relabeling where
  label : Expr → Nat
  ids : Nat → Nat
  injective : ids.Injective
  label_eq : ∀ e : Expr, e.KnownById → label e = ids e.id

/-- Identities that depend on the old ones only. -/
def Relabeling.ofInjective {f : Nat → Nat} (hf : f.Injective) : Relabeling :=
  ⟨fun e => f e.id, f, hf, fun _ _ => rfl⟩

/-! ### Sites -/

/-- The key with other identities. -/
def NodeKey.relabel (ρ : Relabeling) : NodeKey → NodeKey
  | .identity i => .identity (ρ.ids i)
  | .shape e size size_eq =>
    .shape (e.relabel ρ.label) size (size_eq.trans (Expr.size_relabel ρ.label e).symm)

def Context.relabel (ρ : Relabeling) : Context → Context
  | .root => .root
  | .part outer node which => .part (outer.relabel ρ) (node.relabel ρ) which

def Site.relabel (ρ : Relabeling) (site : Site) : Site :=
  ⟨site.context.relabel ρ, site.node.relabel ρ⟩

section Sites

variable (ρ : Relabeling)

theorem Relabeling.beq_ids (i j : Nat) : (ρ.ids i == ρ.ids j) = (i == j) := by
  rw [Bool.eq_iff_iff, beq_iff_eq, beq_iff_eq]
  exact ρ.injective.eq_iff

theorem NodeKey.beq_relabel (k l : NodeKey) : (k.relabel ρ == l.relabel ρ) = (k == l) := by
  cases k with
  | identity i =>
    cases l with
    | identity j => exact ρ.beq_ids i j
    | shape => rfl
  | shape e m hm =>
    cases l with
    | identity => rfl
    | shape d n hn => exact Expr.beq_relabel ρ.label e d

theorem NodeKey.alike_relabel (k l : NodeKey) : (k.relabel ρ).alike (l.relabel ρ) = k.alike l := by
  cases k with
  | identity i =>
    cases l with
    | identity j => exact ρ.beq_ids i j
    | shape => rfl
  | shape e m hm =>
    cases l with
    | identity => rfl
    | shape d n hn => exact Expr.alike_relabel ρ.label e d

theorem Context.same_relabel (a b : Context) : (a.relabel ρ).same (b.relabel ρ) = a.same b := by
  change (a.relabel ρ).alike (b.relabel ρ) = a.alike b
  induction a generalizing b with
  | root => cases b <;> rfl
  | part outer node which ih =>
    cases b with
    | root => rfl
    | part outer' node' which' =>
      simp only [relabel, alike, NodeKey.alike_relabel, ih]

theorem Site.same_relabel (a b : Site) : (a.relabel ρ).same (b.relabel ρ) = a.same b := by
  simp only [same, relabel, Context.same_relabel, NodeKey.beq_relabel]

theorem NodeKey.of_relabel (e : Expr) :
    NodeKey.of (e.relabel ρ.label) e.analysis = (NodeKey.of e e.analysis).relabel ρ := by
  unfold NodeKey.of
  split
  · next known => rw [Expr.id_relabel, ρ.label_eq e known, relabel]
  · simp only [relabel, Expr.size_relabel]

end Sites

/-! ### Occurrences as a list -/

namespace Occurrences

/-- A table holds the entries of a list, those of each stamp in their order. -/
def Holds (table : Occurrences) (entries : List (Site × Nat)) : Prop :=
  ∀ s, table.getD s [] = entries.filter fun entry => entry.1.stamp == s

theorem holds_empty : Holds ∅ [] := fun s => by simp

/-- A site is found among the entries of its stamp. -/
theorem countIn_filter (site : Site) (entries : List (Site × Nat)) :
    countIn site (entries.filter fun entry => entry.1.stamp == site.stamp) =
      countIn site entries := by
  induction entries with
  | nil => rfl
  | cons entry rest ih =>
    by_cases h : entry.1.same site = true
    · simp [countIn, Site.stamp_eq_of_same h, h]
    · by_cases hs : entry.1.stamp = site.stamp
      · simpa [countIn, hs, h] using ih
      · simpa [countIn, hs, h] using ih

theorem count_eq {table : Occurrences} {entries : List (Site × Nat)} (h : table.Holds entries)
    (site : Site) : table.count site = countIn site entries := by
  rw [count, h site.stamp, countIn_filter]

/-- Adding a site to the entries of its stamp adds it to the list. -/
theorem filter_addTo (site : Site) (s : UInt64) (entries : List (Site × Nat)) :
    (addTo site entries).filter (fun entry => entry.1.stamp == s) =
      if site.stamp = s then addTo site (entries.filter fun entry => entry.1.stamp == s)
      else entries.filter fun entry => entry.1.stamp == s := by
  induction entries with
  | nil => by_cases hs : site.stamp = s <;> simp [addTo, hs]
  | cons entry rest ih =>
    obtain ⟨t, n⟩ := entry
    by_cases h : t.same site = true
    · have hstamp := Site.stamp_eq_of_same h
      by_cases hs : site.stamp = s <;> simp [addTo, h, hstamp, hs]
    · by_cases hs : site.stamp = s
      · by_cases ht : t.stamp = s <;> simp_all [addTo]
      · by_cases ht : t.stamp = s <;> simp_all [addTo]

theorem holds_add {table : Occurrences} {entries : List (Site × Nat)} (h : table.Holds entries)
    (site : Site) : (table.add site).Holds (addTo site entries) := by
  intro s
  rw [add, Std.TreeMap.getD_insert, filter_addTo]
  by_cases hs : site.stamp = s
  · subst hs
    simp [h site.stamp]
  · simp [hs, h s]

/-- The entries with other identities. -/
def relabelAll (ρ : Relabeling) (entries : List (Site × Nat)) : List (Site × Nat) :=
  entries.map fun entry => (entry.1.relabel ρ, entry.2)

variable (ρ : Relabeling)

theorem countIn_relabel (site : Site) (entries : List (Site × Nat)) :
    countIn (site.relabel ρ) (relabelAll ρ entries) = countIn site entries := by
  induction entries with
  | nil => rfl
  | cons entry rest ih =>
    by_cases h : entry.1.same site = true
    · simp [countIn, relabelAll, Site.same_relabel, h]
    · simpa [countIn, relabelAll, Site.same_relabel, h] using ih

theorem addTo_relabel (site : Site) (entries : List (Site × Nat)) :
    addTo (site.relabel ρ) (relabelAll ρ entries) = relabelAll ρ (addTo site entries) := by
  induction entries with
  | nil => rfl
  | cons entry rest ih =>
    obtain ⟨t, n⟩ := entry
    simp only [relabelAll, List.map_cons, addTo, Site.same_relabel] at ih ⊢
    by_cases h : t.same site = true
    · simp [h]
    · simpa [h] using ih

end Occurrences
end DataExpr
