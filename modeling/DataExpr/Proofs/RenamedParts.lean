import DataExpr.Proofs.Renaming
import Mathlib.Logic.Function.Basic

/-!
# Parts of expressions with other identities

What lowering takes apart of an expression, its subexpressions, the conjuncts of a join condition,
the reducers and slots of an output and the plan of a join, is the same up to identities when the
expression is relabeled.  The parts of two roots have different types; they are compared as
expressions: what belongs to the relabeled root is the image of what belongs to the other one.
-/

namespace DataExpr

variable {α β ι κ : Type} {label : Expr → Nat} {root root' : Expr}

/-! ### Parts of nodes -/

/-- An expression below a root with other identities. -/
abbrev image (label : Expr → Nat) (c : Smaller root) : Expr := c.1.relabel label

theorem parts_relabel (label : Expr → Nat) (e : Expr) :
    ((e.relabel label).parts.map fun c => c.1) = e.parts.map (image label) := by
  rw [Expr.map_parts, Expr.node_relabel, ← Expr.map_parts e, Node.map_map]

theorem parts_of_image {c : Smaller root} {c' : Smaller root'} (h : c'.1 = image label c) :
    (c'.parts.map fun d => d.1.1) = c.parts.map fun d => image label d.1 := by
  rw [Smaller.map_parts, h, Expr.node_relabel, ← Smaller.map_parts c, Node.map_map]

theorem Reducer.map_map {γ : Type} (g : α → β) (h : β → γ) (r : Reducer α) :
    (r.map g).map h = r.map fun c => h (g c) := by
  simp [Reducer.map, Function.comp_def]

theorem plain_image {r : Reducer (Smaller root)} {r' : Reducer (Smaller root')}
    (h : (r'.map fun c => c.1) = r.map (image label)) :
    Smaller.plain r' = (Smaller.plain r).map (Expr.relabel label) :=
  h.trans (Reducer.map_map (fun c => c.1) (Expr.relabel label) r).symm

/-- What is wrong with a reducer does not depend on identities. -/
theorem Reducer.validate_relabel (label : Expr → Nat) (r : Reducer Expr) :
    (r.map (Expr.relabel label)).validate = r.validate := by
  have inputs : (r.map (Expr.relabel label)).args ++ (r.map (Expr.relabel label)).filter.toList ++
      (r.map (Expr.relabel label)).initial.toList =
        (r.args ++ r.filter.toList ++ r.initial.toList).map (Expr.relabel label) := by
    obtain ⟨kind, args, filter, default, initial⟩ := r
    cases filter <;> cases initial <;> simp [Reducer.map]
  unfold Reducer.validate
  rw [inputs]
  simp only [List.forIn_map, Expr.analysis_relabel]
  simp only [Reducer.map, List.length_map, Option.isSome_map]

theorem Reducer.sameSlot_relabel (label : Expr → Nat) (r s : Reducer Expr) :
    (r.map (Expr.relabel label)).sameSlot (s.map (Expr.relabel label)) = r.sameSlot s := by
  rw [Reducer.sameSlot, Reducer.zipSlot_map]
  congr 1
  funext a b
  exact Expr.beq_relabel label a b

theorem Reducer.sameSlot_relabel_left (label : Expr → Nat) (r s : Reducer Expr) :
    (r.map (Expr.relabel label)).sameSlot s = r.sameSlot s := by
  obtain ⟨kind, args, filter, default, initial⟩ := r
  simp only [sameSlot, map, zipSlot, zipOption_map_left, zipList_map_left, Expr.beq_relabel_left]

theorem Reducer.sameSlot_relabel_right (label : Expr → Nat) (r s : Reducer Expr) :
    r.sameSlot (s.map (Expr.relabel label)) = r.sameSlot s := by
  rw [← sameSlot_relabel label r s, sameSlot_relabel_left]

theorem Reducer.sameSlot_rename_left (f : Nat → Nat) (r s : Reducer Expr) :
    (r.map (Expr.rename f)).sameSlot s = r.sameSlot s := by
  rw [Expr.rename_eq_relabel, sameSlot_relabel_left]

theorem Reducer.sameSlot_rename_right (f : Nat → Nat) (r s : Reducer Expr) :
    r.sameSlot (s.map (Expr.rename f)) = r.sameSlot s := by
  rw [Expr.rename_eq_relabel, sameSlot_relabel_right]

/-! ### Nodes with an image of one kind -/

section Kinds

variable {g : α → β} {node : Node α}

theorem Node.of_map_and {items' : List β} (h : node.map g = .and items') :
    ∃ items, node = .and items ∧ items.map g = items' := by
  cases node with
  | and items => exact ⟨items, rfl, Node.and.inj h⟩
  | _ => cases h

theorem Node.of_map_aggregate {keys' : List β} {output' : β}
    (h : node.map g = .aggregate keys' output') : ∃ keys output, node = .aggregate keys output := by
  cases node with
  | aggregate keys output => exact ⟨keys, output, rfl⟩
  | _ => cases h

theorem Node.of_map_reducer {r' : Reducer β} (h : node.map g = .reducer r') :
    ∃ r, node = .reducer r ∧ r.map g = r' := by
  cases node with
  | reducer r => exact ⟨r, rfl, Node.reducer.inj h⟩
  | _ => cases h

theorem Node.of_map_constant {v : Value} (h : node.map g = .constant v) : node = .constant v := by
  cases node with
  | constant => exact congrArg Node.constant (Node.constant.inj h)
  | _ => cases h

theorem Node.of_map_binary {op : BinaryOp} {l' r' : β} (h : node.map g = .binary op l' r') :
    ∃ l r, node = .binary op l r ∧ g l = l' ∧ g r = r' := by
  cases node with
  | binary =>
    obtain ⟨rfl, hl, hr⟩ := Node.binary.inj h
    exact ⟨_, _, rfl, hl, hr⟩
  | _ => cases h

end Kinds

/-! ### Conjuncts, reducers and plans -/

/-- Parts of parts, gathered from lists with the same images. -/
theorem map_flatMap_images {γ δ : Type} {is : List ι} {js : List κ} {u : ι → γ} {v : κ → γ}
    {g : ι → List α} {g' : κ → List β} {p : α → δ} {q : β → δ} (h : js.map v = is.map u)
    (step : ∀ i ∈ is, ∀ j, v j = u i → (g' j).map q = (g i).map p) :
    (js.flatMap g').map q = (is.flatMap g).map p := by
  induction is generalizing js with
  | nil =>
    obtain rfl := List.map_eq_nil_iff.mp h
    rfl
  | cons i is ih =>
    obtain ⟨j, js, rfl, hj, hjs⟩ := List.map_eq_cons_iff.mp h
    simp only [List.flatMap_cons, List.map_append]
    rw [step i List.mem_cons_self j hj, ih hjs fun i hi => step i (List.mem_cons_of_mem _ hi)]

/-- Folds over lists with the same images, with results that have the same images. -/
theorem foldlM_images {γ δ ε : Type} {is : List ι} {js : List κ} {u : ι → γ} {v : κ → γ}
    {g : α → ι → Except ε α} {g' : β → κ → Except ε β} {p : α → δ} {q : β → δ}
    (h : js.map v = is.map u)
    (step : ∀ a b i j, q b = p a → v j = u i → (g' b j).map q = (g a i).map p) (a : α) (b : β)
    (hab : q b = p a) : (js.foldlM g' b).map q = (is.foldlM g a).map p := by
  induction is generalizing js a b with
  | nil =>
    obtain rfl := List.map_eq_nil_iff.mp h
    exact congrArg Except.ok hab
  | cons i is ih =>
    obtain ⟨j, js, rfl, hj, hjs⟩ := List.map_eq_cons_iff.mp h
    have first := step a b i j hab hj
    rw [List.foldlM_cons, List.foldlM_cons]
    cases hi : g a i <;> cases hj : g' b j <;> rw [hi, hj] at first
    case ok.ok => exact ih hjs _ _ (Except.ok.inj first)
    case error.error => exact congrArg Except.error (Except.error.inj first)
    all_goals cases first

theorem conjuncts_relabel (e : Smaller root) (e' : Smaller root') (h : e'.1 = image label e) :
    (e'.conjuncts.map fun c => c.1) = e.conjuncts.map (image label) := by
  have hparts := parts_of_image h
  rw [Smaller.conjuncts, Smaller.conjuncts]
  split
  · next items' hn' =>
    rw [hn'] at hparts
    obtain ⟨items, hn, hitems⟩ := Node.of_map_and hparts.symm
    rw [hn]
    exact map_flatMap_images hitems.symm fun i _ j hj => conjuncts_relabel i.1 j.1 hj
  · next other' =>
    split
    · next items hn =>
      rw [hn] at hparts
      obtain ⟨items', hn', -⟩ := Node.of_map_and hparts
      exact absurd hn' (other' items')
    · exact congrArg (fun x => [x]) h
termination_by sizeOf e.1
decreasing_by exact i.2

theorem reducers_relabel (e : Smaller root) (e' : Smaller root') (h : e'.1 = image label e) :
    e'.reducers.map (Reducer.map fun c => c.1) = e.reducers.map (Reducer.map (image label)) := by
  have hparts := parts_of_image h
  have hchildren := congrArg Node.children hparts
  rw [Node.children_map, Node.children_map] at hchildren
  have nested := map_flatMap_images hchildren fun i _ j hj => reducers_relabel i.1 j.1 hj
  -- The walk branches on the node, and a node and its image have the same constructor.
  rw [Smaller.reducers, Smaller.reducers]
  split
  · next keys' output' hn' =>
    rw [hn'] at hparts
    obtain ⟨keys, output, hn⟩ := Node.of_map_aggregate hparts.symm
    rw [hn]
    rfl
  · next r' hn' =>
    rw [hn'] at hparts
    obtain ⟨r, hn, hr⟩ := Node.of_map_reducer hparts.symm
    rw [hn]
    have head : (r'.map fun c => c.1).map (fun c => c.1) =
        (r.map fun c => c.1).map (image label) := by
      rw [Reducer.map_map, Reducer.map_map]
      exact hr.symm
    have hdefault : r'.default.map (fun d => d.1.1) = r.default.map fun d => image label d.1 :=
      congrArg Reducer.default hr.symm
    cases hd : r.default with
    | none =>
      rw [hd] at hdefault
      simp only [Option.map_eq_none_iff.mp hdefault, hd, List.map_cons, head, List.map_nil]
    | some d =>
      rw [hd] at hdefault
      obtain ⟨d', hd', hdd⟩ := Option.map_eq_some_iff.mp hdefault
      simp only [hd', hd, List.map_cons, head, reducers_relabel d.1 d'.1 hdd]
  · next noAggregate' noReducer' =>
    split
    · next keys output hn =>
      rw [hn] at hparts
      obtain ⟨keys', output', hn'⟩ := Node.of_map_aggregate hparts
      exact absurd hn' (noAggregate' keys' output')
    · next r hn =>
      rw [hn] at hparts
      obtain ⟨r', hn', -⟩ := Node.of_map_reducer hparts
      exact absurd hn' (noReducer' r')
    · exact nested
termination_by sizeOf e.1
decreasing_by
  · exact i.2
  · exact d.2

theorem any_sameSlot_image {ss : List (Reducer (Smaller root))}
    {ss' : List (Reducer (Smaller root'))} {r : Reducer (Smaller root)}
    {r' : Reducer (Smaller root')} (hr : (r'.map fun c => c.1) = r.map (image label))
    (hss : ss'.map (Reducer.map fun c => c.1) = ss.map (Reducer.map (image label))) :
    (ss'.any fun s => (Smaller.plain s).sameSlot (Smaller.plain r')) =
      ss.any fun s => (Smaller.plain s).sameSlot (Smaller.plain r) := by
  induction ss generalizing ss' with
  | nil =>
    obtain rfl := List.map_eq_nil_iff.mp hss
    rfl
  | cons s ss ih =>
    obtain ⟨s', ss', rfl, hs, htail⟩ := List.map_eq_cons_iff.mp hss
    rw [List.any_cons, List.any_cons, ih htail, plain_image hs, plain_image hr,
      Reducer.sameSlot_relabel]

theorem slots_relabel {output : Smaller root} {output' : Smaller root'}
    (h : output'.1 = image label output) :
    output'.slots.map (List.map (Reducer.map fun c => c.1)) =
      output.slots.map (List.map (Reducer.map (image label))) := by
  refine foldlM_images (reducers_relabel output output' h) (fun ss ss' r r' hss hr => ?_) [] [] rfl
  rw [any_sameSlot_image hr hss, plain_image hr, Reducer.validate_relabel]
  cases (Smaller.plain r).validate with
  | error e => rfl
  | ok u =>
    refine congrArg Except.ok ?_
    split
    · exact hss
    · rw [List.map_append, List.map_append, hss]
      exact congrArg (fun x => _ ++ [x]) hr

/-- The role with other operands. -/
def ConjunctRole.map (g : α → β) : ConjunctRole α → ConjunctRole β
  | .trivial => .trivial
  | .key l r => .key (g l) (g r)
  | .neither => .neither
  | .left => .left
  | .right => .right
  | .both => .both

theorem ConjunctRole.map_sides (g : α → β) (s : Sides) :
    (s.role : ConjunctRole α).map g = s.role := by
  obtain ⟨l, r⟩ := s
  cases l <;> cases r <;> rfl

theorem role_relabel {c : Smaller root} {c' : Smaller root'} (h : c'.1 = image label c) :
    (c'.role.map fun d => d.1) = c.role.map (image label) := by
  have hparts := parts_of_image h
  have other : ConjunctRole.map (fun d : Smaller root' => d.1) c'.1.analysis.sides.role =
      ConjunctRole.map (image label) (c.1.analysis.sides.role : ConjunctRole (Smaller root)) := by
    rw [h, Expr.analysis_relabel, ConjunctRole.map_sides, ConjunctRole.map_sides]
  rw [Smaller.role, Smaller.role]
  split
  · next hn' =>
    rw [hn'] at hparts
    rw [Node.of_map_constant hparts.symm]
    rfl
  · next l' r' hn' =>
    rw [hn'] at hparts
    obtain ⟨l, r, hn, hl, hr⟩ := Node.of_map_binary hparts.symm
    rw [hn]
    simp only [← hl, ← hr, image, Expr.analysis_relabel]
    split
    · exact congrArg₂ ConjunctRole.key hl.symm hr.symm
    · split
      · exact congrArg₂ ConjunctRole.key hr.symm hl.symm
      · exact other
  · next notTrue' notKey' =>
    split
    · next hn =>
      rw [hn] at hparts
      exact absurd (Node.of_map_constant hparts) notTrue'
    · next l r hn =>
      rw [hn] at hparts
      obtain ⟨l', r', hn', -⟩ := Node.of_map_binary hparts
      exact absurd hn' (notKey' l' r')
    · exact other

/-- The plan with other conjuncts. -/
def JoinPlan.map (g : α → β) (plan : JoinPlan α) : JoinPlan β :=
  { keys := plan.keys.map fun k => (g k.1, g k.2)
    leftFilter := plan.leftFilter.map g
    rightFilter := plan.rightFilter.map g
    preFilter := plan.preFilter.map g
    residual := plan.residual.map g }

theorem select_images {cs : List (Smaller root)} {cs' : List (Smaller root')}
    (h : (cs'.map fun c => c.1) = cs.map (image label))
    {wanted : ConjunctRole (Smaller root) → Bool} {wanted' : ConjunctRole (Smaller root') → Bool}
    (hw : ∀ r r', (r'.map fun d => d.1) = r.map (image label) →
      wanted' r' = wanted r) :
    ((JoinPlan.select cs' wanted').map fun c => c.1) =
      (JoinPlan.select cs wanted).map (image label) := by
  induction cs generalizing cs' with
  | nil =>
    obtain rfl := List.map_eq_nil_iff.mp h
    rfl
  | cons c cs ih =>
    obtain ⟨c', cs', rfl, hc, hcs⟩ := List.map_eq_cons_iff.mp h
    have tail := ih hcs
    rw [JoinPlan.select, JoinPlan.select, List.filter_cons, List.filter_cons,
      hw _ _ (role_relabel hc)]
    split
    · exact congrArg₂ List.cons hc tail
    · exact tail

theorem filterMap_images {γ δ : Type} {is : List ι} {js : List κ} {u : ι → γ} {v : κ → γ}
    {g : ι → Option α} {g' : κ → Option β} {p : α → δ} {q : β → δ} (h : js.map v = is.map u)
    (step : ∀ i j, v j = u i → (g' j).map q = (g i).map p) :
    (js.filterMap g').map q = (is.filterMap g).map p := by
  induction is generalizing js with
  | nil =>
    obtain rfl := List.map_eq_nil_iff.mp h
    rfl
  | cons i is ih =>
    obtain ⟨j, js, rfl, hj, hjs⟩ := List.map_eq_cons_iff.mp h
    have head := step i j hj
    rw [List.filterMap_cons, List.filterMap_cons]
    cases hi : g i <;> cases hj : g' j <;> rw [hi, hj] at head
    case none.none => exact ih hjs
    case some.some => exact congrArg₂ List.cons (Option.some.inj head) (ih hjs)
    all_goals cases head

theorem plan_relabel {condition : Option (Smaller root)} {condition' : Option (Smaller root')}
    (h : (condition'.map fun c => c.1) = condition.map (image label)) (kind : JoinKind) :
    ((JoinPlan.ofCondition condition' kind).map fun c => c.1) =
      (JoinPlan.ofCondition condition kind).map (image label) := by
  have conjuncts : ((condition'.toList.flatMap Smaller.conjuncts).map fun c => c.1) =
      (condition.toList.flatMap Smaller.conjuncts).map (image label) := by
    cases condition with
    | none =>
      obtain rfl := Option.map_eq_none_iff.mp h
      rfl
    | some c =>
      obtain ⟨c', rfl, hc⟩ := Option.map_eq_some_iff.mp h
      simpa using conjuncts_relabel c c' hc
  have either {b : Prop} [Decidable b] {cs ds : List (Smaller root)}
      {cs' ds' : List (Smaller root')} (hc : (cs'.map fun c => c.1) = cs.map (image label))
      (hd : (ds'.map fun c => c.1) = ds.map (image label)) :
      ((if b then cs' else ds').map fun c => c.1) = (if b then cs else ds).map (image label) := by
    split
    · exact hc
    · exact hd
  delta JoinPlan.ofCondition
  simp only [JoinPlan.map, JoinPlan.mk.injEq, List.map_append]
  refine ⟨filterMap_images conjuncts fun c c' hc => ?_, either rfl (select_images conjuncts ?_),
    either rfl (select_images conjuncts ?_), select_images conjuncts ?_,
    congrArg₂ List.append (congrArg₂ List.append (select_images conjuncts ?_)
      (either (select_images conjuncts ?_) rfl)) (either (select_images conjuncts ?_) rfl)⟩
  · have hr := role_relabel hc
    generalize c.role = r at hr ⊢
    generalize c'.role = r' at hr ⊢
    cases r <;> cases r'
    case key.key =>
      obtain ⟨hleft, hright⟩ := ConjunctRole.key.inj hr
      exact congrArg some (Prod.ext hleft hright)
    all_goals first | rfl | cases hr
  all_goals
    intro r r' hr
    cases r <;> cases r' <;> first | rfl | cases hr

end DataExpr
