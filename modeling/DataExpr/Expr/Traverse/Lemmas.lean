import DataExpr.Expr.Traverse

/-!
# Laws of functions that are defined node by node

Forgetting the memberships after `attach` gives the node back, a mapping can be moved
into a comparison, a node agrees with itself when its parts do, and the parts of nodes
that agree agree one by one.
-/

namespace DataExpr

variable {ε δ γ : Type}

/-! ### Memberships -/

theorem PathStep.map_map (f : ε → δ) (g : δ → γ) (s : PathStep ε) :
    (s.map f).map g = s.map fun e => g (f e) := by
  cases s <;> rfl

theorem Handler.map_map (f : ε → δ) (g : δ → γ) (h : Handler ε) :
    (h.map f).map g = h.map fun e => g (f e) := by
  simp [map, Function.comp_def]

theorem PathStep.attach_map_val (s : PathStep ε) : (s.attach.map fun e => e.1) = s := by
  cases s <;> rfl

theorem Handler.attach_map_val (h : Handler ε) : (h.attach.map fun e => e.1) = h := by
  cases h with
  | mk kinds value reraiseIf => cases reraiseIf <;> rfl

theorem Reducer.attach_map_val (r : Reducer ε) : (r.attach.map fun e => e.1) = r := by
  cases r with
  | mk kind args filter default initial =>
    cases filter <;> cases default <;> cases initial <;> simp [attach, map, attachOption]

/-- Forgetting that the subexpressions belong to the node gives the node back. -/
theorem Node.attach_map_val (n : Node ε) : (n.attach.map fun e => e.1) = n := by
  cases n with
  | input | constant | parameter | binary | unary | caught | conditional | pipe | label
  | labelRef | joinRow => rfl
  | access source path default =>
    cases default <;>
      simp [attach, map, attachOption, Function.comp_def, PathStep.map_map,
        PathStep.attach_map_val]
  | call f args => exact congrArg (call f) (List.attach_map_subtype_val args)
  | builtin op args => exact congrArg (builtin op) (List.attach_map_subtype_val args)
  | and items => exact congrArg and (List.attach_map_subtype_val items)
  | or items => exact congrArg or (List.attach_map_subtype_val items)
  | collection kind items => exact congrArg (collection kind) (List.attach_map_subtype_val items)
  | dict pairs =>
    simp only [attach, map, List.map_map, Function.comp_def]
    exact congrArg dict (List.attach_map_subtype_val pairs)
  | comprehension kind key element source filter => cases key <;> cases filter <;> rfl
  | sort source keys reverse => simp [attach, map, SortKey.map, Function.comp_def]
  | guarded body handlers =>
    simp [attach, map, Function.comp_def, Handler.map_map, Handler.attach_map_val]
  | reducer r => exact congrArg reducer (Reducer.attach_map_val r)
  | aggregate keys output => simp [attach, map, Function.comp_def]
  | join left right condition kind => cases condition <;> rfl

/-! ### Comparison after mapping -/

theorem zipOption_map_left (p : δ → γ → Bool) (f : ε → δ) (a : Option ε) (b : Option γ) :
    zipOption p (a.map f) b = zipOption (fun x y => p (f x) y) a b := by
  cases a <;> cases b <;> rfl

theorem zipList_map_left (p : δ → γ → Bool) (f : ε → δ) (as : List ε) (bs : List γ) :
    zipList p (as.map f) bs = zipList (fun x y => p (f x) y) as bs := by
  induction as generalizing bs with
  | nil => cases bs <;> rfl
  | cons a as ih => cases bs <;> simp [zipList, ih]

theorem PathStep.zip_map_left (p : δ → γ → Bool) (f : ε → δ) :
    (fun (a : PathStep ε) (b : PathStep γ) => (a.map f).zip p b) =
      PathStep.zip fun x y => p (f x) y := by
  funext a b
  cases a <;> cases b <;> rfl

theorem SortKey.zip_map_left (p : δ → γ → Bool) (f : ε → δ) :
    (fun (a : SortKey ε) (b : SortKey γ) => (a.map f).zip p b) =
      SortKey.zip fun x y => p (f x) y := rfl

theorem Handler.zip_map_left (p : δ → γ → Bool) (f : ε → δ) :
    (fun (a : Handler ε) (b : Handler γ) => (a.map f).zip p b) =
      Handler.zip fun x y => p (f x) y := by
  funext a b
  simp [map, zip, zipOption_map_left]

theorem Reducer.zip_map_left (p : δ → γ → Bool) (f : ε → δ) (a : Reducer ε) (b : Reducer γ) :
    (a.map f).zip p b = a.zip (fun x y => p (f x) y) b := by
  simp [map, zip, zipSlot, zipOption_map_left, zipList_map_left]

theorem Node.zip_map_left (constants : Value → Value → Bool) (p : δ → γ → Bool) (f : ε → δ)
    (a : Node ε) (b : Node γ) :
    (a.map f).zip constants p b = a.zip constants (fun x y => p (f x) y) b := by
  cases a <;> cases b <;> try rfl
  all_goals
    simp [map, zip, zipOption_map_left, zipList_map_left, PathStep.zip_map_left,
      SortKey.zip_map_left, Handler.zip_map_left, Reducer.zip_map_left]

/-! ### Comparison with itself -/

theorem zipOption_self {p : ε → ε → Bool} {o : Option ε} (h : ∀ e ∈ o.toList, p e e = true) :
    zipOption p o o = true := by
  cases o with
  | none => rfl
  | some e => exact h e (by simp)

theorem zipList_self {p : ε → ε → Bool} {l : List ε} (h : ∀ e ∈ l, p e e = true) :
    zipList p l l = true := by
  induction l with
  | nil => rfl
  | cons a l ih =>
    simp only [zipList, Bool.and_eq_true]
    exact ⟨h a List.mem_cons_self, ih fun e he => h e (List.mem_cons_of_mem a he)⟩

theorem PathStep.zip_self {p : ε → ε → Bool} {s : PathStep ε}
    (h : ∀ e ∈ s.children, p e e = true) : s.zip p s = true := by
  cases s with
  | key e => exact h e (by simp [children])
  | attr name => simp [zip]

theorem Handler.zip_self {p : ε → ε → Bool} {a : Handler ε}
    (h : ∀ e ∈ a.children, p e e = true) : a.zip p a = true := by
  simp only [zip, beq_self_eq_true, Bool.true_and, Bool.and_eq_true]
  exact ⟨h _ (by simp [children]), zipOption_self fun e he => h e (by simp [children, he])⟩

theorem ReducerKind.alike_self (kind : ReducerKind) : kind.alike kind = true := by
  cases kind <;> simp [alike]

theorem Reducer.zip_self {p : ε → ε → Bool} {r : Reducer ε}
    (h : ∀ e ∈ r.children, p e e = true) : r.zip p r = true := by
  simp only [zip, zipSlot, ReducerKind.alike_self, Bool.true_and, Bool.and_eq_true]
  refine ⟨⟨⟨?_, ?_⟩, ?_⟩, ?_⟩
  · exact zipList_self fun e he => h e (by simp [children, he])
  · exact zipOption_self fun e he => h e (by simp [children, Option.mem_toList.mp he])
  · exact zipOption_self fun e he => h e (by simp [children, Option.mem_toList.mp he])
  · exact zipOption_self fun e he => h e (by simp [children, Option.mem_toList.mp he])

/-- A node agrees with itself when its constants and its subexpressions do. -/
theorem Node.zip_self {constants : Value → Value → Bool} {p : ε → ε → Bool} {n : Node ε}
    (hc : ∀ v, constants v v = true) (h : ∀ e ∈ n.children, p e e = true) :
    n.zip constants p n = true := by
  cases n with
  | input | parameter | labelRef | joinRow | caught => simp [zip]
  | constant value => exact hc value
  | access source path default =>
    simp only [zip, Bool.and_eq_true]
    refine ⟨⟨h _ (by simp [children]), zipList_self fun s hs => ?_⟩, zipOption_self fun e he => ?_⟩
    · refine PathStep.zip_self fun e he => h e ?_
      simp only [children, List.cons_append, List.mem_cons, List.mem_append, List.mem_flatMap]
      exact .inr (.inl ⟨s, hs, he⟩)
    · refine h e ?_
      simp only [children, List.cons_append, List.mem_cons, List.mem_append]
      exact .inr (.inr he)
  | call f args =>
    simp only [zip, beq_self_eq_true, Bool.true_and]
    exact zipList_self h
  | builtin op args =>
    simp only [zip, beq_self_eq_true, Bool.true_and]
    exact zipList_self h
  | collection kind items =>
    simp only [zip, beq_self_eq_true, Bool.true_and]
    exact zipList_self h
  | and items => exact zipList_self h
  | or items => exact zipList_self h
  | binary op left right => simp_all [zip, children]
  | unary op operand => simp_all [zip, children]
  | conditional condition yes no => simp_all [zip, children]
  | pipe producer consumer => simp_all [zip, children]
  | label name e => simp_all [zip, children]
  | dict pairs =>
    refine zipList_self fun q hq => ?_
    simp only [Bool.and_eq_true]
    exact ⟨h _ (List.mem_flatMap_of_mem hq (by simp)), h _ (List.mem_flatMap_of_mem hq (by simp))⟩
  | comprehension kind key element source filter =>
    simp only [zip, beq_self_eq_true, Bool.true_and, Bool.and_eq_true]
    refine ⟨⟨⟨?_, h _ (by simp [children])⟩, h _ (by simp [children])⟩, ?_⟩
    · exact zipOption_self fun e he => h e (by simp [children, Option.mem_toList.mp he])
    · exact zipOption_self fun e he => h e (by simp [children, Option.mem_toList.mp he])
  | sort source keys reverse =>
    simp only [zip, beq_self_eq_true, Bool.and_true, Bool.and_eq_true]
    refine ⟨h _ (by simp [children]), zipList_self fun k hk => ?_⟩
    simp only [SortKey.zip, beq_self_eq_true, Bool.and_true]
    exact h _ (List.mem_cons_of_mem _ (List.mem_map_of_mem hk))
  | guarded body handlers =>
    simp only [zip, Bool.and_eq_true]
    refine ⟨h _ (by simp [children]), zipList_self fun a ha => ?_⟩
    exact Handler.zip_self fun e he =>
      h e (List.mem_cons_of_mem _ (List.mem_flatMap_of_mem ha he))
  | reducer r => exact Reducer.zip_self h
  | aggregate keys output =>
    simp only [zip, Bool.and_eq_true]
    exact ⟨zipList_self fun e he => h e (by simp [children, he]), h _ (by simp [children])⟩
  | join left right condition kind =>
    simp only [zip, beq_self_eq_true, Bool.and_true, Bool.and_eq_true]
    refine ⟨⟨h _ (by simp [children]), h _ (by simp [children])⟩, ?_⟩
    exact zipOption_self fun e he => h e (by simp [children, Option.mem_toList.mp he])

/-! ### Parts of nodes that agree -/

theorem zipList_toList {p : ε → δ → Bool} {a : Option ε} {b : Option δ}
    (h : zipOption p a b = true) : zipList p a.toList b.toList = true := by
  cases a <;> cases b <;> simp_all [zipOption, zipList]

theorem zipList_append {p : ε → δ → Bool} {as cs : List ε} {bs ds : List δ}
    (h : zipList p as bs = true) (h' : zipList p cs ds = true) :
    zipList p (as ++ cs) (bs ++ ds) = true := by
  induction as generalizing bs with
  | nil => cases bs <;> simp_all [zipList]
  | cons a as ih => cases bs <;> simp_all [zipList]

theorem zipList_flatMap {γ γ' : Type} {q : γ → γ' → Bool} {p : ε → δ → Bool} {f : γ → List ε}
    {g : γ' → List δ} (hq : ∀ x y, q x y = true → zipList p (f x) (g y) = true) {as : List γ}
    {bs : List γ'} (h : zipList q as bs = true) :
    zipList p (as.flatMap f) (bs.flatMap g) = true := by
  induction as generalizing bs with
  | nil => cases bs <;> simp_all [zipList]
  | cons a as ih =>
    cases bs with
    | nil => simp_all [zipList]
    | cons b bs =>
      simp only [zipList, Bool.and_eq_true] at h
      simpa using zipList_append (hq a b h.1) (ih h.2)

theorem PathStep.zip_children {p : ε → δ → Bool} (a : PathStep ε) (b : PathStep δ)
    (h : a.zip p b = true) : zipList p a.children b.children = true := by
  cases a <;> cases b <;> simp_all [zip, children, zipList]

theorem SortKey.zip_children {p : ε → δ → Bool} (a : SortKey ε) (b : SortKey δ)
    (h : a.zip p b = true) : zipList p [a.key] [b.key] = true := by
  simp_all [zip, zipList]

theorem Handler.zip_children {p : ε → δ → Bool} (a : Handler ε) (b : Handler δ)
    (h : a.zip p b = true) : zipList p a.children b.children = true := by
  simp only [zip, Bool.and_eq_true] at h
  exact zipList_append (zipList_toList h.2) (by simp [zipList, h.1.2])

theorem Reducer.zip_children {p : ε → δ → Bool} {a : Reducer ε} {b : Reducer δ}
    (h : a.zip p b = true) : zipList p a.children b.children = true := by
  simp only [zip, zipSlot, Bool.and_eq_true] at h
  obtain ⟨⟨⟨⟨_, args⟩, filter⟩, initial⟩, default⟩ := h
  exact zipList_append (zipList_append (zipList_append (zipList_toList filter) args)
    (zipList_toList initial)) (zipList_toList default)

/-- Nodes that agree have as many subexpressions, which agree one by one. -/
theorem Node.zip_children {constants : Value → Value → Bool} {p : ε → δ → Bool} {n : Node ε}
    {m : Node δ} (h : n.zip constants p m = true) : zipList p n.children m.children = true := by
  cases n <;> cases m <;> try exact Bool.noConfusion h
  all_goals simp only [zip, Bool.and_eq_true] at h
  case input.input | constant.constant | parameter.parameter | labelRef.labelRef
    | joinRow.joinRow | caught.caught => rfl
  case binary.binary | unary.unary | conditional.conditional | pipe.pipe | label.label =>
    simp [children, zipList, h]
  case call.call | builtin.builtin | collection.collection => exact h.2
  case and.and | or.or => exact h
  case access.access =>
    have steps := zipList_flatMap PathStep.zip_children h.1.2
    simp only [children, List.cons_append, zipList, Bool.and_eq_true]
    exact ⟨h.1.1, zipList_append steps (zipList_toList h.2)⟩
  case dict.dict => exact zipList_flatMap (fun _ _ hxy => by simpa [zipList] using hxy) h
  case comprehension.comprehension =>
    obtain ⟨⟨⟨⟨_, key⟩, element⟩, source⟩, filter⟩ := h
    simp only [children, List.cons_append, zipList, Bool.and_eq_true]
    exact ⟨source, zipList_append (zipList_append (zipList_toList filter) (zipList_toList key))
      (by simp [zipList, element])⟩
  case sort.sort =>
    simp only [children, zipList, Bool.and_eq_true, List.map_eq_flatMap]
    exact ⟨h.1.1, zipList_flatMap SortKey.zip_children h.1.2⟩
  case guarded.guarded =>
    simp only [children, zipList, Bool.and_eq_true]
    exact ⟨h.1, zipList_flatMap Handler.zip_children h.2⟩
  case reducer.reducer => exact Reducer.zip_children h
  case aggregate.aggregate => exact zipList_append h.1 (by simp [zipList, h.2])
  case join.join =>
    simp only [children, zipList, Bool.and_eq_true]
    exact ⟨h.1.1.1, h.1.1.2, zipList_toList h.1.2⟩

end DataExpr
