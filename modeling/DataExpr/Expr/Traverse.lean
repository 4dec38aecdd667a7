import DataExpr.Expr.Basic

/-!
# Functions that are defined node by node

A node can be mapped, traversed with an effect and compared with another node, in
each case by a function on its subexpressions.  `Node.attach` equips the
subexpressions with the fact that they belong to the node, which shows that a
recursion over an expression ends: a subexpression is smaller than the whole
(`Expr.sizeOf_lt_of_mem`).
-/

namespace DataExpr

variable {ε δ : Type}

/-! ### Mapping -/

def PathStep.map (f : ε → δ) : PathStep ε → PathStep δ
  | .key e => .key (f e)
  | .attr name => .attr name

def SortKey.map (f : ε → δ) (k : SortKey ε) : SortKey δ := ⟨f k.key, k.order⟩

def Handler.map (f : ε → δ) (h : Handler ε) : Handler δ :=
  ⟨h.kinds, f h.value, h.reraiseIf.map f⟩

def Reducer.map (f : ε → δ) (r : Reducer ε) : Reducer δ :=
  ⟨r.kind, r.args.map f, r.filter.map f, r.default.map f, r.initial.map f⟩

/-- The node with each subexpression replaced by its image. -/
def Node.map (f : ε → δ) : Node ε → Node δ
  | .input => .input
  | .access source path default => .access (f source) (path.map (.map f)) (default.map f)
  | .constant value => .constant value
  | .parameter name => .parameter name
  | .call g args => .call g (args.map f)
  | .builtin op args => .builtin op (args.map f)
  | .binary op left right => .binary op (f left) (f right)
  | .unary op operand => .unary op (f operand)
  | .and items => .and (items.map f)
  | .or items => .or (items.map f)
  | .collection kind items => .collection kind (items.map f)
  | .dict pairs => .dict (pairs.map fun p => (f p.1, f p.2))
  | .comprehension kind key element source filter =>
    .comprehension kind (key.map f) (f element) (f source) (filter.map f)
  | .sort source keys reverse => .sort (f source) (keys.map (.map f)) reverse
  | .guarded body handlers => .guarded (f body) (handlers.map (.map f))
  | .caught => .caught
  | .conditional condition yes no => .conditional (f condition) (f yes) (f no)
  | .pipe producer consumer => .pipe (f producer) (f consumer)
  | .label name e => .label name (f e)
  | .labelRef name => .labelRef name
  | .reducer r => .reducer (r.map f)
  | .aggregate keys output => .aggregate (keys.map f) (f output)
  | .join left right condition kind => .join (f left) (f right) (condition.map f) kind
  | .joinRow side => .joinRow side

/-! ### Traversal with an effect -/

section Traversal

variable {m : Type → Type} [Monad m]

def traverseOption (f : ε → m δ) : Option ε → m (Option δ)
  | some e => do return some (← f e)
  | none => return none

def PathStep.traverse (f : ε → m δ) : PathStep ε → m (PathStep δ)
  | .key e => do return .key (← f e)
  | .attr name => return .attr name

def SortKey.traverse (f : ε → m δ) (k : SortKey ε) : m (SortKey δ) := do
  return ⟨← f k.key, k.order⟩

def Handler.traverse (f : ε → m δ) (h : Handler ε) : m (Handler δ) := do
  let reraiseIf ← traverseOption f h.reraiseIf
  return ⟨h.kinds, ← f h.value, reraiseIf⟩

def Reducer.traverse (f : ε → m δ) (r : Reducer ε) : m (Reducer δ) := do
  let filter ← traverseOption f r.filter
  let args ← r.args.mapM f
  let initial ← traverseOption f r.initial
  let default ← traverseOption f r.default
  return ⟨r.kind, args, filter, default, initial⟩

/-- Visits the subexpressions in the order of their evaluation. -/
def Node.traverse (f : ε → m δ) : Node ε → m (Node δ)
  | .input => return .input
  | .access source path default => do
    let source ← f source
    let path ← path.mapM (PathStep.traverse f)
    return .access source path (← traverseOption f default)
  | .constant value => return .constant value
  | .parameter name => return .parameter name
  | .call g args => do return .call g (← args.mapM f)
  | .builtin op args => do return .builtin op (← args.mapM f)
  | .binary op left right => do
    let left ← f left
    return .binary op left (← f right)
  | .unary op operand => do return .unary op (← f operand)
  | .and items => do return .and (← items.mapM f)
  | .or items => do return .or (← items.mapM f)
  | .collection kind items => do return .collection kind (← items.mapM f)
  | .dict pairs => do
    return .dict (← pairs.mapM fun p => do
      let k ← f p.1
      return (k, ← f p.2))
  | .comprehension kind key element source filter => do
    let source ← f source
    let filter ← traverseOption f filter
    let key ← traverseOption f key
    return .comprehension kind key (← f element) source filter
  | .sort source keys reverse => do
    let source ← f source
    return .sort source (← keys.mapM (SortKey.traverse f)) reverse
  | .guarded body handlers => do
    let body ← f body
    return .guarded body (← handlers.mapM (Handler.traverse f))
  | .caught => return .caught
  | .conditional condition yes no => do
    let condition ← f condition
    let yes ← f yes
    return .conditional condition yes (← f no)
  | .pipe producer consumer => do
    let producer ← f producer
    return .pipe producer (← f consumer)
  | .label name e => do return .label name (← f e)
  | .labelRef name => return .labelRef name
  | .reducer r => do return .reducer (← r.traverse f)
  | .aggregate keys output => do
    let keys ← keys.mapM f
    return .aggregate keys (← f output)
  | .join left right condition kind => do
    let left ← f left
    let right ← f right
    return .join left right (← traverseOption f condition) kind
  | .joinRow side => return .joinRow side

end Traversal

/-! ### Comparison -/

def zipOption (p : ε → δ → Bool) : Option ε → Option δ → Bool
  | some a, some b => p a b
  | none, none => true
  | _, _ => false

def zipList (p : ε → δ → Bool) : List ε → List δ → Bool
  | a :: as, b :: bs => p a b && zipList p as bs
  | [], [] => true
  | _, _ => false

def PathStep.zip (p : ε → δ → Bool) : PathStep ε → PathStep δ → Bool
  | .key a, .key b => p a b
  | .attr a, .attr b => a == b
  | _, _ => false

def SortKey.zip (p : ε → δ → Bool) (a : SortKey ε) (b : SortKey δ) : Bool :=
  p a.key b.key && a.order == b.order

def Handler.zip (p : ε → δ → Bool) (a : Handler ε) (b : Handler δ) : Bool :=
  a.kinds == b.kinds && p a.value b.value && zipOption p a.reraiseIf b.reraiseIf

/-- Agreement in everything that decides what a reducer accumulates. -/
def Reducer.zipSlot (p : ε → δ → Bool) (a : Reducer ε) (b : Reducer δ) : Bool :=
  a.kind.alike b.kind && zipList p a.args b.args && zipOption p a.filter b.filter &&
    zipOption p a.initial b.initial

def Reducer.zip (p : ε → δ → Bool) (a : Reducer ε) (b : Reducer δ) : Bool :=
  a.zipSlot p b && zipOption p a.default b.default

/-- Whether two nodes agree, given when their constants and their subexpressions do. -/
def Node.zip (constants : Value → Value → Bool) (p : ε → δ → Bool) : Node ε → Node δ → Bool
  | .input, .input => true
  | .access s path d, .access s' path' d' =>
    p s s' && zipList (PathStep.zip p) path path' && zipOption p d d'
  | .constant v, .constant w => constants v w
  | .parameter n, .parameter n' => n == n'
  | .call g args, .call g' args' => g.id == g'.id && zipList p args args'
  | .builtin op args, .builtin op' args' => op == op' && zipList p args args'
  | .binary op l r, .binary op' l' r' => op == op' && p l l' && p r r'
  | .unary op a, .unary op' a' => op == op' && p a a'
  | .and as, .and bs => zipList p as bs
  | .or as, .or bs => zipList p as bs
  | .collection kind as, .collection kind' bs => kind == kind' && zipList p as bs
  | .dict as, .dict bs => zipList (fun a b => p a.1 b.1 && p a.2 b.2) as bs
  | .comprehension kind key element source filter,
    .comprehension kind' key' element' source' filter' =>
    kind == kind' && zipOption p key key' && p element element' && p source source' &&
      zipOption p filter filter'
  | .sort source keys reverse, .sort source' keys' reverse' =>
    p source source' && zipList (SortKey.zip p) keys keys' && reverse == reverse'
  | .guarded body handlers, .guarded body' handlers' =>
    p body body' && zipList (Handler.zip p) handlers handlers'
  | .caught, .caught => true
  | .conditional c y n, .conditional c' y' n' => p c c' && p y y' && p n n'
  | .pipe a b, .pipe a' b' => p a a' && p b b'
  | .label n a, .label n' a' => n == n' && p a a'
  | .labelRef n, .labelRef n' => n == n'
  | .reducer a, .reducer b => a.zip p b
  | .aggregate keys output, .aggregate keys' output' => zipList p keys keys' && p output output'
  | .join l r c kind, .join l' r' c' kind' =>
    p l l' && p r r' && zipOption p c c' && kind == kind'
  | .joinRow side, .joinRow side' => side == side'
  | _, _ => false

/-! ### Subexpressions with their membership -/

/-- The elements of an optional value, with the fact that they are its elements. -/
def attachOption : (o : Option ε) → Option { e // e ∈ o.toList }
  | some e => some ⟨e, by simp⟩
  | none => none

def PathStep.attach : (s : PathStep ε) → PathStep { e // e ∈ s.children }
  | .key e => .key ⟨e, by simp [children]⟩
  | .attr name => .attr name

def Handler.attach (h : Handler ε) : Handler { e // e ∈ h.children } :=
  ⟨h.kinds, ⟨h.value, by simp [children]⟩,
    (attachOption h.reraiseIf).map fun e => ⟨e.1, by have := e.2; simp_all [children]⟩⟩

def Reducer.attach (r : Reducer ε) : Reducer { e // e ∈ r.children } :=
  ⟨r.kind,
    r.args.attach.map fun e => ⟨e.1, by have := e.2; simp_all [children]⟩,
    (attachOption r.filter).map fun e => ⟨e.1, by have := e.2; simp_all [children]⟩,
    (attachOption r.default).map fun e => ⟨e.1, by have := e.2; simp_all [children]⟩,
    (attachOption r.initial).map fun e => ⟨e.1, by have := e.2; simp_all [children]⟩⟩

/-- The node with its subexpressions known to be its own. -/
def Node.attach : (n : Node ε) → Node { e // e ∈ n.children }
  | .input => .input
  | .access source path default =>
    .access ⟨source, by simp [children]⟩
      (path.attach.map fun s => s.1.attach.map fun e =>
        ⟨e.1, by
          have h := List.mem_flatMap_of_mem s.2 e.2
          simp [children] at h ⊢
          exact Or.inr (Or.inl h)⟩)
      ((attachOption default).map fun e => ⟨e.1, by have := e.2; simp_all [children]⟩)
  | .constant value => .constant value
  | .parameter name => .parameter name
  | .call g args => .call g args.attach
  | .builtin op args => .builtin op args.attach
  | .binary op left right =>
    .binary op ⟨left, by simp [children]⟩ ⟨right, by simp [children]⟩
  | .unary op operand => .unary op ⟨operand, by simp [children]⟩
  | .and items => .and items.attach
  | .or items => .or items.attach
  | .collection kind items => .collection kind items.attach
  | .dict pairs =>
    .dict (pairs.attach.map fun p =>
      (⟨p.1.1, List.mem_flatMap_of_mem p.2 (by simp)⟩,
        ⟨p.1.2, List.mem_flatMap_of_mem p.2 (by simp)⟩))
  | .comprehension kind key element source filter =>
    .comprehension kind
      ((attachOption key).map fun e => ⟨e.1, by have := e.2; simp_all [children]⟩)
      ⟨element, by simp [children]⟩ ⟨source, by simp [children]⟩
      ((attachOption filter).map fun e => ⟨e.1, by have := e.2; simp_all [children]⟩)
  | .sort source keys reverse =>
    .sort ⟨source, by simp [children]⟩
      (keys.attach.map fun k =>
        ⟨⟨k.1.key, List.mem_cons_of_mem _ (List.mem_map_of_mem k.2)⟩, k.1.order⟩)
      reverse
  | .guarded body handlers =>
    .guarded ⟨body, by simp [children]⟩
      (handlers.attach.map fun h => h.1.attach.map fun e =>
        ⟨e.1, List.mem_cons_of_mem _ (List.mem_flatMap_of_mem h.2 e.2)⟩)
  | .caught => .caught
  | .conditional condition yes no =>
    .conditional ⟨condition, by simp [children]⟩ ⟨yes, by simp [children]⟩
      ⟨no, by simp [children]⟩
  | .pipe producer consumer =>
    .pipe ⟨producer, by simp [children]⟩ ⟨consumer, by simp [children]⟩
  | .label name e => .label name ⟨e, by simp [children]⟩
  | .labelRef name => .labelRef name
  | .reducer r => .reducer r.attach
  | .aggregate keys output =>
    .aggregate (keys.attach.map fun e => ⟨e.1, by have := e.2; simp_all [children]⟩)
      ⟨output, by simp [children]⟩
  | .join left right condition kind =>
    .join ⟨left, by simp [children]⟩ ⟨right, by simp [children]⟩
      ((attachOption condition).map fun e => ⟨e.1, by have := e.2; simp_all [children]⟩) kind
  | .joinRow side => .joinRow side

/-! ### Size -/

theorem sizeOf_lt_of_mem_toList [SizeOf ε] {e : ε} {o : Option ε} (h : e ∈ o.toList) :
    sizeOf e < sizeOf o := by
  cases o with
  | none => exact absurd h List.not_mem_nil
  | some a =>
    obtain rfl := List.mem_singleton.mp h
    rw [Option.some.sizeOf_spec]
    omega

theorem PathStep.sizeOf_lt_of_mem [SizeOf ε] {s : PathStep ε} {e : ε} (h : e ∈ s.children) :
    sizeOf e < sizeOf s := by
  cases s with
  | key a =>
    obtain rfl := List.mem_singleton.mp h
    rw [key.sizeOf_spec]
    omega
  | attr name => exact absurd h List.not_mem_nil

theorem Handler.sizeOf_lt_of_mem [SizeOf ε] {s : Handler ε} {e : ε} (h : e ∈ s.children) :
    sizeOf e < sizeOf s := by
  cases s with
  | mk kinds value reraiseIf =>
    rw [mk.sizeOf_spec]
    simp only [children, List.mem_append, List.mem_singleton] at h
    rcases h with h | rfl
    · have := sizeOf_lt_of_mem_toList h
      omega
    · omega

theorem Reducer.sizeOf_lt_of_mem [SizeOf ε] {r : Reducer ε} {e : ε} (h : e ∈ r.children) :
    sizeOf e < sizeOf r := by
  cases r with
  | mk kind args filter default initial =>
    rw [mk.sizeOf_spec]
    simp only [children, List.mem_append] at h
    rcases h with ((h | h) | h) | h
    · have := sizeOf_lt_of_mem_toList h
      omega
    · have := List.sizeOf_lt_of_mem h
      omega
    · have := sizeOf_lt_of_mem_toList h
      omega
    · have := sizeOf_lt_of_mem_toList h
      omega

/-- What a node is made of is smaller than the node. -/
theorem Node.sizeOf_lt_of_mem [SizeOf ε] {n : Node ε} {e : ε} (h : e ∈ n.children) :
    sizeOf e < sizeOf n := by
  cases n with
  | input | constant | parameter | labelRef | joinRow | caught => exact absurd h List.not_mem_nil
  | access source path default =>
    rw [access.sizeOf_spec]
    simp only [children, List.cons_append, List.mem_cons, List.mem_append, List.mem_flatMap] at h
    rcases h with rfl | ⟨s, hs, he⟩ | h
    · omega
    · have := PathStep.sizeOf_lt_of_mem he
      have := List.sizeOf_lt_of_mem hs
      omega
    · have := sizeOf_lt_of_mem_toList h
      omega
  | call | builtin | and | or | collection =>
    have := List.sizeOf_lt_of_mem (by simpa only [children] using h)
    simp only [call.sizeOf_spec, builtin.sizeOf_spec, and.sizeOf_spec, or.sizeOf_spec,
      collection.sizeOf_spec]
    omega
  | binary | pipe =>
    simp only [binary.sizeOf_spec, pipe.sizeOf_spec]
    simp only [children, List.mem_cons, List.not_mem_nil, or_false] at h
    rcases h with rfl | rfl <;> omega
  | unary | label =>
    obtain rfl := List.mem_singleton.mp h
    simp only [unary.sizeOf_spec, label.sizeOf_spec]
    omega
  | dict pairs =>
    rw [dict.sizeOf_spec]
    simp only [children, List.mem_flatMap, List.mem_cons, List.not_mem_nil, or_false] at h
    obtain ⟨⟨k, v⟩, hp, h⟩ := h
    have := List.sizeOf_lt_of_mem hp
    rw [Prod.mk.sizeOf_spec] at this
    rcases h with rfl | rfl <;> omega
  | comprehension kind key element source filter =>
    rw [comprehension.sizeOf_spec]
    simp only [children, List.cons_append, List.mem_cons, List.mem_append, List.not_mem_nil,
      or_false] at h
    rcases h with rfl | (h | h) | rfl
    · omega
    · have := sizeOf_lt_of_mem_toList h
      omega
    · have := sizeOf_lt_of_mem_toList h
      omega
    · omega
  | sort source keys reverse =>
    rw [sort.sizeOf_spec]
    simp only [children, List.mem_cons, List.mem_map] at h
    rcases h with rfl | ⟨⟨key, order⟩, hk, rfl⟩
    · omega
    · have := List.sizeOf_lt_of_mem hk
      rw [SortKey.mk.sizeOf_spec] at this
      dsimp only
      omega
  | guarded body handlers =>
    rw [guarded.sizeOf_spec]
    simp only [children, List.mem_cons, List.mem_flatMap] at h
    rcases h with rfl | ⟨s, hs, he⟩
    · omega
    · have := Handler.sizeOf_lt_of_mem he
      have := List.sizeOf_lt_of_mem hs
      omega
  | conditional condition yes no =>
    rw [conditional.sizeOf_spec]
    simp only [children, List.mem_cons, List.not_mem_nil, or_false] at h
    rcases h with rfl | rfl | rfl <;> omega
  | reducer r =>
    have := Reducer.sizeOf_lt_of_mem h
    rw [reducer.sizeOf_spec]
    omega
  | aggregate keys output =>
    rw [aggregate.sizeOf_spec]
    simp only [children, List.mem_append, List.mem_singleton] at h
    rcases h with h | rfl
    · have := List.sizeOf_lt_of_mem h
      omega
    · omega
  | join left right condition kind =>
    rw [join.sizeOf_spec]
    simp only [children, List.mem_cons] at h
    rcases h with rfl | rfl | h
    · omega
    · omega
    · have := sizeOf_lt_of_mem_toList h
      omega

/-- A subexpression is smaller than the whole. -/
theorem Expr.sizeOf_lt_of_mem {e c : Expr} (h : c ∈ e.children) : sizeOf c < sizeOf e := by
  cases e with
  | mk id node =>
    have := Node.sizeOf_lt_of_mem (show c ∈ node.children from h)
    rw [mk.sizeOf_spec]
    omega

end DataExpr
