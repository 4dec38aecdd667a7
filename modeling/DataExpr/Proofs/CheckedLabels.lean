import DataExpr.Proofs.LoweringSteps

/-!
# The labels that lowering checks

A reference to a label is lowered only where the label counts as set.  So when an expression
without effects has been lowered, all labels that it reads were set before (`lower_checks`), apart
from those that are read only inside a key of the group: directly in the output of an aggregate such
a key is not lowered again, but read from the record of the group.
-/

namespace DataExpr

namespace Smaller

variable {root : Expr}

/-- What a reducer without rows is lowered to, if it is no constant. -/
def fallbackPart (r : Reducer (Smaller root)) : Option (Smaller root) :=
  r.default <|> r.initial.filter (·.1.analysis.inputUses == 0)

theorem mem_fallbackPart {r : Reducer (Smaller root)} {c : Smaller root}
    (h : c ∈ fallbackPart r) : r.default = some c ∨ r.initial = some c := by
  unfold fallbackPart at h
  cases hdefault : r.default with
  | some d =>
    rw [hdefault] at h
    exact .inl h
  | none =>
    rw [hdefault] at h
    exact .inr (Option.eq_some_of_filter_eq_some h)

/-- The reductions of an output, if they are valid. -/
def validSlots (output : Smaller root) : List (Reducer (Smaller root)) :=
  output.slots.toOption.getD []

/-- The parts of a node that are lowered, each with the keys of the group that it may stand for. -/
def loweredParts (keys : List Expr) : Node (Smaller root) → List (List Expr × Smaller root)
  | .comprehension _ keyed element source filter =>
    (keys, source) :: (filter.toList ++ keyed.toList ++ [element]).map ([], ·)
  | .sort source sortKeys _ => (keys, source) :: sortKeys.map fun k => ([], k.key)
  | .pipe producer consumer => [(keys, producer), ([], consumer)]
  | .reducer r => (fallbackPart r).toList.map (keys, ·)
  | .aggregate groupKeys output =>
    (groupKeys ++ (validSlots output).flatMap Reducer.fed).map ([], ·) ++
      [(groupKeys.map (·.1), output)]
  | .join left right condition kind =>
    let plan := JoinPlan.ofCondition condition kind
    (left :: right :: plan.preFilter).map (keys, ·) ++
      ((plan.keys.map (·.1) ++ plan.leftFilter) ++ (plan.keys.map (·.2) ++ plan.rightFilter) ++
        plan.residual).map ([], ·)
  | node => node.children.map (keys, ·)

/-- What is lowered below an expression lies within it. -/
theorem within_of_mem_loweredParts {keys keys' : List Expr} {c : Smaller root}
    (h : (keys', c) ∈ loweredParts keys root.parts) : Expr.Within c.1 root := by
  have child {d : Smaller root} (hd : d ∈ root.parts.children) : Expr.Within d.1 root :=
    .child (Expr.mem_parts hd)
  generalize root.parts = node at h child
  cases node
  case aggregate groupKeys output =>
    simp only [loweredParts, List.mem_append, List.mem_map, Prod.mk.injEq, List.mem_flatMap,
      List.mem_singleton] at h
    rcases h with ⟨d, h | ⟨r, hr, h⟩, -, rfl⟩ | ⟨-, rfl⟩
    · exact child (List.mem_append_left _ h)
    · have inside := output.within_of_mem_reducers r ?_ d (List.mem_append_left _ h)
      · exact inside.trans (child (List.mem_append_right _ List.mem_cons_self))
      · unfold validSlots at hr
        cases hslots : output.slots with
        | error e =>
          rw [hslots] at hr
          exact absurd hr List.not_mem_nil
        | ok slots =>
          rw [hslots] at hr
          exact mem_reducers_of_mem_slots hslots r hr
    · exact child (List.mem_append_right _ List.mem_cons_self)
  case join left right condition kind =>
    have part {d : Smaller root} (hd : JoinPlan.PartOf condition d) : Expr.Within d.1 root := by
      obtain ⟨e, he, hbeside, -⟩ := hd
      refine hbeside.within.trans (child ?_)
      exact List.mem_append_right [left, right] (Option.mem_toList.mpr he)
    simp only [loweredParts, List.mem_append, List.mem_map, List.mem_cons, Prod.mk.injEq,
      Prod.exists] at h
    rcases h with ⟨d, rfl | rfl | h, -, rfl⟩ | ⟨d, ((h | h) | (h | h)) | h, -, rfl⟩
    · exact child List.mem_cons_self
    · exact child (List.mem_cons_of_mem _ List.mem_cons_self)
    · exact part (JoinPlan.mem_preFilter h).1
    · obtain ⟨l, r, hk, rfl⟩ := h
      exact part (JoinPlan.mem_keys hk).1.1
    · exact part (JoinPlan.mem_leftFilter h).1
    · obtain ⟨l, r, hk, rfl⟩ := h
      exact part (JoinPlan.mem_keys hk).2.1
    · exact part (JoinPlan.mem_rightFilter h).1
    · exact part (JoinPlan.mem_residual h)
  case reducer r =>
    simp only [loweredParts, List.mem_map, Option.mem_toList, Prod.mk.injEq] at h
    obtain ⟨d, hd, -, rfl⟩ := h
    rcases mem_fallbackPart hd with hd | hd
    · exact child (by simp [Node.children, Reducer.children, hd])
    · exact child (by simp [Node.children, Reducer.children, hd])
  case comprehension | sort | pipe =>
    exact child (by simp_all [loweredParts, Node.children]; grind)
  all_goals
    obtain ⟨d, hd, heq⟩ := List.mem_map.mp h
    cases heq
    exact child hd

end Smaller

namespace Lowering

/-! ### The keys of a group -/

/-- The keys that an expression may stand for, directly in the output of an aggregate. -/
def Env.keysHere (env : Env) : List Expr :=
  match env.aggregate with
  | some aggregate => if aggregate.context.same env.context then aggregate.keys else []
  | none => []

/-- The context of an aggregate is that of its output. -/
def Env.Located (env : Env) : Prop :=
  ∀ aggregate ∈ env.aggregate, ∃ outer node, aggregate.context = .part outer node .output

/-- An expression that is lowered itself stands for no key. -/
theorem forall_keysHere {e : Expr} {env : Env} (h : groupKey? e env = .ok none) :
    ∀ key ∈ env.keysHere, (key == e) = false := by
  intro key hkey
  unfold Env.keysHere at hkey
  unfold groupKey? at h
  split at hkey
  · rename_i aggregate haggregate
    rw [haggregate] at h
    split at hkey
    · rename_i hsame
      dsimp only at h
      rw [if_pos hsame] at h
      obtain ⟨i, hi⟩ := List.getElem?_of_mem hkey
      cases hequal : key == e with
      | false => rfl
      | true =>
        have position : i ∈ aggregate.keyPositions e := mem_keyPositions.mpr ⟨key, hi, hequal⟩
        split at h
        · rename_i hnone
          rw [hnone] at position
          exact absurd position List.not_mem_nil
        · cases h
        · cases h
    · exact absurd hkey List.not_mem_nil
  · exact absurd hkey List.not_mem_nil

/-- An expression that is read from the record of a group equals a key. -/
theorem exists_keysHere {e : Expr} {env : Env} {op : Op} (h : groupKey? e env = .ok (some op)) :
    ∃ key ∈ env.keysHere, (key == e) = true := by
  obtain ⟨aggregate, i, haggregate, hsame, hpositions, -⟩ := groupKey_eq h
  obtain ⟨key, hkey, hequal⟩ := mem_keyPositions.mp (hpositions ▸ List.mem_singleton_self i)
  refine ⟨key, ?_, hequal⟩
  rw [Env.keysHere, haggregate]
  dsimp only
  rw [if_pos hsame]
  exact List.mem_of_getElem? hkey

section Envs

variable {env : Env} (h : env.Located)
include h

/-- Below the output itself no expression stands for a key. -/
theorem Env.keysHere_part {outer : Context} {node : NodeKey} {which : Part}
    (hwhich : which ≠ .output) (hcontext : env.context = .part outer node which) :
    env.keysHere = [] := by
  unfold keysHere
  cases haggregate : env.aggregate with
  | none => rfl
  | some aggregate =>
    obtain ⟨outer', node', hpart⟩ := h aggregate haggregate
    have apart : aggregate.context.same env.context = false := by
      rw [hpart, hcontext]
      change (Context.part outer' node' .output).alike (.part outer node which) = false
      simp [Context.alike, hwhich.symm]
    dsimp only
    rw [if_neg (by simp [apart])]

end Envs

theorem Env.located_row {env : Env} {key : NodeKey} : (env.row key).Located :=
  fun _ h => absurd h (Option.not_mem_none _)

theorem Env.located_output {env : Env} {key : NodeKey} {group : Nat} {root : Expr}
    {keys : List (Smaller root)} {reducers : List (Reducer (Smaller root))} :
    (env.output (.of env key group keys reducers)).Located := by
  rintro _ ⟨⟩
  exact ⟨_, _, rfl⟩

theorem Env.keysHere_output {env : Env} {key : NodeKey} {group : Nat} {root : Expr}
    {keys : List (Smaller root)} {reducers : List (Reducer (Smaller root))} :
    (env.output (.of env key group keys reducers)).keysHere = keys.map (·.1) :=
  if_pos (Context.alike_self _)

/-- A reducer falls back to the part that is lowered for it, or to a constant. -/
theorem fallback_cases {e : Expr} {env : Env} {r : Reducer (Smaller e)} {s s' : State} {op : Op}
    (h : FallbackGives env r s op s') :
    (∃ c, Smaller.fallbackPart r = some c ∧ LowersContained env c s op s') ∨
      ∃ name, Smaller.fallbackPart r = none ∧
        Gives (constantName r.kind.staticDefault) s name s' ∧
        op = .mk (.const name r.kind.staticDefault) := by
  unfold Smaller.fallbackPart
  cases h with
  | default hdefault h =>
    rw [hdefault]
    exact .inl ⟨_, rfl, h⟩
  | initial hdefault hinitial huses h =>
    rw [hdefault, hinitial, Option.filter_some, if_pos (by simp [huses])]
    exact .inl ⟨_, rfl, h⟩
  | static hdefault hinitial h =>
    refine .inr ⟨_, ?_, h, rfl⟩
    rw [hdefault]
    cases hc : r.initial with
    | none => rfl
    | some c =>
      rw [Option.filter_some, if_neg (by simp [hinitial c hc])]
      rfl

/-! ### What is checked -/

/-- A label that is checked when an expression without effects is lowered where it may stand for
    these keys. -/
inductive Checks : List Expr → Expr → String → Prop
  | ref {keys : List Expr} {e : Expr} {name : String} (hkeys : ∀ key ∈ keys, (key == e) = false)
      (hnode : e.parts = .labelRef name) : Checks keys e name
  | part {keys keys' : List Expr} {e : Expr} {c : Smaller e} {name : String}
      (hkeys : ∀ key ∈ keys, (key == e) = false)
      (hpart : (keys', c) ∈ Smaller.loweredParts keys e.parts) (h : Checks keys' c.1 name) :
      Checks keys e name

theorem Checks.read {keys : List Expr} {e : Expr} {name : String} (h : Checks keys e name)
    (he : e.Analyzed) : name ∈ e.analysis.labelsRead := by
  induction h with
  | @ref _ e name _ hnode =>
    refine he.labelRead ?_
    rw [← e.map_parts, hnode]
    rfl
  | part _ hpart _ ih =>
    obtain ⟨hc, covers⟩ := (Smaller.within_of_mem_loweredParts hpart).analyzed he
    exact covers.labelsRead _ (ih hc)

/-- A label that some of these parts check. -/
def ChecksOf {e : Expr} (ps : List (List Expr × Smaller e)) (name : String) : Prop :=
  ∃ p ∈ ps, Checks p.1 p.2.1 name

/-- Bindings are known by the expressions that they stand for, and set no other labels. -/
def Honest (root : Expr) (bound : List Bound) : Prop :=
  ∀ b ∈ bound, ∃ e, Expr.Within e root ∧ b.site.node = .of e e.analysis ∧
    ∀ n ∈ b.writes, n ∈ e.analysis.labelsWritten

/-- Between two states no label comes to count as set, and those that were checked counted
    before. -/
structure Vetted (root : Expr) (checked : String → Prop) (s s' : State) : Prop where
  honest : Honest root s'.bound
  shrinks : ∀ n ∈ s'.assigned, n ∈ s.assigned
  checked : ∀ n, checked n → n ∈ s.assigned

section Vets

variable {root e : Expr} {env : Env} {key : NodeKey} {s s₁ s₂ s' : State} {op : Op}
  {ps qs : List (List Expr × Smaller e)}

/-- A step that checks the labels of some parts of an expression. -/
def Vets (root : Expr) (s : State) (ps : List (List Expr × Smaller e)) (s' : State) : Prop :=
  (∀ p ∈ ps, Expr.Within p.2.1 e) → Honest root s.bound → Vetted root (ChecksOf ps) s s'

namespace Vets

/-- A step that only hands out names and places. -/
theorem idle (hbound : s'.bound = s.bound) (hassigned : s'.assigned = s.assigned) :
    Vets root s ([] : List (List Expr × Smaller e)) s' := by
  intro _ honest
  refine ⟨hbound ▸ honest, fun n hn => hassigned ▸ hn, fun n hn => ?_⟩
  obtain ⟨p, hp, -⟩ := hn
  exact absurd hp List.not_mem_nil

theorem named {value : Value} {name : String} (h : Gives (constantName value) s name s') :
    Vets root s ([] : List (List Expr × Smaller e)) s' := by
  obtain ⟨n, cs, rfl⟩ := gives_constantName h
  exact idle rfl rfl

theorem fresh {stem name : String} (h : Gives (freshName stem) s name s') :
    Vets root s ([] : List (List Expr × Smaller e)) s' := by
  obtain ⟨n, rfl⟩ := gives_freshName h
  exact idle rfl rfl

theorem slot {stem : String} {b : Binding} (h : Gives (freshSlot stem) s b s') :
    Vets root s ([] : List (List Expr × Smaller e)) s' := by
  obtain ⟨-, n, rfl⟩ := gives_freshSlot h
  exact idle rfl rfl

theorem trans (h : Vets root s ps s₁) (h' : Vets root s₁ qs s') : Vets root s (ps ++ qs) s' := by
  intro hwithin honest
  have first := h (fun p hp => hwithin p (List.mem_append_left _ hp)) honest
  have second := h' (fun p hp => hwithin p (List.mem_append_right _ hp)) first.honest
  refine ⟨second.honest, fun n hn => first.shrinks n (second.shrinks n hn), fun n hn => ?_⟩
  obtain ⟨p, hp, hn⟩ := hn
  rcases List.mem_append.mp hp with hp | hp
  · exact first.checked n ⟨p, hp, hn⟩
  · exact first.shrinks n (second.checked n ⟨p, hp, hn⟩)

theorem assign {names : NameSet} (hnames : ∀ n ∈ names, n ∈ s.assigned ∨ n ∈ s'.assigned)
    (h : Vets root s ps s') : Vets root s ps { s' with assigned := names } := by
  intro hwithin honest
  have vetted := h hwithin honest
  exact ⟨vetted.honest, fun n hn => (hnames n hn).elim id (vetted.shrinks n), vetted.checked⟩

/-- A scope starts without bindings, and the labels that it sets do not count outside. -/
theorem scope (h : Vets root s.enter ps s') : Vets root s ps (s'.leave s) := by
  intro hwithin honest
  have vetted := h hwithin fun _ hb => absurd hb List.not_mem_nil
  exact ⟨honest, fun _ hn => hn, vetted.checked⟩

end Vets

/-- The expressions below an expression check their labels. -/
def VetBelow (root e : Expr) : Prop :=
  ∀ (c : Smaller e) {env : Env} {s s' : State} {op : Op}, Expr.Within c.1 e → env.pass = .emit →
    env.Located → Lowers env c s op s' → Honest root s.bound →
      Vetted root (Checks env.keysHere c.1) s s'

/-- Steps that lower parts of an expression in the same surroundings. -/
theorem VetBelow.steps (B : VetBelow root e) {keys : List Expr} (hpass : env.pass = .emit)
    (hlocated : env.Located) (hkeys : env.keysHere = keys) :
    NodeSteps env fun s (cs : List (Smaller e)) (_ : List Op) s' =>
      Vets root s (cs.map (keys, ·)) s' where
  lowers h hwithin honest := by
    have vetted := B _ (hwithin _ List.mem_cons_self) hpass hlocated h honest
    refine ⟨vetted.honest, vetted.shrinks, fun n hn => ?_⟩
    obtain ⟨p, hp, hn⟩ := hn
    rw [List.mem_singleton.mp hp] at hn
    exact vetted.checked n (hkeys ▸ hn)
  refl _ := .idle rfl rfl
  trans h h' := by
    rw [List.map_append]
    exact h.trans h'
  assign _ hnames h := h.assign hnames
  constant h := .named h
  node _ h := h

/-- Steps in a part of an expression that is no output of an aggregate. -/
theorem VetBelow.inside (B : VetBelow root e) (inner : Env) {outer : Context} {which : Part}
    (hpass : inner.pass = .emit) (hlocated : inner.Located)
    (hcontext : inner.context = .part outer key which) (hwhich : which ≠ .output) :
    NodeSteps inner fun s (cs : List (Smaller e)) (_ : List Op) s' =>
      Vets root s (cs.map ([], ·)) s' :=
  B.steps hpass hlocated (Env.keysHere_part hlocated hwhich hcontext)

/-! ### One lemma for each kind of node -/

namespace Vets

/-- What some sets have in common with a set belongs to it. -/
theorem mem_of_mem_inters {β : Type} {sets : List (β × NameSet)} {start : NameSet} {n : String}
    (h : n ∈ sets.foldl (fun names s => NameSet.inter names s.2) start) : n ∈ start := by
  induction sets generalizing start with
  | nil => exact h
  | cons s sets ih => exact (NameSet.mem_inter.mp (ih h)).1

section Node

variable (B : VetBelow root e) (hpass : env.pass = .emit) (hlocated : env.Located)
include B hpass hlocated

theorem pipe {producer consumer : Smaller e} {p : Op} {input : Input}
    (hproducer : Lowers env producer s p s₁)
    (hconsumer : Lowers (env.consumer producer.1 input) consumer s₁ op s') :
    Vets root s [(env.keysHere, producer), ([], consumer)] s' := by
  have produced := (B.steps hpass hlocated rfl).lowers hproducer
  have inner := B.inside (env.consumer producer.1 input) (Env.pass_consumer hpass) hlocated rfl
    (by decide)
  exact trans produced (inner.lowers hconsumer)

theorem comprehension {kind : ComprehensionKind} {keyed filter : Option (Smaller e)}
    {element source : Smaller e} {s₃ s₄ s₅ : State} {sourceOp elementOp : Op} {var : String}
    {filterOp keyedOp : Option Op} (hsource : Lowers env source s sourceOp s₁)
    (hvar : Gives (freshName "item") s₁ var s₂)
    (hfilter : Optional (Lowers (env.enter (.part env.context key .item) .value)) filter s₂.enter
      filterOp s₃)
    (hkeyed : Optional (Lowers (env.enter (.part env.context key .item) .value)) keyed s₃
      keyedOp s₄)
    (helement : Lowers (env.enter (.part env.context key .item) .value) element s₄ elementOp
      s₅) :
    Vets root s (Smaller.loweredParts env.keysHere
      (.comprehension kind keyed element source filter)) (s₅.leave s₂) := by
  have sourced := (B.steps hpass hlocated rfl).lowers hsource
  have items := B.inside (env.enter (.part env.context key .item) .value) (Env.pass_enter hpass)
    hlocated rfl (by decide)
  have each := trans (trans (items.option hfilter) (items.option hkeyed)) (items.lowers helement)
  rw [← List.map_append, ← List.map_append] at each
  exact trans sourced (trans (fresh hvar) each.scope)

theorem sort {source : Smaller e} {keys : List (SortKey (Smaller e))} {reverse : Bool}
    {s₃ : State} {sourceOp : Op} {var : String} {keyOps : List (SortKeyOp Op)}
    (hsource : Lowers env source s sourceOp s₁) (hvar : Gives (freshName "item") s₁ var s₂)
    (hkeys : Sequence (SortKeyGives (env.enter (.part env.context key .sortItem) .value)) keys
      s₂.enter keyOps s₃) :
    Vets root s (Smaller.loweredParts env.keysHere (.sort source keys reverse)) (s₃.leave s₂) := by
  have sourced := (B.steps hpass hlocated rfl).lowers hsource
  have items := B.inside (env.enter (.part env.context key .sortItem) .value)
    (Env.pass_enter hpass) hlocated rfl (by decide)
  have each := scope (items.sortKeys hkeys)
  rw [List.map_map] at each
  exact trans sourced (trans (fresh hvar) each)

/-- Each handler starts from the labels that are set before the guarded expression. -/
theorem handlers {before : NameSet} {hs : List (Handler (Smaller e))}
    {lowered : List (HandlerOp Op × NameSet)}
    (hwithin : ∀ c ∈ hs.flatMap Handler.children, Expr.Within c.1 e)
    (h : Sequence (HandlerGives env before) hs s lowered s') (honest : Honest root s.bound) :
    Honest root s'.bound ∧
      ∀ n, ChecksOf ((hs.flatMap Handler.children).map (env.keysHere, ·)) n → n ∈ before := by
  induction h with
  | nil =>
    refine ⟨honest, fun n hn => ?_⟩
    obtain ⟨p, hp, -⟩ := hn
    exact absurd hp List.not_mem_nil
  | cons head _ ih =>
    rw [List.flatMap_cons] at hwithin
    have first := (B.steps hpass hlocated rfl).handler head (fun p hp => by
      obtain ⟨c, hc, rfl⟩ := List.mem_map.mp hp
      exact hwithin c (List.mem_append_left _ hc)) honest
    obtain ⟨honest', rest⟩ := ih (fun c hc => hwithin c (List.mem_append_right _ hc)) first.honest
    refine ⟨honest', fun n hn => ?_⟩
    obtain ⟨p, hp, hn⟩ := hn
    rw [List.flatMap_cons, List.map_append] at hp
    rcases List.mem_append.mp hp with hp | hp
    · exact first.checked n ⟨p, hp, hn⟩
    · exact rest n ⟨p, hp, hn⟩

theorem guarded {body : Smaller e} {hs : List (Handler (Smaller e))} {s₃ : State} {bodyOp : Op}
    {caught : Binding} {lowered : List (HandlerOp Op × NameSet)}
    (hbody : Lowers env body s bodyOp s₁) (hcaught : Gives (freshSlot "exc") s₁ caught s₂)
    (hhandlers : Sequence (HandlerGives { env with caught := some caught } s.assigned) hs s₂
      lowered s₃) :
    Vets root s ((Node.guarded body hs).children.map (env.keysHere, ·))
      { s₃ with
        assigned := lowered.foldl (fun names h => NameSet.inter names h.2) s₁.assigned } := by
  intro hwithin honest
  have inside : ∀ c ∈ (Node.guarded body hs).children, Expr.Within c.1 e :=
    fun c hc => hwithin _ (List.mem_map_of_mem (f := (env.keysHere, ·)) hc)
  have first := (B.steps hpass hlocated rfl).lowers hbody (fun p hp => by
    rw [List.mem_singleton.mp hp]
    exact inside body List.mem_cons_self) honest
  obtain ⟨-, next, rfl⟩ := gives_freshSlot hcaught
  obtain ⟨honest', rest⟩ := handlers B (Env.pass_handler hpass) hlocated
    (fun c hc => inside c (List.mem_cons_of_mem _ hc)) hhandlers first.honest
  refine ⟨honest', fun n hn => first.shrinks n (mem_of_mem_inters hn), fun n hn => ?_⟩
  obtain ⟨p, hp, hn⟩ := hn
  rcases List.mem_cons.mp hp with rfl | hp
  · exact first.checked n ⟨_, List.mem_cons_self, hn⟩
  · exact rest n ⟨p, hp, hn⟩

omit hlocated in
theorem aggregate {keys : List (Smaller e)} {output : Smaller e}
    {reducers : List (Reducer (Smaller e))} {s₃ s₄ s₅ : State} {outputOp : Op}
    {group : Nat} {row : String} {keyOps : List Op} {slots : List (SlotOp Op)}
    (hreducers : output.slots = .ok reducers)
    (hgroup : Gives freshGroup s group s₁) (hrow : Gives (freshName "row") s₁ row s₂)
    (hkeys : Sequence (Lowers (env.row key)) keys s₂.enter keyOps s₃)
    (hslots : Sequence (SlotGives (env.row key)) reducers s₃ slots s₄)
    (houtput : Lowers (env.output (.of env key group keys reducers)) output
      (s₄.leave s₂).enter outputOp s₅) :
    Vets root s (Smaller.loweredParts env.keysHere (.aggregate keys output))
      (s₅.leave (s₄.leave s₂)) := by
  have grouped : Vets root s ([] : List (List Expr × Smaller e)) s₁ := by
    obtain ⟨-, rfl⟩ := gives_freshGroup hgroup
    exact .idle rfl rfl
  have inRow := B.inside (env.row key) (Env.pass_row hpass) Env.located_row rfl (by decide)
  have rows := scope (trans (inRow.all hkeys) (inRow.slots hslots))
  have inOutput : NodeSteps (env.output (.of env key group keys reducers))
      fun s (cs : List (Smaller e)) (_ : List Op) s' =>
        Vets root s (cs.map (keys.map (·.1), ·)) s' :=
    B.steps (Env.pass_output hpass) Env.located_output Env.keysHere_output
  have whole := trans (trans grouped (fresh hrow)) (trans rows (scope (inOutput.lowers houtput)))
  rw [Smaller.loweredParts, Smaller.validSlots, hreducers, List.map_append]
  exact whole

/-- What is evaluated for each row of a side of a join. -/
theorem side {context : Context} {join : JoinEnv} {keys filter : List (Smaller e)}
    {side : JoinSideOp Op}
    {which : Part} (hcontext : context = .part env.context key which) (hwhich : which ≠ .output)
    (h : SideGives context join keys filter env s side s') :
    Vets root s ((keys ++ filter).map ([], ·)) s' := by
  obtain ⟨s₁, s₂, hkeyOps, hfilterOp, -, rfl⟩ := h
  have rows := B.inside { env.enter context env.input with join := some join }
    (Env.pass_side hpass) hlocated hcontext hwhich
  rw [List.map_append]
  exact scope (trans (rows.all hkeyOps) (rows.conjunction hfilterOp))

theorem join {left right : Smaller e} {condition : Option (Smaller e)}
    {kind : JoinKind} {s₃ s₄ s₅ s₆ s₇ s₈ : State} {l r : Op} {leftRow rightRow : Binding}
    {preFilter residual : Option Op} {leftSide rightSide : JoinSideOp Op}
    (hleft : Lowers env left s l s₁) (hright : Lowers env right s₁ r s₂)
    (hleftRow : Gives (freshSlot "left") s₂ leftRow s₃)
    (hrightRow : Gives (freshSlot "right") s₃ rightRow s₄)
    (hpreFilter : ConjunctionGives env (JoinPlan.ofCondition condition kind).preFilter s₄
      preFilter s₅)
    (hleftSide : SideGives (.part env.context key .leftRow) ⟨leftRow, rightRow⟩
      ((JoinPlan.ofCondition condition kind).keys.map (·.1))
      (JoinPlan.ofCondition condition kind).leftFilter env s₅ leftSide s₆)
    (hrightSide : SideGives (.part env.context key .rightRow) ⟨leftRow, rightRow⟩
      ((JoinPlan.ofCondition condition kind).keys.map (·.2))
      (JoinPlan.ofCondition condition kind).rightFilter env s₆ rightSide s₇)
    (hresidual : ConjunctionGives (env.pair key ⟨leftRow, rightRow⟩)
      (JoinPlan.ofCondition condition kind).residual s₇.enter residual s₈) :
    Vets root s (Smaller.loweredParts env.keysHere (.join left right condition kind))
      (s₈.leave s₇) := by
  have here := B.steps hpass hlocated rfl
  have sources := trans (here.lowers hleft) (here.lowers hright)
  have registers := trans (trans sources (slot hleftRow)) (slot hrightRow)
  have before := trans registers (here.conjunction hpreFilter)
  have leftPart := side B hpass hlocated rfl (by decide) hleftSide
  have rightPart := side B hpass hlocated rfl (by decide) hrightSide
  have pairs := B.inside (env.pair key ⟨leftRow, rightRow⟩) (Env.pass_pair hpass) hlocated rfl
    (by decide)
  have whole := before.trans (trans (leftPart.trans rightPart)
    (scope (pairs.conjunction hresidual)))
  simpa only [Smaller.loweredParts, List.map_append, List.map_cons, List.map_nil,
    List.append_assoc, List.cons_append, List.nil_append] using whole

theorem fallback {r : Reducer (Smaller e)} (h : FallbackGives env r s op s') :
    Vets root s (Smaller.loweredParts env.keysHere (.reducer r)) s' := by
  rw [Smaller.loweredParts]
  rcases fallback_cases h with ⟨c, hc, h⟩ | ⟨name, hnone, h, -⟩
  · rw [hc]
    exact (B.steps hpass hlocated rfl).contained h
  · rw [hnone]
    exact named h

/-- Lowering a node in place checks the labels of its parts. -/
theorem node (hanalyzed : e.Analyzed) (hfree : e.analysis.hasSideEffects = false)
    (h : NodeGives e env key e.parts s op s') :
    Vets root s (Smaller.loweredParts env.keysHere e.parts) s' := by
  generalize hnode : e.parts = node at h
  cases hplain : node.plain with
  | true =>
    have whole := (B.steps hpass hlocated rfl).plain hplain h
    cases node with
    | constant | access | call | builtin | binary | unary | and | or | collection | dict
    | conditional => exact whole
    | _ => cases hplain
  | false =>
    cases h with
    | input | caught | leftRow | rightRow => exact .idle rfl rfl
    | parameter h => rcases gives_paramIndex h with ⟨-, rfl⟩ | ⟨-, -, rfl⟩ <;> exact .idle rfl rfl
    | labelRef _ h => rcases gives_labelSlot h with ⟨-, rfl⟩ | ⟨-, -, rfl⟩ <;> exact .idle rfl rfl
    | comprehension hsource hvar hfilter hkeyed helement =>
      exact comprehension B hpass hlocated hsource hvar hfilter hkeyed helement
    | sort hsource hvar hkeys => exact sort B hpass hlocated hsource hvar hkeys
    | unguarded h => exact (B.steps hpass hlocated rfl).lowers h
    | guarded _ hbody hcaught hhandlers =>
      exact guarded B hpass hlocated hbody hcaught hhandlers
    | inlined _ hproducer hconsumer | piped _ hproducer hconsumer =>
      exact pipe B hpass hlocated hproducer hconsumer
    | @label name c _ _ _ _ _ hvalue hslot =>
      have written : name ∈ e.analysis.labelsWritten := by
        refine hanalyzed.labelWritten (c := c.1) ?_
        rw [← e.map_parts, hnode]
        rfl
      exact absurd written ((Analysis.hasSideEffects_eq_false.mp hfree).2 name)
    | reducer _ _ hfallback => exact fallback B hpass hlocated hfallback
    | aggregate _ hreducers hgroup hrow hkeys hslots houtput =>
      exact aggregate B hpass hreducers hgroup hrow hkeys hslots houtput
    | join hleft hright hleftRow hrightRow hplan hpreFilter hleftSide hrightSide hresidual =>
      subst hplan
      exact join B hpass hlocated hleft hright hleftRow hrightRow hpreFilter hleftSide hrightSide
        hresidual
    | _ => cases hplain

end Node

end Vets

end Vets

/-- Expressions that are known by equal keys are one expression, or have nothing to do with
    labels. -/
theorem same_or_silent {root c e : Expr} (hcoherent : root.Coherent) (hc : Expr.Within c root)
    (he : Expr.Within e root)
    (h : (NodeKey.of c c.analysis == NodeKey.of e e.analysis) = true) :
    c = e ∨ (c.analysis.labelsRead = [] ∧ c.analysis.labelsWritten = []) := by
  have silent (a : Analysis)
      (h : ¬(a.hasSideEffects || a.readsLabels || a.readsCaught) = true) :
      a.labelsRead = [] ∧ a.labelsWritten = [] := by
    simp only [Analysis.hasSideEffects, Analysis.readsLabels, Bool.or_eq_true, not_or,
      Bool.not_eq_true, Bool.not_eq_false', List.isEmpty_iff] at h
    exact ⟨h.1.2, h.1.1.2⟩
  unfold NodeKey.of at h
  split at h
  · split at h
    · exact .inl (hcoherent c e hc he (eq_of_beq (show (c.id == e.id) = true from h)))
    · cases h
  · rename_i hplain
    exact .inr (silent _ hplain)

/-- **Lowering checks labels.**  When an expression without effects has been lowered, all labels
    that it checks were set before, and it has set none. -/
theorem lower_checks {root : Expr} (hanalyzed : root.Analyzed) (hcoherent : root.Coherent)
    {e : Expr} {env : Env} {s s' : State} {op : Op} (hwithin : Expr.Within e root)
    (hfree : e.analysis.hasSideEffects = false) (hpass : env.pass = .emit)
    (hlocated : env.Located) (h : Gives (lower e env) s op s') (honest : Honest root s.bound) :
    Vetted root (Checks env.keysHere e) s s' := by
  have B : VetBelow root e := fun c _ _ _ _ hc hpass hlocated h honest =>
    lower_checks hanalyzed hcoherent (hc.trans hwithin)
      ((hc.analyzed (hwithin.analyzed hanalyzed).1).2.effectFree hfree) hpass hlocated h honest
  have analyzed := (hwithin.analyzed hanalyzed).1
  -- What has no effects and is bound reads no label, so only nodes in place check any.
  have silent {count : Nat} (hbound : isBound env e e.analysis count = true) (n : String) :
      ¬Checks env.keysHere e n := by
    have unread : e.analysis.readsLabels = false := by
      unfold isBound at hbound
      simp_all
    exact fun hn => Analysis.readsLabels_eq_false.mp unread n (hn.read analyzed)
  have unwritten := (Analysis.hasSideEffects_eq_false.mp hfree).2
  have placed {t : State} {o : Op} (h : NodeGives e env (.of e e.analysis) e.parts s o t) :
      Vetted root (ChecksOf (Smaller.loweredParts env.keysHere e.parts)) s t :=
    Vets.node B hpass hlocated analyzed hfree h
      (fun _ hp => Smaller.within_of_mem_loweredParts hp) honest
  cases lower_cases hpass h with
  | groupKey hkey =>
    -- A key is read from the record of the group, and none of its parts is lowered.
    obtain ⟨key, hkey, hequal⟩ := exists_keysHere hkey
    refine ⟨honest, fun _ hn => hn, fun n hn => ?_⟩
    have different : ∀ key ∈ env.keysHere, (key == e) = false := by
      cases hn with
      | ref hkeys | part hkeys => exact hkeys
    rw [different key hkey] at hequal
    cases hequal
  | inPlace hkey _ hnode =>
    have vetted := placed hnode
    refine ⟨vetted.honest, vetted.shrinks, fun n hn => ?_⟩
    cases hn with
    | ref _ href =>
      rw [href] at hnode
      cases hnode with
      | labelRef hset => exact hset
    | part _ hpart hn => exact vetted.checked n ⟨_, hpart, hn⟩
  | @hit b _ hbound hmem hsame _ =>
    -- The binding may be that of another expression, which then has nothing to do with labels.
    refine ⟨honest, fun n hn => ?_, fun n hn => absurd hn (silent hbound n)⟩
    obtain ⟨c, hc, hkey, hwrites⟩ := honest b hmem
    rcases NameSet.mem_union.mp hn with hn | hn
    · exact hn
    · have hw := hwrites n hn
      simp only [Site.same, Bool.and_eq_true, hkey] at hsame
      rcases same_or_silent hcoherent hc hwithin hsame.2 with rfl | ⟨-, hnone⟩
      · exact absurd hw (unwritten n)
      · rw [hnone] at hw
        exact absurd hw List.not_mem_nil
  | bind _ hbound _ hnode hslot =>
    have vetted := placed hnode
    obtain ⟨-, next, rfl⟩ := gives_freshSlot hslot
    refine ⟨fun b hb => ?_, vetted.shrinks, fun n hn => absurd hn (silent hbound n)⟩
    rcases List.mem_append.mp hb with hb | hb
    · exact vetted.honest b hb
    · rw [List.mem_singleton.mp hb]
      refine ⟨e, hwithin, rfl, fun n hn => ?_⟩
      obtain ⟨hset, hnew⟩ := NameSet.mem_diff.mp hn
      exact absurd (vetted.shrinks n hset) hnew
termination_by sizeOf e
decreasing_by exact c.2

end Lowering
end DataExpr
