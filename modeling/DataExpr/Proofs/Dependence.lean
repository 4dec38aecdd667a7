import DataExpr.Proofs.Meaning
import DataExpr.Proofs.SharingPattern

/-!
# What meanings depend on

A node evaluates its parts on scenes that it makes from its own (`Node.Evaluates`).  What it means
depends on what it reads of its scene and on what its parts mean there (`AlikeOn.node`).  So the
identities of nodes mean nothing (`meaning_rename`), and expressions without constant sets and
dictionaries that are equal, or only alike, mean the same (`meaning_eq_of_beq`,
`meaning_eq_of_alike`).
-/

namespace DataExpr

variable {α β γ ι κ : Type}

/-! ### Images of lists and options -/

theorem map_images {is : List ι} {js : List κ} {u : ι → γ} {v : κ → γ} {g : ι → α} {g' : κ → α}
    (h : js.map v = is.map u) (step : ∀ i ∈ is, ∀ j, v j = u i → g' j = g i) :
    js.map g' = is.map g := by
  induction is generalizing js with
  | nil =>
    obtain rfl := List.map_eq_nil_iff.mp h
    rfl
  | cons i is ih =>
    obtain ⟨j, js, rfl, hj, hjs⟩ := List.map_eq_cons_iff.mp h
    rw [List.map_cons, List.map_cons, step i List.mem_cons_self j hj,
      ih hjs fun k hk => step k (List.mem_cons_of_mem i hk)]

theorem mapM_images {is : List ι} {js : List κ} {u : ι → γ} {v : κ → γ}
    {g : ι → Except Error α} {q : κ → Except Error α} (h : js.map v = is.map u)
    (step : ∀ i ∈ is, ∀ j, v j = u i → q j = g i) : js.mapM q = is.mapM g := by
  have split {l : Type} (ls : List l) (k : l → Except Error α) :
      ls.mapM k = (ls.map k).mapM id := by
    rw [List.mapM_map]
    rfl
  rw [split js, split is, map_images h step]

theorem map_images_option {i : Option ι} {j : Option κ} {u : ι → γ} {v : κ → γ} {g : ι → α}
    {g' : κ → α} (h : j.map v = i.map u) (step : ∀ i' ∈ i, ∀ j, v j = u i' → g' j = g i') :
    j.map g' = i.map g := by
  cases i with
  | none =>
    obtain rfl := Option.map_eq_none_iff.mp h
    rfl
  | some i =>
    obtain ⟨j, rfl, hj⟩ := Option.map_eq_some_iff.mp h
    exact congrArg some (step i rfl j hj)

/-! ### Scenes of parts -/

/-- How the scene of a part comes from the scene of the whole. -/
inductive Shift where
  | same
  | within (input : Result)
  | onRow (row : Result)
  | emitting (view : OutputView)
  | withRows (left right : Option Value)
  | catching (e : Error)

/-- What the slot of a reducer holds, if an aggregate around has one for it. -/
def Scene.slot? (s : Scene) (r : Reducer Expr) : Option (Option Value) :=
  s.output.bind fun view => view.slot? r

def Scene.shift (s : Scene) : Shift → Scene
  | .same => s
  | .within input => s.within input
  | .onRow row => s.onRow row
  | .emitting view => s.emitting view
  | .withRows left right => s.withRows left right
  | .catching e => s.catching e

section Parts

variable {root : Expr}

/-- The parts of a plan that are evaluated with rows in place. -/
def JoinPlan.onRows {ε : Type} (plan : JoinPlan ε) : List ε :=
  plan.keys.map (·.1) ++ plan.keys.map (·.2) ++ plan.leftFilter ++ plan.rightFilter ++
    plan.residual

namespace Node

/-- The parts that are evaluated on the scene of the whole. -/
def onScene : Node (Smaller root) → List (Smaller root)
  | comprehension _ _ _ source _ | sort source _ _ => [source]
  | guarded body _ => [body]
  | pipe producer _ => [producer]
  | reducer r => r.default.toList ++ r.initial.toList
  | aggregate .. => []
  | join left right condition kind =>
    left :: right :: (JoinPlan.ofCondition condition kind).preFilter
  | node => node.children

/-- The parts that a node evaluates, and on which scenes. -/
inductive Evaluates : Node (Smaller root) → Shift → Smaller root → Prop
  | here {node : Node (Smaller root)} {c : Smaller root} (h : c ∈ node.onScene) :
      Evaluates node .same c
  | item {kind : ComprehensionKind} {key filter : Option (Smaller root)}
      {element source c : Smaller root} {item : Value}
      (h : c ∈ filter.toList ++ key.toList ++ [element]) :
      Evaluates (.comprehension kind key element source filter) (.within (.ok item)) c
  | sortItem {source : Smaller root} {keys : List (SortKey (Smaller root))} {reverse : Bool}
      {k : SortKey (Smaller root)} {item : Value} (h : k ∈ keys) :
      Evaluates (.sort source keys reverse) (.within (.ok item)) k.key
  | consumer {producer consumer : Smaller root} {input : Result} :
      Evaluates (.pipe producer consumer) (.within input) consumer
  | handler {body c : Smaller root} {handlers : List (Handler (Smaller root))}
      {h : Handler (Smaller root)} {e : Error} (hh : h ∈ handlers) (hc : c ∈ h.children) :
      Evaluates (.guarded body handlers) (.catching e) c
  | key {keys : List (Smaller root)} {output c : Smaller root} {row : Value} (h : c ∈ keys) :
      Evaluates (.aggregate keys output) (.onRow (.ok row)) c
  | slot {keys : List (Smaller root)} {output c : Smaller root} {row : Result}
      {reducers : List (Reducer (Smaller root))} {r : Reducer (Smaller root)}
      (hslots : output.slots = .ok reducers) (hr : r ∈ reducers) (hc : c ∈ r.fed) :
      Evaluates (.aggregate keys output) (.onRow row) c
  | output {keys : List (Smaller root)} {output : Smaller root} {view : OutputView} :
      Evaluates (.aggregate keys output) (.emitting view) output
  | joined {left right c : Smaller root} {condition : Option (Smaller root)} {kind : JoinKind}
      {l r : Option Value} (h : c ∈ (JoinPlan.ofCondition condition kind).onRows) :
      Evaluates (.join left right condition kind) (.withRows l r) c

end Node
end Parts

/-! ### Nodes below two roots -/

section Images

variable {f : Nat → Nat} {root root' : Expr} {go : Smaller root → Meaning}
  {go' : Smaller root' → Meaning} {S : Semantics} {s s' : Scene}

/-- An expression and its images are read alike on two scenes. -/
def ReadAlike (f : Nat → Nat) (go : Smaller root → Meaning) (go' : Smaller root' → Meaning)
    (s s' : Scene) (c : Smaller root) : Prop :=
  ∀ c', c'.1 = image (f ·.id) c → go' c' s' = go c s

theorem filter_initial_image {c : Option (Smaller root)} {c' : Option (Smaller root')}
    (h : (c'.map fun c => c.1) = c.map (image (f ·.id))) :
    ((c'.filter fun c => c.1.analysis.inputUses == 0).map fun c => c.1) =
      (c.filter fun c => c.1.analysis.inputUses == 0).map (image (f ·.id)) := by
  cases c with
  | none =>
    obtain rfl := Option.map_eq_none_iff.mp h
    rfl
  | some c =>
    obtain ⟨c', rfl, hc⟩ := Option.map_eq_some_iff.mp h
    rw [Option.filter_some, Option.filter_some, hc, image, Expr.analysis_relabel]
    split
    · exact congrArg some hc
    · rfl

namespace ReadAlike

theorem results {cs : List (Smaller root)} {cs' : List (Smaller root')}
    (hcs : ∀ c ∈ cs, ReadAlike f go go' s s' c)
    (h : (cs'.map fun c => c.1) = cs.map (image (f ·.id))) :
    (cs'.map fun c => go' c s') = cs.map fun c => go c s :=
  map_images h hcs

theorem values {cs : List (Smaller root)} {cs' : List (Smaller root')}
    (hcs : ∀ c ∈ cs, ReadAlike f go go' s s' c)
    (h : (cs'.map fun c => c.1) = cs.map (image (f ·.id))) :
    (cs'.mapM fun c => go' c s') = cs.mapM fun c => go c s :=
  mapM_images h hcs

theorem option {c : Option (Smaller root)} {c' : Option (Smaller root')}
    (hc : ∀ d ∈ c, ReadAlike f go go' s s' d) (h : (c'.map fun c => c.1) = c.map (image (f ·.id))) :
    (c'.map fun c => go' c s') = c.map fun c => go c s :=
  map_images_option h hc

theorem optionResults {c : Option (Smaller root)} {c' : Option (Smaller root')}
    (hc : ∀ d ∈ c, ReadAlike f go go' s s' d) (h : (c'.map fun c => c.1) = c.map (image (f ·.id))) :
    (c'.toList.map fun c => go' c s') = c.toList.map fun c => go c s := by
  have := congrArg Option.toList (option hc h)
  rwa [Option.toList_map, Option.toList_map] at this

theorem path {path : List (PathStep (Smaller root))} {path' : List (PathStep (Smaller root'))}
    (hcs : ∀ c ∈ path.flatMap PathStep.children, ReadAlike f go go' s s' c)
    (h : path'.map (PathStep.map fun c => c.1) = path.map (PathStep.map (image (f ·.id)))) :
    (path'.map (PathStep.map fun c => go' c s')) = path.map (PathStep.map fun c => go c s) := by
  refine map_images h fun step hmem step' hstep => ?_
  cases step <;> cases step'
  case key.key c c' =>
    exact congrArg PathStep.key (hcs c (List.mem_flatMap.mpr ⟨_, hmem, List.mem_cons_self⟩) c'
      (PathStep.key.inj hstep))
  case attr.attr => exact congrArg PathStep.attr (PathStep.attr.inj hstep)
  all_goals cases hstep

theorem pairs {pairs : List (Smaller root × Smaller root)}
    {pairs' : List (Smaller root' × Smaller root')}
    (hcs : ∀ c ∈ (Node.dict pairs).children, ReadAlike f go go' s s' c)
    (h : pairs'.map (fun p => (p.1.1, p.2.1)) =
      pairs.map fun p => (image (f ·.id) p.1, image (f ·.id) p.2)) :
    (pairs'.mapM fun p => do return (← go' p.1 s', ← go' p.2 s')) =
      pairs.mapM fun p => do return (← go p.1 s, ← go p.2 s) := by
  refine mapM_images h fun p hmem p' hp => ?_
  have parts : ∀ c ∈ [p.1, p.2], ReadAlike f go go' s s' c := fun c hc =>
    hcs c (List.mem_flatMap.mpr ⟨p, hmem, hc⟩)
  rw [parts p.1 List.mem_cons_self p'.1 (congrArg Prod.fst hp),
    parts p.2 (List.mem_cons_of_mem _ List.mem_cons_self) p'.2 (congrArg Prod.snd hp)]

theorem sortKeys {keys : List (SortKey (Smaller root))} {keys' : List (SortKey (Smaller root'))}
    (hcs : ∀ k ∈ keys, ReadAlike f go go' s s' k.key)
    (h : keys'.map (SortKey.map fun c => c.1) = keys.map (SortKey.map (image (f ·.id)))) :
    (keys'.mapM fun k => go' k.key s') = keys.mapM fun k => go k.key s :=
  mapM_images h fun k hmem k' hk => hcs k hmem k'.key (congrArg SortKey.key hk)

theorem handlers {handlers : List (Handler (Smaller root))}
    {handlers' : List (Handler (Smaller root'))} {e : Error}
    (hcs : ∀ h ∈ handlers, ∀ c ∈ h.children, ReadAlike f go go' s s' c)
    (h : handlers'.map (Handler.map fun c => c.1) =
      handlers.map (Handler.map (image (f ·.id)))) :
    ((handlers'.find? (·.catches e)).map fun h =>
        handled e (h.reraiseIf.map fun c => go' c s') (go' h.value s')) =
      (handlers.find? (·.catches e)).map fun h =>
        handled e (h.reraiseIf.map fun c => go c s) (go h.value s) := by
  have found := congrArg (List.find? fun h => h.catches e) h
  rw [List.find?_map, List.find?_map] at found
  refine map_images_option found fun h hmem h' hh => ?_
  obtain ⟨-, hvalue, hreraise⟩ := Handler.mk.inj hh
  have parts := hcs h (List.mem_of_find?_eq_some hmem)
  simp only [Handler.children, List.mem_append, Option.mem_toList, List.mem_singleton] at parts
  rw [parts _ (.inr rfl) _ hvalue, option (fun c hc => parts c (.inl hc)) hreraise]

theorem slotMeaning {r : Reducer (Smaller root)} {r' : Reducer (Smaller root')}
    (hr : ∀ c ∈ r.fed, ∀ row, ReadAlike f go go' (s.onRow row) (s'.onRow row) c)
    (hinput : s'.input = s.input) (h : (r'.map fun c => c.1) = r.map (image (f ·.id))) :
    r'.slotMeaning go' s' = r.slotMeaning go s := by
  obtain ⟨kind, args, filter, default, initial⟩ := r
  obtain ⟨kind', args', filter', default', initial'⟩ := r'
  simp only [Reducer.map, Reducer.mk.injEq] at h
  obtain ⟨rfl, hargs, hfilter, -, hinitial⟩ := h
  have rowFilter : ∀ c ∈ filter, c ∈ (Reducer.mk kind' args filter default initial).fed :=
    fun c hc => List.mem_append_left _ (List.mem_append_left _ (Option.mem_toList.mpr hc))
  have rowArgs : ∀ c ∈ args, c ∈ (Reducer.mk kind' args filter default initial).fed :=
    fun c hc => List.mem_append_left _ (List.mem_append_right _ hc)
  have rowInitial : ∀ c ∈ initial, c ∈ (Reducer.mk kind' args filter default initial).fed :=
    fun c hc => List.mem_append_right _ (Option.mem_toList.mpr hc)
  simp only [Reducer.slotMeaning, SlotMeaning.mk.injEq, true_and]
  refine ⟨?_, ?_, ?_, ?_⟩
  · funext row
    rw [optionResults (fun c hc => hr c (rowFilter c hc) _) hfilter]
  · funext row
    exact values (fun c hc => hr c (rowArgs c hc) _) hargs
  · refine map_images_option hinitial fun c hc c' hc' => ?_
    funext row
    exact hr c (rowInitial c hc) _ c' hc'
  · rw [hinput]
    refine option (fun c hc => hr c (rowInitial c ?_) _) (filter_initial_image hinitial)
    exact (Option.eq_some_of_filter_eq_some hc)

theorem fallback {r : Reducer (Smaller root)} {r' : Reducer (Smaller root')}
    (hr : ∀ c ∈ r.default.toList ++ r.initial.toList, ReadAlike f go go' s s' c)
    (h : (r'.map fun c => c.1) = r.map (image (f ·.id))) :
    r'.fallback go' s' = r.fallback go s := by
  obtain ⟨kind, args, filter, default, initial⟩ := r
  obtain ⟨kind', args', filter', default', initial'⟩ := r'
  simp only [Reducer.map, Reducer.mk.injEq] at h
  obtain ⟨rfl, -, -, hdefault, hinitial⟩ := h
  have seed := filter_initial_image hinitial
  simp only [Reducer.fallback]
  cases default with
  | some d =>
    obtain ⟨d', rfl, hd⟩ := Option.map_eq_some_iff.mp hdefault
    exact hr d (List.mem_append_left _ List.mem_cons_self) d' hd
  | none =>
    obtain rfl := Option.map_eq_none_iff.mp hdefault
    have mem : ∀ c ∈ initial.filter fun c => c.1.analysis.inputUses == 0,
        ReadAlike f go go' s s' c := fun c hc =>
      hr c (List.mem_append_right _ (Option.mem_toList.mpr (Option.eq_some_of_filter_eq_some hc)))
    generalize initial.filter _ = i at seed mem ⊢
    generalize initial'.filter _ = i' at seed ⊢
    cases i with
    | none =>
      obtain rfl := Option.map_eq_none_iff.mp seed
      rfl
    | some c =>
      obtain ⟨c', rfl, hc⟩ := Option.map_eq_some_iff.mp seed
      exact mem c rfl c' hc

theorem reducer {r : Reducer (Smaller root)} {r' : Reducer (Smaller root')}
    (hr : ∀ c ∈ r.default.toList ++ r.initial.toList, ReadAlike f go go' s s' c)
    (hslot : s'.slot? (Smaller.plain r) = s.slot? (Smaller.plain r))
    (h : (r'.map fun c => c.1) = r.map (image (f ·.id))) : r'.meaning go' s' = r.meaning go s := by
  have slot : s'.slot? (Smaller.plain r') = s.slot? (Smaller.plain r) := by
    simp only [plain_image h, ← Expr.rename_eq_relabel, Scene.slot?, OutputView.slot_rename]
      at hslot ⊢
    exact hslot
  unfold Reducer.meaning
  rw [fallback hr h]
  simp only [Scene.slot?] at slot
  rw [slot]

theorem aggregate {keys : List (Smaller root)} {keys' : List (Smaller root')}
    {output : Smaller root} {output' : Smaller root'} {rs : List (Reducer (Smaller root))}
    {rs' : List (Reducer (Smaller root'))}
    (hkeyParts : ∀ c ∈ keys, ∀ row, ReadAlike f go go' (s.onRow (.ok row)) (s'.onRow (.ok row)) c)
    (hslotParts : ∀ r ∈ rs, ∀ c ∈ r.fed, ∀ row,
      ReadAlike f go go' (s.onRow row) (s'.onRow row) c)
    (houtputPart : ∀ view, ReadAlike f go go' (s.emitting view) (s'.emitting view) output)
    (hinput : s'.input = s.input) (hkeys : (keys'.map fun c => c.1) = keys.map (image (f ·.id)))
    (houtput : output'.1 = image (f ·.id) output)
    (hrs : rs'.map (Reducer.map fun c => c.1) = rs.map (Reducer.map (image (f ·.id)))) :
    aggregateMeaning go' s' keys' output' rs' = aggregateMeaning go s keys output rs := by
  simp only [aggregateMeaning, AggregateMeaning.mk.injEq]
  refine ⟨?_, ?_, ?_, ?_⟩
  · have empty := congrArg List.isEmpty hkeys
    rw [List.isEmpty_map, List.isEmpty_map] at empty
    rw [empty]
  · funext row
    exact values (fun c hc => hkeyParts c hc row) hkeys
  · exact map_images hrs fun r hr r' hr' => slotMeaning (hslotParts r hr) hinput hr'
  · funext group
    have plain : rs'.map Smaller.plain =
        (rs.map Smaller.plain).map (Reducer.map (Expr.rename f)) := by
      rw [List.map_map, Expr.rename_eq_relabel]
      exact map_images hrs fun r _ r' hr => plain_image hr
    have keyed : (keys'.map fun c => c.1) = (keys.map fun c => c.1).map (Expr.rename f) := by
      rw [List.map_map, Expr.rename_eq_relabel]
      exact hkeys
    rw [plain, keyed, OutputView.ofGroup_rename]
    exact houtputPart _ output' houtput

theorem sideKey {keys filter : List (Smaller root)} {keys' filter' : List (Smaller root')}
    (hparts : ∀ c ∈ keys ++ filter, ReadAlike f go go' s s' c)
    (hkeys : (keys'.map fun c => c.1) = keys.map (image (f ·.id)))
    (hfilter : (filter'.map fun c => c.1) = filter.map (image (f ·.id))) :
    DataExpr.sideKey go' s' keys' filter' = DataExpr.sideKey go s keys filter := by
  rw [DataExpr.sideKey, DataExpr.sideKey,
    results (fun c hc => hparts c (List.mem_append_right _ hc)) hfilter,
    mapM_images hkeys fun c hc c' hc' => by
      rw [hparts c (List.mem_append_left _ hc) c' hc']]

theorem join {plan : JoinPlan (Smaller root)} {plan' : JoinPlan (Smaller root')}
    (hpre : ∀ c ∈ plan.preFilter, ReadAlike f go go' s s' c)
    (hrows : ∀ c ∈ plan.onRows, ∀ l r,
      ReadAlike f go go' (s.withRows l r) (s'.withRows l r) c)
    (h : (plan'.map fun c => c.1) = plan.map (image (f ·.id))) (kind : JoinKind) :
    joinMeaning go' s' kind plan' = joinMeaning go s kind plan := by
  obtain ⟨keys, leftFilter, rightFilter, preFilter, residual⟩ := plan
  obtain ⟨keys', leftFilter', rightFilter', preFilter', residual'⟩ := plan'
  simp only [JoinPlan.map, JoinPlan.mk.injEq] at h
  obtain ⟨hkeys, hleft, hright, hpreFilter, hresidual⟩ := h
  have first : (keys'.map fun k => k.1).map (fun c => c.1) =
      (keys.map fun k => k.1).map (image (f ·.id)) := by
    rw [List.map_map, List.map_map]
    exact map_images hkeys fun k _ k' hk => congrArg Prod.fst hk
  have second : (keys'.map fun k => k.2).map (fun c => c.1) =
      (keys.map fun k => k.2).map (image (f ·.id)) := by
    rw [List.map_map, List.map_map]
    exact map_images hkeys fun k _ k' hk => congrArg Prod.snd hk
  simp only [JoinPlan.onRows, List.mem_append] at hrows
  simp only [joinMeaning, JoinMeaning.mk.injEq, true_and]
  refine ⟨by rw [results hpre hpreFilter], ?_, ?_, ?_⟩
  · funext l
    refine sideKey (fun c hc => hrows c ?_ _ _) first hleft
    exact (List.mem_append.mp hc).elim (fun h => .inl (.inl (.inl (.inl h))))
      fun h => .inl (.inl (.inr h))
  · funext r
    refine sideKey (fun c hc => hrows c ?_ _ _) second hright
    exact (List.mem_append.mp hc).elim (fun h => .inl (.inl (.inl (.inr h))))
      fun h => .inl (.inr h)
  · funext l r
    rw [results (fun c hc => hrows c (.inr hc) _ _) hresidual]

end ReadAlike

/-- Two scenes on which a node and its images read the same. -/
structure AlikeOn (f : Nat → Nat) (go : Smaller root → Meaning) (go' : Smaller root' → Meaning)
    (s s' : Scene) (node : Node (Smaller root)) : Prop where
  part : ∀ shift c, node.Evaluates shift c → ReadAlike f go go' (s.shift shift) (s'.shift shift) c
  param : ∀ name, node = .parameter name → s'.param name = s.param name
  slot : ∀ r, node = .reducer r → s'.slot? (Smaller.plain r) = s.slot? (Smaller.plain r)
  input : node = .input ∨ (∃ keys output, node = .aggregate keys output) → s'.input = s.input
  caught : node = .caught → s'.caught = s.caught
  left : node = .joinRow .left → s'.left = s.left
  right : node = .joinRow .right → s'.right = s.right

/-- A node means what a node of images means. -/
theorem AlikeOn.node {node : Node (Smaller root)} {node' : Node (Smaller root')}
    (hs : AlikeOn f go go' s s' node) (h : (node'.map fun c => c.1) = node.map (image (f ·.id))) :
    node'.meaning go' s' S = node.meaning go s S := by
  have here : ∀ c ∈ node.onScene, ReadAlike f go go' s s' c := fun c hc =>
    hs.part .same c (.here hc)
  have there := hs.part
  -- Nodes of different constructors have no common image: only the diagonal cases remain.
  cases node <;> cases node'
  case input.input => exact hs.input (.inl rfl)
  case caught.caught => simp only [Node.meaning, hs.caught rfl]
  case access.access source path default source' path' default' =>
    obtain ⟨hsource, hpath, hdefault⟩ := Node.access.inj h
    simp only [Node.onScene, Node.children, List.cons_append, List.mem_cons, List.mem_append,
      List.mem_flatMap, Option.mem_toList] at here
    have steps := ReadAlike.path (fun c hc => here c (.inr (.inl (List.mem_flatMap.mp hc)))) hpath
    simp only [Node.meaning, here _ (.inl rfl) _ hsource, steps,
      ReadAlike.option (fun c hc => here c (.inr (.inr hc))) hdefault]
  case constant.constant => exact congrArg Except.ok (Node.constant.inj h)
  case parameter.parameter =>
    rw [Node.meaning, Node.meaning, Node.parameter.inj h, hs.param _ rfl]
  case call.call =>
    obtain ⟨rfl, hargs⟩ := Node.call.inj h
    simp only [Node.meaning, Node.onScene, Node.children, ReadAlike.values here hargs]
  case builtin.builtin =>
    obtain ⟨rfl, hargs⟩ := Node.builtin.inj h
    simp only [Node.meaning, Node.onScene, Node.children, ReadAlike.values here hargs]
  case binary.binary =>
    obtain ⟨rfl, hl, hr⟩ := Node.binary.inj h
    simp only [Node.meaning, here _ List.mem_cons_self _ hl,
      here _ (List.mem_cons_of_mem _ List.mem_cons_self) _ hr]
  case unary.unary =>
    obtain ⟨rfl, ho⟩ := Node.unary.inj h
    simp only [Node.meaning, here _ List.mem_cons_self _ ho]
  case and.and =>
    simp only [Node.meaning, Node.onScene, Node.children, ReadAlike.results here (Node.and.inj h)]
  case or.or =>
    simp only [Node.meaning, Node.onScene, Node.children, ReadAlike.results here (Node.or.inj h)]
  case collection.collection =>
    obtain ⟨rfl, hitems⟩ := Node.collection.inj h
    simp only [Node.meaning, Node.onScene, Node.children, ReadAlike.values here hitems]
  case dict.dict =>
    simp only [Node.meaning, ReadAlike.pairs here (Node.dict.inj h)]
  case comprehension.comprehension =>
    obtain ⟨rfl, hkey, helement, hsource, hfilter⟩ := Node.comprehension.inj h
    -- Element, key and filter are read on a shifted scene, with the item as its input.
    have item (v : Value) := fun c hc => there (.within (.ok v)) c (.item hc)
    simp only [List.mem_append, Option.mem_toList, List.mem_singleton, Scene.shift] at item
    simp only [Node.meaning, here _ List.mem_cons_self _ hsource,
      fun v => item v _ (.inr rfl) _ helement,
      fun v => ReadAlike.option (fun c hc => item v c (.inl (.inr hc))) hkey,
      fun v => ReadAlike.optionResults (fun c hc => item v c (.inl (.inl hc))) hfilter]
  case sort.sort keys _ _ keys' _ =>
    obtain ⟨hsource, hkeys, rfl⟩ := Node.sort.inj h
    have orders : keys'.map (·.order) = keys.map (·.order) :=
      map_images hkeys fun k _ k' hk => congrArg SortKey.order hk
    have empty : keys'.isEmpty = keys.isEmpty := by
      have := congrArg List.isEmpty orders
      rwa [List.isEmpty_map, List.isEmpty_map] at this
    have key (item : Value) := ReadAlike.sortKeys
      (fun k hk => there (.within (.ok item)) k.key (.sortItem hk)) hkeys
    simp only [Scene.shift] at key
    simp only [Node.meaning, here _ List.mem_cons_self _ hsource, orders, empty, key]
  case guarded.guarded body handlers body' handlers' =>
    obtain ⟨hbody, hhandlers⟩ := Node.guarded.inj h
    have find (e : Error) := ReadAlike.handlers (e := e)
      (fun h hh c hc => there (.catching e) c (.handler hh hc)) hhandlers
    simp only [Scene.shift] at find
    simp only [Node.meaning, here _ List.mem_cons_self _ hbody, find]
  case conditional.conditional =>
    obtain ⟨hc, hy, hn⟩ := Node.conditional.inj h
    simp only [Node.onScene, Node.children, List.mem_cons, List.not_mem_nil, or_false] at here
    simp only [Node.meaning, here _ (.inl rfl) _ hc, here _ (.inr (.inl rfl)) _ hy,
      here _ (.inr (.inr rfl)) _ hn]
  case pipe.pipe p c p' c' =>
    obtain ⟨hp, hc⟩ := Node.pipe.inj h
    have mode : S.inlines p'.1 c'.1 = S.inlines p.1 c.1 := by
      rw [show p'.1 = p.1.rename f from hp.trans (Expr.rename_apply f p.1).symm,
        show c'.1 = c.1.rename f from hc.trans (Expr.rename_apply f c.1).symm]
      exact S.inlines_rename f p.1 c.1
    have consumer (r : Result) : go' c' (s'.within r) = go c (s.within r) :=
      there (.within r) c .consumer c' hc
    simp only [Node.meaning, here _ List.mem_cons_self _ hp, consumer, mode]
  case label.label =>
    obtain ⟨-, he⟩ := Node.label.inj h
    simp only [Node.meaning, here _ List.mem_cons_self _ he]
  case labelRef.labelRef n n' =>
    obtain rfl : n' = n := Node.labelRef.inj h
    rfl
  case reducer.reducer => exact ReadAlike.reducer here (hs.slot _ rfl) (Node.reducer.inj h)
  case aggregate.aggregate keys output keys' output' =>
    obtain ⟨hkeys, houtput⟩ := Node.aggregate.inj h
    have hinput := hs.input (.inr ⟨_, _, rfl⟩)
    have hslots := slots_relabel houtput
    simp only [Node.meaning, hinput]
    cases hrs : output.slots <;> cases hrs' : output'.slots <;> rw [hrs, hrs'] at hslots
    case ok.ok rs rs' =>
      have same := ReadAlike.aggregate (fun c hc row => there (.onRow (.ok row)) c (.key hc))
        (fun r hr c hc row => there (.onRow row) c (.slot hrs hr hc))
        (fun view => there (.emitting view) output .output) hinput hkeys houtput
        (Except.ok.inj hslots)
      simp only [same]
    all_goals cases hslots
  case join.join =>
    obtain ⟨hl, hr, hc, rfl⟩ := Node.join.inj h
    have same := ReadAlike.join
      (fun c hc => here c (List.mem_cons_of_mem _ (List.mem_cons_of_mem _ hc)))
      (fun c hc l r => there (.withRows l r) c (.joined hc)) (plan_relabel hc _)
    simp only [Node.meaning, here _ List.mem_cons_self _ hl,
      here _ (List.mem_cons_of_mem _ List.mem_cons_self) _ hr, same]
  case joinRow.joinRow =>
    obtain rfl := Node.joinRow.inj h
    rename_i side
    cases side
    · simp only [Node.meaning, hs.left rfl]
    · simp only [Node.meaning, hs.right rfl]
  all_goals cases h

end Images

/-! ### Expressions -/

namespace Expr

variable {S : Semantics}

/-- **The identities of nodes mean nothing.** -/
theorem meaning_rename (f : Nat → Nat) (e : Expr) : (e.rename f).meaning S = e.meaning S := by
  funext s
  have key : s.key? (e.rename f) = s.key? e := by
    simp only [Scene.key?, OutputView.key_rename]
  cases h : s.key? e with
  | some v => rw [meaning_of_key h, meaning_of_key (key.trans h)]
  | none =>
    rw [meaning_of_node h, meaning_of_node (key.trans h)]
    have parts := parts_relabel (f ·.id) e
    rw [← rename_apply] at parts
    refine AlikeOn.node ⟨fun shift c _ c' hc => ?_, fun _ _ => rfl, fun _ _ => rfl, fun _ => rfl,
      fun _ => rfl,
      fun _ => rfl, fun _ => rfl⟩ parts
    rw [show c'.1 = c.1.rename f from hc.trans (rename_apply f c.1).symm, meaning_rename f c.1]
termination_by sizeOf e
decreasing_by exact c.2

variable {r : Registry} {e d : Expr} (he : e.Exact r) (hd : d.Exact r)
include he hd

/-- Equal expressions have the same analysis. -/
theorem analysis_eq_of_beq (h : (e == d) = true) : e.analysis = d.analysis := by
  rw [← analysis_rename (fun _ => 0) e, rename_eq_of_beq he hd h, analysis_rename]

/-- Equal expressions mean the same. -/
theorem meaning_eq_of_beq (h : (e == d) = true) : e.meaning S = d.meaning S := by
  rw [← meaning_rename (fun _ => 0) e, rename_eq_of_beq he hd h, meaning_rename (fun _ => 0) d]

end Expr
end DataExpr
