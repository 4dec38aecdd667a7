import DataExpr.Expr.Sharing
import DataExpr.Proofs.IdentityFree
import DataExpr.Proofs.Subexpressions

/-!
# Programs and sharing patterns

Likeness sees everything of a constant but what sets and dictionaries hold.  Expressions without
such constants that are alike and reuse their subexpressions in the same way are copies of each
other with other identities: numbered in the order of their first visit, their nodes are the
same.  So they have the same program (`Program.ofExpr_eq_of_alike`).
-/

namespace DataExpr

variable {α β γ : Type}

/-- What a host has registered under each identity. -/
structure Registry where
  function : Nat → Function
  object : Nat → String × List (String × Value)

/-! ### Values that likeness tells apart -/

namespace Value

mutual

/-- A value without sets and dictionaries whose functions and objects are registered. -/
def Exact (r : Registry) : Value → Prop
  | .null | .bool _ | .int _ | .float _ | .str _ => True
  | .list items | .tuple items => AllExact r items
  | .set _ | .dict _ => False
  | .function f => r.function f.id = f
  | .object i typeName attributes => r.object i = (typeName, attributes)

def AllExact (r : Registry) : List Value → Prop
  | [] => True
  | v :: vs => Exact r v ∧ AllExact r vs

end

mutual

/-- Equal values are alike. -/
theorem alike_of_beq : (v w : Value) → v.beq w = true → v.alike w = true
  | .null, w, h => by cases w <;> first | rfl | cases h
  | .bool _, w, h | .int _, w, h | .float _, w, h | .str _, w, h | .function _, w, h
  | .object .., w, h => by cases w <;> first | cases h | exact h
  | .list as, w, h | .tuple as, w, h => by
    cases w <;> first | cases h | exact alikeAll_of_beqAll as _ h
  | .set as, w, h | .dict as, w, h => by
    cases w <;> first | cases h | exact (Bool.and_eq_true_iff.mp h).1

theorem alikeAll_of_beqAll : (vs ws : List Value) → beqAll vs ws = true → alikeAll vs ws = true
  | [], [], _ => rfl
  | v :: vs, w :: ws, h => by
    rw [beqAll, Bool.and_eq_true] at h
    rw [alikeAll, alike_of_beq v w h.1, alikeAll_of_beqAll vs ws h.2]
    rfl
  | [], _ :: _, h => by cases h
  | _ :: _, [], h => by cases h

end

mutual

/-- Likeness is equality of values that hold no set and no dictionary. -/
theorem eq_of_alike {r : Registry} : (v w : Value) → v.Exact r → w.Exact r → v.alike w = true →
    v = w
  | .null, w, _, _, h => by cases w <;> first | rfl | cases h
  | .bool _, w, _, _, h => by cases w <;> first | cases h | exact congrArg bool (eq_of_beq h)
  | .int _, w, _, _, h => by cases w <;> first | cases h | exact congrArg int (eq_of_beq h)
  | .float _, w, _, _, h => by cases w <;> first | cases h | exact congrArg float (eq_of_beq h)
  | .str _, w, _, _, h => by cases w <;> first | cases h | exact congrArg str (eq_of_beq h)
  | .list as, w, hv, hw, h => by
    cases w <;> first | cases h | exact congrArg list (all_eq_of_alike as _ hv hw h)
  | .tuple as, w, hv, hw, h => by
    cases w <;> first | cases h | exact congrArg tuple (all_eq_of_alike as _ hv hw h)
  | .set _, _, hv, _, _ => hv.elim
  | .dict _, _, hv, _, _ => hv.elim
  | .function f, .function g, hv, hw, h => by
    have hid : f.id = g.id := eq_of_beq h
    rw [← show r.function f.id = f from hv, hid, show r.function g.id = g from hw]
  | .object i typeName attributes, .object j typeName' attributes', hv, hw, h => by
    obtain rfl : i = j := eq_of_beq h
    obtain ⟨rfl, rfl⟩ := Prod.mk.inj ((show r.object i = _ from hv).symm.trans hw)
    rfl

theorem all_eq_of_alike {r : Registry} : (vs ws : List Value) → AllExact r vs → AllExact r ws →
    alikeAll vs ws = true → vs = ws
  | [], [], _, _, _ => rfl
  | v :: vs, w :: ws, hv, hw, h => by
    rw [alikeAll, Bool.and_eq_true] at h
    rw [eq_of_alike v w hv.1 hw.1 h.1, all_eq_of_alike vs ws hv.2 hw.2 h.2]
  | [], _ :: _, _, _, h => by cases h
  | _ :: _, [], _, _, h => by cases h

end

end Value

/-! ### Nodes of pairs -/

def ReducerKind.Exact (r : Registry) : ReducerKind → Prop
  | .reduce f => r.function f.id = f
  | _ => True

theorem ReducerKind.eq_of_alike {r : Registry} {k l : ReducerKind} (hk : k.Exact r)
    (hl : l.Exact r) (h : k.alike l = true) : k = l := by
  cases k
  case reduce f =>
    cases l
    case reduce g =>
      have hid : f.id = g.id := eq_of_beq h
      rw [← show r.function f.id = f from hk, hid, show r.function g.id = g from hl]
    all_goals exact eq_of_beq h
  all_goals exact eq_of_beq h

/-- A node whose constant has no sets and dictionaries and whose functions are registered. -/
def Node.Exact (r : Registry) : Node α → Prop
  | .constant v => v.Exact r
  | .call f _ => r.function f.id = f
  | .reducer s => s.kind.Exact r
  | _ => True

theorem exists_pairs_option {q : α → β → Bool} {P : γ → Prop} {u : γ → α} {v : γ → β}
    (pair : ∀ a b, q a b = true → ∃ c, u c = a ∧ v c = b ∧ P c) {a : Option α} {b : Option β}
    (h : zipOption q a b = true) :
    ∃ c : Option γ, c.map u = a ∧ c.map v = b ∧ ∀ x ∈ c.toList, P x := by
  cases a <;> cases b
  case none.none => exact ⟨none, rfl, rfl, fun x hx => absurd hx List.not_mem_nil⟩
  case some.some a b =>
    obtain ⟨c, rfl, rfl, hc⟩ := pair a b h
    exact ⟨some c, rfl, rfl, by simpa using hc⟩
  all_goals cases h

theorem exists_pairs_list {q : α → β → Bool} {P : γ → Prop} {u : γ → α} {v : γ → β}
    (pair : ∀ a b, q a b = true → ∃ c, u c = a ∧ v c = b ∧ P c) {as : List α} {bs : List β}
    (h : zipList q as bs = true) :
    ∃ cs : List γ, cs.map u = as ∧ cs.map v = bs ∧ ∀ c ∈ cs, P c := by
  induction as generalizing bs with
  | nil =>
    cases bs
    · exact ⟨[], rfl, rfl, fun c hc => absurd hc List.not_mem_nil⟩
    · cases h
  | cons a as ih =>
    cases bs with
    | nil => cases h
    | cons b bs =>
      rw [zipList, Bool.and_eq_true] at h
      obtain ⟨c, rfl, rfl, hc⟩ := pair a b h.1
      obtain ⟨cs, rfl, rfl, hcs⟩ := ih h.2
      exact ⟨c :: cs, rfl, rfl, by simpa using ⟨hc, hcs⟩⟩

section Pairs

variable {p : α → β → Bool}

theorem exists_pair (a : α) (b : β) (h : p a b = true) :
    ∃ c : α × β, c.1 = a ∧ c.2 = b ∧ p c.1 c.2 = true := ⟨(a, b), rfl, rfl, h⟩

theorem PathStep.exists_pairs (a : PathStep α) (b : PathStep β) (h : a.zip p b = true) :
    ∃ c : PathStep (α × β), c.map Prod.fst = a ∧ c.map Prod.snd = b ∧
      ∀ x ∈ c.children, p x.1 x.2 = true := by
  cases a <;> cases b
  case key.key a b => exact ⟨.key (a, b), rfl, rfl, by simpa [children, zip] using h⟩
  case attr.attr n m =>
    obtain rfl : n = m := eq_of_beq h
    exact ⟨.attr n, rfl, rfl, fun x hx => absurd hx List.not_mem_nil⟩
  all_goals cases h

theorem SortKey.exists_pairs (a : SortKey α) (b : SortKey β) (h : a.zip p b = true) :
    ∃ c : SortKey (α × β), c.map Prod.fst = a ∧ c.map Prod.snd = b ∧ p c.key.1 c.key.2 = true := by
  obtain ⟨a, order⟩ := a
  obtain ⟨b, order'⟩ := b
  rw [zip, Bool.and_eq_true] at h
  obtain rfl : order = order' := eq_of_beq h.2
  exact ⟨⟨(a, b), order⟩, rfl, rfl, h.1⟩

theorem Handler.exists_pairs (a : Handler α) (b : Handler β) (h : a.zip p b = true) :
    ∃ c : Handler (α × β), c.map Prod.fst = a ∧ c.map Prod.snd = b ∧
      ∀ x ∈ c.children, p x.1 x.2 = true := by
  obtain ⟨kinds, value, reraise⟩ := a
  obtain ⟨kinds', value', reraise'⟩ := b
  simp only [zip, Bool.and_eq_true] at h
  obtain ⟨⟨hkinds, hvalue⟩, hreraise⟩ := h
  obtain rfl : kinds = kinds' := eq_of_beq hkinds
  obtain ⟨c, rfl, rfl, hc⟩ := exists_pairs_option exists_pair hreraise
  refine ⟨⟨kinds, (value, value'), c⟩, rfl, rfl, fun x hx => ?_⟩
  rcases List.mem_append.mp hx with hx | hx
  · exact hc x hx
  · obtain rfl := List.mem_singleton.mp hx
    exact hvalue

theorem Reducer.exists_pairs {r : Registry} {a : Reducer α} {b : Reducer β} (ha : a.kind.Exact r)
    (hb : b.kind.Exact r) (h : a.zip p b = true) :
    ∃ c : Reducer (α × β), c.map Prod.fst = a ∧ c.map Prod.snd = b ∧
      ∀ x ∈ c.children, p x.1 x.2 = true := by
  obtain ⟨kind, args, filter, default, initial⟩ := a
  obtain ⟨kind', args', filter', default', initial'⟩ := b
  simp only [zip, zipSlot, Bool.and_eq_true] at h
  obtain ⟨⟨⟨⟨hkind, hargs⟩, hfilter⟩, hinitial⟩, hdefault⟩ := h
  obtain rfl := ReducerKind.eq_of_alike ha hb hkind
  obtain ⟨args, rfl, rfl, pargs⟩ := exists_pairs_list exists_pair hargs
  obtain ⟨filter, rfl, rfl, pfilter⟩ := exists_pairs_option exists_pair hfilter
  obtain ⟨default, rfl, rfl, pdefault⟩ := exists_pairs_option exists_pair hdefault
  obtain ⟨initial, rfl, rfl, pinitial⟩ := exists_pairs_option exists_pair hinitial
  refine ⟨⟨kind, args, filter, default, initial⟩, rfl, rfl, fun x hx => ?_⟩
  simp only [children, List.mem_append] at hx
  rcases hx with ((hx | hx) | hx) | hx
  · exact pfilter x hx
  · exact pargs x hx
  · exact pinitial x hx
  · exact pdefault x hx

namespace Node

/-- Two nodes are the sides of one node, whose subexpressions are related pairs. -/
def Paired (p : α → β → Bool) (a : Node α) (b : Node β) : Prop :=
  ∃ c : Node (α × β), c.map Prod.fst = a ∧ c.map Prod.snd = b ∧
    ∀ x ∈ c.children, p x.1 x.2 = true

variable {constants : Value → Value → Bool}

theorem Paired.access {source : α} {source' : β} {path : List (PathStep α)}
    {path' : List (PathStep β)} {default : Option α} {default' : Option β}
    (h : (Node.access source path default).zip constants p
      (.access source' path' default') = true) :
    Paired p (.access source path default) (.access source' path' default') := by
  simp only [zip, Bool.and_eq_true] at h
  obtain ⟨⟨hsource, hpath⟩, hdefault⟩ := h
  obtain ⟨path, rfl, rfl, ppath⟩ := exists_pairs_list PathStep.exists_pairs hpath
  obtain ⟨default, rfl, rfl, pdefault⟩ := exists_pairs_option exists_pair hdefault
  refine ⟨.access (source, source') path default, rfl, rfl, fun x hx => ?_⟩
  rcases List.mem_append.mp hx with hx | hx
  · rcases List.mem_cons.mp hx with rfl | hx
    · exact hsource
    · obtain ⟨s, hs, hx⟩ := List.mem_flatMap.mp hx
      exact ppath s hs x hx
  · exact pdefault x hx

theorem Paired.dict {pairs : List (α × α)} {pairs' : List (β × β)}
    (h : (Node.dict pairs).zip constants p (.dict pairs') = true) :
    Paired p (.dict pairs) (.dict pairs') := by
  have entry (a : α × α) (b : β × β) (h : (p a.1 b.1 && p a.2 b.2) = true) :
      ∃ c : (α × β) × (α × β), (c.1.1, c.2.1) = a ∧ (c.1.2, c.2.2) = b ∧
        p c.1.1 c.1.2 = true ∧ p c.2.1 c.2.2 = true :=
    ⟨((a.1, b.1), (a.2, b.2)), rfl, rfl, by simpa using h⟩
  obtain ⟨pairs, rfl, rfl, ppairs⟩ := exists_pairs_list entry h
  refine ⟨.dict pairs, rfl, rfl, fun x hx => ?_⟩
  obtain ⟨c, hc, hx⟩ := List.mem_flatMap.mp hx
  rcases List.mem_pair.mp hx with rfl | rfl
  · exact (ppairs c hc).1
  · exact (ppairs c hc).2

theorem Paired.comprehension {kind kind' : ComprehensionKind} {key filter : Option α}
    {key' filter' : Option β} {element source : α} {element' source' : β}
    (h : (Node.comprehension kind key element source filter).zip constants p
      (.comprehension kind' key' element' source' filter') = true) :
    Paired p (.comprehension kind key element source filter)
      (.comprehension kind' key' element' source' filter') := by
  simp only [zip, Bool.and_eq_true] at h
  obtain ⟨⟨⟨⟨hkind, hkey⟩, helement⟩, hsource⟩, hfilter⟩ := h
  obtain rfl : kind = kind' := eq_of_beq hkind
  obtain ⟨key, rfl, rfl, pkey⟩ := exists_pairs_option exists_pair hkey
  obtain ⟨filter, rfl, rfl, pfilter⟩ := exists_pairs_option exists_pair hfilter
  refine ⟨.comprehension kind key (element, element') (source, source') filter, rfl, rfl,
    fun x hx => ?_⟩
  simp only [children, List.mem_append, List.mem_cons, List.not_mem_nil, or_false] at hx
  rcases hx with ((rfl | hx) | hx) | rfl
  · exact hsource
  · exact pfilter x hx
  · exact pkey x hx
  · exact helement

theorem Paired.sort {source : α} {source' : β} {keys : List (SortKey α)}
    {keys' : List (SortKey β)} {reverse reverse' : Bool}
    (h : (Node.sort source keys reverse).zip constants p (.sort source' keys' reverse') = true) :
    Paired p (.sort source keys reverse) (.sort source' keys' reverse') := by
  simp only [zip, Bool.and_eq_true] at h
  obtain ⟨⟨hsource, hkeys⟩, hreverse⟩ := h
  obtain rfl : reverse = reverse' := eq_of_beq hreverse
  obtain ⟨keys, rfl, rfl, pkeys⟩ := exists_pairs_list SortKey.exists_pairs hkeys
  refine ⟨.sort (source, source') keys reverse, rfl, rfl, fun x hx => ?_⟩
  rcases List.mem_cons.mp hx with rfl | hx
  · exact hsource
  · obtain ⟨k, hk, rfl⟩ := List.mem_map.mp hx
    exact pkeys k hk

theorem Paired.guarded {body : α} {body' : β} {handlers : List (Handler α)}
    {handlers' : List (Handler β)}
    (h : (Node.guarded body handlers).zip constants p (.guarded body' handlers') = true) :
    Paired p (.guarded body handlers) (.guarded body' handlers') := by
  simp only [zip, Bool.and_eq_true] at h
  obtain ⟨handlers, rfl, rfl, phandlers⟩ := exists_pairs_list Handler.exists_pairs h.2
  refine ⟨.guarded (body, body') handlers, rfl, rfl, fun x hx => ?_⟩
  rcases List.mem_cons.mp hx with rfl | hx
  · exact h.1
  · obtain ⟨k, hk, hx⟩ := List.mem_flatMap.mp hx
    exact phandlers k hk x hx

theorem Paired.aggregate {keys : List α} {keys' : List β} {output : α} {output' : β}
    (h : (Node.aggregate keys output).zip constants p (.aggregate keys' output') = true) :
    Paired p (.aggregate keys output) (.aggregate keys' output') := by
  simp only [zip, Bool.and_eq_true] at h
  obtain ⟨keys, rfl, rfl, pkeys⟩ := exists_pairs_list exists_pair h.1
  refine ⟨.aggregate keys (output, output'), rfl, rfl, fun x hx => ?_⟩
  rcases List.mem_append.mp hx with hx | hx
  · exact pkeys x hx
  · obtain rfl := List.mem_singleton.mp hx
    exact h.2

theorem Paired.join {left right : α} {left' right' : β} {condition : Option α}
    {condition' : Option β} {kind kind' : JoinKind}
    (h : (Node.join left right condition kind).zip constants p
      (.join left' right' condition' kind') = true) :
    Paired p (.join left right condition kind) (.join left' right' condition' kind') := by
  simp only [zip, Bool.and_eq_true] at h
  obtain ⟨⟨⟨hleft, hright⟩, hcondition⟩, hkind⟩ := h
  obtain rfl : kind = kind' := eq_of_beq hkind
  obtain ⟨condition, rfl, rfl, pcondition⟩ := exists_pairs_option exists_pair hcondition
  refine ⟨.join (left, left') (right, right') condition kind, rfl, rfl, fun x hx => ?_⟩
  simp only [children, List.mem_cons] at hx
  rcases hx with rfl | rfl | hx
  · exact hleft
  · exact hright
  · exact pcondition x hx

/-- Alike nodes are the two sides of one node, whose subexpressions are pairs. -/
theorem paired_of_zip {r : Registry} {constants : Value → Value → Bool}
    (hc : ∀ v w, constants v w = true → v.alike w = true) {a : Node α} {b : Node β}
    (ha : a.Exact r) (hb : b.Exact r) (h : a.zip constants p b = true) : Paired p a b := by
  -- Trees that agree have one constructor, and their parts pair up position by position.
  cases a <;> cases b
  case input.input => exact ⟨.input, rfl, rfl, fun x hx => absurd hx List.not_mem_nil⟩
  case constant.constant v w =>
    obtain rfl := Value.eq_of_alike v w ha hb (hc v w h)
    exact ⟨.constant v, rfl, rfl, fun x hx => absurd hx List.not_mem_nil⟩
  case parameter.parameter n m =>
    obtain rfl : n = m := eq_of_beq h
    exact ⟨.parameter n, rfl, rfl, fun x hx => absurd hx List.not_mem_nil⟩
  case access.access => exact .access h
  case call.call g args g' args' =>
    simp only [zip, Bool.and_eq_true] at h
    have hid : g.id = g'.id := eq_of_beq h.1
    obtain rfl : g = g' := by
      rw [← show r.function g.id = g from ha, hid, show r.function g'.id = g' from hb]
    obtain ⟨args, rfl, rfl, pargs⟩ := exists_pairs_list exists_pair h.2
    exact ⟨.call g args, rfl, rfl, pargs⟩
  case builtin.builtin op args op' args' =>
    simp only [zip, Bool.and_eq_true] at h
    obtain rfl : op = op' := eq_of_beq h.1
    obtain ⟨args, rfl, rfl, pargs⟩ := exists_pairs_list exists_pair h.2
    exact ⟨.builtin op args, rfl, rfl, pargs⟩
  case binary.binary op left right op' left' right' =>
    simp only [zip, Bool.and_eq_true] at h
    obtain ⟨⟨hop, hleft⟩, hright⟩ := h
    obtain rfl : op = op' := eq_of_beq hop
    exact ⟨.binary op (left, left') (right, right'), rfl, rfl, by simp [children, hleft, hright]⟩
  case unary.unary op operand op' operand' =>
    simp only [zip, Bool.and_eq_true] at h
    obtain rfl : op = op' := eq_of_beq h.1
    exact ⟨.unary op (operand, operand'), rfl, rfl, by simp [children, h.2]⟩
  case and.and items items' =>
    obtain ⟨items, rfl, rfl, pitems⟩ := exists_pairs_list exists_pair h
    exact ⟨.and items, rfl, rfl, pitems⟩
  case or.or items items' =>
    obtain ⟨items, rfl, rfl, pitems⟩ := exists_pairs_list exists_pair h
    exact ⟨.or items, rfl, rfl, pitems⟩
  case collection.collection kind items kind' items' =>
    simp only [zip, Bool.and_eq_true] at h
    obtain rfl : kind = kind' := eq_of_beq h.1
    obtain ⟨items, rfl, rfl, pitems⟩ := exists_pairs_list exists_pair h.2
    exact ⟨.collection kind items, rfl, rfl, pitems⟩
  case dict.dict => exact .dict h
  case comprehension.comprehension => exact .comprehension h
  case sort.sort => exact .sort h
  case guarded.guarded => exact .guarded h
  case caught.caught => exact ⟨.caught, rfl, rfl, fun x hx => absurd hx List.not_mem_nil⟩
  case conditional.conditional condition yes no condition' yes' no' =>
    simp only [zip, Bool.and_eq_true] at h
    obtain ⟨⟨hcondition, hyes⟩, hno⟩ := h
    exact ⟨.conditional (condition, condition') (yes, yes') (no, no'), rfl, rfl,
      by simp [children, hcondition, hyes, hno]⟩
  case pipe.pipe producer consumer producer' consumer' =>
    simp only [zip, Bool.and_eq_true] at h
    exact ⟨.pipe (producer, producer') (consumer, consumer'), rfl, rfl,
      by simp [children, h.1, h.2]⟩
  case label.label n e n' e' =>
    simp only [zip, Bool.and_eq_true] at h
    obtain rfl : n = n' := eq_of_beq h.1
    exact ⟨.label n (e, e'), rfl, rfl, by simp [children, h.2]⟩
  case labelRef.labelRef n m =>
    obtain rfl : n = m := eq_of_beq h
    exact ⟨.labelRef n, rfl, rfl, fun x hx => absurd hx List.not_mem_nil⟩
  case reducer.reducer s s' =>
    obtain ⟨s, rfl, rfl, ps⟩ := Reducer.exists_pairs ha hb h
    exact ⟨.reducer s, rfl, rfl, ps⟩
  case aggregate.aggregate => exact .aggregate h
  case join.join => exact .join h
  case joinRow.joinRow side side' =>
    obtain rfl : side = side' := eq_of_beq h
    exact ⟨.joinRow side, rfl, rfl, fun x hx => absurd hx List.not_mem_nil⟩
  all_goals cases h

end Node

end Pairs

/-! ### Numbers of nodes -/

namespace Expr

/-- An expression without constant sets and dictionaries whose functions and objects are
    registered. -/
def Exact (r : Registry) (e : Expr) : Prop := ∀ c, Within c e → c.node.Exact r

/-- Expressions without constant sets and dictionaries that are the same up to constants that
    are alike differ in identities only. -/
theorem rename_eq_of_sameBy {r : Registry} {constants : Value → Value → Bool}
    (hc : ∀ v w, constants v w = true → v.alike w = true) (e d : Expr) (he : e.Exact r)
    (hd : d.Exact r) (same : e.sameBy constants d = true) :
    e.rename (fun _ => 0) = d.rename fun _ => 0 := by
  rw [sameBy_eq] at same
  obtain ⟨node, hleft, hright, hpairs⟩ :=
    Node.paired_of_zip hc (he e (.refl e)) (hd d (.refl d)) same
  have left {c : Expr × Expr} (hc : c ∈ node.children) : c.1 ∈ e.children := by
    rw [Expr.children, ← hleft, Node.children_map]
    exact List.mem_map_of_mem hc
  have right {c : Expr × Expr} (hc : c ∈ node.children) : c.2 ∈ d.children := by
    rw [Expr.children, ← hright, Node.children_map]
    exact List.mem_map_of_mem hc
  have pair (c) (hmem : c ∈ node.children) : c.1.rename (fun _ => 0) = c.2.rename fun _ => 0 :=
    rename_eq_of_sameBy hc c.1 c.2 (fun x hx => he x (.trans hx (.child (left hmem))))
      (fun x hx => hd x (.trans hx (.child (right hmem)))) (hpairs c hmem)
  rw [rename_eq, rename_eq, ← hleft, ← hright, Node.map_map, Node.map_map, Node.map_congr pair]
termination_by sizeOf e
decreasing_by exact Expr.sizeOf_lt_of_mem (left hmem)

theorem rename_eq_of_beq {r : Registry} {e d : Expr} (he : e.Exact r) (hd : d.Exact r)
    (h : (e == d) = true) : e.rename (fun _ => 0) = d.rename fun _ => 0 :=
  rename_eq_of_sameBy Value.alike_of_beq e d he hd h

theorem alike_iff {r : Registry} {e d : Expr} (he : e.Exact r) (hd : d.Exact r) :
    e.alike d = true ↔ e.rename (fun _ => 0) = d.rename fun _ => 0 := by
  refine ⟨rename_eq_of_sameBy (fun _ _ h => h) e d he hd, fun h => ?_⟩
  rw [← alike_rename (fun _ => 0), h]
  exact alike_self _

namespace Numbering

/-- A walk that goes on from another one. -/
structure Extends (w v : Numbering) : Prop where
  ids : w.ids <+: v.ids
  pattern : w.pattern <:+ v.pattern

theorem Extends.refl (w : Numbering) : w.Extends w := ⟨List.prefix_rfl, List.suffix_rfl⟩

theorem Extends.trans {u v w : Numbering} (huv : u.Extends v) (hvw : v.Extends w) : u.Extends w :=
  ⟨huv.ids.trans hvw.ids, huv.pattern.trans hvw.pattern⟩

theorem Extends.known {w v : Numbering} (h : w.Extends v) {k i : Nat} (hk : w.ids[k]? = some i) :
    v.ids[k]? = some i := by
  obtain ⟨rest, hrest⟩ := h.ids
  rw [← hrest, List.getElem?_append_left (List.getElem?_eq_some_iff.mp hk).1]
  exact hk

/-- The walk after the visit of a node that it has met before. -/
def again (w : Numbering) (n : Nat) : Numbering := ⟨w.ids, n :: w.pattern⟩

/-- The walk when it enters a node. -/
def enter (w : Numbering) (i : Nat) : Numbering := ⟨w.ids ++ [i], w.ids.length :: w.pattern⟩

theorem extends_again (w : Numbering) (n : Nat) : w.Extends (w.again n) :=
  ⟨List.prefix_rfl, List.suffix_cons n w.pattern⟩

theorem extends_enter (w : Numbering) (i : Nat) : w.Extends (w.enter i) :=
  ⟨List.prefix_append w.ids [i], List.suffix_cons _ w.pattern⟩

end Numbering

open DataExpr.Expr.Numbering

theorem numberFrom_known {e : Expr} {w : Numbering} {n : Nat} (h : w.ids.idxOf? e.id = some n) :
    numberFrom e w = w.again n := by
  rw [numberFrom, h]
  rfl

theorem numberFrom_new {e : Expr} {w : Numbering} (h : w.ids.idxOf? e.id = none) :
    numberFrom e w = e.children.foldl (fun walk c => numberFrom c walk) (w.enter e.id) := by
  rw [numberFrom, h]
  exact List.foldl_attach (f := fun walk c => numberFrom c walk)

theorem extends_foldl {cs : List Expr} {w : Numbering}
    (h : ∀ c ∈ cs, ∀ v : Numbering, v.Extends (numberFrom c v)) :
    w.Extends (cs.foldl (fun walk c => numberFrom c walk) w) := by
  induction cs generalizing w with
  | nil => exact .refl w
  | cons c cs ih =>
    exact (h c List.mem_cons_self w).trans (ih fun d hd => h d (List.mem_cons_of_mem _ hd))

theorem extends_numberFrom (e : Expr) (w : Numbering) : w.Extends (numberFrom e w) := by
  cases h : w.ids.idxOf? e.id with
  | some n =>
    rw [numberFrom_known h]
    exact w.extends_again n
  | none =>
    rw [numberFrom_new h]
    exact (w.extends_enter e.id).trans (extends_foldl fun c hc v => extends_numberFrom c v)
termination_by sizeOf e
decreasing_by exact Expr.sizeOf_lt_of_mem hc

/-- The position of an identity among some; one that is not among them has a position behind
    them. -/
def position (ids : List Nat) (i : Nat) : Nat := (ids.idxOf? i).getD (ids.length + i)

theorem position_injective (ids : List Nat) : (position ids).Injective := by
  intro i j h
  unfold position at h
  cases hi : ids.idxOf? i with
  | none =>
    cases hj : ids.idxOf? j with
    | none =>
      rw [hi, hj] at h
      exact Nat.add_left_cancel h
    | some m =>
      obtain ⟨hm, -⟩ := List.idxOf?_eq_some_iff.mp hj
      rw [hi, hj] at h
      simp only [Option.getD_none, Option.getD_some] at h
      omega
  | some n =>
    obtain ⟨hn, hni, -⟩ := List.idxOf?_eq_some_iff.mp hi
    cases hj : ids.idxOf? j with
    | none =>
      rw [hi, hj] at h
      simp only [Option.getD_none, Option.getD_some] at h
      omega
    | some m =>
      obtain ⟨hm, hmj, -⟩ := List.idxOf?_eq_some_iff.mp hj
      rw [hi, hj] at h
      obtain rfl : n = m := h
      rw [← hni, hmj]

/-- An identity that is met for the first time has the next position. -/
theorem position_new {ids all : List Nat} {i : Nat} (hi : i ∉ ids) (h : ids ++ [i] <+: all) :
    position all i = ids.length := by
  obtain ⟨rest, rfl⟩ := h
  have found : (ids ++ [i] ++ rest).idxOf? i = some ids.length := by
    refine List.idxOf?_eq_some_iff.mpr ⟨by simp, by simp, fun j hj h => hi ?_⟩
    simp only [List.append_assoc, List.getElem_append_left hj] at h
    exact h ▸ List.getElem_mem hj
  rw [position, found]
  rfl

/-! ### Walks over alike expressions -/

/-- Walks that have met as many nodes and have the same pattern. -/
structure Aligned (w v : Numbering) : Prop where
  ids : w.ids.length = v.ids.length
  pattern : w.pattern = v.pattern

section Walks

variable (R S : Expr) (I J : List Nat)

/-- The nodes of some kind that two walks have met are the same up to their numbers. -/
def SameNodes (kind : Nat → Expr → Prop) (w v : Numbering) : Prop :=
  ∀ (k : Nat) (c d : Expr), Within c R → Within d S → w.ids[k]? = some c.id →
    v.ids[k]? = some d.id → kind k c → c.rename (position I) = d.rename (position J)

variable {R S I J}

theorem SameNodes.imp {kind kind' : Nat → Expr → Prop} {w v : Numbering}
    (h : SameNodes R S I J kind w v) (himp : ∀ k c, kind' k c → kind k c) :
    SameNodes R S I J kind' w v :=
  fun k c d hc hd hk hk' hkind => h k c d hc hd hk hk' (himp k c hkind)

/-- What holds of the nodes of some kind holds of them when the walks go on, if it holds of those
    that are met later. -/
theorem SameNodes.extend {kind : Nat → Expr → Prop} {w v w' v' : Numbering}
    (h : SameNodes R S I J kind w v) (hw : w.Extends w') (hv : v.Extends v')
    (aligned : Aligned w v)
    (later : SameNodes R S I J (fun k c => kind k c ∧ w.ids.length ≤ k) w' v') :
    SameNodes R S I J kind w' v' := by
  intro k c d hc hd hk hk' hkind
  by_cases hlt : k < w.ids.length
  · have hlt' : k < v.ids.length := aligned.ids ▸ hlt
    refine h k c d hc hd ?_ ?_ hkind
    · rw [List.getElem?_eq_getElem hlt, ← hw.known (List.getElem?_eq_getElem hlt), hk]
    · rw [List.getElem?_eq_getElem hlt', ← hv.known (List.getElem?_eq_getElem hlt'), hk']
  · exact later k c d hc hd hk hk' ⟨hkind, Nat.le_of_not_lt hlt⟩

/-- What the visits of two alike expressions have in common. -/
structure SameVisit (R S : Expr) (I J : List Nat) (e d : Expr) (w v : Numbering) : Prop where
  same : e.rename (position I) = d.rename (position J)
  aligned : Aligned (numberFrom e w) (numberFrom d v)
  later : SameNodes R S I J (fun k _ => w.ids.length ≤ k) (numberFrom e w) (numberFrom d v)

/-- The walks over two expressions go from where they are to one pattern. -/
structure Reach (I J P : List Nat) (w v : Numbering) : Prop where
  left : w.ids <+: I
  right : v.ids <+: J
  leftPattern : w.pattern <:+ P
  rightPattern : v.pattern <:+ P

theorem Reach.before {P : List Nat} {w v w' v' : Numbering} (h : Reach I J P w' v')
    (hw : w.Extends w') (hv : v.Extends v') : Reach I J P w v :=
  ⟨hw.ids.trans h.left, hv.ids.trans h.right, hw.pattern.trans h.leftPattern,
    hv.pattern.trans h.rightPattern⟩

/-- The walk over several expressions, one after the other. -/
abbrev numberAll (cs : List Expr) (w : Numbering) : Numbering :=
  cs.foldl (fun walk c => numberFrom c walk) w

theorem sameVisits {P : List Nat} {n : Nat} (cs : List (Expr × Expr))
    (visit : ∀ c ∈ cs, ∀ w v, Aligned w v → SameNodes R S I J (fun _ c => sizeOf c < n) w v →
      Reach I J P (numberFrom c.1 w) (numberFrom c.2 v) → SameVisit R S I J c.1 c.2 w v)
    {w v : Numbering} (aligned : Aligned w v)
    (below : SameNodes R S I J (fun _ c => sizeOf c < n) w v)
    (reach : Reach I J P (numberAll (cs.map Prod.fst) w) (numberAll (cs.map Prod.snd) v)) :
    (∀ c ∈ cs, c.1.rename (position I) = c.2.rename (position J)) ∧
      Aligned (numberAll (cs.map Prod.fst) w) (numberAll (cs.map Prod.snd) v) ∧
      SameNodes R S I J (fun k _ => w.ids.length ≤ k) (numberAll (cs.map Prod.fst) w)
        (numberAll (cs.map Prod.snd) v) := by
  induction cs generalizing w v with
  | nil =>
    refine ⟨fun c hc => absurd hc List.not_mem_nil, aligned, fun k c d hc hd hk _ hle => ?_⟩
    exact absurd (List.getElem?_eq_some_iff.mp hk).1 (Nat.not_lt.mpr hle)
  | cons c cs ih =>
    have tail : (numberFrom c.1 w).Extends (numberAll (cs.map Prod.fst) (numberFrom c.1 w)) :=
      extends_foldl fun d _ u => extends_numberFrom d u
    have tail' : (numberFrom c.2 v).Extends (numberAll (cs.map Prod.snd) (numberFrom c.2 v)) :=
      extends_foldl fun d _ u => extends_numberFrom d u
    have first := visit c List.mem_cons_self w v aligned below (reach.before tail tail')
    have below := below.extend (extends_numberFrom c.1 w) (extends_numberFrom c.2 v) aligned
      (first.later.imp fun _ _ h => h.2)
    obtain ⟨same, final, later⟩ := ih (fun d hd => visit d (List.mem_cons_of_mem _ hd))
      first.aligned below reach
    refine ⟨fun d hd => ?_, final,
      first.later.extend tail tail' first.aligned (later.imp fun _ _ h => h.2)⟩
    rcases List.mem_cons.mp hd with rfl | hd
    · exact first.same
    · exact same d hd

theorem Extends.head_eq {P : List Nat} {u w x v : Numbering} {a b : Nat} (aligned : Aligned w v)
    (hu : u.pattern = a :: w.pattern) (hx : x.pattern = b :: v.pattern)
    (h : u.pattern <:+ P) (h' : x.pattern <:+ P) : a = b := by
  have length : u.pattern.length = x.pattern.length := by
    rw [hu, hx, aligned.pattern, List.length_cons, List.length_cons]
  have same := (List.suffix_of_suffix_length_le h h' (Nat.le_of_eq length)).eq_of_length length
  rw [hu, hx] at same
  exact (List.cons.inj same).1

theorem getElem?_of_idxOf? {ids : List Nat} {i n : Nat} (h : ids.idxOf? i = some n) :
    ids[n]? = some i := by
  obtain ⟨hn, hi, -⟩ := List.idxOf?_eq_some_iff.mp h
  rw [List.getElem?_eq_getElem hn, hi]

/-- When a walk enters a node, the only one it meets is this one. -/
theorem eq_of_enter {w : Numbering} {k i j : Nat} (hle : w.ids.length ≤ k)
    (h : (w.enter i).ids[k]? = some j) : k = w.ids.length ∧ j = i := by
  have hlt := (List.getElem?_eq_some_iff.mp h).1
  rw [enter, List.length_append, List.length_singleton] at hlt
  obtain rfl : k = w.ids.length := by omega
  rw [enter, List.getElem?_concat_length] at h
  exact ⟨rfl, (Option.some.inj h).symm⟩

/-- Two expressions that are alike are visited alike, if all that the walks have met before is
    alike. -/
theorem sameVisit {P : List Nat} {r : Registry} (hR : R.Coherent) (hS : S.Coherent)
    (exactR : R.Exact r) (exactS : S.Exact r) (e d : Expr) (he : Within e R) (hd : Within d S)
    (alike : e.sameBy Value.alike d = true) (w v : Numbering) (aligned : Aligned w v)
    (below : SameNodes R S I J (fun _ c => sizeOf c ≤ sizeOf e) w v)
    (reach : Reach I J P (numberFrom e w) (numberFrom d v)) : SameVisit R S I J e d w v := by
  rw [sameBy_eq] at alike
  obtain ⟨node, hleft, hright, hpairs⟩ :=
    Node.paired_of_zip (fun _ _ h => h) (exactR e he) (exactS d hd) alike
  have children : e.children = node.children.map Prod.fst := by
    rw [Expr.children, ← hleft, Node.children_map]
  have children' : d.children = node.children.map Prod.snd := by
    rw [Expr.children, ← hright, Node.children_map]
  cases hw : w.ids.idxOf? e.id with
  | some n =>
    have hn := (List.idxOf?_eq_some_iff.mp hw).1
    cases hv : v.ids.idxOf? d.id with
    | some m =>
      rw [numberFrom_known hw, numberFrom_known hv] at reach
      obtain rfl := Extends.head_eq aligned rfl rfl reach.leftPattern reach.rightPattern
      refine ⟨below n e d he hd (getElem?_of_idxOf? hw) (getElem?_of_idxOf? hv)
        (Nat.le_refl _), ?_, ?_⟩
      · rw [numberFrom_known hw, numberFrom_known hv]
        exact ⟨aligned.ids, congrArg (n :: ·) aligned.pattern⟩
      · rw [numberFrom_known hw]
        intro k c d hc hd hk _ hle
        exact absurd (List.getElem?_eq_some_iff.mp hk).1 (Nat.not_lt.mpr hle)
    | none =>
      rw [numberFrom_known hw, numberFrom_new hv] at reach
      have entered : (v.enter d.id).Extends (numberAll d.children (v.enter d.id)) :=
        extends_foldl fun c _ u => extends_numberFrom c u
      have h := Extends.head_eq (x := v.enter d.id) aligned rfl rfl reach.leftPattern
        (entered.pattern.trans reach.rightPattern)
      rw [h, ← aligned.ids] at hn
      exact absurd hn (Nat.lt_irrefl _)
  | none =>
    have entered : (w.enter e.id).Extends (numberAll e.children (w.enter e.id)) :=
      extends_foldl fun c _ u => extends_numberFrom c u
    cases hv : v.ids.idxOf? d.id with
    | some m =>
      have hm := (List.idxOf?_eq_some_iff.mp hv).1
      rw [numberFrom_new hw, numberFrom_known hv] at reach
      have h := Extends.head_eq (u := w.enter e.id) aligned rfl rfl
        (entered.pattern.trans reach.leftPattern) reach.rightPattern
      rw [← h, aligned.ids] at hm
      exact absurd hm (Nat.lt_irrefl _)
    | none =>
      have entered' : (v.enter d.id).Extends (numberAll d.children (v.enter d.id)) :=
        extends_foldl fun c _ u => extends_numberFrom c u
      rw [numberFrom_new hw, numberFrom_new hv] at reach
      have alignedIn : Aligned (w.enter e.id) (v.enter d.id) := by
        refine ⟨?_, congrArg₂ List.cons aligned.ids aligned.pattern⟩
        simp only [enter, List.length_append, List.length_singleton, aligned.ids]
      have belowIn : SameNodes R S I J (fun _ c => sizeOf c < sizeOf e) (w.enter e.id)
          (v.enter d.id) := by
        refine (below.imp fun _ c h => Nat.le_of_lt h).extend (w.extends_enter e.id)
          (v.extends_enter d.id) aligned ?_
        intro k c d' hc _ hk _ hkind
        -- the only new node is `e` itself, which is not smaller than itself
        rw [hR c e hc he (eq_of_enter hkind.2 hk).2] at hkind
        exact absurd hkind.1 (Nat.lt_irrefl _)
      rw [children, children'] at reach
      rw [children] at entered
      rw [children'] at entered'
      obtain ⟨same, final, later⟩ := sameVisits node.children (fun c hc w v aligned below reach =>
        have hleft : c.1 ∈ e.children := children ▸ List.mem_map_of_mem hc
        have hright : c.2 ∈ d.children := children' ▸ List.mem_map_of_mem hc
        sameVisit hR hS exactR exactS c.1 c.2 (.trans (.child hleft) he) (.trans (.child hright) hd)
          (hpairs c hc) w v aligned
          (below.imp fun _ _ h => Nat.lt_of_le_of_lt h (Expr.sizeOf_lt_of_mem hleft)) reach)
        alignedIn belowIn reach
      have hI : position I e.id = w.ids.length :=
        position_new (List.idxOf?_eq_none_iff.mp hw) (entered.ids.trans reach.left)
      have hJ : position J d.id = v.ids.length :=
        position_new (List.idxOf?_eq_none_iff.mp hv) (entered'.ids.trans reach.right)
      have hsame : e.rename (position I) = d.rename (position J) := by
        rw [rename_eq, rename_eq, hI, hJ, aligned.ids, ← hleft, ← hright, Node.map_map,
          Node.map_map, Node.map_congr same]
      refine ⟨hsame, ?_, ?_⟩
      · rw [numberFrom_new hw, numberFrom_new hv, children, children']
        exact final
      · rw [numberFrom_new hw, numberFrom_new hv, children, children']
        intro k c d' hc hd' hk hk' hle
        by_cases hlt : k < (w.enter e.id).ids.length
        · have hlt' : k < (v.enter d.id).ids.length := alignedIn.ids ▸ hlt
          have hc' := (entered.known (List.getElem?_eq_getElem hlt)).symm.trans hk
          have hd'' := (entered'.known (List.getElem?_eq_getElem hlt')).symm.trans hk'
          rw [← List.getElem?_eq_getElem] at hc' hd''
          rw [hR c e hc he (eq_of_enter hle hc').2,
            hS d' d hd' hd (eq_of_enter (aligned.ids ▸ hle) hd'').2]
          exact hsame
        · exact later k c d' hc hd' hk hk' (Nat.le_of_not_lt hlt)
termination_by sizeOf e
decreasing_by exact Expr.sizeOf_lt_of_mem hleft

end Walks

/-- **Alike expressions are copies of each other.**  Numbered in the order of their first visit,
the nodes of alike expressions with the same sharing pattern are the same. -/
theorem rename_eq_of_alike {r : Registry} {e d : Expr} (he : e.Coherent) (hd : d.Coherent)
    (exact : e.Exact r) (exact' : d.Exact r) (alike : e.alike d = true)
    (pattern : e.sharingPattern = d.sharingPattern) :
    ∃ f g : Nat → Nat, f.Injective ∧ g.Injective ∧ e.rename f = d.rename g := by
  have pattern : (numberFrom e ⟨[], []⟩).pattern = (numberFrom d ⟨[], []⟩).pattern :=
    List.reverse_injective pattern
  refine ⟨position (numberFrom e ⟨[], []⟩).ids, position (numberFrom d ⟨[], []⟩).ids,
    position_injective _, position_injective _, ?_⟩
  refine (sameVisit (P := (numberFrom e ⟨[], []⟩).pattern) he hd exact exact' e d (.refl e)
    (.refl d) alike ⟨[], []⟩ ⟨[], []⟩ ⟨rfl, rfl⟩ (fun k c d _ _ hk => by cases hk)
    ⟨List.prefix_rfl, List.prefix_rfl, List.suffix_rfl, ?_⟩).same
  exact pattern ▸ List.suffix_rfl

end Expr

/-- **Alike expressions have one program.**  They are compiled alike if they reuse their
subexpressions in the same way and hold no constant sets and dictionaries. -/
theorem Program.ofExpr_eq_of_alike {r : Registry} {e d : Expr} (he : e.Coherent)
    (hd : d.Coherent) (exact : e.Exact r) (exact' : d.Exact r) (alike : e.alike d = true)
    (pattern : e.sharingPattern = d.sharingPattern) (signature : Signature)
    (threshold : Weight.Threshold) :
    Program.ofExpr e signature threshold = Program.ofExpr d signature threshold := by
  obtain ⟨f, g, hf, hg, same⟩ := Expr.rename_eq_of_alike he hd exact exact' alike pattern
  rw [← Program.ofExpr_rename hf e, ← Program.ofExpr_rename hg d, same]

end DataExpr
