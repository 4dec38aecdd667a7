import DataExpr.Proofs.ExactAnalysis
import DataExpr.Proofs.UnfoldedCosts

/-!
# When the analysis overflows

An analysis is right if its counts are the exact ones and its weight is the exact weight or the
largest word (`Analysis.Shows`).  Each step of the analysis succeeds under a condition on exact sums
and then is right again (`Analysis.Tells`).  Since sums grow, the condition on a whole fold is that
on its end (`Analysis.Tells.foldlM`), and that on a node is `Expr.SumsFit`.

A weight stops at the largest word when weights of parts are added up, and when the amount of work
depends on the data.  A fixed cost of a node is added exactly, so that most nodes have no analysis
when their weight is no word.
-/

namespace DataExpr

/-! ### Words -/

namespace Word

theorem exists_add {a b : UInt64} :
    (∃ c, add a b = .ok c) ↔ a.toNat + b.toNat < UInt64.size := by
  unfold add
  split <;> simp_all

theorem exists_mul {a b : UInt64} :
    (∃ c, mul a b = .ok c) ↔ a.toNat * b.toNat < UInt64.size := by
  unfold mul
  split <;> simp_all

theorem exists_scale {a : UInt64} {n : Nat} :
    (∃ c, scale a n = .ok c) ↔ a.toNat * n < UInt64.size := by
  unfold scale
  split <;> simp_all

end Word

namespace Analysis

/-- An analysis counts exactly, except that its weight stops at the largest word. -/
structure Shows (a : Analysis) (t : Tally) : Prop where
  weight : a.weight.toNat = min t.weight (UInt64.size - 1)
  constants : a.constants.toNat = t.constants
  inputUses : a.inputUses.toNat = t.inputUses
  freeReducers : a.freeReducers.toNat = t.freeReducers

/-- A step succeeds exactly under a condition, and then it counts exactly. -/
structure Tells (result : AnalysisResult) (fits : Prop) (t : Tally) : Prop where
  ok_iff : (∃ a, result = .ok a) ↔ fits
  shows : ∀ a, result = .ok a → a.Shows t

variable {a b : Analysis} {r child : AnalysisResult} {s t : Tally} {P Q : Prop}

theorem shows_empty : empty.Shows 0 := by
  constructor <;> rfl

theorem Shows.countable (h : a.Shows t) : t.Countable where
  constants := h.constants ▸ UInt64.toNat_lt_size _
  inputUses := h.inputUses ▸ UInt64.toNat_lt_size _
  freeReducers := h.freeReducers ▸ UInt64.toNat_lt_size _

namespace Tells

theorem ofShows (h : a.Shows t) : Tells (.ok a) True t where
  ok_iff := by simp
  shows := by
    intro b hb
    cases hb
    exact h

theorem congr (h : Tells r P s) (hfits : P ↔ Q) (htally : s = t) : Tells r Q t where
  ok_iff := h.ok_iff.trans hfits
  shows := htally ▸ h.shows

/-- What follows a word that there is under a condition. -/
theorem follow {β : Type} {x : Except Word.Overflow β} {f : β → AnalysisResult}
    (hx : (∃ b, x = .ok b) ↔ P) (hf : ∀ b, x = .ok b → Tells (f b) Q t) :
    Tells (x >>= f) (P ∧ Q) t where
  ok_iff := by
    simp only [bind_eq_ok]
    constructor
    · rintro ⟨a, b, hb, ha⟩
      exact ⟨hx.mp ⟨b, hb⟩, (hf b hb).ok_iff.mp ⟨a, ha⟩⟩
    · rintro ⟨hP, hQ⟩
      obtain ⟨b, hb⟩ := hx.mpr hP
      obtain ⟨a, ha⟩ := (hf b hb).ok_iff.mpr hQ
      exact ⟨a, b, hb, ha⟩
  shows := by
    intro a ha
    obtain ⟨b, hb, ha⟩ := bind_eq_ok.mp ha
    exact (hf b hb).shows a ha

/-- What follows a step. -/
theorem andThen {f : Analysis → AnalysisResult} (h : Tells r P s)
    (hf : ∀ a, a.Shows s → Tells (f a) Q t) : Tells (r >>= f) (P ∧ Q) t :=
  follow h.ok_iff fun a ha => hf a (h.shows a ha)

end Tells

/-! ### Steps -/

theorem tells_merge (ha : a.Shows s) (hb : b.Shows t) :
    Tells (a.merge b) (s + t).Countable (s + t) := by
  have constants : (∃ n, Word.add a.constants b.constants = .ok n) ↔
      (s + t).constants < UInt64.size := by
    rw [Word.exists_add, ha.constants, hb.constants, Tally.constants_add]
  have uses : (∃ n, Word.add a.inputUses b.inputUses = .ok n) ↔
      (s + t).inputUses < UInt64.size := by
    rw [Word.exists_add, ha.inputUses, hb.inputUses, Tally.inputUses_add]
  have free : (∃ n, Word.add a.freeReducers b.freeReducers = .ok n) ↔
      (s + t).freeReducers < UInt64.size := by
    rw [Word.exists_add, ha.freeReducers, hb.freeReducers, Tally.freeReducers_add]
  unfold merge
  refine (Tells.follow constants fun c hc => .follow uses fun u hu => .follow free fun f hf =>
    .ofShows (t := s + t) ?_).congr (by rw [Tally.countable_iff, and_true]) rfl
  have weight := Word.toNat_saturatingAdd a.weight b.weight
  rw [ha.weight, hb.weight] at weight
  constructor
  case weight =>
    rw [weight, Tally.weight_add]
    omega
  case constants => rw [← Word.add_eq_ok_iff.mp hc, ha.constants, hb.constants, Tally.constants_add]
  case inputUses => rw [← Word.add_eq_ok_iff.mp hu, ha.inputUses, hb.inputUses, Tally.inputUses_add]
  case freeReducers =>
    rw [← Word.add_eq_ok_iff.mp hf, ha.freeReducers, hb.freeReducers, Tally.freeReducers_add]

theorem tells_absorb (ha : a.Shows s) (hc : Tells child P t) :
    Tells (a.absorb child) (P ∧ (s + t).Countable) (s + t) :=
  hc.andThen fun _ hc => tells_merge ha hc

theorem tells_absorbScoped (ha : a.Shows s) (hc : Tells child P t) :
    Tells (a.absorbScoped child) (P ∧ (s + t).Countable) (s + t.apart) := by
  refine ((tells_absorb ha hc).andThen (t := s + t.apart) fun b hb => .ofShows ?_).congr
    (and_iff_left trivial) rfl
  constructor
  case weight => exact hb.weight
  case constants => exact hb.constants
  case inputUses => exact ha.inputUses
  case freeReducers => exact hb.freeReducers

theorem tells_absorbReducerPart (ha : a.Shows s) (hc : Tells child P t) :
    Tells (a.absorbReducerPart child) (P ∧ (s + t).Countable) (s + t.apart) := by
  refine (hc.andThen fun part _ => tells_absorbScoped (s := s) ?_ hc).congr and_self_left rfl
  exact ⟨ha.weight, ha.constants, ha.inputUses, ha.freeReducers⟩

/-- A fixed cost is added only if the exact weight is a word. -/
theorem tells_cost {w : UInt64} (ha : a.Shows t) (pos : 0 < w.toNat) :
    Tells (a.cost w) ((t + .ofWeight w.toNat).weight < UInt64.size) (t + .ofWeight w.toNat) := by
  unfold cost
  refine (Tells.follow Word.exists_add fun sum hsum =>
    .ofShows (t := t + .ofWeight w.toNat) ?_).congr ?_ rfl
  · have hsum := Word.add_eq_ok_iff.mp hsum
    have word := sum.toNat_lt_size
    rw [ha.weight] at hsum
    constructor
    case weight =>
      rw [← hsum, Tally.weight_add, Tally.weight_ofWeight]
      omega
    case constants => exact ha.constants
    case inputUses => exact ha.inputUses
    case freeReducers => exact ha.freeReducers
  · rw [ha.weight, Tally.weight_add, Tally.weight_ofWeight, and_true]
    omega

theorem tells_scaledCost {w : UInt64} {n : Nat} (ha : a.Shows t) (pos : 0 < w.toNat * n) :
    Tells (Word.scale w n >>= fun v => a.cost v)
      ((t + .ofWeight (w.toNat * n)).weight < UInt64.size) (t + .ofWeight (w.toNat * n)) := by
  refine (Tells.follow Word.exists_scale fun v hv => ?_).congr (and_iff_right_of_imp ?_) rfl
  · rw [Word.scale_eq_ok_iff.mp hv] at pos ⊢
    exact tells_cost ha pos
  · intro h
    rw [Tally.weight_add, Tally.weight_ofWeight] at h
    omega

/-- The cost of work whose amount depends on the data is added to any weight. -/
theorem shows_costUnpredictable (ha : a.Shows t) :
    a.costUnpredictable.Shows (t + .ofWeight Weight.unpredictable.toNat) := by
  have weight := Word.toNat_saturatingAdd a.weight Weight.unpredictable
  unfold costUnpredictable
  generalize Word.saturatingAdd a.weight Weight.unpredictable = w at weight ⊢
  rw [ha.weight] at weight
  constructor
  case weight =>
    rw [weight, Tally.weight_add, Tally.weight_ofWeight]
    omega
  case constants => exact ha.constants
  case inputUses => exact ha.inputUses
  case freeReducers => exact ha.freeReducers

/-! ### Folds -/

/-- **A fold of steps succeeds exactly if each step has what it needs and there is room at the
    end.**  There was room at each step then, since a tally only grows. -/
theorem Tells.foldlM {γ : Type} {f : Analysis → γ → AnalysisResult} {fits : γ → Prop}
    {g : γ → Tally} {R Room : Tally → Prop} {xs : List γ}
    (step : ∀ {a s}, a.Shows s → R s → ∀ x ∈ xs,
      Tells (f a x) (fits x ∧ Room (s + g x)) (s + g x))
    (keep : ∀ {s x}, R s → R (s + g x)) (room : ∀ {s t}, Room (s + t) → Room s)
    (ha : a.Shows s) (hs : R s) :
    Tells (xs.foldlM f a) ((∀ x ∈ xs, fits x) ∧ (xs = [] ∨ Room (s + (xs.map g).sum)))
      (s + (xs.map g).sum) := by
  induction xs generalizing a s with
  | nil => exact (Tells.ofShows ha).congr (by simp) (add_zero s).symm
  | cons x xs ih =>
    have first := step ha hs x List.mem_cons_self
    have rest (b : Analysis) (hb : b.Shows (s + g x)) :=
      ih (fun ha hs y hy => step ha hs y (List.mem_cons_of_mem x hy)) hb (keep hs)
    have total : s + g x + (xs.map g).sum = s + ((x :: xs).map g).sum := by
      rw [List.map_cons, List.sum_cons, add_assoc]
    rw [List.foldlM_cons]
    refine (first.andThen rest).congr ?_ total
    rw [total, List.forall_mem_cons]
    constructor
    · rintro ⟨⟨hx, hroom⟩, hxs, hrest⟩
      refine ⟨⟨hx, hxs⟩, .inr ?_⟩
      -- The room after the last step is that after the first if there is no other.
      rcases hrest with rfl | hrest
      · simpa using hroom
      · exact hrest
    · rintro ⟨⟨hx, hxs⟩, hroom⟩
      have hroom := hroom.resolve_left (List.cons_ne_nil x xs)
      rw [← total] at hroom
      exact ⟨⟨hx, room hroom⟩, hxs, .inr (total ▸ hroom)⟩

/-- The analysis of an expression counts it exactly if there is one. -/
abbrev Told (e : Expr) : Prop := Tells e.analyze e.Analyzed e.tally

variable {cs : List Expr}

/-- There is room for nothing. -/
theorem nil_or_countable {γ : Type} {xs : List γ} {g : γ → Tally} (ha : a.Shows s) :
    (xs = [] ∨ (s + (xs.map g).sum).Countable) ↔ (s + (xs.map g).sum).Countable := by
  constructor
  · rintro (rfl | h)
    · exact ha.countable
    · exact h
  · exact .inr

theorem tells_absorbAll (h : ∀ c ∈ cs, Told c) (ha : a.Shows s) :
    Tells (a.absorbAll (cs.map Expr.analyze))
      ((∀ c ∈ cs, c.Analyzed) ∧ (s + .ofAll cs).Countable) (s + .ofAll cs) := by
  rw [absorbAll, List.foldlM_map, ← Tally.sum_tally, ← nil_or_countable ha]
  exact Tells.foldlM (R := fun _ => True) (fun ha _ c hc => tells_absorb ha (h c hc))
    id Tally.Countable.of_add ha trivial

/-- A part with an input of its own is counted together with its uses first. -/
theorem countable_add (ha : a.Shows s) :
    (s + t).Countable ↔ s.inputUses + t.inputUses < UInt64.size ∧ (s + t.apart).Countable := by
  have word := ha.countable.inputUses
  constructor
  · rintro ⟨constants, uses, free⟩
    exact ⟨uses, constants, word, free⟩
  · rintro ⟨uses, constants, -, free⟩
    exact ⟨constants, uses, free⟩

theorem Tells.foldlM_apart {f : Analysis → AnalysisResult → AnalysisResult}
    (step : ∀ {a s child P t}, a.Shows s → Tells child P t →
      Tells (f a child) (P ∧ (s + t).Countable) (s + t.apart))
    (h : ∀ c ∈ cs, Told c) (ha : a.Shows s) :
    Tells ((cs.map Expr.analyze).foldlM f a)
      ((∀ c ∈ cs, c.Analyzed ∧ s.inputUses + c.inputUses < UInt64.size) ∧
        (s + (Tally.ofAll cs).apart).Countable) (s + (Tally.ofAll cs).apart) := by
  rw [List.foldlM_map, ← Tally.sum_apart, ← nil_or_countable ha]
  refine Tells.foldlM (R := fun t => t.inputUses = s.inputUses)
    (fun {b u} hb hu c hc => (step hb (h c hc)).congr ?_ rfl) id Tally.Countable.of_add ha rfl
  rw [countable_add hb, hu, and_assoc]
  rfl

theorem tells_absorbAllScoped (h : ∀ c ∈ cs, Told c) (ha : a.Shows s) :
    Tells (a.absorbAllScoped (cs.map Expr.analyze))
      ((∀ c ∈ cs, c.Analyzed ∧ s.inputUses + c.inputUses < UInt64.size) ∧
        (s + (Tally.ofAll cs).apart).Countable) (s + (Tally.ofAll cs).apart) :=
  Tells.foldlM_apart tells_absorbScoped h ha

/-! ### Paths and handlers -/

/-- The counts and the weight are words. -/
def Fits (t : Tally) : Prop := t.weight < UInt64.size ∧ t.Countable

theorem Fits.of_add (h : Fits (s + t)) : Fits s := by
  have weight := h.1
  rw [Tally.weight_add] at weight
  exact ⟨by omega, h.2.of_add⟩

/-- What is counted of a step of an access path. -/
def stepTally (step : PathStep Expr) : Tally := .ofAll step.children + .ofWeight step.ownWeight

theorem absorbAll_singleton (a : Analysis) (child : AnalysisResult) :
    a.absorbAll [child] = a.absorb child := by
  rw [absorbAll, List.foldlM_cons]
  exact bind_pure _

theorem tells_absorbStep {step : PathStep Expr} (h : ∀ c ∈ step.children, Told c)
    (ha : a.Shows s) :
    Tells (a.absorbStep (step.map Expr.analyze))
      ((∀ c ∈ step.children, c.Analyzed) ∧ Fits (s + stepTally step)) (s + stepTally step) := by
  have costed {w : UInt64} (pos : 0 < w.toNat) (hw : w.toNat = step.ownWeight) :
      Tells (a.absorbAll (step.children.map Expr.analyze) >>= fun b => b.cost w)
        ((∀ c ∈ step.children, c.Analyzed) ∧ Fits (s + stepTally step)) (s + stepTally step) := by
    refine ((tells_absorbAll h ha).andThen fun b hb => tells_cost hb pos).congr ?_ ?_
    · rw [hw, add_assoc, Fits, stepTally, ← add_assoc, Tally.countable_add_ofWeight]
      tauto
    · rw [hw, add_assoc, stepTally]
  cases step with
  | attr name => exact costed (by decide) rfl
  | key k =>
    rw [PathStep.map, absorbStep, ← absorbAll_singleton]
    exact costed (by decide) rfl

theorem sum_stepTally (path : List (PathStep Expr)) :
    (path.map stepTally).sum = .ofAll (path.flatMap PathStep.children) +
      .ofWeight (path.map PathStep.ownWeight).sum := by
  induction path with
  | nil => rfl
  | cons step path ih =>
    rw [List.map_cons, List.sum_cons, ih, List.flatMap_cons, Tally.ofAll_append, stepTally,
      List.map_cons, List.sum_cons, add_add_add_comm]
    rfl

theorem tells_absorbPath {path : List (PathStep Expr)}
    (h : ∀ c ∈ path.flatMap PathStep.children, Told c) (ha : a.Shows s) :
    Tells ((path.map (PathStep.map Expr.analyze)).foldlM absorbStep a)
      ((∀ c ∈ path.flatMap PathStep.children, c.Analyzed) ∧
        (path = [] ∨ Fits (s + (path.map stepTally).sum))) (s + (path.map stepTally).sum) := by
  rw [List.foldlM_map, List.forall_mem_flatMap]
  refine Tells.foldlM (R := fun _ => True) (fun ha _ step hstep => ?_) id Fits.of_add ha
    trivial
  exact tells_absorbStep (fun c hc => h c (List.mem_flatMap.mpr ⟨step, hstep, hc⟩)) ha

theorem absorbAll_append (a : Analysis) (children others : List AnalysisResult) :
    a.absorbAll (children ++ others) = a.absorbAll children >>= fun b => b.absorbAll others :=
  List.foldlM_append

theorem absorbHandler_eq (a : Analysis) (handler : Handler AnalysisResult) :
    a.absorbHandler handler = a.absorbAll handler.children := by
  rw [absorbHandler, Handler.children, absorbAll_append]
  exact bind_congr fun b => (absorbAll_singleton b _).symm

theorem foldlM_absorbHandler (handlers : List (Handler AnalysisResult)) (a : Analysis) :
    handlers.foldlM absorbHandler a = a.absorbAll (handlers.flatMap Handler.children) := by
  induction handlers generalizing a with
  | nil => rfl
  | cons handler handlers ih =>
    rw [List.foldlM_cons, List.flatMap_cons, absorbAll_append, absorbHandler_eq]
    exact bind_congr ih

/-! ### Nodes -/

variable {e : Expr}

/-- A result is what there is to say of an expression, given that of its parts. -/
abbrev TellsOf (r : AnalysisResult) (e : Expr) : Prop :=
  Tells r ((∀ c ∈ e.children, c.Analyzed) ∧ e.SumsFit) e.tally

theorem tells_leaf (children : e.children = []) (other : e.node.otherInput = [])
    (weight : a.weight.toNat = e.node.ownWeight) (h : a.Shows e.tally) : TellsOf (.ok a) e := by
  have fits : e.SumsFit := by
    constructor
    case weight =>
      rw [Expr.unfoldedWeight_eq, children, ← weight]
      exact .inr a.weight.toNat_lt_size
    case constants => exact h.countable.constants
    case inputUses => exact h.countable.inputUses
    case otherUses =>
      rw [other]
      exact fun c hc => absurd hc List.not_mem_nil
    case freeReducers =>
      rw [children]
      decide
  refine (Tells.ofShows h).congr ?_ rfl
  simp [children, fits]

theorem Tells.plain (plain : e.node.isPlain = true)
    (h : Tells r ((∀ c ∈ e.children, c.Analyzed) ∧ (Tally.ofAll e.children).Countable ∧
        (e.node.isCapped = true ∨
          (Tally.ofAll e.children + .ofWeight e.node.ownWeight).weight < UInt64.size))
      (.ofAll e.children + .ofWeight e.node.ownWeight)) : TellsOf r e := by
  have same := Expr.tally_of_isPlain plain
  refine h.congr ?_ same.symm
  rw [Expr.sumsFit_of_isPlain plain, same, Tally.countable_add_ofWeight]
  tauto

/-- A plain node that adds a cost of its own. -/
theorem tells_costing (plain : e.node.isPlain = true) (capped : e.node.isCapped = false)
    (h : ∀ c ∈ e.children, Told c) {f : Analysis → AnalysisResult}
    (hf : ∀ {a t}, Shows a t → Tells (f a) ((t + .ofWeight e.node.ownWeight).weight < UInt64.size)
      (t + .ofWeight e.node.ownWeight)) :
    TellsOf (empty.absorbAll (e.node.map Expr.analyze).children >>= f) e := by
  rw [Node.children_map]
  refine Tells.plain plain (((tells_absorbAll h shows_empty).andThen fun b hb => hf hb).congr ?_ ?_)
  · rw [zero_add, capped, and_assoc]
    simp
  · rw [zero_add]

/-- A plain node whose cost is fixed.  What it knows besides the counts does not matter. -/
theorem tells_fixed (plain : e.node.isPlain = true) (capped : e.node.isCapped = false)
    {w : UInt64} (hw : w.toNat = e.node.ownWeight) (pos : 0 < w.toNat)
    (h : ∀ c ∈ e.children, Told c) {f : Analysis → Analysis}
    (hf : ∀ {a t}, Shows a t → (f a).Shows t) :
    TellsOf (empty.absorbAll (e.node.map Expr.analyze).children >>= fun a => (f a).cost w) e :=
  tells_costing plain capped h fun ha => hw ▸ tells_cost (hf ha) pos

/-- A plain node whose cost grows with the number of its parts. -/
theorem tells_junction (plain : e.node.isPlain = true) (capped : e.node.isCapped = false)
    (hw : e.node.ownWeight = Weight.logical.toNat * (max e.children.length 2 - 1))
    (h : ∀ c ∈ e.children, Told c) :
    TellsOf (empty.absorbAll (e.node.map Expr.analyze).children >>= fun a =>
      Word.scale Weight.logical (max (e.node.map Expr.analyze).children.length 2 - 1) >>= fun w =>
        a.cost w) e := by
  have pos : 0 < Weight.logical.toNat * (max e.children.length 2 - 1) :=
    Nat.mul_pos (by decide) (by omega)
  apply tells_costing plain capped h
  intro a t ha
  rw [hw, Node.children_map, List.length_map]
  exact tells_scaledCost ha pos

/-- The source of an access and the steps of its path. -/
theorem tells_reach {source : Expr} {path : List (PathStep Expr)}
    (h : ∀ c ∈ source :: path.flatMap PathStep.children, Told c) :
    Tells (empty.absorb source.analyze >>= fun b =>
        (path.map (PathStep.map Expr.analyze)).foldlM absorbStep b)
      ((∀ c ∈ source :: path.flatMap PathStep.children, c.Analyzed) ∧
        (Tally.ofAll (source :: path.flatMap PathStep.children)).Countable ∧
        (path = [] ∨ (Tally.ofAll (source :: path.flatMap PathStep.children) +
          .ofWeight (path.map PathStep.ownWeight).sum).weight < UInt64.size))
      (.ofAll (source :: path.flatMap PathStep.children) +
        .ofWeight (path.map PathStep.ownWeight).sum) := by
  obtain ⟨hsource, hpath⟩ := List.forall_mem_cons.mp h
  refine ((tells_absorb shows_empty hsource).andThen fun b hb => tells_absorbPath hpath hb).congr
    ?_ ?_
  · rw [List.forall_mem_cons, zero_add, sum_stepTally, ← add_assoc, ← Tally.ofAll_cons, Fits,
      Tally.countable_add_ofWeight]
    constructor
    · rintro ⟨⟨hs, room⟩, hp, rfl | fits⟩
      · exact ⟨⟨hs, hp⟩, room, .inl rfl⟩
      · exact ⟨⟨hs, hp⟩, fits.2, .inr fits.1⟩
    · rintro ⟨⟨hs, hp⟩, room, fits⟩
      rw [Tally.ofAll_cons] at room
      exact ⟨⟨hs, room.of_add⟩, hp, fits.imp_right fun weight => ⟨weight, room⟩⟩
  · rw [zero_add, sum_stepTally, ← add_assoc, ← Tally.ofAll_cons]

theorem tells_access {i : Nat} {source : Expr} {path : List (PathStep Expr)}
    {default : Option Expr}
    (h : ∀ c ∈ source :: path.flatMap PathStep.children ++ default.toList, Told c) :
    TellsOf (Node.analysis ((Node.access source path default).map Expr.analyze))
      (.mk i (.access source path default)) := by
  apply Tells.plain rfl
  obtain ⟨hreach, hdefault⟩ := List.forall_mem_append.mp h
  -- A default is absorbed after the path and costs a call on top of it.
  cases default with
  | none =>
    have parts : (Expr.mk i (.access source path none)).children =
        source :: path.flatMap PathStep.children := List.append_nil _
    have capped : (Node.access source path none).isCapped = true ↔ path = [] := by
      cases path <;> simp [Node.isCapped]
    simp only [Node.map, Node.analysis, Option.map_none, bind_pure]
    refine (tells_reach hreach).congr ?_ (by rw [parts]; rfl)
    rw [parts, ← capped]
    rfl
  | some d =>
    have capped : (Node.access source path (some d)).isCapped = false := by
      cases path <;> rfl
    have total : Tally.ofAll (source :: path.flatMap PathStep.children) +
        .ofWeight (path.map PathStep.ownWeight).sum + d.tally +
          .ofWeight Weight.functionCall.toNat =
        .ofAll (Expr.mk i (.access source path (some d))).children +
          .ofWeight (Expr.mk i (.access source path (some d))).node.ownWeight := by
      have parts : Tally.ofAll (Expr.mk i (.access source path (some d))).children =
          .ofAll (source :: path.flatMap PathStep.children) + .ofAll [d] := Tally.ofAll_append ..
      rw [parts, Tally.ofAll_cons d, add_assoc, add_add_add_comm]
      rfl
    have room := Tally.countable_congr total
    have hd := List.forall_mem_singleton.mp hdefault
    simp only [Node.map, Node.analysis, Option.map_some]
    rw [← bind_assoc]
    refine ((tells_reach hreach).andThen fun a ha => (tells_absorb ha hd).andThen fun b hb =>
      tells_cost hb (by decide : 0 < Weight.functionCall.toNat)).congr ?_ total
    rw [total, room]
    constructor
    · rintro ⟨⟨analyzed, -⟩, ⟨hd, room⟩, weight⟩
      exact ⟨List.forall_mem_append.mpr ⟨analyzed, List.forall_mem_singleton.mpr hd⟩, room,
        .inr weight⟩
    · rintro ⟨analyzed, countable, weight⟩
      obtain ⟨analyzed, hd⟩ := List.forall_mem_append.mp analyzed
      have weight := weight.resolve_left (capped ▸ Bool.false_ne_true)
      -- Each step adds to the one before, so all of them fit if the last one does.
      have fits : Fits _ := ⟨weight, Tally.countable_add_ofWeight.mpr countable⟩
      rw [← total] at fits
      have reached := fits.of_add.of_add
      exact ⟨⟨analyzed, Tally.countable_add_ofWeight.mp reached.2, .inr reached.1⟩,
        ⟨List.forall_mem_singleton.mp hd, countable⟩, weight⟩

theorem tells_call {i : Nat} {f : Function} {args : List Expr} (h : ∀ c ∈ args, Told c) :
    TellsOf (Node.analysis ((Node.call f args).map Expr.analyze)) (.mk i (.call f args)) := by
  let counted : Tally := .ofAll args + ⟨0, 1, 0, 0⟩
  have added {a : Analysis} (ha : a.Shows (0 + .ofAll args)) :
      (∃ n, Word.add a.constants 1 = .ok n) ↔ counted.constants < UInt64.size := by
    rw [Word.exists_add, ha.constants, zero_add]
    rfl
  have shows {a : Analysis} {n : UInt64} {impure : Bool} (ha : a.Shows (0 + .ofAll args))
      (hn : Word.add a.constants 1 = .ok n) :
      Shows { a with constants := n, impure } counted := by
    rw [zero_add] at ha
    constructor
    case weight => exact ha.weight
    case constants =>
      rw [← Word.add_eq_ok_iff.mp hn, ha.constants]
      rfl
    case inputUses => exact ha.inputUses
    case freeReducers => exact ha.freeReducers
  have uses : (Expr.mk i (.call f args)).inputUses = (args.map Expr.inputUses).sum := by
    rw [Expr.inputUses_eq]
    exact Nat.zero_add _
  have free : (Expr.mk i (.call f args)).freeReducers = (args.map Expr.freeReducers).sum :=
    Expr.freeReducers_eq _
  have total : counted + .ofWeight Weight.functionCall.toNat =
      (Expr.mk i (.call f args)).tally := by
    rw [Expr.tally_eq, uses, free]
    rfl
  refine ((tells_absorbAll h shows_empty).andThen fun a ha => .follow (added ha) fun n hn =>
    tells_cost (shows ha hn) (by decide)).congr ?_ total
  rw [total, Expr.sumsFit_of_passing free, zero_add, ← total, Tally.countable_add_ofWeight]
  constructor
  · rintro ⟨⟨analyzed, room⟩, constants, weight⟩
    exact ⟨analyzed, .inr weight, ⟨constants, room.inputUses, room.freeReducers⟩,
      fun c hc => absurd hc List.not_mem_nil⟩
  · rintro ⟨analyzed, weight, room, -⟩
    exact ⟨⟨analyzed, room.of_add⟩, room.constants, weight.resolve_left Bool.false_ne_true⟩

theorem tells_guarded {i : Nat} {body : Expr} {handlers : List (Handler Expr)}
    (h : ∀ c ∈ body :: handlers.flatMap Handler.children, Told c) :
    TellsOf (Node.analysis ((Node.guarded body handlers).map Expr.analyze))
      (.mk i (.guarded body handlers)) := by
  have handled := (List.cons.inj (Node.children_map Expr.analyze (.guarded body handlers))).2
  obtain ⟨hbody, hhandlers⟩ := List.forall_mem_cons.mp h
  have guarded := hbody.andThen fun b hb => (tells_merge shows_empty hb).andThen fun m hm =>
    (tells_absorbAll hhandlers hm).andThen fun a ha =>
      tells_cost (a := { a with readsCaught := b.readsCaught }) (w := Weight.functionCall)
        ⟨ha.weight, ha.constants, ha.inputUses, ha.freeReducers⟩ (by decide)
  simp only [← handled, ← foldlM_absorbHandler, zero_add, ← Tally.ofAll_cons] at guarded
  refine Tells.plain rfl (guarded.congr ?_ rfl)
  constructor
  · rintro ⟨hb, -, ⟨hh, room⟩, weight⟩
    exact ⟨List.forall_mem_cons.mpr ⟨hb, hh⟩, room, .inr weight⟩
  · rintro ⟨analyzed, room, weight⟩
    obtain ⟨hb, hh⟩ := List.forall_mem_cons.mp analyzed
    have room' : body.tally.Countable := (Tally.ofAll_cons body _ ▸ room).of_add
    exact ⟨hb, room', ⟨hh, room⟩, weight.resolve_left Bool.false_ne_true⟩

theorem tells_join {i : Nat} {left right : Expr} {condition : Option Expr} {kind : JoinKind}
    (h : ∀ c ∈ left :: right :: condition.toList, Told c) :
    TellsOf (Node.analysis ((Node.join left right condition kind).map Expr.analyze))
      (.mk i (.join left right condition kind)) := by
  have split (P : Expr → Prop) : (∀ c ∈ left :: right :: condition.toList, P c) ↔
      (∀ c ∈ [left, right], P c) ∧ ∀ c ∈ condition.toList, P c := by
    rw [← List.forall_mem_append]
    rfl
  obtain ⟨hsides, hcondition⟩ := (split Told).mp h
  have joined := (tells_absorbAll hsides shows_empty).andThen fun b hb =>
    (tells_absorbAll hcondition hb).andThen fun a ha =>
      .ofShows (shows_costUnpredictable (a := { a with sides := b.sides })
        ⟨ha.weight, ha.constants, ha.inputUses, ha.freeReducers⟩)
  rw [← Option.toList_map, zero_add, ← Tally.ofAll_append] at joined
  refine Tells.plain rfl (joined.congr ?_ rfl)
  constructor
  · rintro ⟨⟨hs, -⟩, ⟨hc, room⟩, -⟩
    exact ⟨(split _).mpr ⟨hs, hc⟩, room, .inl rfl⟩
  · rintro ⟨analyzed, room, -⟩
    obtain ⟨hs, hc⟩ := (split _).mp analyzed
    exact ⟨⟨hs, (Tally.ofAll_append [left, right] _ ▸ room).of_add⟩, ⟨hc, room⟩, trivial⟩

/-- A node that evaluates its parts for each element of a source. -/
theorem tells_loop {source : Expr} {items : List Expr} (capped : e.node.isCapped = true)
    (own : e.node.ownWeight = Weight.unpredictable.toNat) (none : e.node.ownConstants = 0)
    (children : e.children.Perm (source :: items)) (same : e.node.sameInput = [source])
    (other : e.node.otherInput.Perm items) (uses : e.inputUses = source.inputUses)
    (free : e.freeReducers = (e.children.map Expr.freeReducers).sum)
    (h : ∀ c ∈ e.children, Told c) :
    TellsOf (empty.absorb source.analyze >>= fun b =>
      b.absorbAllScoped (items.map Expr.analyze) >>= fun a => .ok a.costUnpredictable) e := by
  have split (P : Expr → Prop) : (∀ c ∈ e.children, P c) ↔ P source ∧ ∀ c ∈ items, P c := by
    rw [← List.forall_mem_cons]
    exact forall_congr' fun c => by rw [children.mem_iff]
  have all : Tally.ofAll e.children = source.tally + .ofAll items := by
    rw [Tally.ofAll_perm children, Tally.ofAll_cons]
  have total : source.tally + (Tally.ofAll items).apart + .ofWeight Weight.unpredictable.toNat =
      e.tally := by
    have free : e.freeReducers = (Tally.ofAll e.children).freeReducers := free
    rw [Expr.tally_eq e, own, none, uses, free, all]
    rfl
  obtain ⟨hsource, hitems⟩ := (split Told).mp h
  have looped := (tells_absorb shows_empty hsource).andThen fun b hb =>
    (tells_absorbAllScoped hitems hb).andThen fun a ha => .ofShows (shows_costUnpredictable ha)
  rw [zero_add, total] at looped
  refine looped.congr ?_ rfl
  rw [Expr.sumsFit_of_passing free, ← total, Tally.countable_add_ofWeight, split, same]
  constructor
  · rintro ⟨⟨hs, -⟩, ⟨hi, room⟩, -⟩
    exact ⟨⟨hs, fun c hc => (hi c hc).1⟩, .inl capped, room,
      fun c hc => (hi c (other.mem_iff.mp hc)).2⟩
  · rintro ⟨⟨hs, hi⟩, -, room, fits⟩
    exact ⟨⟨hs, room.of_add⟩, ⟨fun c hc => ⟨hi c hc, fits c (other.mem_iff.mpr hc)⟩, room⟩, trivial⟩

/-- Both sides of a pipe are counted together before the product of their uses is formed. -/
theorem tells_pipe {i : Nat} {producer consumer : Expr} (hp : Told producer)
    (hc : Told consumer) :
    TellsOf (Node.analysis ((Node.pipe producer consumer).map Expr.analyze))
      (.mk i (.pipe producer consumer)) := by
  have uses : (Expr.mk i (.pipe producer consumer)).inputUses =
      producer.inputUses * max consumer.inputUses 1 := Expr.inputUses_eq _
  have free : (Expr.mk i (.pipe producer consumer)).freeReducers =
      (Tally.ofAll [producer, consumer]).freeReducers := Expr.freeReducers_eq _
  have total : (Expr.mk i (.pipe producer consumer)).tally =
      { producer.tally + consumer.tally with
        inputUses := producer.inputUses * max consumer.inputUses 1 } := by
    rw [Expr.tally_eq, uses, free]
    rfl
  have product {p c : Analysis} (hp : p.Shows producer.tally) (hc : c.Shows consumer.tally) :
      p.inputUses.toNat * (max c.inputUses 1).toNat =
        producer.inputUses * max consumer.inputUses 1 := by
    rw [UInt64.toNat_max, hp.inputUses, hc.inputUses]
    rfl
  have shows {a : Analysis} {u : UInt64} (ha : a.Shows (producer.tally + consumer.tally.apart))
      (hu : u.toNat = producer.inputUses * max consumer.inputUses 1) :
      Shows { a with inputUses := u } (Expr.mk i (.pipe producer consumer)).tally := by
    rw [total]
    exact ⟨ha.weight, ha.constants, hu, ha.freeReducers⟩
  have piped := hp.andThen fun p hp' => hc.andThen fun c hc' =>
    (tells_absorb shows_empty hp).andThen fun b hb =>
      (tells_absorbScoped (zero_add producer.tally ▸ hb) hc).andThen fun a ha =>
        .follow (Word.exists_mul.trans (by rw [product hp' hc'])) fun u hu =>
          .ofShows (shows ha ((Word.mul_eq_ok_iff.mp hu).symm.trans (product hp' hc')))
  refine piped.congr ?_ rfl
  rw [Expr.sumsFit_of_passing free, total, zero_add]
  constructor
  · rintro ⟨hp, hc, -, ⟨-, room⟩, fits, -⟩
    exact ⟨List.forall_mem_cons.mpr ⟨hp, List.forall_mem_singleton.mpr hc⟩, .inl rfl,
      ⟨room.constants, fits, room.freeReducers⟩, List.forall_mem_singleton.mpr room.inputUses⟩
  · rintro ⟨analyzed, -, ⟨constants, fits, free⟩, others⟩
    obtain ⟨hp, hc⟩ := List.forall_mem_cons.mp analyzed
    have hc := List.forall_mem_singleton.mp hc
    have room : (producer.tally + consumer.tally).Countable :=
      ⟨constants, others consumer List.mem_cons_self, free⟩
    exact ⟨hp, hc, ⟨hp, room.of_add⟩, ⟨hc, room⟩, fits, trivial⟩

/-- A node none of whose parts has its input. -/
theorem sumsFit_of_apart (same : e.node.sameInput = []) (other : e.node.otherInput = e.children)
    (none : e.node.ownConstants = 0) (uses : e.inputUses < UInt64.size) :
    e.SumsFit ↔ (e.node.isCapped = true ∨ e.tally.weight < UInt64.size) ∧
      (∀ c ∈ e.children, (0 : Tally).inputUses + c.inputUses < UInt64.size) ∧
      (Tally.ofAll e.children).apart.Countable := by
  have constants := Expr.unfoldedConstants_eq e
  rw [none, zero_add] at constants
  rw [Expr.sumsFit_iff, constants, same, other, Tally.countable_iff]
  constructor
  · rintro ⟨weight, constants, -, others, free⟩
    exact ⟨weight, others, constants, Nat.zero_lt_of_lt uses, free⟩
  · rintro ⟨weight, others, constants, -, free⟩
    exact ⟨weight, constants, uses, others, free⟩

theorem tells_reducer {i : Nat} {red : Reducer Expr} (h : ∀ c ∈ red.children, Told c) :
    TellsOf (Node.analysis ((Node.reducer red).map Expr.analyze)) (.mk i (.reducer red)) := by
  have uses : (Expr.mk i (.reducer red)).inputUses = 0 := Expr.inputUses_eq _
  have free : (Expr.mk i (.reducer red)).freeReducers = 1 := Expr.freeReducers_eq _
  let counted : Tally := { Tally.ofAll red.children with inputUses := 0, freeReducers := 1 }
  have total : counted + .ofWeight Weight.step.toNat = (Expr.mk i (.reducer red)).tally := by
    rw [Expr.tally_eq, uses, free]
    rfl
  have folded := Tells.foldlM_apart tells_absorbReducerPart h shows_empty
  rw [← Reducer.children_map, zero_add] at folded
  have single {a : Analysis} (ha : a.Shows (Tally.ofAll red.children).apart) :
      Shows { a with freeReducers := 1 } counted :=
    ⟨ha.weight, ha.constants, ha.inputUses, rfl⟩
  refine (folded.andThen fun a ha => tells_cost (single ha) (by decide)).congr ?_ total
  rw [total, sumsFit_of_apart rfl rfl rfl (uses ▸ by decide), forall₂_and]
  constructor
  · rintro ⟨⟨⟨analyzed, others⟩, room⟩, weight⟩
    exact ⟨analyzed, .inr weight, others, room⟩
  · rintro ⟨analyzed, weight, others, room⟩
    exact ⟨⟨⟨analyzed, others⟩, room⟩, weight.resolve_left Bool.false_ne_true⟩

theorem tells_aggregate {i : Nat} {keys : List Expr} {output : Expr}
    (h : ∀ c ∈ keys ++ [output], Told c) :
    TellsOf (Node.analysis ((Node.aggregate keys output).map Expr.analyze))
      (.mk i (.aggregate keys output)) := by
  have uses : (Expr.mk i (.aggregate keys output)).inputUses = 1 := Expr.inputUses_eq _
  have free : (Expr.mk i (.aggregate keys output)).freeReducers = 0 := Expr.freeReducers_eq _
  let counted : Tally := { Tally.ofAll (keys ++ [output]) with inputUses := 1, freeReducers := 0 }
  have total : counted + .ofWeight Weight.unpredictable.toNat =
      (Expr.mk i (.aggregate keys output)).tally := by
    rw [Expr.tally_eq, uses, free]
    rfl
  have folded := tells_absorbAllScoped h shows_empty
  rw [List.map_append, absorbAllScoped, List.foldlM_append, zero_add] at folded
  have whole {a : Analysis} (ha : a.Shows (Tally.ofAll (keys ++ [output])).apart) :
      Shows { a with freeReducers := 0, inputUses := 1, hasAggregate := true } counted :=
    ⟨ha.weight, ha.constants, rfl, rfl⟩
  have aggregated := folded.andThen fun a ha => .ofShows (shows_costUnpredictable (whole ha))
  simp only [List.map_cons, List.map_nil, List.foldlM_cons, List.foldlM_nil, bind_pure,
    bind_assoc] at aggregated
  refine aggregated.congr ?_ total
  rw [sumsFit_of_apart rfl rfl rfl (uses ▸ by decide), forall₂_and, and_true]
  constructor
  · rintro ⟨⟨analyzed, others⟩, room⟩
    exact ⟨analyzed, .inl rfl, others, room⟩
  · rintro ⟨analyzed, -, others, room⟩
    exact ⟨⟨analyzed, others⟩, room⟩

theorem tells_analyze (e : Expr) (h : ∀ c ∈ e.children, Told c) : TellsOf e.analyze e := by
  rw [Expr.analyze_eq]
  obtain ⟨i, node⟩ := e
  -- One rule for each way of analyzing a node: leaf, fixed cost, junction, loop.
  cases node with
  | parameter | labelRef | caught =>
    refine tells_leaf rfl rfl rfl ?_
    rw [Expr.tally_of_isPlain rfl]
    constructor <;> rfl
  | joinRow side =>
    cases side with
    | left | right =>
      refine tells_leaf rfl rfl rfl ?_
      rw [Expr.tally_of_isPlain rfl]
      constructor <;> rfl
  | builtin | conditional | dict =>
    exact tells_fixed rfl rfl rfl (by decide) h id
  | binary op left right =>
    refine tells_fixed rfl rfl rfl ?_ h id
    split <;> decide
  | collection kind items =>
    cases kind with
    | list | tuple | set => exact tells_fixed rfl rfl rfl (by decide) h id
  | unary op operand =>
    have lone := tells_fixed (e := .mk i (.unary op operand)) rfl rfl rfl
      (by decide : 0 < Weight.logical.toNat) h id
    simp only [Expr.node, Node.map, Node.analysis, ← absorbAll_singleton]
    exact lone
  | label name body =>
    have lone := tells_fixed (e := .mk i (.label name body)) rfl rfl rfl
      (by decide : 0 < Weight.step.toNat) h
      (f := fun a => { a with labelsWritten := NameSet.insert name a.labelsWritten })
      fun h => ⟨h.weight, h.constants, h.inputUses, h.freeReducers⟩
    simp only [Expr.node, Node.map, Node.analysis, ← absorbAll_singleton]
    exact lone
  | and items => exact tells_junction (e := .mk i (.and items)) rfl rfl rfl h
  | or items => exact tells_junction (e := .mk i (.or items)) rfl rfl rfl h
  | access => exact tells_access h
  | call => exact tells_call h
  | guarded => exact tells_guarded h
  | join => exact tells_join h
  | reducer => exact tells_reducer h
  | aggregate => exact tells_aggregate h
  | pipe producer consumer =>
    obtain ⟨hp, hc⟩ := List.forall_mem_cons.mp h
    exact tells_pipe hp (List.forall_mem_singleton.mp hc)
  | sort source keys reverse =>
    have looped := tells_loop (e := .mk i (.sort source keys reverse)) rfl rfl rfl (.refl _) rfl
      (.refl _) ((Expr.inputUses_eq _).trans (Nat.zero_add _)) (Expr.freeReducers_of_passing rfl) h
    rw [List.map_map] at looped
    simp only [Expr.node, Node.map, Node.analysis, List.map_map]
    exact looped
  | comprehension kind key element source filter =>
    have swap : (filter.toList ++ key.toList ++ [element]).Perm
        (key.toList ++ filter.toList ++ [element]) := List.perm_append_comm.append_right _
    have looped := tells_loop (e := .mk i (.comprehension kind key element source filter)) rfl rfl
      rfl (swap.cons source) rfl swap ((Expr.inputUses_eq _).trans (Nat.zero_add _))
      (Expr.freeReducers_of_passing rfl) h
    simp only [List.map_append, ← Option.toList_map] at looped
    exact looped
  | input | constant =>
    refine tells_leaf rfl rfl rfl ?_
    rw [Expr.tally_eq, Expr.inputUses_eq, Expr.freeReducers_eq]
    constructor <;> rfl

theorem told (e : Expr) : Told e :=
  have tells := tells_analyze e fun c _ => told c
  ⟨Iff.rfl, tells.shows⟩
termination_by sizeOf e
decreasing_by exact Expr.sizeOf_lt_of_mem ‹_›

end Analysis

/-! ### Expressions -/

namespace Expr

variable {e : Expr} {a : Analysis}

/-- There is an analysis of a node exactly if there is one of each part and its own sums fit. -/
theorem analyzed_iff_children (e : Expr) :
    e.Analyzed ↔ (∀ c ∈ e.children, c.Analyzed) ∧ e.SumsFit :=
  (Analysis.tells_analyze e fun c _ => Analysis.told c).ok_iff

theorem analyzed_iff (e : Expr) : e.Analyzed ↔ ∀ d, Within d e → d.SumsFit := by
  rw [analyzed_iff_children]
  constructor
  · rintro ⟨parts, fits⟩ d hd
    cases hd with
    | refl => exact fits
    | under hc hd => exact (analyzed_iff _).mp (parts _ hc) d hd
  · intro fits
    exact ⟨fun c hc => (analyzed_iff c).mpr fun d hd => fits d (.under hc hd), fits e (.refl e)⟩
termination_by sizeOf e
decreasing_by all_goals exact Expr.sizeOf_lt_of_mem ‹_›

theorem weight_of_analyze (h : e.analyze = .ok a) :
    a.weight.toNat = min e.unfoldedWeight (UInt64.size - 1) :=
  ((Analysis.told e).shows a h).weight

/-- No part weighs more than the whole. -/
theorem weight_le_of_mem {c : Expr} {b : Analysis} (hc : c ∈ e.children) (hb : c.analyze = .ok b)
    (ha : e.analyze = .ok a) : b.weight ≤ a.weight := by
  rw [UInt64.le_iff_toNat_le, weight_of_analyze hb, weight_of_analyze ha]
  exact min_le_min_right _ (unfoldedWeight_le hc)

end Expr

/-! ### Shared handles -/

namespace Expr

/-- An expression in which each handle is used twice by the next. -/
def tower (leaf : Node Expr) (pair : Expr → Node Expr) : Nat → Expr
  | 0 => .mk 0 leaf
  | n + 1 => .mk (n + 1) (pair (tower leaf pair n))

/-- The nodes of a tower count nothing but their weight. -/
structure PlainTower (leaf : Node Expr) (pair : Expr → Node Expr) : Prop where
  leaf_children : leaf.children = []
  pair_children : ∀ e, (pair e).children = [e, e]
  leaf_isPlain : leaf.isPlain = true
  pair_isPlain : ∀ e, (pair e).isPlain = true

namespace PlainTower

variable {leaf : Node Expr} {pair : Expr → Node Expr} {n : Nat}

theorem id_tower (n : Nat) : (tower leaf pair n).id = n := by
  cases n <;> rfl

variable (plain : PlainTower leaf pair)

include plain

theorem children_zero : (tower leaf pair 0).children = [] := plain.leaf_children

theorem children_succ (n : Nat) :
    (tower leaf pair (n + 1)).children = [tower leaf pair n, tower leaf pair n] :=
  plain.pair_children _

theorem isPlain_tower (n : Nat) : (tower leaf pair n).node.isPlain = true := by
  cases n with
  | zero => exact plain.leaf_isPlain
  | succ n => exact plain.pair_isPlain _

theorem within_tower {d : Expr} :
    Within d (tower leaf pair n) ↔ ∃ k ≤ n, d = tower leaf pair k := by
  constructor
  · intro h
    induction n with
    | zero =>
      cases h with
      | refl => exact ⟨0, le_rfl, rfl⟩
      | under hc h =>
        rw [plain.children_zero] at hc
        cases hc
    | succ n ih =>
      cases h with
      | refl => exact ⟨n + 1, le_rfl, rfl⟩
      | under hc h =>
        rw [plain.children_succ] at hc
        obtain ⟨k, hk, hd⟩ := ih (List.eq_of_mem_replicate (n := 2) hc ▸ h)
        exact ⟨k, Nat.le_succ_of_le hk, hd⟩
  · rintro ⟨k, hk, rfl⟩
    induction hk with
    | refl => exact .refl _
    | step _ ih => exact .under (by rw [plain.children_succ]; exact List.mem_cons_self) ih

theorem coherentAll (n : Nat) : Analyzer.CoherentAll [tower leaf pair n] := by
  rintro c d ⟨e, he, hc⟩ ⟨e', he', hd⟩ hid
  rw [List.mem_singleton.mp he] at hc
  rw [List.mem_singleton.mp he'] at hd
  obtain ⟨k, -, rfl⟩ := plain.within_tower.mp hc
  obtain ⟨l, -, rfl⟩ := plain.within_tower.mp hd
  rw [id_tower, id_tower] at hid
  rw [hid]

theorem unfoldedWeight_succ (n : Nat) : (tower leaf pair (n + 1)).unfoldedWeight =
    (pair (tower leaf pair n)).ownWeight + 2 * (tower leaf pair n).unfoldedWeight := by
  rw [unfoldedWeight_eq, plain.children_succ, Nat.two_mul]
  rfl

theorem tally_tower (n : Nat) : ∃ w, (tower leaf pair n).tally = .ofWeight w := by
  induction n with
  | zero =>
    rw [tally_of_isPlain (plain.isPlain_tower 0), plain.children_zero]
    exact ⟨_, zero_add _⟩
  | succ n ih =>
    obtain ⟨w, hw⟩ := ih
    rw [tally_of_isPlain (plain.isPlain_tower _), plain.children_succ, Tally.ofAll_cons,
      Tally.ofAll_cons, hw]
    exact ⟨w + (w + 0) + (tower leaf pair (n + 1)).node.ownWeight, rfl⟩

/-- A tower has an analysis exactly if all its weights are words, except where they are capped. -/
theorem analyzed_iff : (tower leaf pair n).Analyzed ↔
    ∀ k ≤ n, (tower leaf pair k).node.isCapped = true ∨
      (tower leaf pair k).unfoldedWeight < UInt64.size := by
  have fits (k : Nat) : (tower leaf pair k).SumsFit ↔ (tower leaf pair k).node.isCapped = true ∨
      (tower leaf pair k).unfoldedWeight < UInt64.size := by
    obtain ⟨w, hw⟩ := plain.tally_tower k
    rw [sumsFit_of_isPlain (plain.isPlain_tower k)]
    exact and_iff_left (hw ▸ Tally.countable_ofWeight w)
  rw [Expr.analyzed_iff]
  constructor
  · intro h k hk
    exact (fits k).mp (h _ (plain.within_tower.mpr ⟨k, hk, rfl⟩))
  · intro h d hd
    obtain ⟨k, hk, rfl⟩ := plain.within_tower.mp hd
    exact (fits k).mpr (h k hk)

end PlainTower

/-- A parameter that is added to itself again and again. -/
def doubled : Nat → Expr := tower (.parameter "p") fun e => .binary .add e e

theorem plainTower_doubled : PlainTower (.parameter "p") fun e => .binary .add e e := by
  constructor <;> intros <;> rfl

theorem unfoldedWeight_doubled (n : Nat) : (doubled n).unfoldedWeight = 165 * (2 ^ n - 1) := by
  induction n with
  | zero =>
    rw [unfoldedWeight_eq]
    rfl
  | succ n ih =>
    have step : (doubled (n + 1)).unfoldedWeight = 165 + 2 * (doubled n).unfoldedWeight :=
      plainTower_doubled.unfoldedWeight_succ n
    have pos := Nat.two_pow_pos n
    rw [step, ih, Nat.pow_succ]
    omega

/-- **Fifty-seven additions are too many**, although no weight but the last is larger than a
    word. -/
theorem analyzed_doubled {n : Nat} : (doubled n).Analyzed ↔ n ≤ 56 := by
  have uncapped (k : Nat) : (doubled k).node.isCapped = false := by
    cases k <;> rfl
  have weights : (doubled n).Analyzed ↔ ∀ k ≤ n, 165 * (2 ^ k - 1) < UInt64.size := by
    apply plainTower_doubled.analyzed_iff.trans
    apply forall₂_congr
    intro k _
    rw [← unfoldedWeight_doubled k]
    exact or_iff_right (ne_true_of_eq_false (uncapped k))
  rw [weights]
  constructor
  · intro h
    by_contra large
    exact absurd (h 57 (by omega)) (by decide)
  · intro hn k hk
    have := Nat.pow_le_pow_right (n := 2) (by decide) (hk.trans hn)
    have : UInt64.size = 2 ^ 64 := rfl
    omega

/-- A list that is joined with itself again and again. -/
def joined : Nat → Expr := tower (.collection .list []) fun e => .join e e none .inner

theorem plainTower_joined :
    PlainTower (.collection .list []) fun e => .join e e none .inner := by
  constructor <;> intros <;> rfl

theorem two_pow_le_unfoldedWeight_joined (n : Nat) : 2 ^ n ≤ (joined n).unfoldedWeight := by
  induction n with
  | zero =>
    rw [unfoldedWeight_eq]
    decide
  | succ n ih =>
    have step : (joined (n + 1)).unfoldedWeight = 74200 + 2 * (joined n).unfoldedWeight :=
      plainTower_joined.unfoldedWeight_succ n
    rw [step, Nat.pow_succ]
    omega

theorem analyzed_joined (n : Nat) : (joined n).Analyzed := by
  apply plainTower_joined.analyzed_iff.mpr
  rintro (_ | k) -
  · right
    rw [unfoldedWeight_eq]
    decide
  · exact .inl rfl

end Expr

/-! ### The analyzer -/

namespace Analyzer

theorem CoherentAll.part {met : List Expr} {c e : Expr} (h : CoherentAll (e :: met))
    (hc : c ∈ e.children) : CoherentAll (c :: met) := by
  have within {d : Expr} (hd : ∃ r ∈ c :: met, Expr.Within d r) :
      ∃ r ∈ e :: met, Expr.Within d r := by
    obtain ⟨r, hr, hd⟩ := hd
    rcases List.mem_cons.mp hr with rfl | hr
    · exact ⟨e, List.mem_cons_self, hd.trans (.under hc (.refl r))⟩
    · exact ⟨r, List.mem_cons_of_mem e hr, hd⟩
  exact fun d d' hd hd' => h d d' (within hd) (within hd')

/-- **An analysis weighs the unfolded tree, or overflows.**  Whatever the analyzer has met, it
    finishes exactly if the sums at every node fit.  Then the weight is that of the unfolded tree,
    up to the largest word, and no part has a larger one. -/
theorem weight_eq_unfolded (met : List Expr) (e : Expr)
    (coherent : CoherentAll (e :: met)) :
    ((∃ a, ((analyze e).run (after met)).1 = .ok a) ↔ ∀ d, Expr.Within d e → d.SumsFit) ∧
    ∀ a, ((analyze e).run (after met)).1 = .ok a →
      a.weight.toNat = min e.unfoldedWeight (UInt64.size - 1) ∧
      ∀ c ∈ e.children, ∃ b, ((analyze c).run (after met)).1 = .ok b ∧ b.weight ≤ a.weight := by
  rw [analyze_after met e coherent]
  constructor
  · exact e.analyzed_iff
  · intro a ha
    constructor
    · exact Expr.weight_of_analyze ha
    · intro c hc
      obtain ⟨b, hb⟩ := (e.analyzed_iff_children.mp ⟨a, ha⟩).1 c hc
      rw [analyze_after met c (coherent.part hc)]
      exact ⟨b, hb, Expr.weight_le_of_mem hc hb ha⟩

/-- The list that is joined with itself sixty-four times has the largest weight. -/
theorem weight_eq_unfolded_joined : CoherentAll [Expr.joined 64] ∧
    ∃ a, ((analyze (Expr.joined 64)).run (after [])).1 = .ok a ∧
      a.weight.toNat = UInt64.size - 1 := by
  have coherent := Expr.plainTower_joined.coherentAll 64
  obtain ⟨finishes, weighs⟩ := weight_eq_unfolded [] (Expr.joined 64) coherent
  obtain ⟨a, ha⟩ := finishes.mpr ((Expr.analyzed_iff _).mp (Expr.analyzed_joined 64))
  have large : UInt64.size ≤ (Expr.joined 64).unfoldedWeight :=
    Expr.two_pow_le_unfoldedWeight_joined 64
  refine ⟨coherent, a, ha, ?_⟩
  rw [(weighs a ha).1]
  omega

/-- The parameter that is doubled fifty-seven times has no weight at all. -/
theorem doubled_overflows : CoherentAll [Expr.doubled 57] ∧
    ∀ a, ((analyze (Expr.doubled 57)).run (after [])).1 ≠ .ok a := by
  have coherent : CoherentAll [Expr.doubled 57] := Expr.plainTower_doubled.coherentAll 57
  constructor
  · exact coherent
  · intro a ha
    rw [analyze_after [] _ coherent] at ha
    exact absurd (Expr.analyzed_doubled.mp ⟨a, ha⟩) (by decide)

end Analyzer
end DataExpr
