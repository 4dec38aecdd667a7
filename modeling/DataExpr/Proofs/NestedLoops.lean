import DataExpr.Proofs.Meaning

/-!
# Nested loops

A join takes the rows of its primary side one by one, looks the others up by key and keeps those
for which the rest of the condition holds.  Where nothing of this fails, the result is that of a
nested loop over the two sides with the whole condition (`JoinMeaning.run_eq_nestedLoop`).
-/

namespace DataExpr

/-- The pairs of each outer row with the inner rows that fit.  An outer row that is preserved is
    paired with null if no inner row fits. -/
def loopPairs (preserved : Bool) (pair : Value → Value → Value) (fits : Value → Value → Bool)
    (outer inner : List Value) : List Value :=
  outer.flatMap fun x =>
    let partners := inner.filter (fits x)
    if partners.isEmpty && preserved then [pair x .null] else partners.map (pair x)

/-- The pairs of left and right rows that fit, in the order in which a nested loop meets them, and
    the rows without a partner that the kind of the join preserves. -/
def JoinKind.nestedLoop (kind : JoinKind) (fits : Value → Value → Bool) (left right : List Value) :
    List Value :=
  let pair (l r : Value) : Value := .tuple [l, r]
  match kind with
  | .inner | .cross => loopPairs false pair fits left right
  | .left => loopPairs true pair fits left right
  | .right => loopPairs true (fun r l => pair l r) (fun r l => fits l r) right left
  | .outer =>
    loopPairs true pair fits left right ++
      (right.filter fun r => !left.any (fits · r)).map (pair .null)

theorem loopPairs_congr {preserved : Bool} {pair : Value → Value → Value}
    {fits fits' : Value → Value → Bool} {outer inner : List Value}
    (h : ∀ x ∈ outer, ∀ y ∈ inner, fits x y = fits' x y) :
    loopPairs preserved pair fits outer inner = loopPairs preserved pair fits' outer inner := by
  unfold loopPairs
  rw [List.flatMap_def, List.flatMap_def]
  refine congrArg List.flatten (List.map_congr_left fun x hx => ?_)
  rw [List.filter_congr fun y hy => h x hx y hy]

/-- Only whether the rows of the two sides fit matters. -/
theorem JoinKind.nestedLoop_congr {kind : JoinKind} {fits fits' : Value → Value → Bool}
    {left right : List Value} (h : ∀ l ∈ left, ∀ r ∈ right, fits l r = fits' l r) :
    kind.nestedLoop fits left right = kind.nestedLoop fits' left right := by
  have forward {preserved : Bool} {pair : Value → Value → Value} :
      loopPairs preserved pair fits left right = loopPairs preserved pair fits' left right :=
    loopPairs_congr h
  cases kind with
  | inner | cross | left => exact forward
  | right => exact loopPairs_congr fun r hr l hl => h l hl r hr
  | outer =>
    have unmatched : (right.filter fun r => !left.any (fits · r)) =
        right.filter fun r => !left.any (fits' · r) := by
      refine List.filter_congr fun r hr => congrArg (!·) ?_
      rw [Bool.eq_iff_iff, List.any_eq_true, List.any_eq_true]
      exact exists_congr fun l => and_congr_right fun hl => by rw [h l hl r hr]
    simp only [nestedLoop, forward, unmatched]

namespace JoinMeaning

/-! ### Candidates -/

variable {key : Value → Except Error (Option Value)} {k : Value → Option Value}
  {rows : List Value}

/-- A row that is accepted, with its position and its key. -/
def candidate (k : Value → Option Value) (row : Value × Nat) : Option Candidate :=
  (k row.1).map fun key => ⟨row.2, key, row.1⟩

theorem candidates_eq (h : ∀ row ∈ rows, key row = .ok (k row)) (position : Nat) :
    candidates key position rows = .ok ((rows.zipIdx position).filterMap (candidate k)) := by
  induction rows generalizing position with
  | nil => rfl
  | cons row rest ih =>
    obtain ⟨hrow, hrest⟩ := List.forall_mem_cons.mp h
    rw [candidates, hrow, List.zipIdx_cons, List.filterMap_cons]
    cases hk : k row with
    | none =>
      simp only [candidate, hk, Option.map_none]
      exact ih hrest (position + 1)
    | some key =>
      simp only [candidate, hk, Option.map_some]
      change (candidates _ _ rest >>= fun found => _) = _
      rw [ih hrest (position + 1)]
      rfl

theorem select_eq {p : Value → Except Error Bool} {g : Value → Bool} {found : List Candidate}
    (h : ∀ c ∈ found, p c.row = .ok (g c.row)) :
    select p found = .ok (found.filter fun c => g c.row) := by
  induction found with
  | nil => rfl
  | cons c rest ih =>
    obtain ⟨hc, hrest⟩ := List.forall_mem_cons.mp h
    rw [select, hc, List.filter_cons]
    cases g c.row with
    | false => exact ih hrest
    | true =>
      change (select p rest >>= fun found => _) = _
      rw [ih hrest]
      rfl

/-! ### Rows that fit -/

/-- Whether two rows with these keys meet; a row without a key is rejected. -/
def sameKey : Option Value → Option Value → Bool
  | some key, some key' => key == key'
  | _, _ => false

/-- What a join evaluates for its rows if nothing fails. -/
structure Evaluates (m : JoinMeaning) (primary secondary : List Value) (enabled : Bool)
    (primaryKey secondaryKey : Value → Option Value) (residual : Value → Value → Bool) : Prop where
  enabled : m.enabled = .ok enabled
  primaryKey : ∀ p ∈ primary, m.primaryKey p = .ok (primaryKey p)
  secondaryKey : ∀ q ∈ secondary, m.secondaryKey q = .ok (secondaryKey q)
  residual : ∀ p ∈ primary, ∀ q ∈ secondary, m.fits p q = .ok (residual p q)

namespace Evaluates

variable {m : JoinMeaning} {primary secondary : List Value} {enabled : Bool}
  {primaryKey secondaryKey : Value → Option Value} {residual : Value → Value → Bool}
  (h : m.Evaluates primary secondary enabled primaryKey secondaryKey residual)

/-- Whether a secondary row is a partner of a primary one. -/
def partner (enabled : Bool) (primaryKey secondaryKey : Value → Option Value)
    (residual : Value → Value → Bool) (p q : Value) : Bool :=
  enabled && sameKey (secondaryKey q) (primaryKey p) && residual p q

/-- The candidates among the secondary rows that are partners of a primary row. -/
def partnersOf (secondary : List Value) (fits : Value → Value → Bool)
    (secondaryKey : Value → Option Value) (p : Value) : List Candidate :=
  (secondary.zipIdx.filterMap (candidate secondaryKey)).filter fun c => fits p c.row

theorem key_of_mem {rows : List (Value × Nat)} {c : Candidate}
    (hc : c ∈ rows.filterMap (candidate k)) :
    (c.row, c.position) ∈ rows ∧ k c.row = some c.key := by
  obtain ⟨row, hrow, hc⟩ := List.mem_filterMap.mp hc
  obtain ⟨key, hkey, rfl⟩ := Option.map_eq_some_iff.mp hc
  exact ⟨hrow, hkey⟩

include h in
theorem partners_eq {p : Value} (hp : p ∈ primary) :
    (if enabled then m.partners (secondary.zipIdx.filterMap (candidate secondaryKey)) p
      else pure []) =
      .ok (partnersOf secondary (partner enabled primaryKey secondaryKey residual) secondaryKey
        p) := by
  cases enabled with
  | false =>
    rw [partnersOf, List.filter_eq_nil_iff.mpr fun c _ => by simp [partner]]
    rfl
  | true =>
    rw [if_pos rfl, partners, h.primaryKey p hp]
    cases hkey : primaryKey p with
    | none =>
      have none_fits (c : Candidate) :
          partner true primaryKey secondaryKey residual p c.row = false := by
        cases hc : secondaryKey c.row <;> simp [partner, sameKey, hkey, hc]
      rw [partnersOf, List.filter_eq_nil_iff.mpr fun c _ => by simp [none_fits c]]
      rfl
    | some key =>
      change select (m.fits p) (List.filter _ _) = _
      rw [select_eq (g := residual p), List.filter_filter, partnersOf]
      · refine congrArg Except.ok (List.filter_congr fun c hc => ?_)
        simp only [partner, sameKey, hkey, (key_of_mem hc).2, Bool.true_and, Bool.and_comm]
      · intro c hc
        have row := (key_of_mem (List.mem_filter.mp hc).1).1
        exact h.residual p hp c.row (List.fst_mem_of_mem_zipIdx row)

variable {fits : Value → Value → Bool} (keyed : ∀ p q, fits p q = true → (secondaryKey q).isSome)
include keyed

/-- The partners are the rows that fit, in their order. -/
theorem map_row_partnersOf (p : Value) :
    (partnersOf secondary fits secondaryKey p).map (·.row) = secondary.filter (fits p) := by
  have from_position (n : Nat) : (((secondary.zipIdx n).filterMap (candidate secondaryKey)).filter
      fun c => fits p c.row).map (·.row) = secondary.filter (fits p) := by
    induction secondary generalizing n with
    | nil => rfl
    | cons q rest ih =>
      rw [List.zipIdx_cons, List.filterMap_cons, List.filter_cons]
      cases hfits : fits p q with
      | false =>
        cases hkey : secondaryKey q <;>
          simp only [candidate, hkey, Option.map_none, Option.map_some, List.filter_cons, hfits,
            Bool.false_eq_true, if_false] <;> exact ih (n + 1)
      | true =>
        obtain ⟨key, hkey⟩ := Option.isSome_iff_exists.mp (keyed p q hfits)
        simp only [candidate, hkey, Option.map_some, List.filter_cons, hfits, if_true,
          List.map_cons]
        exact congrArg _ (ih (n + 1))
  exact from_position 0

/-- A secondary row is taken if it fits some primary row. -/
theorem any_position {q : Value} {n : Nat} (hq : (q, n) ∈ secondary.zipIdx) :
    ((primary.map (partnersOf secondary fits secondaryKey)).flatten.any (·.position == n)) =
      primary.any (fits · q) := by
  have unique {c : Candidate} (hc : (c.row, c.position) ∈ secondary.zipIdx)
      (hn : c.position = n) : c.row = q := by
    have hrow := List.mk_mem_zipIdx_iff_getElem?.mp hc
    have hother := List.mk_mem_zipIdx_iff_getElem?.mp hq
    rw [hn, hother] at hrow
    exact (Option.some.inj hrow).symm
  rw [Bool.eq_iff_iff, List.any_eq_true, List.any_eq_true]
  constructor
  · rintro ⟨c, hc, hn⟩
    obtain ⟨cs, hcs, hc⟩ := List.mem_flatten.mp hc
    obtain ⟨p, hp, rfl⟩ := List.mem_map.mp hcs
    obtain ⟨hc, hfits⟩ := List.mem_filter.mp hc
    exact ⟨p, hp, unique (key_of_mem hc).1 (beq_iff_eq.mp hn) ▸ hfits⟩
  · rintro ⟨p, hp, hfits⟩
    obtain ⟨key, hkey⟩ := Option.isSome_iff_exists.mp (keyed p q hfits)
    refine ⟨⟨n, key, q⟩, List.mem_flatten.mpr ⟨_, List.mem_map_of_mem hp, ?_⟩, beq_self_eq_true n⟩
    refine List.mem_filter.mpr ⟨List.mem_filterMap.mpr ⟨(q, n), hq, ?_⟩, hfits⟩
    simp only [candidate, hkey, Option.map_some]

theorem unmatched_eq : m.unmatched secondary
      (primary.map (partnersOf secondary fits secondaryKey)).flatten =
    if m.kind = .outer then
      (secondary.filter fun q => !primary.any (fits · q)).map (m.pair .null)
    else [] := by
  unfold unmatched
  refine if_congr Iff.rfl ?_ rfl
  have each : ∀ row ∈ secondary.zipIdx,
      (if (primary.map (partnersOf secondary fits secondaryKey)).flatten.any (·.position == row.2)
        then none else some (m.pair .null row.1)) =
      if primary.any (fits · row.1) then none else some (m.pair .null row.1) := by
    rintro ⟨q, n⟩ hq
    rw [any_position keyed hq]
  generalize (primary.map (partnersOf secondary fits secondaryKey)).flatten = taken at each ⊢
  clear keyed
  generalize 0 = n at each ⊢
  induction secondary generalizing n with
  | nil => rfl
  | cons q rest ih =>
    rw [List.zipIdx_cons] at each ⊢
    obtain ⟨hq, hrest⟩ := List.forall_mem_cons.mp each
    rw [List.filterMap_cons, hq, List.filter_cons]
    cases primary.any (fits · q) with
    | true => exact ih (n + 1) hrest
    | false => exact congrArg (_ :: ·) (ih (n + 1) hrest)

end Evaluates

variable {m : JoinMeaning} {left right : List Value} {enabled : Bool}
  {leftKey rightKey : Value → Option Value} {residual : Value → Value → Bool}

/-- A join over a primary and a secondary side is a loop over the two. -/
theorem run_eq_loopPairs {primaryKey secondaryKey : Value → Option Value}
    (h : m.Evaluates (if m.swapped then right else left) (if m.swapped then left else right)
      enabled primaryKey secondaryKey residual) :
    let primary := if m.swapped then right else left
    let secondary := if m.swapped then left else right
    let fits := Evaluates.partner enabled primaryKey secondaryKey residual
    m.run left right = .ok (.list (loopPairs m.preserves m.pair fits primary secondary ++
      if m.kind = .outer then
        (secondary.filter fun q => !primary.any (fits · q)).map (m.pair .null)
      else [])) := by
  intro primary secondary fits
  -- A row without a key fits no other, so the rows left out of the table pair with none.
  have keyed (p q : Value) (hfits : fits p q = true) : (secondaryKey q).isSome := by
    cases hq : secondaryKey q with
    | none => simp [fits, Evaluates.partner, sameKey, hq] at hfits
    | some key => rfl
  have all : (primary.mapM fun row =>
      if enabled then m.partners (secondary.zipIdx.filterMap (candidate secondaryKey)) row
      else pure []) =
      .ok (primary.map (Evaluates.partnersOf secondary fits secondaryKey)) := by
    have step (rows : List Value) (hrows : ∀ p ∈ rows, p ∈ primary) : (rows.mapM fun row =>
        if enabled then m.partners (secondary.zipIdx.filterMap (candidate secondaryKey)) row
        else pure []) = .ok (rows.map (Evaluates.partnersOf secondary fits secondaryKey)) := by
      induction rows with
      | nil => rfl
      | cons p rest ih =>
        obtain ⟨hp, hrest⟩ := List.forall_mem_cons.mp hrows
        rw [List.mapM_cons, h.partners_eq hp, ih hrest]
        rfl
    exact step primary fun _ hp => hp
  have pairs :
      ((primary.zip (primary.map (Evaluates.partnersOf secondary fits secondaryKey))).flatMap
        fun r => m.pairsOf r.1 r.2) = loopPairs m.preserves m.pair fits primary secondary := by
    rw [loopPairs]
    clear all
    induction primary with
    | nil => rfl
    | cons p rest ih =>
      have rows : (Evaluates.partnersOf secondary fits secondaryKey p).map (·.row) =
          secondary.filter (fits p) := Evaluates.map_row_partnersOf keyed p
      rw [List.map_cons, List.zip_cons_cons, List.flatMap_cons, List.flatMap_cons, ih, ← rows]
      simp only [pairsOf, List.map_map, List.isEmpty_map, Function.comp_def]
  -- What is known of the partners decides the pairs and the rows of the outer join's tail.
  have taken (all : List (List Candidate))
      (hall : all = primary.map (Evaluates.partnersOf secondary fits secondaryKey)) :
      (primary.zip all).flatMap (fun r => m.pairsOf r.1 r.2) ++ m.unmatched secondary all.flatten =
        loopPairs m.preserves m.pair fits primary secondary ++
          if m.kind = .outer then
            (secondary.filter fun q => !primary.any (fits · q)).map (m.pair .null)
          else [] := by
    rw [hall, pairs, Evaluates.unmatched_eq keyed]
  rw [run, h.enabled]
  -- Where the pre-filter does not hold, no row is looked up and none has a partner.
  cases enabled with
  | false =>
    change ((primary.mapM fun _ => (pure [] : Except Error (List Candidate))) >>= fun all => _) = _
    rw [show (primary.mapM fun _ => (pure [] : Except Error (List Candidate))) = _ from all,
      ← taken _ rfl]
    rfl
  | true =>
    change (candidates m.secondaryKey 0 secondary >>= fun found => _) = _
    rw [candidates_eq h.secondaryKey, ← taken _ rfl]
    change ((primary.mapM fun row => m.partners _ row) >>= fun all => _) = _
    rw [show (primary.mapM fun row => m.partners _ row) = _ from all]
    rfl

/-- What a join evaluates for its left and right rows if nothing fails. -/
structure EvaluatesRows (m : JoinMeaning) (left right : List Value) (enabled : Bool)
    (leftKey rightKey : Value → Option Value) (residual : Value → Value → Bool) : Prop where
  enabled : m.enabled = .ok enabled
  leftKey : ∀ l ∈ left, m.leftKey l = .ok (leftKey l)
  rightKey : ∀ r ∈ right, m.rightKey r = .ok (rightKey r)
  residual : ∀ l ∈ left, ∀ r ∈ right, m.residual l r = .ok (residual l r)

/-- **A join is a nested loop.**  Rows fit if the part of the condition that reads no row holds, if
    their sides accept them with the same key, and if the rest of the condition holds. -/
theorem run_eq_nestedLoop
    (h : m.EvaluatesRows left right enabled leftKey rightKey residual)
    (comm : ∀ l ∈ left, ∀ r ∈ right,
      sameKey (rightKey r) (leftKey l) = sameKey (leftKey l) (rightKey r)) :
    m.run left right = .ok (.list (m.kind.nestedLoop
      (fun l r => enabled && sameKey (leftKey l) (rightKey r) && residual l r) left right)) := by
  -- A right join walks its right input, with the sides exchanged in keys, residual and pairs.
  by_cases hkind : m.kind = .right
  · have hswapped : m.swapped = true := by simp [swapped, hkind]
    have evaluates : m.Evaluates (if m.swapped then right else left)
        (if m.swapped then left else right) enabled rightKey leftKey fun r l => residual l r := by
      simp only [hswapped, if_true]
      refine ⟨h.enabled, fun p hp => ?_, fun q hq => ?_, fun p hp q hq => ?_⟩
      · simpa only [primaryKey, hswapped, if_true] using h.rightKey p hp
      · simpa only [secondaryKey, hswapped, if_true] using h.leftKey q hq
      · simpa only [fits, hswapped, if_true] using h.residual q hq p hp
    have pair : m.pair = fun r l => .tuple [l, r] := by
      funext r l
      rw [JoinMeaning.pair, if_pos hswapped]
    have preserves : m.preserves = true := by simp [preserves, hkind]
    have run := run_eq_loopPairs evaluates
    simp only [hswapped, hkind, pair, preserves, if_true, reduceCtorEq, if_false,
      List.append_nil] at run
    rw [run, hkind]
    rfl
  · have hswapped : m.swapped = false := by simp [swapped, hkind]
    have evaluates : m.Evaluates (if m.swapped then right else left)
        (if m.swapped then left else right) enabled leftKey rightKey residual := by
      simp only [hswapped, Bool.false_eq_true, if_false]
      refine ⟨h.enabled, fun p hp => ?_, fun q hq => ?_, fun p hp q hq => ?_⟩
      · simpa only [primaryKey, hswapped, Bool.false_eq_true, if_false] using h.leftKey p hp
      · simpa only [secondaryKey, hswapped, Bool.false_eq_true, if_false] using h.rightKey q hq
      · simpa only [fits, hswapped, Bool.false_eq_true, if_false] using h.residual p hp q hq
    have pair : m.pair = fun l r => .tuple [l, r] := by
      funext l r
      rw [JoinMeaning.pair, hswapped]
      rfl
    have run := run_eq_loopPairs evaluates
    simp only [hswapped, pair, Bool.false_eq_true, if_false] at run
    have partner : ∀ l ∈ left, ∀ r ∈ right,
        (enabled && sameKey (leftKey l) (rightKey r) && residual l r) =
          Evaluates.partner enabled leftKey rightKey residual l r := by
      intro l hl r hr
      rw [Evaluates.partner, comm l hl r hr]
    rw [run, JoinKind.nestedLoop_congr partner]
    cases hm : m.kind with
    | right => exact absurd hm hkind
    | inner | cross | left => simp [preserves, hm, JoinKind.nestedLoop]
    | outer => simp [preserves, hm, JoinKind.nestedLoop]

end JoinMeaning
end DataExpr
