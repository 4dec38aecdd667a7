import DataExpr.Value.Entries
import Mathlib.Data.List.Forall2

/-!
# Proper values

The elements of a set and the keys of a dictionary are distinct, at every depth.  On proper
values equality is an equivalence although it disregards the order of sets and dictionaries: it is
transitive because each element is passed on, and symmetric because distinct elements have
distinct partners, so that among equally many none is left without one.
-/

namespace DataExpr

namespace Value

mutual

/-- Every set has distinct elements and every dictionary distinct keys. -/
def Proper : Value → Prop
  | .list items | .tuple items => ProperAll items
  | .set items => ProperAll items ∧ items.Pairwise fun a b => beq a b = false
  | .dict entries => ProperEntries entries ∧ entries.Pairwise fun a b => beq a.1 b.1 = false
  | .null | .bool _ | .int _ | .float _ | .str _ | .function _ | .object .. => True

def ProperAll : List Value → Prop
  | [] => True
  | v :: rest => Proper v ∧ ProperAll rest

def ProperEntries : List (Value × Value) → Prop
  | [] => True
  | (k, v) :: rest => Proper k ∧ Proper v ∧ ProperEntries rest

end

theorem ProperAll.of_mem {items : List Value} (h : ProperAll items) {v : Value}
    (hv : v ∈ items) : Proper v := by
  induction items with
  | nil => cases hv
  | cons a rest ih =>
    simp only [ProperAll] at h
    rcases List.mem_cons.1 hv with rfl | hv
    · exact h.1
    · exact ih h.2 hv

theorem ProperEntries.of_mem {entries : List (Value × Value)} (h : ProperEntries entries)
    {e : Value × Value} (he : e ∈ entries) : Proper e.1 ∧ Proper e.2 := by
  induction entries with
  | nil => cases he
  | cons a rest ih =>
    simp only [ProperEntries] at h
    rcases List.mem_cons.1 he with rfl | he
    · exact ⟨h.1, h.2.1⟩
    · exact ih h.2.2 he

/-! ### Containment -/

theorem subset_eq_true {as bs : List Value} :
    subset as bs = true ↔ ∀ a ∈ as, ∃ b ∈ bs, beq a b = true := by
  induction as with
  | nil => simp [subset]
  | cons a rest ih => simp [subset, ih]

theorem subsetEntries_eq_true {as bs : List (Value × Value)} :
    subsetEntries as bs = true ↔
      ∀ a ∈ as, ∃ b ∈ bs, beq a.1 b.1 = true ∧ beq a.2 b.2 = true := by
  induction as with
  | nil => simp [subsetEntries]
  | cons a rest ih =>
    obtain ⟨k, v⟩ := a
    simp only [subsetEntries, memEntry, Bool.and_eq_true, List.any_eq_true, ih,
      List.forall_mem_cons]

/-! ### Transitivity -/

mutual

/-- Values equal to one value are equal, in the order in which they are compared. -/
theorem beq_trans : (a b c : Value) → beq a b = true → beq b c = true → beq a c = true
  | .null, b, c, h, h' | .bool _, b, c, h, h' | .int _, b, c, h, h' | .float _, b, c, h, h'
  | .str _, b, c, h, h' | .function _, b, c, h, h' | .object .., b, c, h, h' => by
    cases b <;> simp only [beq, Bool.false_eq_true, beq_iff_eq] at h
    cases c <;> simp_all only [beq, Bool.false_eq_true, beq_iff_eq]
  | .list as, b, c, h, h' | .tuple as, b, c, h, h' => by
    cases b <;> simp only [beq, Bool.false_eq_true] at h
    cases c <;> simp only [beq, Bool.false_eq_true] at h'
    simpa only [beq] using beqAll_trans as _ _ h h'
  | .set as, b, c, h, h' => by
    cases b <;> simp only [beq, Bool.false_eq_true, Bool.and_eq_true, beq_iff_eq] at h
    cases c <;> simp only [beq, Bool.false_eq_true, Bool.and_eq_true, beq_iff_eq] at h'
    simp only [beq, Bool.and_eq_true, beq_iff_eq]
    exact ⟨h.1.trans h'.1, subset_trans as _ _ h.2 h'.2⟩
  | .dict as, b, c, h, h' => by
    cases b <;> simp only [beq, Bool.false_eq_true, Bool.and_eq_true, beq_iff_eq] at h
    cases c <;> simp only [beq, Bool.false_eq_true, Bool.and_eq_true, beq_iff_eq] at h'
    simp only [beq, Bool.and_eq_true, beq_iff_eq]
    exact ⟨h.1.trans h'.1, subsetEntries_trans as _ _ h.2 h'.2⟩

theorem beqAll_trans : (as bs cs : List Value) → beqAll as bs = true → beqAll bs cs = true →
    beqAll as cs = true
  | [], bs, cs, h, h' => by cases bs <;> simp_all only [beqAll, Bool.false_eq_true]
  | a :: as, bs, cs, h, h' => by
    cases bs <;> simp only [beqAll, Bool.false_eq_true, Bool.and_eq_true] at h
    cases cs <;> simp only [beqAll, Bool.false_eq_true, Bool.and_eq_true] at h'
    simp only [beqAll, Bool.and_eq_true]
    exact ⟨beq_trans a _ _ h.1 h'.1, beqAll_trans as _ _ h.2 h'.2⟩

theorem subset_trans : (as bs cs : List Value) → subset as bs = true → subset bs cs = true →
    subset as cs = true
  | [], _, _, _, _ => by simp only [subset]
  | a :: as, bs, cs, h, h' => by
    simp only [subset, Bool.and_eq_true, List.any_eq_true] at h ⊢
    obtain ⟨⟨b, hb, hab⟩, hrest⟩ := h
    obtain ⟨c, hc, hbc⟩ := subset_eq_true.1 h' b hb
    exact ⟨⟨c, hc, beq_trans a b c hab hbc⟩, subset_trans as bs cs hrest h'⟩

theorem subsetEntries_trans : (as bs cs : List (Value × Value)) → subsetEntries as bs = true →
    subsetEntries bs cs = true → subsetEntries as cs = true
  | [], _, _, _, _ => by simp only [subsetEntries]
  | (k, v) :: as, bs, cs, h, h' => by
    simp only [subsetEntries, memEntry, Bool.and_eq_true, List.any_eq_true] at h ⊢
    obtain ⟨⟨b, hb, hkb, hvb⟩, hrest⟩ := h
    obtain ⟨c, hc, hbc⟩ := subsetEntries_eq_true.1 h' b hb
    exact ⟨⟨c, hc, beq_trans k _ _ hkb hbc.1, beq_trans v _ _ hvb hbc.2⟩,
      subsetEntries_trans as bs cs hrest h'⟩

end

/-! ### Symmetry -/

/-- If each element of a list has a partner that no later element has, and the other list is not
    longer, then the other list can be arranged so that partners stand in the same places. -/
theorem exists_arrangement {α β : Type} (r : α → β → Prop) (as : List α) (bs : List β)
    (apart : as.Pairwise fun a a' => ∀ b, r a b → ¬ r a' b)
    (total : ∀ a ∈ as, ∃ b ∈ bs, r a b) (short : bs.length ≤ as.length) :
    ∃ cs : List β, cs.Perm bs ∧ List.Forall₂ r as cs := by
  induction as generalizing bs with
  | nil =>
    have : bs = [] := List.length_eq_zero_iff.1 (by simpa using short)
    exact ⟨[], this ▸ .nil, .nil⟩
  | cons a as ih =>
    obtain ⟨ha, apart⟩ := List.pairwise_cons.1 apart
    obtain ⟨b₀, hb₀, hab₀⟩ := total a List.mem_cons_self
    obtain ⟨front, back, rfl⟩ := List.append_of_mem hb₀
    -- the partner of `a` is taken out; what is left still serves the other elements
    have rest : ∃ cs : List β, cs.Perm (front ++ back) ∧ List.Forall₂ r as cs := by
      apply ih _ apart
      · intro a' ha'
        obtain ⟨b, hb, hab⟩ := total a' (List.mem_cons_of_mem a ha')
        refine ⟨b, ?_, hab⟩
        have : b ≠ b₀ := by
          rintro rfl
          exact ha a' ha' b hab₀ hab
        simpa [this] using hb
      · simp only [List.length_append, List.length_cons] at short ⊢
        omega
    obtain ⟨cs, perm, partners⟩ := rest
    exact ⟨b₀ :: cs, (perm.cons b₀).trans List.perm_middle.symm, .cons hab₀ partners⟩

/-- All of the other list are partners then. -/
theorem partners_exhaust {α β : Type} (r : α → β → Prop) (as : List α) (bs : List β)
    (apart : as.Pairwise fun a a' => ∀ b, r a b → ¬ r a' b)
    (total : ∀ a ∈ as, ∃ b ∈ bs, r a b) (short : bs.length ≤ as.length) :
    ∀ b ∈ bs, ∃ a ∈ as, r a b := by
  obtain ⟨cs, perm, partners⟩ := exists_arrangement r as bs apart total short
  intro b hb
  obtain ⟨i, hi, rfl⟩ := List.getElem_of_mem (perm.mem_iff.2 hb)
  obtain ⟨length, at_index⟩ := List.forall₂_iff_get.1 partners
  exact ⟨as[i], List.getElem_mem _, at_index i (length ▸ hi) hi⟩

/-- No value equals two distinct ones. -/
theorem apart_of_distinct {a a' b : Value} (distinct : beq a a' = false)
    (symm : beq a' b = true → beq b a' = true) (h : beq a b = true) : ¬ beq a' b = true := by
  intro h'
  have := beq_trans a b a' h (symm h')
  simp [distinct] at this

mutual

/-- Equality with a proper value is symmetric. -/
theorem beq_symm : (a b : Value) → Proper a → beq a b = true → beq b a = true
  | .null, b, _, h | .bool _, b, _, h | .int _, b, _, h | .float _, b, _, h | .str _, b, _, h
  | .function _, b, _, h | .object .., b, _, h => by
    cases b <;> simp_all [beq]
  | .list as, b, proper, h | .tuple as, b, proper, h => by
    cases b <;> simp only [beq, Bool.false_eq_true] at h
    simp only [Proper] at proper
    simpa only [beq] using beqAll_symm as _ proper h
  | .set as, b, proper, h => by
    cases b <;> simp only [beq, Bool.false_eq_true, Bool.and_eq_true, beq_iff_eq] at h
    rename_i bs
    simp only [Proper] at proper
    have symm := symm_of_mem as proper.1
    simp only [beq, Bool.and_eq_true, beq_iff_eq, subset_eq_true]
    refine ⟨h.1.symm, ?_⟩
    intro b hb
    have apart : as.Pairwise fun a a' => ∀ b, beq a b = true → ¬ beq a' b = true :=
      proper.2.imp_of_mem fun _ ha' distinct b => apart_of_distinct distinct (symm _ ha' b)
    obtain ⟨a, ha, hab⟩ := partners_exhaust (fun a b => beq a b = true) as bs apart
      (subset_eq_true.1 h.2) (Nat.le_of_eq h.1.symm) b hb
    exact ⟨a, ha, symm a ha b hab⟩
  | .dict as, b, proper, h => by
    cases b <;> simp only [beq, Bool.false_eq_true, Bool.and_eq_true, beq_iff_eq] at h
    rename_i bs
    simp only [Proper] at proper
    have symm := symm_of_mem_entries as proper.1
    simp only [beq, Bool.and_eq_true, beq_iff_eq, subsetEntries_eq_true]
    refine ⟨h.1.symm, ?_⟩
    intro b hb
    have apart : as.Pairwise fun a a' => ∀ b : Value × Value,
        beq a.1 b.1 = true ∧ beq a.2 b.2 = true → ¬ (beq a'.1 b.1 = true ∧ beq a'.2 b.2 = true) :=
      proper.2.imp_of_mem fun _ ha' distinct b hab hab' =>
        apart_of_distinct distinct ((symm _ ha').1 b.1) hab.1 hab'.1
    obtain ⟨a, ha, hab⟩ := partners_exhaust
      (fun a b : Value × Value => beq a.1 b.1 = true ∧ beq a.2 b.2 = true) as bs apart
      (subsetEntries_eq_true.1 h.2) (Nat.le_of_eq h.1.symm) b hb
    exact ⟨a, ha, (symm a ha).1 b.1 hab.1, (symm a ha).2 b.2 hab.2⟩

theorem beqAll_symm : (as bs : List Value) → ProperAll as → beqAll as bs = true →
    beqAll bs as = true
  | [], bs, _, h => by cases bs <;> simp_all only [beqAll, Bool.false_eq_true]
  | a :: as, bs, proper, h => by
    cases bs <;> simp only [beqAll, Bool.false_eq_true, Bool.and_eq_true] at h
    simp only [ProperAll] at proper
    simp only [beqAll, Bool.and_eq_true]
    exact ⟨beq_symm a _ proper.1 h.1, beqAll_symm as _ proper.2 h.2⟩

theorem symm_of_mem : (as : List Value) → ProperAll as →
    ∀ a ∈ as, ∀ b, beq a b = true → beq b a = true
  | [], _ => by simp
  | a :: as, proper => by
    simp only [ProperAll] at proper
    rw [List.forall_mem_cons]
    constructor
    · intro b h
      exact beq_symm a b proper.1 h
    · exact symm_of_mem as proper.2

theorem symm_of_mem_entries : (as : List (Value × Value)) → ProperEntries as →
    ∀ a ∈ as, (∀ b, beq a.1 b = true → beq b a.1 = true) ∧
      ∀ b, beq a.2 b = true → beq b a.2 = true
  | [], _ => by simp
  | (k, v) :: as, proper => by
    simp only [ProperEntries] at proper
    rw [List.forall_mem_cons]
    constructor
    · exact ⟨fun b h => beq_symm k b proper.1 h, fun b h => beq_symm v b proper.2.1 h⟩
    · exact symm_of_mem_entries as proper.2.2

end

/-- Two proper values are equal in either order. -/
theorem Proper.beq_comm {a b : Value} (ha : Proper a) (hb : Proper b) :
    (a == b) = (b == a) :=
  Bool.eq_iff_iff.2 ⟨beq_symm a b ha, beq_symm b a hb⟩

/-- Equal keys are found under the same entries. -/
theorem Proper.beq_congr {a b c : Value} (ha : Proper a) (h : (a == b) = true) :
    (c == a) = (c == b) :=
  Bool.eq_iff_iff.2
    ⟨fun h' => beq_trans c a b h' h, fun h' => beq_trans c b a h' (beq_symm a b ha h)⟩

end Value
end DataExpr
