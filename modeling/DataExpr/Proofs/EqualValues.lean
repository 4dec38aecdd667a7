import DataExpr.Proofs.ProperValues
import DataExpr.Proofs.SharingPattern

/-!
# Equality, order of insertion and hashing

Two proper values are equal exactly when one becomes the other by reordering the sets and
dictionaries in it, at any depth (`beq_iff_reordered`).  What a value feeds to a hasher shows of a
set or a dictionary the size only, so it is the same for equal values; it determines a value up to
likeness (`alike_iff_fed_eq`).
-/

namespace DataExpr.Value

/-! ### Reordering -/

/-- The second value is the first one with sets and dictionaries in it filled in another order.
    Handles of the host with one identity are one handle. -/
inductive Reordered : Value → Value → Prop
  | refl (v : Value) : Reordered v v
  | trans {u v w : Value} (huv : Reordered u v) (hvw : Reordered v w) : Reordered u w
  | set {items items' : List Value} (h : items.Perm items') : Reordered (.set items) (.set items')
  | dict {entries entries' : List (Value × Value)} (h : entries.Perm entries') :
      Reordered (.dict entries) (.dict entries')
  | inList (front back : List Value) {v w : Value} (h : Reordered v w) :
      Reordered (.list (front ++ v :: back)) (.list (front ++ w :: back))
  | inTuple (front back : List Value) {v w : Value} (h : Reordered v w) :
      Reordered (.tuple (front ++ v :: back)) (.tuple (front ++ w :: back))
  | inSet (front back : List Value) {v w : Value} (h : Reordered v w) :
      Reordered (.set (front ++ v :: back)) (.set (front ++ w :: back))
  | inKey (front back : List (Value × Value)) (value : Value) {k l : Value} (h : Reordered k l) :
      Reordered (.dict (front ++ (k, value) :: back)) (.dict (front ++ (l, value) :: back))
  | inEntry (front back : List (Value × Value)) (key : Value) {v w : Value} (h : Reordered v w) :
      Reordered (.dict (front ++ (key, v) :: back)) (.dict (front ++ (key, w) :: back))
  | function {f g : Function} (h : f.id = g.id) : Reordered (.function f) (.function g)
  | object {i j : Nat} {s t : String} {as bs : List (String × Value)} (h : i = j) :
      Reordered (.object i s as) (.object j t bs)

theorem beqAll_replace (front back : List Value) {v w : Value} (h : beq v w = true) :
    beqAll (front ++ v :: back) (front ++ w :: back) = true := by
  induction front with
  | nil => simp [beqAll, h, beqAll_self]
  | cons a front ih => simp [beqAll, beq_self, ih]

theorem beq_set_of_members {items items' : List Value} (length : items.length = items'.length)
    (h : ∀ v ∈ items, ∃ w ∈ items', beq v w = true) : beq (.set items) (.set items') = true := by
  simp only [beq, Bool.and_eq_true, beq_iff_eq]
  exact ⟨length, subset_eq_true.mpr h⟩

theorem beq_dict_of_members {entries entries' : List (Value × Value)}
    (length : entries.length = entries'.length)
    (h : ∀ e ∈ entries, ∃ e' ∈ entries', beq e.1 e'.1 = true ∧ beq e.2 e'.2 = true) :
    beq (.dict entries) (.dict entries') = true := by
  simp only [beq, Bool.and_eq_true, beq_iff_eq]
  exact ⟨length, subsetEntries_eq_true.mpr h⟩

/-- The members of a list are found again when one of them is replaced. -/
theorem exists_of_replace {α : Type} {r : α → α → Prop} (refl : ∀ a, r a a) {front back : List α}
    {a b : α} (h : r a b) : ∀ c ∈ front ++ a :: back, ∃ d ∈ front ++ b :: back, r c d := by
  intro c hc
  rcases List.mem_append.mp hc with hc | hc
  · exact ⟨c, List.mem_append_left _ hc, refl c⟩
  · rcases List.mem_cons.mp hc with rfl | hc
    · exact ⟨b, by simp, h⟩
    · exact ⟨c, by simp [hc], refl c⟩

/-- The order of insertion does not matter. -/
theorem beq_of_reordered {v w : Value} (h : Reordered v w) : beq v w = true := by
  have entry (e : Value × Value) : beq e.1 e.1 = true ∧ beq e.2 e.2 = true :=
    ⟨beq_self e.1, beq_self e.2⟩
  induction h with
  | refl v => exact beq_self v
  | trans _ _ ih ih' => exact beq_trans _ _ _ ih ih'
  | set h => exact beq_set_of_members h.length_eq fun v hv => ⟨v, h.mem_iff.mp hv, beq_self v⟩
  | dict h => exact beq_dict_of_members h.length_eq fun e he => ⟨e, h.mem_iff.mp he, entry e⟩
  | inList front back _ ih => simpa only [beq] using beqAll_replace front back ih
  | inTuple front back _ ih => simpa only [beq] using beqAll_replace front back ih
  | inSet front back _ ih =>
    exact beq_set_of_members (by simp)
      (exists_of_replace (r := fun v w => beq v w = true) beq_self ih)
  | inKey front back value _ ih =>
    exact beq_dict_of_members (by simp) (exists_of_replace
      (r := fun e e' : Value × Value => beq e.1 e'.1 = true ∧ beq e.2 e'.2 = true) entry
      ⟨ih, beq_self value⟩)
  | inEntry front back key _ ih =>
    exact beq_dict_of_members (by simp) (exists_of_replace
      (r := fun e e' : Value × Value => beq e.1 e'.1 = true ∧ beq e.2 e'.2 = true) entry
      ⟨beq_self key, ih⟩)
  | function h => simpa only [beq, beq_iff_eq] using h
  | object h => simpa only [beq, beq_iff_eq] using h

/-! ### Equal values are reordered -/

/-- One member after the other is reordered. -/
theorem Reordered.members {α : Type} {r : α → α → Prop} (wrap : List α → Value)
    (step : ∀ (front back : List α) {a b : α}, r a b →
      Reordered (wrap (front ++ a :: back)) (wrap (front ++ b :: back)))
    {as bs : List α} (h : List.Forall₂ r as bs) (front : List α) :
    Reordered (wrap (front ++ as)) (wrap (front ++ bs)) := by
  induction h generalizing front with
  | nil => exact .refl _
  | @cons a b as bs hab _ ih =>
    have rest := ih (front ++ [b])
    rw [List.append_assoc, List.append_assoc] at rest
    exact .trans (step front as hab) rest

mutual

/-- Values equal to a proper value are reorderings of it. -/
theorem reordered_of_beq : (v w : Value) → Proper v → beq v w = true → Reordered v w
  | .null, w, _, h | .bool _, w, _, h | .int _, w, _, h | .float _, w, _, h | .str _, w, _, h => by
    cases w <;> simp only [beq, Bool.false_eq_true, beq_iff_eq] at h
    first | exact .refl _ | exact h ▸ .refl _
  | .function _, w, _, h => by
    cases w <;> simp only [beq, Bool.false_eq_true, beq_iff_eq] at h
    exact .function h
  | .object .., w, _, h => by
    cases w <;> simp only [beq, Bool.false_eq_true, beq_iff_eq] at h
    exact .object h
  | .list as, w, proper, h => by
    cases w <;> simp only [beq, Bool.false_eq_true] at h
    exact .members .list .inList (reordered_of_beqAll as _ proper h) []
  | .tuple as, w, proper, h => by
    cases w <;> simp only [beq, Bool.false_eq_true] at h
    exact .members .tuple .inTuple (reordered_of_beqAll as _ proper h) []
  -- Distinct members have distinct partners, and there are as many: the partners are a
  -- rearrangement of the other set.
  | .set as, w, proper, h => by
    cases w <;> simp only [beq, Bool.false_eq_true, Bool.and_eq_true, beq_iff_eq] at h
    rename_i bs
    have apart : as.Pairwise fun a a' => ∀ b,
        (beq a b = true ∧ Reordered a b) → ¬ (beq a' b = true ∧ Reordered a' b) :=
      proper.2.imp_of_mem fun _ ha' distinct b hab hab' =>
        apart_of_distinct distinct (beq_symm _ b (proper.1.of_mem ha')) hab.1 hab'.1
    have total (a) (ha : a ∈ as) : ∃ b ∈ bs, beq a b = true ∧ Reordered a b := by
      obtain ⟨b, hb, hab⟩ := subset_eq_true.mp h.2 a ha
      exact ⟨b, hb, hab, reordered_of_mem as proper.1 a ha b hab⟩
    obtain ⟨cs, perm, partners⟩ := exists_arrangement _ as bs apart total (Nat.le_of_eq h.1.symm)
    have reordered := Reordered.members .set .inSet (partners.imp fun _ _ h => h.2) []
    exact .trans reordered (.set perm)
  | .dict as, w, proper, h => by
    cases w <;> simp only [beq, Bool.false_eq_true, Bool.and_eq_true, beq_iff_eq] at h
    rename_i bs
    let r (a b : Value × Value) : Prop := beq a.1 b.1 = true ∧ Reordered a.1 b.1 ∧ Reordered a.2 b.2
    have apart : as.Pairwise fun a a' => ∀ b, r a b → ¬ r a' b :=
      proper.2.imp_of_mem fun _ ha' distinct b hab hab' =>
        apart_of_distinct distinct (beq_symm _ b.1 (proper.1.of_mem ha').1) hab.1 hab'.1
    have total (a) (ha : a ∈ as) : ∃ b ∈ bs, r a b := by
      obtain ⟨b, hb, hkey, hvalue⟩ := subsetEntries_eq_true.mp h.2 a ha
      obtain ⟨key, value⟩ := reordered_of_mem_entries as proper.1 a ha
      exact ⟨b, hb, hkey, key b.1 hkey, value b.2 hvalue⟩
    obtain ⟨cs, perm, partners⟩ := exists_arrangement r as bs apart total (Nat.le_of_eq h.1.symm)
    have step (front back : List (Value × Value)) {a b : Value × Value} (hab : r a b) :
        Reordered (.dict (front ++ a :: back)) (.dict (front ++ b :: back)) :=
      .trans (.inKey front back a.2 hab.2.1) (.inEntry front back b.1 hab.2.2)
    have reordered := Reordered.members .dict step partners []
    exact .trans reordered (.dict perm)

theorem reordered_of_beqAll : (as bs : List Value) → ProperAll as → beqAll as bs = true →
    List.Forall₂ Reordered as bs
  | [], bs, _, h => by
    cases bs <;> simp only [beqAll, Bool.false_eq_true] at h
    exact .nil
  | a :: as, bs, proper, h => by
    cases bs <;> simp only [beqAll, Bool.false_eq_true, Bool.and_eq_true] at h
    exact .cons (reordered_of_beq a _ proper.1 h.1) (reordered_of_beqAll as _ proper.2 h.2)

theorem reordered_of_mem : (as : List Value) → ProperAll as →
    ∀ a ∈ as, ∀ b, beq a b = true → Reordered a b
  | [], _ => fun _ ha => absurd ha List.not_mem_nil
  | a :: as, proper => by
    rw [List.forall_mem_cons]
    exact ⟨fun b h => reordered_of_beq a b proper.1 h, reordered_of_mem as proper.2⟩

theorem reordered_of_mem_entries : (as : List (Value × Value)) → ProperEntries as →
    ∀ a ∈ as, (∀ b, beq a.1 b = true → Reordered a.1 b) ∧
      ∀ b, beq a.2 b = true → Reordered a.2 b
  | [], _ => fun _ ha => absurd ha List.not_mem_nil
  | (k, v) :: as, proper => by
    rw [List.forall_mem_cons]
    exact ⟨⟨fun b h => reordered_of_beq k b proper.1 h,
      fun b h => reordered_of_beq v b proper.2.1 h⟩, reordered_of_mem_entries as proper.2.2⟩

end

/-- Equality of proper values is reordering. -/
theorem beq_iff_reordered {v w : Value} (proper : Proper v) :
    (v == w) = true ↔ Reordered v w :=
  ⟨reordered_of_beq v w proper, beq_of_reordered⟩

/-! ### What a hasher is fed -/

/-- One write to a hasher. -/
inductive Feed where
  /-- The position of a constructor among those of values. -/
  | variant (n : Nat)
  | bool (b : Bool)
  | int (n : Int64)
  /-- The bit pattern of a double. -/
  | bits (w : UInt64)
  | text (s : String)
  /-- The number of elements of a container. -/
  | size (n : Nat)
  /-- The identity of a handle of the host. -/
  | identity (id : Nat)
deriving DecidableEq

mutual

/-- What a value feeds to a hasher, write by write.  Equality disregards the order of sets and
    dictionaries, so they feed their size only. -/
def fed : Value → List Feed
  | .null => [.variant 0]
  | .bool b => [.variant 1, .bool b]
  | .int n => [.variant 2, .int n]
  | .float x => [.variant 3, .bits x.bits]
  | .str s => [.variant 4, .text s]
  | .list items => .variant 5 :: .size items.length :: fedAll items
  | .tuple items => .variant 6 :: .size items.length :: fedAll items
  | .set items => [.variant 7, .size items.length]
  | .dict entries => [.variant 8, .size entries.length]
  | .function f => [.variant 9, .identity f.id]
  | .object id _ _ => [.variant 10, .identity id]

def fedAll : List Value → List Feed
  | [] => []
  | v :: vs => fed v ++ fedAll vs

end

mutual

/-- Alike values feed the same. -/
theorem fed_eq_of_alike : (v w : Value) → v.alike w = true → v.fed = w.fed
  | .null, w, h | .bool _, w, h | .int _, w, h | .float _, w, h | .str _, w, h
  | .function _, w, h | .object .., w, h | .set _, w, h | .dict _, w, h => by
    cases w <;> simp only [alike, Bool.false_eq_true, beq_iff_eq] at h
    simp only [fed, h]
  | .list as, w, h | .tuple as, w, h => by
    cases w <;> simp only [alike, Bool.false_eq_true] at h
    obtain ⟨length, all⟩ := fedAll_eq_of_alikeAll as _ h
    simp only [fed, length, all]

theorem fedAll_eq_of_alikeAll : (vs ws : List Value) → alikeAll vs ws = true →
    vs.length = ws.length ∧ fedAll vs = fedAll ws
  | [], ws, h => by
    cases ws <;> simp only [alikeAll, Bool.false_eq_true] at h
    exact ⟨rfl, rfl⟩
  | v :: vs, ws, h => by
    cases ws <;> simp only [alikeAll, Bool.false_eq_true, Bool.and_eq_true] at h
    obtain ⟨length, all⟩ := fedAll_eq_of_alikeAll vs _ h.2
    exact ⟨congrArg (· + 1) length, by simp only [fedAll, fed_eq_of_alike v _ h.1, all]⟩

end

mutual

/-- What is fed tells where a value ends, and the value up to likeness. -/
theorem alike_of_fed_append : (v w : Value) → (rest rest' : List Feed) →
    v.fed ++ rest = w.fed ++ rest' → v.alike w = true ∧ rest = rest'
  | .null, w, rest, rest', h | .bool _, w, rest, rest', h | .int _, w, rest, rest', h
  | .str _, w, rest, rest', h | .function _, w, rest, rest', h | .object .., w, rest, rest', h
  | .set _, w, rest, rest', h | .dict _, w, rest, rest', h => by
    cases w <;> simp only [fed, List.cons_append, List.nil_append, List.cons.injEq,
      Feed.variant.injEq, Nat.reduceEqDiff, Nat.succ_ne_self, Nat.zero_ne_one, reduceCtorEq,
      false_and, and_self] at h
    simp_all [alike]
  | .float x, w, rest, rest', h => by
    cases w <;> simp only [fed, List.cons_append, List.nil_append, List.cons.injEq,
      Feed.variant.injEq, Nat.reduceEqDiff, Nat.succ_ne_self, reduceCtorEq, Feed.bits.injEq,
      true_and, false_and] at h
    rename_i y
    have same : x = y := by
      cases x
      cases y
      simpa using h.1
    exact ⟨by simp [alike, same], h.2⟩
  | .list as, w, rest, rest', h | .tuple as, w, rest, rest', h => by
    cases w <;> simp only [fed, List.cons_append, List.nil_append, List.cons.injEq,
      Feed.variant.injEq, Nat.reduceEqDiff, Nat.succ_ne_self, reduceCtorEq, Feed.size.injEq,
      true_and, false_and] at h
    obtain ⟨length, h⟩ := h
    simpa only [alike] using alikeAll_of_fedAll_append as _ rest rest' length h

theorem alikeAll_of_fedAll_append : (vs ws : List Value) → (rest rest' : List Feed) →
    vs.length = ws.length → fedAll vs ++ rest = fedAll ws ++ rest' →
      alikeAll vs ws = true ∧ rest = rest'
  | [], ws, rest, rest', length, h => by
    cases ws with
    | nil => exact ⟨rfl, h⟩
    | cons => cases length
  | v :: vs, ws, rest, rest', length, h => by
    cases ws with
    | nil => cases length
    | cons w ws =>
      simp only [fedAll, List.append_assoc] at h
      obtain ⟨alike, h⟩ := alike_of_fed_append v w _ _ h
      obtain ⟨all, h⟩ := alikeAll_of_fedAll_append vs ws rest rest' (Nat.succ.inj length) h
      exact ⟨by rw [alikeAll, alike, all]; rfl, h⟩

end

/-- Likeness of values is equality of what they feed to a hasher. -/
theorem alike_iff_fed_eq {v w : Value} : v.alike w = true ↔ v.fed = w.fed :=
  ⟨fed_eq_of_alike v w, fun h => (alike_of_fed_append v w [] [] (by rw [h])).1⟩

/-! ### Equality and hashing -/

/-- **Equality of values is an equivalence that hashing respects.**  It is reflexive, symmetric and
    transitive, it holds of two values exactly when they differ in the order of sets and
    dictionaries only, at any depth, so that reordering does not change it, and equal values feed
    the same to a hasher. -/
theorem equality_respects_order_and_hashing (a b c : Value) (ha : Proper a) (hb : Proper b) :
    (a == a) = true ∧ ((a == b) = true → (b == a) = true) ∧
      ((a == b) = true → (b == c) = true → (a == c) = true) ∧
      ((a == b) = true ↔ Reordered a b) ∧
      (∀ a' b', Reordered a a' → Reordered b b' → (a' == b') = (a == b)) ∧
      ((a == b) = true → a.fed = b.fed) := by
  have reordering (a' b' : Value) (haa' : Reordered a a') (hbb' : Reordered b b') :
      (a' == b') = (a == b) := by
    have forth := beq_of_reordered haa'
    have forth' := beq_of_reordered hbb'
    rw [Bool.eq_iff_iff]
    constructor
    · intro h
      exact beq_trans a a' b forth (beq_trans a' b' b h (beq_symm b b' hb forth'))
    · intro h
      exact beq_trans a' a b' (beq_symm a a' ha forth) (beq_trans a b b' h forth')
  have hashing (h : (a == b) = true) : a.fed = b.fed := alike_iff_fed_eq.mp (alike_of_beq a b h)
  exact ⟨beq_self a, beq_symm a b ha, beq_trans a b c, beq_iff_reordered ha, reordering, hashing⟩

/-- A dictionary with a set as a key, and the same one filled in the other order. -/
def tagged : Value :=
  .dict [(.set [.int 1, .int 2], .list [.dict [(.str "a", .null), (.str "b", .bool true)]]),
    (.str "k", .null)]

def taggedBack : Value :=
  .dict [(.str "k", .null),
    (.set [.int 2, .int 1], .list [.dict [(.str "b", .bool true), (.str "a", .null)]])]

/-- The orders of the entries, of the key and of the nested dictionary do not matter together. -/
theorem equality_respects_order_and_hashing_tagged : Proper tagged ∧ Proper taggedBack ∧
    (tagged == taggedBack) = true ∧ (taggedBack == tagged) = true ∧ Reordered tagged taggedBack ∧
      tagged.fed = taggedBack.fed := by
  have proper : Proper tagged := by
    simp only [tagged, Proper, ProperAll, ProperEntries, List.pairwise_pair, and_true, true_and]
    decide +kernel
  have proper' : Proper taggedBack := by
    simp only [taggedBack, Proper, ProperAll, ProperEntries, List.pairwise_pair, and_true, true_and]
    decide +kernel
  have equal : (tagged == taggedBack) = true := by decide +kernel
  obtain ⟨-, symm, -, reordered, -, hashed⟩ :=
    equality_respects_order_and_hashing tagged taggedBack tagged proper proper'
  exact ⟨proper, proper', equal, symm equal, reordered.mp equal, hashed equal⟩

end DataExpr.Value
