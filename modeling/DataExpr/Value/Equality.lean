import DataExpr.Value.Basic

/-!
# Equality and likeness of values

Two values are equal when they have the same type and equal parts.  The order of
the elements does not matter for sets and dictionaries.  Functions and objects
are equal only to themselves.

Likeness is coarser: of a set or a dictionary it sees only the type and the
number of elements.  It decides which expressions share a compiled program.
-/

namespace DataExpr.Value

mutual

/-- Equality of values. -/
def beq : Value → Value → Bool
  | .null, .null => true
  | .bool a, .bool b => a == b
  | .int a, .int b => a == b
  | .float a, .float b => a == b
  | .str a, .str b => a == b
  | .list as, .list bs => beqAll as bs
  | .tuple as, .tuple bs => beqAll as bs
  | .set as, .set bs => as.length == bs.length && subset as bs
  | .dict as, .dict bs => as.length == bs.length && subsetEntries as bs
  | .function f, .function g => f.id == g.id
  | .object i _ _, .object j _ _ => i == j
  | _, _ => false
termination_by structural a => a

/-- Equality element by element. -/
def beqAll : List Value → List Value → Bool
  | [], [] => true
  | a :: as, b :: bs => beq a b && beqAll as bs
  | _, _ => false
termination_by structural as => as

/-- Whether each element of the first list is an element of the second. -/
def subset : List Value → List Value → Bool
  | [], _ => true
  | a :: as, bs => bs.any (fun b => beq a b) && subset as bs
termination_by structural as => as

/-- Whether each entry of the first list is an entry of the second. -/
def subsetEntries : List (Value × Value) → List (Value × Value) → Bool
  | [], _ => true
  | a :: as, bs => memEntry a bs && subsetEntries as bs
termination_by structural as => as

/-- Whether a list has an entry with an equal key and an equal value. -/
def memEntry : Value × Value → List (Value × Value) → Bool
  | (k, v), bs => bs.any fun b => beq k b.1 && beq v b.2
termination_by structural a => a

end

instance : BEq Value := ⟨beq⟩

mutual

/-- Likeness of values: equality that sees only the size of sets and dictionaries. -/
def alike : Value → Value → Bool
  | .null, .null => true
  | .bool a, .bool b => a == b
  | .int a, .int b => a == b
  | .float a, .float b => a == b
  | .str a, .str b => a == b
  | .list as, .list bs => alikeAll as bs
  | .tuple as, .tuple bs => alikeAll as bs
  | .set as, .set bs => as.length == bs.length
  | .dict as, .dict bs => as.length == bs.length
  | .function f, .function g => f.id == g.id
  | .object i _ _, .object j _ _ => i == j
  | _, _ => false

/-- Likeness element by element. -/
def alikeAll : List Value → List Value → Bool
  | [], [] => true
  | a :: as, b :: bs => alike a b && alikeAll as bs
  | _, _ => false

end

/-! ### Reflexivity -/

mutual

/-- Every value equals itself. -/
theorem beq_self : (v : Value) → beq v v = true
  | .null => by simp [beq]
  | .bool _ | .int _ | .float _ | .str _ | .function _ | .object .. => by simp [beq]
  | .list as | .tuple as => by simp [beq, beqAll_self as]
  | .set as => by simp [beq, subset_of_mem as as fun _ h => h]
  | .dict as => by simp [beq, subsetEntries_of_mem as as fun _ h => h]

theorem beqAll_self : (as : List Value) → beqAll as as = true
  | [] => by simp [beqAll]
  | a :: as => by simp [beqAll, beq_self a, beqAll_self as]

theorem subset_of_mem : (as bs : List Value) → (∀ a ∈ as, a ∈ bs) → subset as bs = true
  | [], _, _ => by simp [subset]
  | a :: as, bs, h => by
    have hs := subset_of_mem as bs fun x hx => h x (List.mem_cons_of_mem a hx)
    simp only [subset, hs, Bool.and_true, List.any_eq_true]
    exact ⟨a, h a List.mem_cons_self, beq_self a⟩

theorem subsetEntries_of_mem :
    (as bs : List (Value × Value)) → (∀ a ∈ as, a ∈ bs) → subsetEntries as bs = true
  | [], _, _ => by simp [subsetEntries]
  | (k, v) :: as, bs, h => by
    have hs := subsetEntries_of_mem as bs fun x hx => h x (List.mem_cons_of_mem (k, v) hx)
    simp only [subsetEntries, memEntry, hs, Bool.and_true, List.any_eq_true]
    exact ⟨(k, v), h (k, v) List.mem_cons_self, by simp [beq_self k, beq_self v]⟩

end

mutual

theorem alike_self : (v : Value) → alike v v = true
  | .null => by simp [alike]
  | .bool _ | .int _ | .float _ | .str _ | .set _ | .dict _ | .function _ | .object .. => by
    simp [alike]
  | .list as | .tuple as => by simp [alike, alikeAll_self as]

theorem alikeAll_self : (as : List Value) → alikeAll as as = true
  | [] => by simp [alikeAll]
  | a :: as => by simp [alikeAll, alike_self a, alikeAll_self as]

end

end DataExpr.Value
