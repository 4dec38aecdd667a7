import DataExpr.Value.Equality

/-!
# Stamps of values

A stamp is a word that is the same for equal values, so that a value has to be
compared only with the values of its own stamp.  Of a set or a dictionary the stamp
shows the number of elements.
-/

namespace DataExpr.Value

namespace Stamp

/-- A word that depends on two others. -/
def mix (h x : UInt64) : UInt64 := (h ^^^ x) * 0x9e3779b97f4a7c15 + 0x100000001b3

/-- The stamp of a text. -/
def ofText (h : UInt64) (text : List Char) : UInt64 :=
  text.foldl (fun h c => mix h c.toNat.toUInt64) h

end Stamp

open Stamp

mutual

/-- The stamp of a value. -/
def stamp : Value → UInt64
  | .null => 1
  | .bool b => if b then 2 else 3
  | .int n => mix 4 n.toUInt64
  | .float x => mix 5 x.bits
  | .str s => ofText 6 s.toList
  | .list items => mix 7 (stampAll items)
  | .tuple items => mix 8 (stampAll items)
  | .set items => mix 9 items.length.toUInt64
  | .dict entries => mix 10 entries.length.toUInt64
  | .function f => mix 11 f.id.toUInt64
  | .object id _ _ => mix 12 id.toUInt64

/-- The stamp of a list. -/
def stampAll : List Value → UInt64
  | [] => 0
  | v :: rest => mix v.stamp (stampAll rest)

end

mutual

/-- Equal values have the same stamp. -/
theorem stamp_eq_of_beq : (a b : Value) → beq a b = true → a.stamp = b.stamp
  | .null, b, h => by cases b <;> simp_all [beq]
  | .bool p, b, h => by cases b <;> simp_all [beq]
  | .int m, b, h => by cases b <;> simp_all [beq]
  | .float x, b, h => by cases b <;> simp_all [beq]
  | .str s, b, h => by cases b <;> simp_all [beq]
  | .list as, b, h => by
    cases b <;> simp only [beq, Bool.false_eq_true] at h
    simp only [stamp, stampAll_eq_of_beqAll as _ h]
  | .tuple as, b, h => by
    cases b <;> simp only [beq, Bool.false_eq_true] at h
    simp only [stamp, stampAll_eq_of_beqAll as _ h]
  | .set as, b, h => by
    cases b <;> simp only [beq, Bool.false_eq_true, Bool.and_eq_true, beq_iff_eq] at h
    simp only [stamp, h.1]
  | .dict as, b, h => by
    cases b <;> simp only [beq, Bool.false_eq_true, Bool.and_eq_true, beq_iff_eq] at h
    simp only [stamp, h.1]
  | .function f, b, h => by
    cases b <;> simp only [beq, Bool.false_eq_true, beq_iff_eq] at h
    simp only [stamp, h]
  | .object i _ _, b, h => by
    cases b <;> simp only [beq, Bool.false_eq_true, beq_iff_eq] at h
    simp only [stamp, h]

theorem stampAll_eq_of_beqAll :
    (as bs : List Value) → beqAll as bs = true → stampAll as = stampAll bs
  | [], [], _ => rfl
  | [], _ :: _, h => by simp [beqAll] at h
  | _ :: _, [], h => by simp [beqAll] at h
  | a :: as, b :: bs, h => by
    simp only [beqAll, Bool.and_eq_true] at h
    simp only [stampAll, stamp_eq_of_beq a b h.1, stampAll_eq_of_beqAll as bs h.2]

end

end DataExpr.Value
