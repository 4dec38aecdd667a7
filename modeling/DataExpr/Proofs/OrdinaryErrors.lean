import DataExpr.Eval.Op
import DataExpr.Proofs.KeyOrder
import DataExpr.Proofs.SortFailures

/-!
# Errors that do not blame the program

Some errors say that the program itself is not well formed: a group is read where no aggregate has
put one, or a reducer is fed with what its kind does not take (`Error.Defensive`).  What operations
on values say of their operands is never one of these.
-/

namespace DataExpr

variable {α β : Type}

/-- An error by which an evaluation blames the program. -/
@[simp] def Error.Defensive : Error → Prop
  | .invalidArgument _ reason =>
    reason = "group state read outside of its aggregate" ∨
      reason = "accumulator does not match reducer kind" ∨ reason = "missing key argument"
  | _ => False

/-- The first letter tells another reason from those by which the program is blamed. -/
theorem Error.not_defensive {callee reason : String} {c : Char} (h : reason.toList.head? = some c)
    (hc : c ∉ ['g', 'a', 'm']) : ¬(Error.invalidArgument callee reason).Defensive := by
  have other {blame : String} (hblame : ∃ b ∈ ['g', 'a', 'm'], blame.toList.head? = some b) :
      reason ≠ blame := by
    rintro rfl
    obtain ⟨b, hb, hfirst⟩ := hblame
    exact hc (Option.some.inj (h.symm.trans hfirst) ▸ hb)
  rintro (blames | blames | blames)
  · exact other ⟨'g', by decide, by decide⟩ blames
  · exact other ⟨'a', by decide, by decide⟩ blames
  · exact other ⟨'m', by decide, by decide⟩ blames

/-- A result with a property, or an error that does not blame the program. -/
inductive Ordinary (P : α → Prop) : Except Error α → Prop
  | ok {a : α} (h : P a) : Ordinary P (.ok a)
  | error {e : Error} (h : ¬e.Defensive) : Ordinary P (.error e)

/-- A computation that fails, if it does, with an error that does not blame the program. -/
abbrev Harmless (r : Except Error α) : Prop := Ordinary (fun _ => True) r

namespace Ordinary

variable {P : α → Prop} {Q : β → Prop}

@[simp] theorem ok_iff {a : α} : Ordinary P (.ok a) ↔ P a :=
  ⟨fun h => by cases h; assumption, .ok⟩

@[simp] theorem error_iff {e : Error} : Ordinary P (.error e) ↔ ¬e.Defensive :=
  ⟨fun h => by cases h; assumption, .error⟩

/-- A failure stays what it is where another result was expected. -/
theorem rethrow {e : Error} (h : Ordinary P (.error e : Except Error α)) :
    Ordinary Q (.error e : Except Error β) := .error (error_iff.mp h)

protected theorem pure {a : α} (h : P a) : Ordinary P (pure a) := .ok h

protected theorem throw {e : Error} (h : ¬e.Defensive) :
    Ordinary P (throw e : Except Error α) := .error h

theorem bind {r : Except Error α} {f : α → Except Error β} (hr : Ordinary P r)
    (hf : ∀ a, P a → Ordinary Q (f a)) : Ordinary Q (r >>= f) := by
  cases hr with
  | ok h => exact hf _ h
  | error h => exact .error h

theorem imp {P' : α → Prop} {r : Except Error α} (h : Ordinary P r) (himp : ∀ a, P a → P' a) :
    Ordinary P' r := by
  cases h with
  | ok h => exact .ok (himp _ h)
  | error h => exact .error h

theorem ite {r r' : Except Error α} (c : Prop) [Decidable c] (h : Ordinary P r)
    (h' : Ordinary P r') : Ordinary P (if c then r else r') := by
  split
  · exact h
  · exact h'

/-- What holds of the result of each element. -/
theorem mapM {f : α → Except Error β} {as : List α} (h : ∀ a ∈ as, Ordinary Q (f a)) :
    Ordinary (fun bs => ∀ b ∈ bs, Q b) (as.mapM f) := by
  induction as with
  | nil => exact .ok fun b hb => absurd hb List.not_mem_nil
  | cons a as ih =>
    rw [List.mapM_cons]
    refine (h a List.mem_cons_self).bind fun b hb => ?_
    refine (ih fun a' ha' => h a' (List.mem_cons_of_mem a ha')).bind fun bs hbs => ?_
    exact .ok (List.forall_mem_cons.mpr ⟨hb, hbs⟩)

/-- What each step of a fold keeps. -/
theorem foldlM {f : β → α → Except Error β} {as : List α} {b : β} (hb : Q b)
    (h : ∀ b, Q b → ∀ a ∈ as, Ordinary Q (f b a)) : Ordinary Q (as.foldlM f b) := by
  induction as generalizing b with
  | nil => exact .ok hb
  | cons a as ih =>
    rw [List.foldlM_cons]
    refine (h b hb a List.mem_cons_self).bind fun b' hb' => ?_
    exact ih hb' fun b hb a' ha' => h b hb a' (List.mem_cons_of_mem a ha')

theorem of_kind {r : Except Error α} (h : ∀ e, r = .error e → e.kind? ≠ some .invalidArgument) :
    Harmless r := by
  cases r with
  | ok a => exact .ok trivial
  | error e =>
    refine .error fun blames => h e rfl ?_
    cases e <;> first | rfl | exact blames.elim

end Ordinary

/-! ### Operations on values -/

/-- A sort fails as comparing fails. -/
theorem Comparison.sort_harmless {cmp : Comparison α} (h : ∀ a b, Harmless (cmp a b))
    (reverse : Bool) (items : List α) :
    Harmless (Comparison.sort (cmp.reversed reverse) items) := by
  cases hsort : Comparison.sort (cmp.reversed reverse) items with
  | ok sorted => exact .ok trivial
  | error e =>
    rcases sort_error hsort with ⟨a, b, hab⟩ | rfl
    · have failed (a b : α) (hab : cmp a b = .error e) :
          Harmless (.error e : Except Error (List α)) := by
        have harmless := h a b
        rw [hab] at harmless
        exact harmless.rethrow
      -- A reversed comparison fails as the given one does on the elements in the other order.
      cases reverse with
      | false => exact failed a b hab
      | true => exact failed b a hab
    · simp

namespace Builtin

theorem text_harmless (op : Builtin) (v : Value) : Harmless (op.text v) := by
  cases v <;> simp [text, Error.ofOperands]

theorem entries_harmless (op : Builtin) (v : Value) : Harmless (op.entries v) := by
  cases v <;> simp [entries, Error.ofOperands]

end Builtin

namespace Value

theorem elements_harmless (v : Value) : Harmless v.elements := by
  cases v <;> simp [elements, Error.ofNotIterable]

theorem atIndex_harmless (items : List Value) (index : Int64) :
    Harmless (atIndex items index) := by
  unfold atIndex
  dsimp only
  split <;> simp

theorem getItem_harmless (container key : Value) : Harmless (getItem container key) := by
  unfold getItem
  repeat' split
  all_goals first | exact atIndex_harmless _ _ | simp [Error.ofOperands]

theorem getAttr_harmless (container : Value) (name : String) :
    Harmless (getAttr container name) := by
  unfold getAttr
  repeat' split
  all_goals simp

theorem compare_harmless (a b : Value) : Harmless (compare a b) :=
  .of_kind fun e h => by simp [compare_error a b h]

theorem contains_harmless (container item : Value) : Harmless (contains container item) := by
  unfold contains
  repeat' split
  all_goals simp [Error.ofOperands, Error.ofNotIterable]

theorem sort_harmless (items : List Value) (reverse : Bool) : Harmless (sort items reverse) :=
  Comparison.sort_harmless compare_harmless reverse items

theorem sortByKeys_harmless (orders : List KeyOrder) (keyed : List (List Value × Value))
    (reverse : Bool) : Harmless (sortByKeys orders keyed reverse) := by
  have rows (a b : List Value × Value) : Harmless (compareKeys orders a.1 b.1) :=
    .of_kind fun e h => by simp [compareKeys_error orders a.1 b.1 h]
  exact (Comparison.sort_harmless rows reverse keyed).bind fun _ _ => .ok trivial

/-! Arithmetic fails because of its operands, because of a division by zero or because the result
does not fit. -/

theorem numbers_harmless (operation : String) (a b : Value) :
    Harmless (numbers operation a b) := by
  unfold numbers
  split <;> simp [Error.ofOperands]

theorem checked_harmless (operation : String) (n : Int) : Harmless (checked operation n) := by
  unfold checked
  split <;> simp

theorem add_harmless (a b : Value) : Harmless (add a b) := by
  unfold add
  split
  · exact .ok trivial
  · exact .ok trivial
  · exact .ok trivial
  · refine (numbers_harmless _ _ _).bind fun p _ => ?_
    split
    · exact checked_harmless _ _
    · exact .ok trivial

theorem sub_harmless (a b : Value) : Harmless (sub a b) := by
  refine (numbers_harmless _ _ _).bind fun p _ => ?_
  split
  · exact checked_harmless _ _
  · exact .ok trivial

theorem mul_harmless (a b : Value) : Harmless (mul a b) := by
  refine (numbers_harmless _ _ _).bind fun p _ => ?_
  split
  · exact checked_harmless _ _
  · exact .ok trivial

theorem div_harmless (a b : Value) : Harmless (div a b) := by
  refine (numbers_harmless _ _ _).bind fun p _ => .ite _ ?_ ?_ <;> simp

theorem floorDiv_harmless (a b : Value) : Harmless (floorDiv a b) := by
  refine (numbers_harmless _ _ _).bind fun p _ => ?_
  split
  · exact .ite _ (by simp) (checked_harmless _ _)
  · refine .ite _ (by simp) ?_
    split <;> exact .ok trivial

theorem rem_harmless (a b : Value) : Harmless (rem a b) := by
  refine (numbers_harmless _ _ _).bind fun p _ => ?_
  split
  · exact .ite _ (by simp) (.ite _ (by simp) (by simp))
  · refine .ite _ (by simp) ?_
    split
    · exact .ok trivial
    · exact .ite _ (.ok trivial) (.ok trivial)

theorem pow_harmless (a b : Value) : Harmless (pow a b) := by
  refine (numbers_harmless _ _ _).bind fun p _ => ?_
  repeat' split
  all_goals first | exact checked_harmless _ _ | simp

theorem neg_harmless (v : Value) : Harmless v.neg := by
  unfold neg
  split
  · exact checked_harmless _ _
  · exact .ok trivial
  · simp [Error.ofOperands]

theorem length_harmless (v : Value) : Harmless v.length := by
  cases v <;> simp [length, Error.ofOperands]

theorem ofRounded_harmless (operation : String) (x : Double) (n : Int) :
    Harmless (ofRounded operation x n) := by
  unfold ofRounded
  split <;> simp

theorem convertInt_harmless (v : Value) : Harmless v.convertInt := by
  unfold convertInt
  split
  · exact .ok trivial
  · exact .ok trivial
  · exact ofRounded_harmless _ _ _
  · split
    · exact .ok trivial
    · exact .error (Error.not_defensive (c := 'i') (by simp) (by decide))
  · simp [Error.ofOperands]

theorem convertFloat_harmless (v : Value) : Harmless v.convertFloat := by
  unfold convertFloat
  split
  · exact .ok trivial
  · exact .ok trivial
  · exact .ok trivial
  · split
    · exact .ok trivial
    · exact .error (Error.not_defensive (c := 'i') (by simp) (by decide))
  · simp [Error.ofOperands]

theorem magnitude_harmless (v : Value) : Harmless v.magnitude := by
  unfold magnitude
  split
  · exact checked_harmless "abs()" _
  · exact .ok trivial
  · simp [Error.ofOperands]

theorem roundTo_harmless (v : Value) (places : Option Value) : Harmless (v.roundTo places) := by
  unfold roundTo
  cases v with
  | float x =>
    split
    · exact ofRounded_harmless _ _ _
    · exact ofRounded_harmless _ _ _
    · rw [pure_bind]
      dsimp only
      split <;> exact .ok trivial
    · exact .error (by simp [Error.ofOperands])
  | int =>
    split
    · exact .ok trivial
    · exact .ok trivial
    · exact .ok trivial
    · exact .error (by simp [Error.ofOperands])
  | _ => split <;> exact .error (by simp [Error.ofOperands])

theorem splitBy_harmless (s : String) (separator : Option Value) :
    Harmless (splitBy s separator) := by
  unfold splitBy
  split
  · exact .ok trivial
  · exact .ok trivial
  · refine (Builtin.text_harmless _ _).bind fun separator _ => ?_
    split
    · exact .ok trivial
    · exact .error (by simp)

theorem joinBy_harmless (receiver : Value) (separator : Option Value) :
    Harmless (receiver.joinBy separator) := by
  -- The strings are joined once the separator has been read.
  have last (separator : String) : Harmless (do
      let parts ← (← receiver.elements).mapM Builtin.join.text
      return .str (separator.intercalate parts) : Except Error Value) := by
    refine (elements_harmless receiver).bind fun items _ => ?_
    exact (Ordinary.mapM fun v _ => Builtin.text_harmless .join v).bind fun _ _ => .ok trivial
  unfold joinBy
  split
  · exact (Builtin.text_harmless _ _).bind fun separator _ => last separator
  · exact last ""

theorem extreme_harmless (wanted : Ordering) (best : Value) (rest : List Value) :
    Harmless (extreme wanted best rest) := by
  induction rest generalizing best with
  | nil => exact .ok trivial
  | cons v rest ih => exact (compare_harmless v best).bind fun _ _ => .ite _ (ih v) (ih best)

end Value

theorem Builtin.argument_harmless (op : Builtin) (args : List Value) (index : Nat) :
    Harmless (op.argument args index) := by
  unfold argument
  split
  · exact .ok trivial
  · exact .error (Error.not_defensive (c := 'e') (by simp) (by decide))

theorem Builtin.extreme_harmless (op : Builtin) (wanted : Ordering) (receiver : Value) :
    Harmless (op.extreme wanted receiver) := by
  refine (Value.elements_harmless receiver).bind fun items _ => ?_
  split
  · exact .throw (by simp)
  · exact Value.extreme_harmless _ _ _

theorem Builtin.apply_harmless (op : Builtin) (args : List Value) : Harmless (op.apply args) := by
  refine (op.argument_harmless args 0).bind fun receiver _ => ?_
  have elements := Value.elements_harmless receiver
  cases op with
  | len => exact Value.length_harmless _
  | int => exact Value.convertInt_harmless _
  | float => exact Value.convertFloat_harmless _
  | abs => exact Value.magnitude_harmless _
  | round => exact Value.roundTo_harmless _ _
  | join => exact Value.joinBy_harmless _ _
  | min | max => exact extreme_harmless _ _ _
  | str | bool => exact .ok trivial
  | lower | upper | strip => exact (text_harmless _ _).bind fun _ _ => .ok trivial
  | split => exact (text_harmless _ _).bind fun s _ => Value.splitBy_harmless s _
  | keys | values | items => exact (entries_harmless _ _).bind fun _ _ => .ok trivial
  | reversed | enumerate => exact elements.bind fun _ _ => .ok trivial
  | sorted =>
    refine elements.bind fun items _ => ?_
    exact (Value.sort_harmless items _).bind fun _ _ => .ok trivial
  | sum =>
    exact elements.bind fun items _ => .foldlM trivial fun total _ v _ => Value.add_harmless total v
  | zip =>
    exact (Ordinary.mapM fun v _ => Value.elements_harmless v).bind fun _ _ => .ok trivial
  | flatten =>
    refine elements.bind fun items _ => ?_
    exact (Ordinary.mapM fun v _ => Value.elements_harmless v).bind fun _ _ => .ok trivial
  | contains =>
    refine (argument_harmless _ _ _).bind fun item _ => ?_
    exact (Value.contains_harmless _ _).bind fun _ _ => .ok trivial
  | startsWith | endsWith =>
    refine (argument_harmless _ _ _).bind fun v _ => (text_harmless _ _).bind fun part _ => ?_
    exact (text_harmless _ _).bind fun _ _ => .ok trivial

theorem BinaryOp.apply_harmless (op : BinaryOp) (l r : Value) : Harmless (op.apply l r) := by
  cases op with
  | add => exact Value.add_harmless l r
  | sub => exact Value.sub_harmless l r
  | mul => exact Value.mul_harmless l r
  | div => exact Value.div_harmless l r
  | floorDiv => exact Value.floorDiv_harmless l r
  | mod => exact Value.rem_harmless l r
  | pow => exact Value.pow_harmless l r
  | eq | notEq => exact .ok trivial
  | lt | ltE | gt | gtE => exact (Value.compare_harmless l r).bind fun _ _ => .ok trivial
  | mem | notMem => exact (Value.contains_harmless r l).bind fun _ _ => .ok trivial

theorem UnaryOp.apply_harmless (op : UnaryOp) (v : Value) : Harmless (op.apply v) := by
  cases op with
  | neg => exact Value.neg_harmless v
  | not | isNull | isNotNull => exact .ok trivial

end DataExpr
