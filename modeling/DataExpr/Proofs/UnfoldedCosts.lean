import Mathlib.Algebra.GroupWithZero.Nat
import Mathlib.Algebra.Order.BigOperators.Group.List
import Mathlib.Algebra.Order.Group.Nat
import Mathlib.Tactic.MkIffOfInductiveProp
import DataExpr.Proofs.InputIndependence

/-!
# Costs of unfolded expressions

Without sharing an expression is a tree, in which a shared subexpression occurs once for each of
its uses.  The sums over this tree are exact, and since every handle may double them they soon are
no words any more.  Each of them follows from the node and from the sums of its parts, which is how
the analysis forms it (`Expr.unfoldedWeight_eq` and its like).
-/

namespace DataExpr

/-! ### Nodes -/

def PathStep.ownWeight {ε : Type} : PathStep ε → Nat
  | .key _ => Weight.dictLookup.toNat
  | .attr _ => Weight.attrLookup.toNat

namespace Node

variable {ε : Type}

/-- The cost of the node itself, without that of its parts. -/
def ownWeight : Node ε → Nat
  | input | constant _ | parameter _ | joinRow _ | pipe .. => 0
  | labelRef _ => Weight.dictLookup.toNat
  | caught | label .. | reducer _ => Weight.step.toNat
  | access _ path default =>
    (path.map PathStep.ownWeight).sum + (default.toList.map fun _ => Weight.functionCall.toNat).sum
  | call .. | builtin .. | guarded .. => Weight.functionCall.toNat
  | binary op .. => (if op.isArithmetic then Weight.mathSimple else Weight.logical).toNat
  | unary .. | conditional .. => Weight.logical.toNat
  | and items | or items => Weight.logical.toNat * (max items.length 2 - 1)
  | collection .list _ => Weight.listInit.toNat
  | collection .tuple _ => Weight.tupleInit.toNat
  | collection .set _ => Weight.setInit.toNat
  | dict _ => Weight.dictInit.toNat
  | comprehension .. | sort .. | aggregate .. | join .. => Weight.unpredictable.toNat

/-- Whether the weight of a node stops at the largest word: the amount of its work depends on the
    data, or it costs nothing itself. -/
def isCapped : Node ε → Bool
  | comprehension .. | sort .. | aggregate .. | join .. | pipe .. | access _ [] none => true
  | _ => false

/-- The constants and functions to which the node refers itself. -/
def ownConstants : Node ε → Nat
  | constant _ | call .. => 1
  | _ => 0

/-- The parts that are evaluated with an input of their own. -/
def otherInput : Node ε → List ε
  | comprehension _ key element _ filter => filter.toList ++ key.toList ++ [element]
  | sort _ keys _ => keys.map SortKey.key
  | pipe _ consumer => [consumer]
  | reducer r => r.children
  | aggregate keys output => keys ++ [output]
  | _ => []

/-- The evaluations of the input, from those of the parts.  The producer of a pipe is evaluated
    anew for each use that the consumer makes of it. -/
def uses : Node Nat → Nat
  | pipe producer consumer => producer * max consumer 1
  | node => node.readsInput.toNat + node.sameInput.sum

/-- The reducers that no aggregate encloses, from those of the parts. -/
def free : Node Nat → Nat
  | reducer _ => 1
  | aggregate .. => 0
  | node => node.children.sum

end Node

/-! ### Expressions -/

namespace Expr

/-- What stands in the tree into which an expression unfolds, each node once for each of its
    occurrences. -/
def unfolded (e : Expr) : List Expr :=
  e :: (e.children.attach.map fun c => unfolded c.1).flatten
termination_by sizeOf e
decreasing_by exact Expr.sizeOf_lt_of_mem c.2

/-- The exact sum of the costs of all nodes of the unfolded tree. -/
def unfoldedWeight (e : Expr) : Nat := (e.unfolded.map fun d => d.node.ownWeight).sum

/-- The references to constants and functions in the unfolded tree. -/
def unfoldedConstants (e : Expr) : Nat := (e.unfolded.map fun d => d.node.ownConstants).sum

/-- The evaluations of the input of an expression. -/
def inputUses (e : Expr) : Nat := (e.node.attach.map fun c => inputUses c.1).uses
termination_by sizeOf e
decreasing_by exact Expr.sizeOf_lt_of_mem c.2

/-- The reducers of the unfolded tree that no aggregate and no reducer encloses. -/
def freeReducers (e : Expr) : Nat := (e.node.attach.map fun c => freeReducers c.1).free
termination_by sizeOf e
decreasing_by exact Expr.sizeOf_lt_of_mem c.2

/-- The sum of a cost over the unfolded tree is that of the root and of the trees of its parts. -/
theorem sum_unfolded (cost : Expr → Nat) (e : Expr) :
    (e.unfolded.map cost).sum =
      cost e + (e.children.map fun c => (c.unfolded.map cost).sum).sum := by
  rw [unfolded, List.attach_map_val (f := unfolded), List.map_cons, List.sum_cons,
    List.map_flatten, List.sum_flatten, List.map_map, List.map_map]
  rfl

theorem unfoldedWeight_eq (e : Expr) :
    e.unfoldedWeight = e.node.ownWeight + (e.children.map unfoldedWeight).sum :=
  sum_unfolded (fun d => d.node.ownWeight) e

theorem unfoldedConstants_eq (e : Expr) :
    e.unfoldedConstants = e.node.ownConstants + (e.children.map unfoldedConstants).sum :=
  sum_unfolded (fun d => d.node.ownConstants) e

theorem inputUses_eq (e : Expr) : e.inputUses = (e.node.map inputUses).uses := by
  have h : e.node.attach.map (fun c => inputUses c.1) = e.node.map inputUses := by
    conv => rhs; rw [← Node.attach_map_val e.node, Node.map_map]
  rw [inputUses, h]

theorem freeReducers_eq (e : Expr) : e.freeReducers = (e.node.map freeReducers).free := by
  have h : e.node.attach.map (fun c => freeReducers c.1) = e.node.map freeReducers := by
    conv => rhs; rw [← Node.attach_map_val e.node, Node.map_map]
  rw [freeReducers, h]

/-- A part weighs no more than the whole. -/
theorem unfoldedWeight_le {c e : Expr} (h : c ∈ e.children) :
    c.unfoldedWeight ≤ e.unfoldedWeight := by
  rw [unfoldedWeight_eq e]
  have := List.le_sum_of_mem (List.mem_map_of_mem (f := unfoldedWeight) h)
  omega

/-! ### Nodes that count what their parts count -/

end Expr

namespace Node

variable {ε δ : Type}

/-- Whether a node has the input of its parts and refers to nothing itself, so that its counts are
    those of its parts. -/
def isPlain : Node ε → Bool
  | input | constant _ | call .. | comprehension .. | sort .. | pipe .. | reducer _
  | aggregate .. => false
  | _ => true

theorem isPlain_map (f : ε → δ) (node : Node ε) : (node.map f).isPlain = node.isPlain := by
  cases node <;> rfl

theorem otherInput_of_isPlain {node : Node ε} (h : node.isPlain = true) : node.otherInput = [] := by
  cases node <;> first | rfl | cases h

theorem ownConstants_of_isPlain {node : Node ε} (h : node.isPlain = true) :
    node.ownConstants = 0 := by
  cases node <;> first | rfl | cases h

theorem uses_of_isPlain {node : Node Nat} (h : node.isPlain = true) :
    node.uses = node.children.sum := by
  cases node <;> first | exact Nat.zero_add _ | cases h

theorem free_of_isPlain {node : Node Nat} (h : node.isPlain = true) :
    node.free = node.children.sum := by
  cases node <;> first | rfl | cases h

end Node

namespace Expr

variable {e : Expr}

theorem inputUses_of_isPlain (h : e.node.isPlain = true) :
    e.inputUses = (e.children.map inputUses).sum := by
  rw [inputUses_eq, Node.uses_of_isPlain (by rw [Node.isPlain_map, h]), Node.children_map]
  rfl

/-- Most nodes pass on the reducers of their parts. -/
theorem freeReducers_of_passing
    (h : (e.node.map freeReducers).free = (e.node.map freeReducers).children.sum) :
    e.freeReducers = (e.children.map freeReducers).sum := by
  rw [freeReducers_eq, h, Node.children_map]
  rfl

theorem freeReducers_of_isPlain (h : e.node.isPlain = true) :
    e.freeReducers = (e.children.map freeReducers).sum :=
  freeReducers_of_passing (Node.free_of_isPlain (by rw [Node.isPlain_map, h]))

/-! ### What the analysis can count -/

/-- The sums and products that the analysis of a node forms from those of its parts are words.  The
    weight may be larger where it stops at the largest word.  What is evaluated with an input of its
    own is counted before it is known that its uses do not matter. -/
@[mk_iff] structure SumsFit (e : Expr) : Prop where
  weight : e.node.isCapped = true ∨ e.unfoldedWeight < UInt64.size
  constants : e.unfoldedConstants < UInt64.size
  inputUses : e.inputUses < UInt64.size
  otherUses : ∀ c ∈ e.node.otherInput,
    (e.node.sameInput.map Expr.inputUses).sum + Expr.inputUses c < UInt64.size
  freeReducers : (e.children.map Expr.freeReducers).sum < UInt64.size

end Expr

/-- Exact counts, which need not be words. -/
@[ext] structure Tally where
  weight : Nat
  constants : Nat
  inputUses : Nat
  freeReducers : Nat

namespace Tally

instance : Zero Tally := ⟨⟨0, 0, 0, 0⟩⟩

instance : Add Tally :=
  ⟨fun s t => ⟨s.weight + t.weight, s.constants + t.constants, s.inputUses + t.inputUses,
    s.freeReducers + t.freeReducers⟩⟩

variable (s t : Tally)

@[simp] theorem weight_zero : (0 : Tally).weight = 0 := rfl
@[simp] theorem constants_zero : (0 : Tally).constants = 0 := rfl
@[simp] theorem inputUses_zero : (0 : Tally).inputUses = 0 := rfl
@[simp] theorem freeReducers_zero : (0 : Tally).freeReducers = 0 := rfl

@[simp] theorem weight_add : (s + t).weight = s.weight + t.weight := rfl
@[simp] theorem constants_add : (s + t).constants = s.constants + t.constants := rfl
@[simp] theorem inputUses_add : (s + t).inputUses = s.inputUses + t.inputUses := rfl
@[simp] theorem freeReducers_add : (s + t).freeReducers = s.freeReducers + t.freeReducers := rfl

instance : AddCommMonoid Tally where
  add_assoc s t u := by ext <;> simp [Nat.add_assoc]
  zero_add t := by ext <;> simp
  add_zero t := by ext <;> simp
  add_comm s t := by ext <;> simp [Nat.add_comm]
  nsmul := nsmulRec

/-- A cost of a node itself. -/
def ofWeight (n : Nat) : Tally := ⟨n, 0, 0, 0⟩

@[simp] theorem weight_ofWeight (n : Nat) : (ofWeight n).weight = n := rfl

/-- What is counted of a part with an input of its own. -/
def apart : Tally := { t with inputUses := 0 }

/-- The counts that do not stop at the largest word are words. -/
@[mk_iff] structure Countable (t : Tally) : Prop where
  constants : t.constants < UInt64.size
  inputUses : t.inputUses < UInt64.size
  freeReducers : t.freeReducers < UInt64.size

variable {s t}

theorem Countable.of_add (h : (s + t).Countable) : s.Countable := by
  obtain ⟨constants, inputUses, freeReducers⟩ := h
  simp only [constants_add, inputUses_add, freeReducers_add] at constants inputUses freeReducers
  constructor <;> omega

theorem countable_add_ofWeight {n : Nat} : (s + ofWeight n).Countable ↔ s.Countable := by
  constructor
  · exact Countable.of_add
  · rintro ⟨constants, inputUses, freeReducers⟩
    exact ⟨constants, inputUses, freeReducers⟩

theorem countable_ofWeight (n : Nat) : (ofWeight n).Countable := by
  have word : 0 < UInt64.size := by decide
  exact ⟨word, word, word⟩

theorem countable_congr {m n : Nat} (h : s + ofWeight m = t + ofWeight n) :
    s.Countable ↔ t.Countable := by
  rw [← countable_add_ofWeight (n := m), h, countable_add_ofWeight]

end Tally

/-- The exact counts of an expression. -/
def Expr.tally (e : Expr) : Tally :=
  ⟨e.unfoldedWeight, e.unfoldedConstants, e.inputUses, e.freeReducers⟩

/-- The exact counts of several expressions together. -/
def Tally.ofAll (cs : List Expr) : Tally :=
  ⟨(cs.map Expr.unfoldedWeight).sum, (cs.map Expr.unfoldedConstants).sum,
    (cs.map Expr.inputUses).sum, (cs.map Expr.freeReducers).sum⟩

namespace Tally

theorem ofAll_cons (c : Expr) (cs : List Expr) : ofAll (c :: cs) = c.tally + ofAll cs := by
  ext <;> simp only [ofAll, List.map_cons, List.sum_cons] <;> rfl

theorem ofAll_append (cs ds : List Expr) : ofAll (cs ++ ds) = ofAll cs + ofAll ds := by
  ext <;> simp only [ofAll, List.map_append, List.sum_append] <;> rfl

theorem ofAll_perm {cs ds : List Expr} (h : cs.Perm ds) : ofAll cs = ofAll ds := by
  ext <;> exact (h.map _).sum_eq

theorem sum_tally (cs : List Expr) : (cs.map Expr.tally).sum = ofAll cs := by
  induction cs with
  | nil => rfl
  | cons c cs ih => rw [List.map_cons, List.sum_cons, ih, ofAll_cons]

theorem sum_apart (cs : List Expr) : (cs.map fun c => c.tally.apart).sum = (ofAll cs).apart := by
  induction cs with
  | nil => rfl
  | cons c cs ih =>
    rw [List.map_cons, List.sum_cons, ih, ofAll_cons]
    rfl

end Tally

namespace Expr

variable {e : Expr}

theorem tally_eq (e : Expr) : e.tally =
    ⟨(Tally.ofAll e.children).weight + e.node.ownWeight,
      (Tally.ofAll e.children).constants + e.node.ownConstants, e.inputUses, e.freeReducers⟩ := by
  ext
  case weight => exact (unfoldedWeight_eq e).trans (Nat.add_comm ..)
  case constants => exact (unfoldedConstants_eq e).trans (Nat.add_comm ..)
  case inputUses => rfl
  case freeReducers => rfl

/-- The counts of a plain node are those of its parts, and its own cost comes on top. -/
theorem tally_of_isPlain (h : e.node.isPlain = true) :
    e.tally = Tally.ofAll e.children + .ofWeight e.node.ownWeight := by
  rw [tally_eq, Node.ownConstants_of_isPlain h, inputUses_of_isPlain h, freeReducers_of_isPlain h]
  rfl

/-- A node that passes on the reducers of its parts. -/
theorem sumsFit_of_passing (h : e.freeReducers = (e.children.map freeReducers).sum) :
    e.SumsFit ↔ (e.node.isCapped = true ∨ e.tally.weight < UInt64.size) ∧ e.tally.Countable ∧
      ∀ c ∈ e.node.otherInput,
        (e.node.sameInput.map inputUses).sum + c.inputUses < UInt64.size := by
  rw [sumsFit_iff, ← h, Tally.countable_iff]
  constructor
  · rintro ⟨weight, constants, uses, other, free⟩
    exact ⟨weight, ⟨constants, uses, free⟩, other⟩
  · rintro ⟨weight, ⟨constants, uses, free⟩, other⟩
    exact ⟨weight, constants, uses, other, free⟩

theorem sumsFit_of_isPlain (h : e.node.isPlain = true) :
    e.SumsFit ↔ (e.node.isCapped = true ∨ e.tally.weight < UInt64.size) ∧ e.tally.Countable := by
  rw [sumsFit_of_passing (freeReducers_of_isPlain h), Node.otherInput_of_isPlain h]
  simp

end Expr
end DataExpr
