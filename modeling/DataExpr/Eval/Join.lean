import DataExpr.Eval.Basic
import DataExpr.Eval.Candidate
import DataExpr.Value.Lookup
import Std.Data.TreeSet

/-!
# Evaluation of joins

The rows of the primary side are taken one by one and determine the order of the
pairs; the primary side is the right one in a right join and the left one otherwise.
The rows of the other side are filtered first, and each is kept with its key.
-/

namespace DataExpr

variable {σ : Type}

/-- What a join knows before it takes the first primary row, and which secondary rows
    have found a partner since. -/
structure JoinState where
  /-- False if the condition fails whatever the rows are. -/
  enabled : Bool
  candidates : Candidates
  secondary : List Value
  /-- The positions of the secondary rows with a partner. -/
  matched : Std.TreeSet Nat

namespace JoinSideOp

/-- The key of the current row, as a tuple. -/
def key (side : JoinSideOp (Evaluator σ)) (input : Value) : Eval σ Value := do
  return .tuple (← side.keys.mapM fun k => return (← k input).hashKey)

/-- Makes a row the current one of its side. -/
def place (side : JoinSideOp (Evaluator σ)) (register : Binding) (row : Value) : Eval σ Unit := do
  Eval.setSlot register.slot row
  Eval.reset side.scope.resets

/-- The key of the current row, or none if the filter of the side rejects it. -/
def acceptedKey (side : JoinSideOp (Evaluator σ)) (input : Value) :
    Eval σ (Option Value) := do
  if ← Eval.holds side.filter input then return some (← side.key input) else return none

/-- The rows that pass the filter of a side, from a position on. -/
def candidates (side : JoinSideOp (Evaluator σ)) (register : Binding) (input : Value) :
    Nat → List Value → Eval σ (List Candidate)
  | _, [] => return []
  | position, row :: rest => do
    side.place register row
    match ← side.acceptedKey input with
    | some key =>
      return ⟨position, key, row⟩ :: (← side.candidates register input (position + 1) rest)
    | none => side.candidates register input (position + 1) rest

end JoinSideOp

namespace JoinOp

/-- Whether the right side is the primary one. -/
def isSwapped {ω : Type} (op : JoinOp ω) : Bool := op.kind = .right

/-- Whether a primary row without a partner appears nevertheless. -/
def preservesPrimary {ω : Type} (op : JoinOp ω) : Bool :=
  op.kind matches .left | .right | .outer

def primarySide {ω : Type} (op : JoinOp ω) : JoinSideOp ω × Binding :=
  if op.isSwapped then (op.rightSide, op.rightRow) else (op.leftSide, op.leftRow)

def secondarySide {ω : Type} (op : JoinOp ω) : JoinSideOp ω × Binding :=
  if op.isSwapped then (op.leftSide, op.leftRow) else (op.rightSide, op.rightRow)

/-- A pair with the left row first. -/
def pair {ω : Type} (op : JoinOp ω) (primary secondary : Value) : Value :=
  if op.isSwapped then .tuple [secondary, primary] else .tuple [primary, secondary]

/-- Evaluates both sides and prepares the secondary one.  The result has the primary
    rows. -/
def start (op : JoinOp (Evaluator σ)) (input : Value) : Eval σ (List Value × JoinState) := do
  let left ← (← op.left input).elements
  let right ← (← op.right input).elements
  let (primary, secondary) := if op.isSwapped then (right, left) else (left, right)
  let enabled ← Eval.holds op.preFilter input
  let (side, register) := op.secondarySide
  let candidates ← if enabled then side.candidates register input 0 secondary else pure []
  return (primary, { enabled, candidates := .ofList candidates, secondary, matched := ∅ })

/-- Pairs a primary row with those candidates for which the rest of the condition holds. -/
def pairsWith (op : JoinOp (Evaluator σ)) (input row : Value) :
    List Candidate → Std.TreeSet Nat → Eval σ (List Value × Std.TreeSet Nat)
  | [], matched => return ([], matched)
  | candidate :: rest, matched => do
    Eval.setSlot op.secondarySide.2.slot candidate.row
    Eval.reset op.pairScope.resets
    if ← Eval.holds op.residual input then
      let (pairs, matched) ← op.pairsWith input row rest (matched.insert candidate.position)
      return (op.pair row candidate.row :: pairs, matched)
    else op.pairsWith input row rest matched

/-- The pairs of a primary row. -/
def matchRow (op : JoinOp (Evaluator σ)) (input : Value) (state : JoinState) (row : Value) :
    Eval σ (List Value × JoinState) := do
  let (side, register) := op.primarySide
  side.place register row
  let key ← if state.enabled then side.acceptedKey input else pure none
  let candidates := match key with
    | some key => state.candidates.withKey key
    | none => []
  let (pairs, matched) ← op.pairsWith input row candidates state.matched
  let pairs := if pairs.isEmpty && op.preservesPrimary then [op.pair row .null] else pairs
  return (pairs, { state with matched })

/-- The pairs of secondary rows that have found no partner in an outer join. -/
def unmatched {ω : Type} (op : JoinOp ω) (state : JoinState) : List Value :=
  if op.kind = .outer then
    state.secondary.zipIdx.filterMap fun (row, position) =>
      if state.matched.contains position then none else some (op.pair .null row)
  else []

/-- All pairs of some primary rows and the ones that follow them. -/
def pairs (op : JoinOp (Evaluator σ)) (input : Value) : List Value → JoinState → Eval σ (List Value)
  | [], state => return op.unmatched state
  | row :: rest, state => do
    let (found, state) ← op.matchRow input state row
    return found ++ (← op.pairs input rest state)

/-- The list of all pairs. -/
def collect (op : JoinOp (Evaluator σ)) (input : Value) : Eval σ Value := do
  let (primary, state) ← op.start input
  return .list (← op.pairs input primary state)

/-- Goes on to the next primary row with pairs.  The result has these pairs, the rows
    after it and the state; after the last row only pairs are left. -/
def next (op : JoinOp (Evaluator σ)) (input : Value) :
    List Value → JoinState → Eval σ (List Value × Option (List Value × JoinState))
  | [], state => return (op.unmatched state, none)
  | row :: rest, state => do
    let (found, state) ← op.matchRow input state row
    if found.isEmpty then op.next input rest state else return (found, some (rest, state))

end JoinOp
end DataExpr
