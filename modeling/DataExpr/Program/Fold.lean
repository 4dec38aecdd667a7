import DataExpr.Program.Basic

/-!
# Folding programs

A function on operations that is computed from the results for their parts is a
fold: it is given by what it does with one node whose parts have been replaced by
their results.  Rendering and evaluation are both defined in this way.
-/

namespace DataExpr.Op

variable {β : Type}

mutual

/-- The result for an operation, from a function that combines the results of parts. -/
def fold (combine : OpNode β → β) : Op → β
  | .mk node => combine (foldNode combine node)
termination_by structural op => op

/-- The node with its parts replaced by their results. -/
def foldNode (combine : OpNode β → β) : OpNode Op → OpNode β
  | .input => .input
  | .const name value => .const name value
  | .param index name => .param index name
  | .access source steps default =>
    .access (fold combine source) (foldSteps combine steps) (foldOption combine default)
  | .call name f args => .call name f (foldAll combine args)
  | .builtin op args => .builtin op (foldAll combine args)
  | .binary op left right => .binary op (fold combine left) (fold combine right)
  | .unary op operand => .unary op (fold combine operand)
  | .and items => .and (foldAll combine items)
  | .or items => .or (foldAll combine items)
  | .collection kind items => .collection kind (foldAll combine items)
  | .dict pairs => .dict (foldPairs combine pairs)
  | .loop op => .loop (foldLoop combine op)
  | .sort op => .sort (foldSort combine op)
  | .guarded op => .guarded (foldGuard combine op)
  | .caught binding => .caught binding
  | .cond condition yes no => .cond (fold combine condition) (fold combine yes) (fold combine no)
  | .pipe producer consumer => .pipe (fold combine producer) (fold combine consumer)
  | .memo binding definition => .memo binding (fold combine definition)
  | .setLabel label value => .setLabel label (fold combine value)
  | .getLabel label => .getLabel label
  | .register row => .register row
  | .aggregate op => .aggregate (foldAggregate combine op)
  | .join op => .join (foldJoin combine op)
  | .groupKey group index => .groupKey group index
  | .slotValue group index default => .slotValue group index (fold combine default)
termination_by structural node => node

def foldAll (combine : OpNode β → β) : List Op → List β
  | [] => []
  | op :: ops => fold combine op :: foldAll combine ops
termination_by structural ops => ops

def foldOption (combine : OpNode β → β) : Option Op → Option β
  | some op => some (fold combine op)
  | none => none
termination_by structural op => op

def foldPairs (combine : OpNode β → β) : List (Op × Op) → List (β × β)
  | [] => []
  | pair :: pairs => foldPair combine pair :: foldPairs combine pairs
termination_by structural pairs => pairs

def foldPair (combine : OpNode β → β) : Op × Op → β × β
  | (a, b) => (fold combine a, fold combine b)
termination_by structural pair => pair

def foldSteps (combine : OpNode β → β) : List (Step Op) → List (Step β)
  | [] => []
  | step :: steps => foldStep combine step :: foldSteps combine steps
termination_by structural steps => steps

def foldStep (combine : OpNode β → β) : Step Op → Step β
  | .key op => .key (fold combine op)
  | .attr name => .attr name
termination_by structural step => step

def foldScope (combine : OpNode β → β) : Scope Op → Scope β
  | ⟨memos⟩ => ⟨foldMemos combine memos⟩
termination_by structural scope => scope

def foldMemos (combine : OpNode β → β) : List (Memo Op) → List (Memo β)
  | [] => []
  | memo :: memos => foldMemo combine memo :: foldMemos combine memos
termination_by structural memos => memos

def foldMemo (combine : OpNode β → β) : Memo Op → Memo β
  | ⟨binding, definition⟩ => ⟨binding, fold combine definition⟩
termination_by structural memo => memo

def foldLoop (combine : OpNode β → β) : LoopOp Op → LoopOp β
  | ⟨kind, var, source, scope, filter, key, element⟩ =>
    ⟨kind, var, fold combine source, foldScope combine scope, foldOption combine filter,
      foldOption combine key, fold combine element⟩
termination_by structural op => op

def foldSort (combine : OpNode β → β) : SortOp Op → SortOp β
  | ⟨var, source, scope, keys, reverse⟩ =>
    ⟨var, fold combine source, foldScope combine scope, foldSortKeys combine keys, reverse⟩
termination_by structural op => op

def foldSortKeys (combine : OpNode β → β) : List (SortKeyOp Op) → List (SortKeyOp β)
  | [] => []
  | key :: keys => foldSortKey combine key :: foldSortKeys combine keys
termination_by structural keys => keys

def foldSortKey (combine : OpNode β → β) : SortKeyOp Op → SortKeyOp β
  | ⟨op, order⟩ => ⟨fold combine op, order⟩
termination_by structural key => key

def foldGuard (combine : OpNode β → β) : GuardOp Op → GuardOp β
  | ⟨body, handlers, exc⟩ => ⟨fold combine body, foldHandlers combine handlers, exc⟩
termination_by structural op => op

def foldHandlers (combine : OpNode β → β) : List (HandlerOp Op) → List (HandlerOp β)
  | [] => []
  | handler :: handlers => foldHandler combine handler :: foldHandlers combine handlers
termination_by structural handlers => handlers

def foldHandler (combine : OpNode β → β) : HandlerOp Op → HandlerOp β
  | ⟨kinds, value, reraiseIf⟩ => ⟨kinds, fold combine value, foldOption combine reraiseIf⟩
termination_by structural handler => handler

def foldAggregate (combine : OpNode β → β) : AggregateOp Op → AggregateOp β
  | ⟨group, row, source, rowScope, keys, slots, outputScope, output⟩ =>
    ⟨group, row, fold combine source, foldScope combine rowScope, foldAll combine keys,
      foldSlots combine slots, foldScope combine outputScope, fold combine output⟩
termination_by structural op => op

def foldSlots (combine : OpNode β → β) : List (SlotOp Op) → List (SlotOp β)
  | [] => []
  | slot :: slots => foldSlot combine slot :: foldSlots combine slots
termination_by structural slots => slots

def foldSlot (combine : OpNode β → β) : SlotOp Op → SlotOp β
  | ⟨kind, args, filter, initial, seedEmpty⟩ =>
    ⟨kind, foldAll combine args, foldOption combine filter, foldOption combine initial, seedEmpty⟩
termination_by structural slot => slot

def foldJoin (combine : OpNode β → β) : JoinOp Op → JoinOp β
  | ⟨kind, left, right, leftRow, rightRow, preFilter, leftSide, rightSide, pairScope, residual⟩ =>
    ⟨kind, fold combine left, fold combine right, leftRow, rightRow, foldOption combine preFilter,
      foldSide combine leftSide, foldSide combine rightSide, foldScope combine pairScope,
      foldOption combine residual⟩
termination_by structural op => op

def foldSide (combine : OpNode β → β) : JoinSideOp Op → JoinSideOp β
  | ⟨scope, keys, filter⟩ =>
    ⟨foldScope combine scope, foldAll combine keys, foldOption combine filter⟩
termination_by structural side => side

end

end DataExpr.Op
