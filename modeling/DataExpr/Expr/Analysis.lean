import DataExpr.Expr.Traverse
import DataExpr.Expr.Weight
import DataExpr.NameSet
import DataExpr.Number.Word

/-!
# Analysis of expressions

What an expression depends on and what it costs, computed from the results for
its subexpressions.  An analyzer remembers the result of every node that it has
met, so a shared subexpression is analyzed once.

Counts and weights are machine words.  Weights of subexpressions add up to the
largest word at most; any other sum and product that is no word ends the analysis.
Shared subexpressions count at every use, so a small expression can get there.
-/

namespace DataExpr

/-- The sides of a join that an expression reads. -/
structure Sides where
  left : Bool
  right : Bool
deriving DecidableEq, Repr

def Sides.union (s t : Sides) : Sides := ⟨s.left || t.left, s.right || t.right⟩

structure Analysis where
  /-- The relative cost of an evaluation. -/
  weight : UInt64
  params : NameSet
  labelsRead : NameSet
  labelsWritten : NameSet
  /-- References to constants and functions. -/
  constants : UInt64
  /-- Calls a function that is not declared pure. -/
  impure : Bool
  /-- Evaluations of the expression's own input. -/
  inputUses : UInt64
  sides : Sides
  /-- Reducers that no aggregate encloses. -/
  freeReducers : UInt64
  /-- A reducer stands inside the arguments of another. -/
  nestedReducer : Bool
  hasAggregate : Bool
  /-- Reads the error of an enclosing handler. -/
  readsCaught : Bool
deriving DecidableEq

namespace Analysis

def empty : Analysis :=
  { weight := 0, params := [], labelsRead := [], labelsWritten := [], constants := 0,
    impure := false, inputUses := 0, sides := ⟨false, false⟩, freeReducers := 0,
    nestedReducer := false, hasAggregate := false, readsCaught := false }

instance : Inhabited Analysis := ⟨empty⟩

/-- Calls that are not pure and writes of labels must be neither repeated nor dropped. -/
def hasSideEffects (a : Analysis) : Bool := a.impure || !a.labelsWritten.isEmpty

def readsLabels (a : Analysis) : Bool := !a.labelsRead.isEmpty

end Analysis

/-- The analysis of an expression, or the operation on words that failed first. -/
abbrev AnalysisResult := Except Word.Overflow Analysis

namespace Analysis

/-- Adds what is known about a subexpression with the same input. -/
def merge (a child : Analysis) : AnalysisResult := do
  let constants ← Word.add a.constants child.constants
  let inputUses ← Word.add a.inputUses child.inputUses
  let freeReducers ← Word.add a.freeReducers child.freeReducers
  return {
    weight := Word.saturatingAdd a.weight child.weight
    params := NameSet.union a.params child.params
    labelsRead := NameSet.union a.labelsRead child.labelsRead
    labelsWritten := NameSet.union a.labelsWritten child.labelsWritten
    constants
    impure := a.impure || child.impure
    inputUses
    sides := a.sides.union child.sides
    freeReducers
    nestedReducer := a.nestedReducer || child.nestedReducer
    hasAggregate := a.hasAggregate || child.hasAggregate
    readsCaught := a.readsCaught || child.readsCaught }

/-- Adds the result for a subexpression with the same input. -/
def absorb (a : Analysis) (child : AnalysisResult) : AnalysisResult := do a.merge (← child)

/-- Adds the result for a subexpression with an input of its own. -/
def absorbScoped (a : Analysis) (child : AnalysisResult) : AnalysisResult := do
  return { ← a.absorb child with inputUses := a.inputUses }

def absorbAll (a : Analysis) (children : List AnalysisResult) : AnalysisResult :=
  children.foldlM absorb a

def absorbAllScoped (a : Analysis) (children : List AnalysisResult) : AnalysisResult :=
  children.foldlM absorbScoped a

/-- Adds a cost of the node itself. -/
def cost (a : Analysis) (weight : UInt64) : AnalysisResult := do
  return { a with weight := ← Word.add a.weight weight }

/-- Adds the cost of work whose amount depends on the data. -/
def costUnpredictable (a : Analysis) : Analysis :=
  { a with weight := Word.saturatingAdd a.weight Weight.unpredictable }

/-- Adds a step of an access path. -/
def absorbStep (a : Analysis) : PathStep AnalysisResult → AnalysisResult
  | .key k => do (← a.absorb k).cost Weight.dictLookup
  | .attr _ => a.cost Weight.attrLookup

/-- Adds a handler.  What it reads of an error is its own. -/
def absorbHandler (a : Analysis) (h : Handler AnalysisResult) : AnalysisResult := do
  (← a.absorbAll h.reraiseIf.toList).absorb h.value

/-- Adds a part of a reducer. -/
def absorbReducerPart (a : Analysis) (child : AnalysisResult) : AnalysisResult := do
  let part ← child
  let nested := a.nestedReducer || decide (0 < part.freeReducers)
  { a with nestedReducer := nested }.absorbScoped child

end Analysis

/-- The result for a node, from the results for its subexpressions in the order of their
    use. -/
def Node.analysis : Node AnalysisResult → AnalysisResult
  | .input => return { Analysis.empty with inputUses := 1 }
  | .constant _ => return { Analysis.empty with constants := 1 }
  | .parameter name => return { Analysis.empty with params := [name] }
  | .labelRef name =>
    return { Analysis.empty with labelsRead := [name], weight := Weight.dictLookup }
  | .caught => return { Analysis.empty with readsCaught := true, weight := Weight.step }
  | .joinRow .left => return { Analysis.empty with sides := ⟨true, false⟩ }
  | .joinRow .right => return { Analysis.empty with sides := ⟨false, true⟩ }
  | .access source path default => do
    let steps ← path.foldlM Analysis.absorbStep (← Analysis.empty.absorb source)
    match default with
    | some d => (← steps.absorb d).cost Weight.functionCall
    | none => return steps
  | .call f args => do
    let a ← Analysis.empty.absorbAll args
    let constants ← Word.add a.constants 1
    { a with constants, impure := a.impure || !f.isPure }.cost Weight.functionCall
  | .builtin _ args => do (← Analysis.empty.absorbAll args).cost Weight.functionCall
  | .binary op left right => do
    (← Analysis.empty.absorbAll [left, right]).cost
      (if op.isArithmetic then Weight.mathSimple else Weight.logical)
  | .unary _ operand => do (← Analysis.empty.absorb operand).cost Weight.logical
  | .and items | .or items => do
    let a ← Analysis.empty.absorbAll items
    a.cost (← Word.scale Weight.logical (max items.length 2 - 1))
  | .collection kind items => do
    (← Analysis.empty.absorbAll items).cost (match kind with
      | .list => Weight.listInit
      | .tuple => Weight.tupleInit
      | .set => Weight.setInit)
  | .dict pairs => do
    (← Analysis.empty.absorbAll (pairs.flatMap fun p => [p.1, p.2])).cost Weight.dictInit
  | .comprehension _ key element source filter => do
    let a ← (← Analysis.empty.absorb source).absorbAllScoped
      (key.toList ++ filter.toList ++ [element])
    return a.costUnpredictable
  | .sort source keys _ => do
    let a ← (← Analysis.empty.absorb source).absorbAllScoped (keys.map SortKey.key)
    return a.costUnpredictable
  | .guarded body handlers => do
    let body ← body
    let a ← handlers.foldlM Analysis.absorbHandler (← Analysis.empty.merge body)
    { a with readsCaught := body.readsCaught }.cost Weight.functionCall
  | .conditional condition yes no => do
    (← Analysis.empty.absorbAll [condition, yes, no]).cost Weight.logical
  | .pipe producer consumer => do
    let produced ← producer
    let consumed ← consumer
    let a ← (← Analysis.empty.absorb producer).absorbScoped consumer
    return { a with inputUses := ← Word.mul produced.inputUses (max consumed.inputUses 1) }
  | .label name e => do
    let a ← Analysis.empty.absorb e
    { a with labelsWritten := NameSet.insert name a.labelsWritten }.cost Weight.step
  | .reducer r => do
    let a ← r.children.foldlM Analysis.absorbReducerPart Analysis.empty
    { a with freeReducers := 1 }.cost Weight.step
  | .aggregate keys output => do
    let a ← (← Analysis.empty.absorbAllScoped keys).absorbScoped output
    return { a with freeReducers := 0, inputUses := 1, hasAggregate := true }.costUnpredictable
  | .join left right condition _ => do
    let a ← Analysis.empty.absorbAll [left, right]
    return { ← a.absorbAll condition.toList with sides := a.sides }.costUnpredictable

namespace Expr

/-- What an expression depends on and what it costs. -/
def analyze (e : Expr) : AnalysisResult := (e.node.attach.map fun c => analyze c.1).analysis
termination_by sizeOf e
decreasing_by exact Expr.sizeOf_lt_of_mem c.2

/-- The analysis of an expression; of one whose analysis overflows nothing is known. -/
def analysis (e : Expr) : Analysis := e.analyze.toOption.getD .empty

end Expr

/-! ### Analysis with memory -/

/-- Results by identity. -/
abbrev Analyzer := List (Nat × AnalysisResult)

namespace Analyzer

def get? (known : Analyzer) (id : Nat) : Option AnalysisResult :=
  (known.find? (·.1 == id)).map (·.2)

/-- Analyzes an expression and remembers the results of all its nodes; what is known
    already is not analyzed again. -/
def analyze (e : Expr) : StateM Analyzer AnalysisResult := do
  match (← MonadState.get).get? e.id with
  | some result => return result
  | none =>
    let node ← e.node.attach.traverse fun c => analyze c.1
    let result := node.analysis
    modify fun known => (e.id, result) :: known
    return result
termination_by sizeOf e
decreasing_by exact Expr.sizeOf_lt_of_mem c.2

end Analyzer
end DataExpr
