import DataExpr.Program.Fold
import DataExpr.Value.Text

/-!
# Text of programs

A readable form of a program, with its constants, the lazy bindings of each scope
and the blocks of loops, sorts, guards, aggregates and joins.
-/

namespace DataExpr

/-- Indentation by four blanks for each level. -/
def indent (depth : Nat) : String := String.ofList (List.replicate (4 * depth) ' ')

/-- A line at a level of indentation. -/
def line (depth : Nat) (text : String) : String := indent depth ++ text ++ "\n"

def commas (texts : List String) : String := ", ".intercalate texts

def NullOrder.suffix : NullOrder → String
  | natural => ""
  | first => " nulls first"
  | last => " nulls last"

def KeyOrder.suffix (order : KeyOrder) : String :=
  (if order.descending then " desc" else "") ++ order.nulls.suffix

/-- Text as a function of the name of the input and of the level of indentation. -/
abbrev Rendering := String → Nat → String

def Step.render (input : String) (depth : Nat) : Step Rendering → String
  | .key k => "[" ++ k input depth ++ "]"
  | .attr name => "." ++ name

/-- One line for each lazy binding. -/
def Scope.render (scope : Scope Rendering) (input : String) (depth : Nat) : String :=
  String.join (scope.memos.map fun m =>
    line depth ("lazy " ++ m.binding.name ++ " = " ++ m.definition input depth))

/-- A line that is there only with its operation. -/
def optionalLine (depth : Nat) (word input : String) : Option Rendering → String
  | some text => line depth (word ++ " " ++ text input depth)
  | none => ""

def LoopOp.render (op : LoopOp Rendering) (input : String) (depth : Nat) : String :=
  let inner := depth + 2
  let key := match op.key with
    | some k => k op.var inner ++ ": "
    | none => ""
  op.kind.name ++ "(\n" ++
    line (depth + 1) ("for " ++ op.var ++ " in " ++ op.source input (depth + 1) ++ ":") ++
    op.scope.render op.var inner ++ optionalLine inner "where" op.var op.filter ++
    line inner ("yield " ++ key ++ op.element op.var inner) ++ indent depth ++ ")"

def SortOp.render (op : SortOp Rendering) (input : String) (depth : Nat) : String :=
  let inner := depth + 2
  let keys := op.keys.map fun k => line inner ("by " ++ k.op op.var inner ++ k.order.suffix)
  "sorted(\n" ++
    line (depth + 1) ("for " ++ op.var ++ " in " ++ op.source input (depth + 1) ++ ":") ++
    op.scope.render op.var inner ++
    (if op.keys.isEmpty then line inner ("by " ++ op.var) else String.join keys) ++
    (if op.reverse then line (depth + 1) "reverse" else "") ++ indent depth ++ ")"

def HandlerOp.render (exc : Binding) (input : String) (depth : Nat) (h : HandlerOp Rendering) :
    String :=
  let kinds := if h.kinds.isEmpty then "any" else commas (h.kinds.map ErrorKind.name)
  line depth ("except " ++ kinds ++ " as " ++ exc.name ++ ":") ++
    optionalLine (depth + 1) "reraise if" input h.reraiseIf ++
    line (depth + 1) (h.value input (depth + 1))

def GuardOp.render (op : GuardOp Rendering) (input : String) (depth : Nat) : String :=
  "try(\n" ++ line (depth + 1) (op.body input (depth + 1)) ++
    String.join (op.handlers.map (HandlerOp.render op.caught input (depth + 1))) ++
    indent depth ++ ")"

def SlotOp.render (row : String) (depth index : Nat) (slot : SlotOp Rendering) : String :=
  let filter := match slot.filter with
    | some f => " where " ++ f row depth
    | none => ""
  let initial := match slot.initial with
    | some i => " initial " ++ i row depth
    | none => ""
  line depth ("slot[" ++ toString index ++ "] = " ++ slot.kind.display ++ "(" ++
    commas (slot.args.map fun a => a row depth) ++ ")" ++ filter ++ initial)

def AggregateOp.render (op : AggregateOp Rendering) (input : String) (depth : Nat) : String :=
  let inner := depth + 2
  let keys := commas (op.keys.map fun k => k op.row inner)
  "aggregate group_" ++ toString op.group ++ "(\n" ++
    line (depth + 1) ("for " ++ op.row ++ " in " ++ op.source input (depth + 1) ++ ":") ++
    op.rowScope.render op.row inner ++
    (if op.keys.isEmpty then "" else line inner ("group by " ++ keys)) ++
    String.join (op.slots.mapIdx (SlotOp.render op.row inner)) ++ line (depth + 1) "emit:" ++
    op.outputScope.render "_" inner ++ line inner (op.output "_" inner) ++ indent depth ++ ")"

def JoinSideOp.render (side : JoinSideOp Rendering) (name input : String) (depth : Nat) : String :=
  let keys := commas (side.keys.map fun k => k input depth)
  side.scope.render input depth ++
    (if side.keys.isEmpty then "" else line depth (name ++ " key " ++ keys)) ++
    optionalLine depth (name ++ " where") input side.filter

def JoinOp.render (op : JoinOp Rendering) (input : String) (depth : Nat) : String :=
  let inner := depth + 1
  let strategy := if op.isKeyed then "hash" else "nested loop"
  "join " ++ op.kind.name ++ " (" ++ strategy ++ ")(\n" ++
    line inner (op.leftRow.name ++ " in " ++ op.left input inner) ++
    line inner (op.rightRow.name ++ " in " ++ op.right input inner) ++
    optionalLine inner "when" input op.preFilter ++ op.leftSide.render "left" input inner ++
    op.rightSide.render "right" input inner ++ op.pairScope.render input inner ++
    optionalLine inner "on" input op.residual ++ indent depth ++ ")"

/-- Text of a node, from the texts of its parts. -/
def OpNode.render (node : OpNode Rendering) (input : String) (depth : Nat) : String :=
  match node with
  | .input => input
  | .const name _ | .param _ name => name
  | .access source steps default =>
    let text := source input depth ++ String.join (steps.map (Step.render input depth))
    match default with
    | some d => "(" ++ text ++ " ?? " ++ d input depth ++ ")"
    | none => text
  | .call name _ args => name ++ "(" ++ commas (args.map fun a => a input depth) ++ ")"
  | .builtin op args => op.name ++ "(" ++ commas (args.map fun a => a input depth) ++ ")"
  | .binary op left right =>
    "(" ++ left input depth ++ " " ++ op.symbol ++ " " ++ right input depth ++ ")"
  | .unary op operand =>
    let text := operand input depth
    match op with
    | .not => "(not " ++ text ++ ")"
    | .neg => "(-" ++ text ++ ")"
    | .isNull => "(" ++ text ++ " is null)"
    | .isNotNull => "(" ++ text ++ " is not null)"
  | .and items => "(" ++ " and ".intercalate (items.map fun a => a input depth) ++ ")"
  | .or items => "(" ++ " or ".intercalate (items.map fun a => a input depth) ++ ")"
  | .collection kind items =>
    let text := commas (items.map fun a => a input depth)
    match kind with
    | .list => "[" ++ text ++ "]"
    | .tuple => "(" ++ text ++ (if items.length = 1 then ",)" else ")")
    | .set => if text.isEmpty then "set()" else "\x7b" ++ text ++ "\x7d"
  | .dict pairs =>
    let texts := pairs.map fun p => p.1 input depth ++ ": " ++ p.2 input depth
    "\x7b" ++ commas texts ++ "\x7d"
  | .loop op => op.render input depth
  | .sort op => op.render input depth
  | .guarded op => op.render input depth
  | .cond condition yes no =>
    "(" ++ yes input depth ++ " if " ++ condition input depth ++ " else " ++ no input depth ++ ")"
  | .pipe producer consumer =>
    "(" ++ producer input depth ++ " |> " ++ consumer "_" depth ++ ")"
  | .setLabel label value => "(" ++ label.name ++ " := " ++ value input depth ++ ")"
  | .memo binding _ | .caught binding | .getLabel binding | .register binding => binding.name
  | .aggregate op => op.render input depth
  | .join op => op.render input depth
  | .groupKey group index => "group_" ++ toString group ++ ".key[" ++ toString index ++ "]"
  | .slotValue group index default =>
    "(group_" ++ toString group ++ ".slot[" ++ toString index ++ "] ?? " ++
      default input depth ++ ")"

/-- Text of an operation. -/
def Op.render : Op → Rendering := Op.fold OpNode.render

namespace Program

/-- Text of a parameter in the head of a program. -/
def renderParam (param : ParamSpec) : String :=
  match param.default with
  | some v => param.name ++ "=" ++ v.repr
  | none => param.name

/-- Text of a program under a name. -/
def render (program : Program) (name : String) : String :=
  let params := if program.params.isEmpty then [] else "*" :: program.params.map renderParam
  let constants := program.constants.map fun (n, v) => line 1 (n ++ " = " ++ v.repr)
  let lazies := program.scope.memos.map fun m =>
    line 1 ("lazy " ++ m.binding.name ++ " = " ++ m.definition.render "input" 1)
  "def " ++ name ++ "(" ++ commas ("input" :: params) ++ "):\n" ++ String.join constants ++
    String.join lazies ++ line 1 ("return " ++ program.body.render "input" 1)

end Program
end DataExpr
