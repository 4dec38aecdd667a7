import DataExpr.Eval.Op
import DataExpr.Lowering.Slots
import DataExpr.Proofs.LoweringCases
import DataExpr.Proofs.RenamedParts

/-!
# What expressions mean

The meaning of an expression without labels and side effects: its value, or the error it fails
with, on a scene.  A scene says what the expression can see, which is the input, the parameters,
the error that is being handled, the rows of a join and the group of an aggregate.  Nothing is
shared and nothing is stored; the producer of a pipe is evaluated at each use of the input or once
before the consumer, as the semantics says.
-/

namespace DataExpr

open Reduction

/-- A value, or the error that comes instead. -/
abbrev Result := Except Error Value

/-- What the meaning of an expression leaves open: what the functions give, and for which producers
    and consumers a pipe evaluates its producer at each use of the input. -/
structure Semantics where
  function : Function → List Value → Result
  inlines : Expr → Expr → Bool
  inlines_rename : ∀ f p c, inlines (p.rename f) (c.rename f) = inlines p c

/-! ### Scenes -/

/-- The output of an aggregate for one group.  Expressions are recognised by their shape. -/
structure OutputView where
  /-- The key of the group that an expression stands for. -/
  key? : Expr → Option Value
  /-- What the slot of a reducer holds, if the aggregate has one for it. -/
  slot? : Reducer Expr → Option (Option Value)
  key_rename : ∀ f e, key? (e.rename f) = key? e
  slot_rename : ∀ f r, slot? (r.map (Expr.rename f)) = slot? r

namespace OutputView

/-- The output for a group.  An expression that equals a key stands for it. -/
def ofGroup (keys : List Expr) (reducers : List (Reducer Expr)) (group : Group) : OutputView :=
  { key? := fun e => (keys.findIdx? (· == e)).map fun i => group.key[i]?.getD .null
    slot? := fun r => (reducers.findIdx? (·.sameSlot r)).map fun i => group.values[i]?.join
    key_rename := fun f e => by simp only [Expr.beq_rename_right]
    slot_rename := fun f r => by simp only [Reducer.sameSlot_rename_right] }

/-- The output seen from a part with an input of its own, where no expression stands for a
    key. -/
def nested (view : OutputView) : OutputView :=
  { view with key? := fun _ => none, key_rename := fun _ _ => rfl }

/-- A group is seen in the same way through keys and reducers with other identities. -/
theorem ofGroup_rename (f : Nat → Nat) (keys : List Expr) (reducers : List (Reducer Expr))
    (group : Group) :
    ofGroup (keys.map (Expr.rename f)) (reducers.map (Reducer.map (Expr.rename f))) group =
      ofGroup keys reducers group := by
  simp only [ofGroup, List.findIdx?_map, Function.comp_def, Expr.beq_rename_left,
    Reducer.sameSlot_rename_left]

end OutputView

/-- What an expression can see. -/
structure Scene where
  /-- The input, or the error with which computing it fails. -/
  input : Result
  param : String → Value
  /-- The message of the error that is being handled. -/
  caught : Option Value
  left : Option Value
  right : Option Value
  output : Option OutputView

namespace Scene

/-- The scene of a part with an input of its own. -/
def within (s : Scene) (input : Result) : Scene :=
  { s with input, output := s.output.map OutputView.nested }

/-- The scene of what an aggregate evaluates for a row. -/
def onRow (s : Scene) (row : Result) : Scene := { s with input := row, output := none }

/-- The scene of the output of an aggregate. -/
def emitting (s : Scene) (view : OutputView) : Scene := { s with output := some view }

/-- The scene of what a join evaluates for these rows. -/
def withRows (s : Scene) (left right : Option Value) : Scene :=
  { s with left, right, output := s.output.map OutputView.nested }

/-- The scene of a handler. -/
def catching (s : Scene) (e : Error) : Scene := { s with caught := some (.str e.message) }

def key? (s : Scene) (e : Expr) : Option Value := s.output.bind (·.key? e)

end Scene

/-- What an expression is on each scene. -/
abbrev Meaning := Scene → Result

/-! ### Parts of nodes -/

/-- Whether all conditions hold; after the first that does not, nothing is evaluated. -/
def allHold : List Result → Except Error Bool
  | [] => .ok true
  | r :: rest => do if (← r).isTruthy then allHold rest else return false

/-- The first operand whose truth is `deciding`, else the last one, else `last`. -/
def firstDeciding (deciding : Bool) (last : Value) : List Result → Result
  | [] => .ok last
  | r :: rest => do
    let v ← r
    if v.isTruthy == deciding then return v else firstDeciding deciding v rest

/-- What a step of an access path finds in a container. -/
def PathStep.find (container : Value) : PathStep Result → Except Error Result
  | .key r => do return container.getItem (← r)
  | .attr name => .ok (container.getAttr name)

/-- Follows a path from a container. -/
def followPath (default : Option Result) (container : Value) : List (PathStep Result) → Result
  | [] => .ok container
  | step :: rest => do
    match ← step.find container with
    | .ok v => followPath default v rest
    | .error e =>
      match default with
      | some d => if e.isAbsent container then d else throw e
      | none => throw e

/-- Key and element for an item that the filter accepts. -/
def itemResult (filter : List Result) (key : Option Result) (element : Result) :
    Except Error (Option (Option Value × Value)) := do
  if ← allHold filter then
    let key ← key.mapM id
    return some (key, ← element)
  else return none

/-- A result, or what is done about its error. -/
def rescue (r : Result) (handle : Error → Option Result) : Result :=
  match r with
  | .ok v => .ok v
  | .error e => (handle e).getD (.error e)

/-- Whether a handler catches an error. -/
def Handler.catches {ε : Type} (h : Handler ε) (e : Error) : Bool :=
  e.kind?.any fun kind => h.kinds.isEmpty || h.kinds.contains kind

/-- What a handler makes of an error, given its condition and its value. -/
def handled (e : Error) (reraise : Option Result) (value : Result) : Result := do
  match reraise with
  | some r => if (← r).isTruthy then throw e else value
  | none => value

/-! ### Aggregates -/

/-- What a slot of an aggregate evaluates for a row. -/
structure SlotMeaning where
  kind : ReducerKind
  accepts : Value → Except Error Bool
  args : Value → Except Error (List Value)
  initial : Option (Value → Result)
  /-- The initial value, if it does not read the row. -/
  seed : Option Result

namespace SlotMeaning

variable (S : Semantics)

/-- Combines an accumulator with the arguments of a row. -/
def combine (kind : ReducerKind) (acc : Accumulator) (args : List Value) :
    Except Error Accumulator := do
  match kind, acc with
  | .reduce f, .plain (.value state) => return .seed (← S.function f (state :: args))
  | kind, acc => acc.combine kind args

/-- Feeds a row to a slot. -/
def feed (m : SlotMeaning) (slot : Option Accumulator) (row : Value) :
    Except Error (Option Accumulator) := do
  if ← m.accepts row then
    let args ← m.args row
    match slot with
    | some acc => return some (← combine S m.kind acc args)
    | none =>
      match ← Accumulator.first m.kind args, m.initial with
      | none, _ => return none
      | some acc, none => return some acc
      | some _, some initial => return some (← combine S m.kind (.seed (← initial row)) args)
  else return slot

/-- A slot that has seen no row. -/
def empty (m : SlotMeaning) : Except Error (Option Accumulator) := do
  match m.seed with
  | some seed => return some (.seed (← seed))
  | none => return none

end SlotMeaning

/-- What an aggregate evaluates for its rows and its groups. -/
structure AggregateMeaning where
  grouped : Bool
  keys : Value → Except Error (List Value)
  slots : List SlotMeaning
  emit : Group → Result

namespace AggregateMeaning

variable (S : Semantics)

/-- Feeds a row to the slots of its group. -/
def feed (m : AggregateMeaning) (groups : GroupTable) (row : Value) : Except Error GroupTable := do
  let key ← m.keys row
  let normal := Value.tuple (key.map Value.hashKey)
  let record := (groups.get? normal).getD ⟨key, m.slots.map fun _ => none⟩
  let slots ← (m.slots.zip record.slots).mapM fun s => s.1.feed S s.2 row
  return groups.insert normal { record with slots }

/-- The output for a group. -/
def finish (m : AggregateMeaning) (record : GroupRecord) : Result := do
  let values ← (m.slots.zip record.slots).mapM fun s => finishSlot s.1.kind s.2
  m.emit ⟨record.key, values⟩

/-- The outputs of all groups, or the one output if there are no keys. -/
def run (m : AggregateMeaning) (rows : List Value) : Result := do
  let groups ← rows.foldlM (m.feed S) Table.empty
  if m.grouped then return .list (← groups.toEntries.mapM fun g => m.finish g.2)
  else
    match groups.toEntries.getLast? with
    | some g => m.finish g.2
    | none => m.finish ⟨[], ← m.slots.mapM (·.empty)⟩

end AggregateMeaning

/-! ### Joins -/

/-- What a join evaluates for its rows. -/
structure JoinMeaning where
  kind : JoinKind
  /-- Whether the part of the condition that reads neither side holds. -/
  enabled : Except Error Bool
  /-- The key of a left row, or none if the row is rejected. -/
  leftKey : Value → Except Error (Option Value)
  rightKey : Value → Except Error (Option Value)
  /-- Whether the rest of the condition holds for a left and a right row. -/
  residual : Value → Value → Except Error Bool

namespace JoinMeaning

/-- The right side is the primary one. -/
def swapped (m : JoinMeaning) : Bool := m.kind = .right

/-- A primary row without a partner appears nevertheless. -/
def preserves (m : JoinMeaning) : Bool := m.kind matches .left | .right | .outer

def primaryKey (m : JoinMeaning) : Value → Except Error (Option Value) :=
  if m.swapped then m.rightKey else m.leftKey

def secondaryKey (m : JoinMeaning) : Value → Except Error (Option Value) :=
  if m.swapped then m.leftKey else m.rightKey

/-- Whether the rest of the condition holds for a primary and a secondary row. -/
def fits (m : JoinMeaning) (primary secondary : Value) : Except Error Bool :=
  if m.swapped then m.residual secondary primary else m.residual primary secondary

/-- A pair with the left row first. -/
def pair (m : JoinMeaning) (primary secondary : Value) : Value :=
  if m.swapped then .tuple [secondary, primary] else .tuple [primary, secondary]

/-- The rows that a side accepts, from a position on, with their keys. -/
def candidates (key : Value → Except Error (Option Value)) :
    Nat → List Value → Except Error (List Candidate)
  | _, [] => .ok []
  | position, row :: rest => do
    match ← key row with
    | some k => return ⟨position, k, row⟩ :: (← candidates key (position + 1) rest)
    | none => candidates key (position + 1) rest

/-- The candidates for which the rest of the condition holds. -/
def select (p : Value → Except Error Bool) : List Candidate → Except Error (List Candidate)
  | [] => .ok []
  | c :: rest => do if ← p c.row then return c :: (← select p rest) else select p rest

/-- The partners of a primary row. -/
def partners (m : JoinMeaning) (found : List Candidate) (row : Value) :
    Except Error (List Candidate) := do
  match ← m.primaryKey row with
  | some key => select (m.fits row) (found.filter (·.key == key))
  | none => return []

/-- The pairs of a primary row with these partners. -/
def pairsOf (m : JoinMeaning) (row : Value) (partners : List Candidate) : List Value :=
  if partners.isEmpty && m.preserves then [m.pair row .null]
  else partners.map fun c => m.pair row c.row

/-- The pairs of the secondary rows that are nobody's partner. -/
def unmatched (m : JoinMeaning) (secondary : List Value) (taken : List Candidate) : List Value :=
  if m.kind = .outer then
    secondary.zipIdx.filterMap fun r =>
      if taken.any (·.position == r.2) then none else some (m.pair .null r.1)
  else []

/-- The list of all pairs. -/
def run (m : JoinMeaning) (left right : List Value) : Result := do
  let primary := if m.swapped then right else left
  let secondary := if m.swapped then left else right
  let enabled ← m.enabled
  let found ← if enabled then candidates m.secondaryKey 0 secondary else pure []
  let all ← primary.mapM fun row => if enabled then m.partners found row else pure []
  let pairs := (primary.zip all).flatMap fun r => m.pairsOf r.1 r.2
  return .list (pairs ++ m.unmatched secondary all.flatten)

end JoinMeaning

/-! ### Nodes -/

section Node

variable {root : Expr} (go : Smaller root → Meaning) (s : Scene)

/-- What a reducer of an aggregate on this scene evaluates. -/
def Reducer.slotMeaning (r : Reducer (Smaller root)) : SlotMeaning :=
  { kind := r.kind
    accepts := fun row => allHold (r.filter.toList.map fun c => go c (s.onRow (.ok row)))
    args := fun row => r.args.mapM fun c => go c (s.onRow (.ok row))
    initial := r.initial.map fun c row => go c (s.onRow (.ok row))
    seed := (r.initial.filter (·.1.analysis.inputUses == 0)).map fun c => go c (s.onRow s.input) }

/-- What a reducer reports when no row qualified. -/
def Reducer.fallback (r : Reducer (Smaller root)) : Result :=
  match r.default, r.initial.filter (·.1.analysis.inputUses == 0) with
  | some default, _ => go default s
  | none, some initial => go initial s
  | none, none => .ok r.kind.staticDefault

/-- A reducer is the value of its slot. -/
def Reducer.meaning (r : Reducer (Smaller root)) : Result :=
  match s.output.bind fun view => view.slot? (Smaller.plain r) with
  | some (some v) => .ok v
  | some none => r.fallback go s
  | none => .error (.invalidArgument "aggregate" "group state read outside of its aggregate")

/-- An aggregate with these keys and these reducers in its output. -/
def aggregateMeaning (keys : List (Smaller root)) (output : Smaller root)
    (reducers : List (Reducer (Smaller root))) : AggregateMeaning :=
  { grouped := !keys.isEmpty
    keys := fun row => keys.mapM fun c => go c (s.onRow (.ok row))
    slots := reducers.map (Reducer.slotMeaning go s)
    emit := fun group =>
      go output (s.emitting (.ofGroup (keys.map (·.1)) (reducers.map Smaller.plain) group)) }

/-- The key of the row on the scene of one side, or none if the filter rejects it. -/
def sideKey (keys filter : List (Smaller root)) : Except Error (Option Value) := do
  if ← allHold (filter.map fun c => go c s) then
    return some (.tuple (← keys.mapM fun c => return (← go c s).hashKey))
  else return none

/-- A join with this plan. -/
def joinMeaning (kind : JoinKind) (plan : JoinPlan (Smaller root)) : JoinMeaning :=
  { kind
    enabled := allHold (plan.preFilter.map fun c => go c s)
    leftKey := fun l => sideKey go (s.withRows (some l) none) (plan.keys.map (·.1)) plan.leftFilter
    rightKey := fun r =>
      sideKey go (s.withRows none (some r)) (plan.keys.map (·.2)) plan.rightFilter
    residual := fun l r =>
      allHold (plan.residual.map fun c => go c (s.withRows (some l) (some r))) }

/-- What a node is on a scene, from the meanings of the expressions below its root. -/
def Node.meaning (S : Semantics) : Node (Smaller root) → Result
  | .input => s.input
  | .access source path default => do
    followPath (default.map fun c => go c s) (← go source s) (path.map (.map fun c => go c s))
  | .constant value => .ok value
  | .parameter name => .ok (s.param name)
  | .call f args => do S.function f (← args.mapM fun c => go c s)
  | .builtin op args => do op.apply (← args.mapM fun c => go c s)
  | .binary op left right => do
    let l ← go left s
    let r ← go right s
    op.apply l r
  | .unary op operand => do op.apply (← go operand s)
  | .and items => firstDeciding false (.bool true) (items.map fun c => go c s)
  | .or items => firstDeciding true (.bool false) (items.map fun c => go c s)
  | .collection kind items => do return kind.build (← items.mapM fun c => go c s)
  | .dict pairs => do
    let entries ← pairs.mapM fun p => do
      let k ← go p.1 s
      let v ← go p.2 s
      return (k, v)
    return .ofDict entries
  | .comprehension kind key element source filter => do
    let items ← (← go source s).elements
    let results ← items.mapM fun item =>
      let inner := s.within (.ok item)
      itemResult (filter.toList.map fun c => go c inner) (key.map fun c => go c inner)
        (go element inner)
    return LoopOp.build kind results.reduceOption
  | .sort source keys reverse => do
    let items ← (← go source s).elements
    if keys.isEmpty then return .list (← Value.sort items reverse)
    else
      let keyed ← items.mapM fun item => do
        let key ← keys.mapM fun k => go k.key (s.within (.ok item))
        return (key, item)
      return .list (← Value.sortByKeys (keys.map (·.order)) keyed reverse)
  | .guarded body handlers => rescue (go body s) fun e =>
    (handlers.find? (·.catches e)).map fun h =>
      handled e (h.reraiseIf.map fun c => go c (s.catching e)) (go h.value (s.catching e))
  | .caught => s.caught.elim (.error (.unboundLabel "caught")) .ok
  | .conditional condition yes no => do
    if (← go condition s).isTruthy then go yes s else go no s
  | .pipe producer consumer =>
    if S.inlines producer.1 consumer.1 then go consumer (s.within (go producer s))
    else do
      let v ← go producer s
      go consumer (s.within (.ok v))
  | .label _ e => go e s
  | .labelRef name => .error (.unboundLabel name)
  | .reducer r => r.meaning go s
  | .aggregate keys output => do
    let rows ← (← s.input).elements
    match output.slots with
    | .ok reducers => (aggregateMeaning go s keys output reducers).run S rows
    | .error _ => .error (.invalidArgument "aggregate" "invalid reducer")
  | .join left right condition kind => do
    let l ← (← go left s).elements
    let r ← (← go right s).elements
    (joinMeaning go s kind (.ofCondition condition kind)).run l r
  | .joinRow .left => s.left.elim (.error (.unboundLabel "left")) .ok
  | .joinRow .right => s.right.elim (.error (.unboundLabel "right")) .ok

end Node

/-- What an expression is on a scene. -/
def Expr.meaning (S : Semantics) (e : Expr) : Meaning := fun s =>
  match s.key? e with
  | some v => .ok v
  | none => e.parts.meaning (fun c => meaning S c.1) s S
termination_by sizeOf e
decreasing_by exact c.2

namespace Expr

variable {S : Semantics} {e : Expr} {s : Scene}

theorem meaning_of_key {v : Value} (h : s.key? e = some v) : e.meaning S s = .ok v := by
  rw [meaning, h]

theorem meaning_of_node (h : s.key? e = none) :
    e.meaning S s = e.parts.meaning (fun c => c.1.meaning S) s S := by
  rw [meaning, h]

/-! ### Laws -/

/-- An expression means what its node means, whichever parts the node is made of. -/
theorem meaning_eq {n : Node Expr} {r : Result} (hkey : s.key? e = none) (hnode : e.node = n)
    (h : ∀ parts : Node (Smaller e), parts.map (·.1) = n →
      parts.meaning (fun c => c.1.meaning S) s S = r) :
    e.meaning S s = r := by
  rw [meaning_of_node hkey]
  exact h e.parts (e.map_parts.trans hnode)

variable {a b c : Expr}

theorem meaning_constant {v : Value} (hkey : s.key? e = none) (hnode : e.node = .constant v) :
    e.meaning S s = .ok v := by
  refine meaning_eq hkey hnode fun parts hparts => ?_
  cases parts <;> cases hparts
  rfl

theorem meaning_parameter {n : String} (hkey : s.key? e = none) (hnode : e.node = .parameter n) :
    e.meaning S s = .ok (s.param n) := by
  refine meaning_eq hkey hnode fun parts hparts => ?_
  cases parts <;> cases hparts
  rfl

theorem meaning_binary {op : BinaryOp} (hkey : s.key? e = none) (hnode : e.node = .binary op a b) :
    e.meaning S s = (do
      let v ← a.meaning S s
      let w ← b.meaning S s
      op.apply v w) := by
  refine meaning_eq hkey hnode fun parts hparts => ?_
  cases parts <;> cases hparts
  rfl

theorem meaning_conditional (hkey : s.key? e = none) (hnode : e.node = .conditional c a b) :
    e.meaning S s = (do
      if (← c.meaning S s).isTruthy then a.meaning S s else b.meaning S s) := by
  refine meaning_eq hkey hnode fun parts hparts => ?_
  cases parts <;> cases hparts
  rfl

theorem meaning_pipe (hkey : s.key? e = none) (hnode : e.node = .pipe a c) :
    e.meaning S s =
      if S.inlines a c then c.meaning S (s.within (a.meaning S s))
      else (do
        let v ← a.meaning S s
        c.meaning S (s.within (.ok v))) := by
  refine meaning_eq hkey hnode fun parts hparts => ?_
  cases parts <;> cases hparts
  rfl

theorem meaning_collection {kind : CollectionKind} {items : List Expr} (hkey : s.key? e = none)
    (hnode : e.node = .collection kind items) :
    e.meaning S s = (do return kind.build (← items.mapM fun c => c.meaning S s)) := by
  refine meaning_eq hkey hnode fun parts hparts => ?_
  cases parts <;> cases hparts
  rw [List.mapM_map]
  rfl

theorem meaning_guarded {handlers : List (Handler Expr)} (hkey : s.key? e = none)
    (hnode : e.node = .guarded a handlers) :
    e.meaning S s = rescue (a.meaning S s) fun err =>
      (handlers.find? (·.catches err)).map fun h =>
        handled err (h.reraiseIf.map fun c => c.meaning S (s.catching err))
          (h.value.meaning S (s.catching err)) := by
  refine meaning_eq hkey hnode fun parts hparts => ?_
  cases parts <;> cases hparts
  refine congrArg (rescue _) (funext fun err => ?_)
  rw [List.find?_map, Option.map_map]
  -- a handler catches what it catches with other parts in it
  change _ = Option.map _ (List.find? (fun h : Handler (Smaller e) => h.catches err) _)
  refine Option.map_congr fun h _ => ?_
  simp only [Function.comp_apply, Handler.map, Option.map_map]
  rfl

/-- Without a filter every item gives its element. -/
theorem mapM_itemResult (items : List Value) (f : Value → Result) :
    (items.mapM fun item => itemResult [] none (f item)) =
      (items.mapM f).map (List.map fun v => some (none, v)) := by
  have single (r : Result) : itemResult [] none r = r.map fun v => some (none, v) := by
    cases r <;> rfl
  induction items with
  | nil => rfl
  | cons item items ih =>
    rw [List.mapM_cons, List.mapM_cons, ih, single]
    cases f item with
    | error err => rfl
    | ok v => cases items.mapM f <;> rfl

theorem meaning_listComprehension (hkey : s.key? e = none)
    (hnode : e.node = .comprehension .list none a b none) :
    e.meaning S s = (do
      let items ← (← b.meaning S s).elements
      return .list (← items.mapM fun item => a.meaning S (s.within (.ok item)))) := by
  refine meaning_eq hkey hnode fun parts hparts => ?_
  cases parts
  case comprehension kind key element source filter =>
    obtain ⟨rfl, hkeyed, rfl, rfl, hfilter⟩ := Node.comprehension.inj hparts
    obtain rfl := Option.map_eq_none_iff.mp hkeyed
    obtain rfl := Option.map_eq_none_iff.mp hfilter
    change (source.1.meaning S s >>= fun v => v.elements >>= fun items => do
      let results ← items.mapM fun item =>
        itemResult [] none (element.1.meaning S (s.within (.ok item)))
      return LoopOp.build .list results.reduceOption) = _
    refine bind_congr fun v => bind_congr fun items => ?_
    rw [mapM_itemResult]
    cases items.mapM fun item => element.1.meaning S (s.within (.ok item)) with
    | error err => rfl
    | ok results =>
      refine congrArg (fun vs => Except.ok (Value.list vs)) ?_
      change (List.filterMap (fun r => r)
        (results.map fun v => some ((none : Option Value), v))).map _ = _
      simp [List.filterMap_map, Function.comp_def]
  all_goals cases hparts

end Expr
end DataExpr
