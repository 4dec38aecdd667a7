import DataExpr.Proofs.PipedPrograms

/-!
# Handlers that do not see each other's errors

The program of a tuple gives the tuple of what the programs of its items alone give
(`Program.call_tuple`), and a comprehension computes its element for each item as if for this item
alone (`Program.call_listComprehension`).  So the items of a tuple that are guarded see their own
errors only: what the second one makes of an error is made of the message of its own error, whatever
the first one caught, and whatever the two share (`Program.call_guarded_pair`).  Pipes in them may
pass on anything but the caught error: the input of a consumer is known by the identity of its
producer, and one that gives the caught error gives another value in each handler
(`Program.sharedError_stale`).
-/

namespace DataExpr

open Eval Lowering

namespace Program

variable {σ : Type} {S : Semantics} {host : Host σ} {r : Registry} {e a b c d : Expr}
  {signature : Signature} {threshold : Weight.Threshold} {program alone : Program}
  {params params' : Params} {values : List Value}

/-! ### Tuples and comprehensions -/

/-- **Items are evaluated apart.**  The program of a tuple gives the tuple of what programs of the
    items alone give, or the error of the first one that fails. -/
theorem call_tuple (hS : S.Describes host) (he : e.Regular r threshold) {items : List Expr}
    (hnode : e.node = .collection .tuple items)
    (h : Program.ofExpr e signature threshold = .ok program)
    (hvalues : program.params.bind params = .ok values) {parts : List (Program × Params)}
    (hparts : List.Forall₂
      (fun c p => OfPart c threshold (program.params.valueOf values) p.1 p.2) items parts)
    (input : Value) (state state' : σ) :
    (program.call host input params state).1 = (do
      return .tuple (← parts.mapM fun p => (p.1.call host input p.2 state').1)) := by
  have each : List.Forall₂ (fun c (p : Program × Params) =>
      c.meaning (S.lowered threshold) (.start input (program.params.valueOf values)) =
        (p.1.call host input p.2 state').1) items parts := by
    refine forall₂_imp_both hparts fun c hc p _ hp => ?_
    have hwithin : Expr.Within c e := .child (by rwa [Expr.children, hnode])
    exact (hp.call_eq hS (he.within hwithin) input state').symm
  rw [call_part hS he h hvalues (fun _ _ => rfl), Expr.meaning_collection rfl hnode]
  have all : (items.mapM fun c =>
      c.meaning (S.lowered threshold) (.start input (program.params.valueOf values))) =
        parts.mapM fun p => (p.1.call host input p.2 state').1 := by
    clear hparts h hnode
    induction each with
    | nil => rfl
    | cons hcp _ ih => rw [List.mapM_cons, List.mapM_cons, hcp, ih]
  rw [all]
  rfl

/-- **Items are isolated.**  The program of a list comprehension over the input gives for each item
    what a program of the element alone gives, up to the first error. -/
theorem call_listComprehension (hS : S.Describes host) (he : e.Regular r threshold) {i : Nat}
    (hnode : e.node = .comprehension .list none c (.mk i .input) none)
    (h : Program.ofExpr e signature threshold = .ok program)
    (hvalues : program.params.bind params = .ok values)
    (halone : OfPart c threshold (program.params.valueOf values) alone params')
    (items : List Value) (state state' : σ) :
    (program.call host (.list items) params state).1 = (do
      return .list (← items.mapM fun item => (alone.call host item params' state').1)) := by
  have hwithin : Expr.Within c e := .child (by simp [Expr.children, hnode, Node.children])
  rw [call_part hS he h hvalues (fun _ _ => rfl), Expr.meaning_listComprehension rfl hnode,
    Expr.meaning_of_node rfl]
  simp only [halone.call_eq hS (he.within hwithin)]
  rfl

/-- The parts of the input under two keys, or the messages of the errors. -/
def twoItems : Expr := .mk 0 (.collection .tuple [itemOrError 10 "a", itemOrError 30 "b"])

def eachTwoItems : Expr := .mk 1 (.comprehension .list none twoItems (.mk 2 .input) none)

/-- The error that was handled last in one item is seen in the next one. -/
theorem eachTwoItems_stale :
    (match Program.ofExpr eachTwoItems [] Weight.bindingThreshold,
        Program.ofExpr twoItems [] Weight.bindingThreshold with
      | .ok program, .ok alone =>
        match (program.call Host.none
            (.list [.dict [(.str "b", .int 1)], .dict [(.str "a", .int 1)]]) .none ()).1,
          (alone.call Host.none (.dict [(.str "a", .int 1)]) .none ()).1 with
        | .ok (.list [_, v]), .ok w =>
          v == .tuple [.int 1, .str "key a not found"] && w == .tuple [.int 1, .null]
        | _, _ => false
      | _, _ => false) = true := by
  decide +kernel

/-! ### Guarded items -/

/-- **Each handler sees its own error.**  The program of a pair of guarded expressions gives the
    pair of what programs of the two alone give, or the error of the first one that fails; and what
    the handlers of either one see is the error of its own body. -/
theorem call_guarded_pair (hS : S.Describes host) (he : e.Regular r threshold)
    {handlers handlers' : List (Handler Expr)} (hnode : e.node = .collection .tuple [c, d])
    (hc : c.node = .guarded a handlers) (hd : d.node = .guarded b handlers')
    (h : Program.ofExpr e signature threshold = .ok program)
    (hvalues : program.params.bind params = .ok values)
    {first second : Program} {params₁ params₂ : Params}
    (hfirst : OfPart c threshold (program.params.valueOf values) first params₁)
    (hsecond : OfPart d threshold (program.params.valueOf values) second params₂)
    (input : Value) (state state' : σ) :
    (program.call host input params state).1 = (do
      let v ← (first.call host input params₁ state').1
      let w ← (second.call host input params₂ state').1
      return .tuple [v, w]) ∧
    let scene := Scene.start input (program.params.valueOf values)
    let outcome (body : Expr) (handlers : List (Handler Expr)) : Result :=
      rescue (body.meaning (S.lowered threshold) scene) fun err =>
        (handlers.find? (·.catches err)).map fun h =>
          let caught := scene.catching err
          handled err (h.reraiseIf.map fun c => c.meaning (S.lowered threshold) caught)
            (h.value.meaning (S.lowered threshold) caught)
    (first.call host input params₁ state').1 = outcome a handlers ∧
      (second.call host input params₂ state').1 = outcome b handlers' := by
  have within {x : Expr} (hx : x ∈ [c, d]) : x.Regular r threshold :=
    he.within (.child (by rwa [Expr.children, hnode]))
  constructor
  · have both : List.Forall₂
        (fun c p => OfPart c threshold (program.params.valueOf values) p.1 p.2) [c, d]
        [(first, params₁), (second, params₂)] := .cons hfirst (.cons hsecond .nil)
    rw [call_tuple hS he hnode h hvalues both input state state']
    simp [List.mapM_cons]
  · constructor
    · rw [hfirst.call_eq hS (within List.mem_cons_self)]
      exact Expr.meaning_guarded rfl hc
    · rw [hsecond.call_eq hS (within (List.mem_cons_of_mem c List.mem_cons_self))]
      exact Expr.meaning_guarded rfl hd

/-- The input and two more beside the message of the error, by way of a pipe. -/
def besideMessage : Expr :=
  .mk 20 (.pipe (plusTwo 21) (.mk 30 (.collection .tuple [.mk 31 .input, .mk 32 .caught])))

/-- An expression, or what the one handler gives. -/
def orBesideMessage (i : Nat) (body : Expr) : Expr :=
  .mk i (.guarded body [⟨[], besideMessage, none⟩])

/-- Two expressions that fail in different ways, with one handle for what is made of the error. -/
def twoMessages : Expr :=
  .mk 1 (.collection .tuple
    [orBesideMessage 6 (inputItem 7 (.str "x")), orBesideMessage 10 quotient])

theorem regular_twoMessages (r : Registry) : twoMessages.Regular r Weight.bindingThreshold := by
  have nodes : ∀ d, Expr.Within d twoMessages →
      (∀ keys output, d.node ≠ .aggregate keys output) ∧ d.node.Exact r ∧
        (∀ s, d.node ≠ .reducer s) ∧ ∀ p c, d.node = .pipe p c → d = besideMessage := by
    simp [twoMessages, orBesideMessage, besideMessage, plusTwo, inputItem, quotient,
      Expr.forall_within_mk, Node.children, PathStep.children, Handler.children, Expr.node,
      Node.Exact, Value.Exact]
  refine ⟨⟨exists_of_isSome (by decide +kernel),
    Expr.candid_of_noAggregate fun d hd => (nodes d hd).1,
    fun d hd => (nodes d hd).2.1, by decide +kernel, by decide +kernel,
    fun d hd s hs => absurd hs ((nodes d hd).2.2.1 s)⟩, fun d hd p c hnode => ?_, ?_⟩
  · obtain rfl := (nodes d hd).2.2.2 p c hnode
    cases hnode
    decide +kernel
  · intro d hd p c hnode d' hd' p' c' hnode' _
    obtain rfl := (nodes d hd).2.2.2 p c hnode
    obtain rfl := (nodes d' hd').2.2.2 p' c' hnode'
    rw [hnode] at hnode'
    cases hnode'
    rfl

theorem call_guarded_pair_twoMessages : ∃ program first second,
    Program.ofExpr twoMessages [] Weight.bindingThreshold = .ok program ∧
      Program.ofExpr (orBesideMessage 6 (inputItem 7 (.str "x"))) [] Weight.bindingThreshold =
        .ok first ∧
      Program.ofExpr (orBesideMessage 10 quotient) [] Weight.bindingThreshold = .ok second ∧
      (program.call Host.none (.int 0) .none ()).1 = (do
        let v ← (first.call Host.none (.int 0) .none ()).1
        let w ← (second.call Host.none (.int 0) .none ()).1
        return .tuple [v, w]) := by
  obtain ⟨program, h, hnone⟩ := exists_closed (e := twoMessages) (by decide +kernel)
  obtain ⟨first, hfirst, hnone₁⟩ :=
    exists_closed (e := orBesideMessage 6 (inputItem 7 (.str "x"))) (by decide +kernel)
  obtain ⟨second, hsecond, hnone₂⟩ :=
    exists_closed (e := orBesideMessage 10 quotient) (by decide +kernel)
  refine ⟨program, first, second, h, hfirst, hsecond, ?_⟩
  exact (call_guarded_pair describes_none
    (regular_twoMessages ⟨fun i => ⟨i, "", true⟩, fun _ => ("", [])⟩) rfl rfl rfl h
    (bind_closed hnone)
    ⟨⟨[], hfirst⟩, [], bind_closed hnone₁, fun n _ => by rw [hnone, hnone₁]⟩
    ⟨⟨[], hsecond⟩, [], bind_closed hnone₂, fun n _ => by rw [hnone, hnone₂]⟩ (.int 0) () ()).1

/-- The message of the error twice, in capitals, by way of a pipe. -/
def capitals (i : Nat) : Expr :=
  .mk i (.pipe (.mk 0 .caught) (.mk (i + 1) (.binary .add
    (.mk (i + 2) (.builtin .upper [.mk (i + 3) .input]))
    (.mk (i + 4) (.builtin .upper [.mk (i + 5) .input])))))

/-- One divided by zero, or the message of the error in capitals. -/
def failedDivision : Expr :=
  .mk 20 (.guarded (.mk 21 (.binary .div (.mk 22 (.constant (.int 1)))
    (.mk 23 (.constant (.int 0))))) [⟨[], capitals 24, none⟩])

/-- Two expressions that fail in different ways, with one node for the error that both pipe. -/
def sharedError : Expr :=
  .mk 1 (.collection .tuple
    [.mk 2 (.guarded (inputItem 3 (.str "a")) [⟨[], capitals 10, none⟩]), failedDivision])

/-- The second handler sees what the consumer in the first one was given. -/
theorem sharedError_stale :
    (match Program.ofExpr sharedError [] Weight.bindingThreshold,
        Program.ofExpr failedDivision [] Weight.bindingThreshold with
      | .ok program, .ok alone =>
        match (program.call Host.none (.dict []) .none ()).1,
          (alone.call Host.none (.dict []) .none ()).1 with
        | .ok (.tuple [_, v]), .ok w =>
          v == .str "KEY A NOT FOUNDKEY A NOT FOUND" && w == .str "DIVISION BY ZERODIVISION BY ZERO"
        | _, _ => false
      | _, _ => false) = true := by
  decide +kernel

end Program
end DataExpr
