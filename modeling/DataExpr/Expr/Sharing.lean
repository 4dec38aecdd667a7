import DataExpr.Expr.Equality
import DataExpr.Number.Word

/-!
# Shared subexpressions

Walks that visit each distinct node once.  The sharing pattern of an expression
numbers its nodes in the order of their first visit; two expressions of the same
structure have the same pattern exactly when they reuse their subexpressions in
the same way.  The reference count of a node is the number of paths that lead to
it from the root.
-/

namespace DataExpr.Expr

/-- Appends the nodes of an expression that have not been visited, each before its
    subexpressions. -/
def preorderFrom (e : Expr) (visited : List Expr) : List Expr :=
  if visited.any e.same then visited
  else e.children.attach.foldl (fun visited c => preorderFrom c.1 visited) (visited ++ [e])
termination_by sizeOf e
decreasing_by exact Expr.sizeOf_lt_of_mem c.2

/-- The distinct nodes of an expression, each before its subexpressions. -/
def preorder (e : Expr) : List Expr := preorderFrom e []

/-- A walk that numbers nodes: the identities in the order of their first visit, and the
    numbers of all visits, last one first. -/
structure Numbering where
  ids : List Nat
  pattern : List Nat

/-- Visits an expression: a node that has a number repeats it and is not entered. -/
def numberFrom (e : Expr) (walk : Numbering) : Numbering :=
  match walk.ids.idxOf? e.id with
  | some number => ⟨walk.ids, number :: walk.pattern⟩
  | none =>
    e.children.attach.foldl (fun walk c => numberFrom c.1 walk)
      ⟨walk.ids ++ [e.id], walk.ids.length :: walk.pattern⟩
termination_by sizeOf e
decreasing_by exact Expr.sizeOf_lt_of_mem c.2

/-- The numbers of all visits of a walk that enters each distinct node once. -/
def sharingPattern (e : Expr) : List Nat := (numberFrom e ⟨[], []⟩).pattern.reverse

/-! ### Reference counts -/

/-- Appends the nodes of an expression that have not been visited, each after its
    subexpressions; `seen` holds the identities of all nodes that have been entered. -/
def postorderFrom (e : Expr) (seen : List Nat × List Expr) : List Nat × List Expr :=
  if seen.1.contains e.id then seen
  else
    let (ids, order) :=
      e.children.attach.foldl (fun seen c => postorderFrom c.1 seen) (e.id :: seen.1, seen.2)
    (ids, order ++ [e])
termination_by sizeOf e
decreasing_by exact Expr.sizeOf_lt_of_mem c.2

/-- The distinct nodes of an expression, each after its subexpressions. -/
def postorder (e : Expr) : List Expr := (postorderFrom e ([], [])).2

/-- Counts by identity. -/
abbrev Counts := List (Nat × UInt64)

namespace Counts

def get (counts : Counts) (id : Nat) : UInt64 :=
  match counts.find? (·.1 == id) with
  | some (_, n) => n
  | none => 0

def add (counts : Counts) (id : Nat) (n : UInt64) : Except Word.Overflow Counts := do
  match counts with
  | [] => return [(id, n)]
  | (i, k) :: rest =>
    if i = id then return (i, ← Word.add k n) :: rest
    else return (i, k) :: (← add rest id n)

/-- Passes the count of an expression on to each of its subexpressions. -/
def addChildren (counts : Counts) (e : Expr) : Except Word.Overflow Counts :=
  e.children.foldlM (fun counts c => add counts c.id (counts.get e.id)) counts

end Counts

/-- How many paths lead from the root to each distinct node, if these numbers are words.
    Every node passes its count on to its subexpressions after all its own parents have
    done so. -/
def referenceCounts (root : Expr) : Except Word.Overflow Counts :=
  root.postorder.reverse.foldlM Counts.addChildren [(root.id, 1)]

end DataExpr.Expr
