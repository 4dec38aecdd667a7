import DataExpr.Proofs.OpParts

/-!
# The labels that an operation needs and sets

For each operation, the labels that must be set before it is evaluated and those that are
certainly set after it has succeeded.  Both follow the order in which the operation is
evaluated: a default is reached from any step of a path, the filter of a side comes before its
keys, and what is evaluated for each item counts for nothing afterwards.
-/

namespace DataExpr

/-- The slots of the labels that an evaluation needs and of those that it sets. -/
structure Flow where
  needs : List Nat
  sets : List Nat

namespace Flow

def nothing : Flow := ⟨[], []⟩

/-- One evaluation after the other. -/
def andThen (f g : Flow) : Flow :=
  ⟨f.needs ++ g.needs.filter fun n => !f.sets.contains n, f.sets ++ g.sets⟩

/-- One of two evaluations. -/
def either (f g : Flow) : Flow :=
  ⟨f.needs ++ g.needs, f.sets.filter fun n => g.sets.contains n⟩

/-- An evaluation that may not happen. -/
def contained (f : Flow) : Flow := ⟨f.needs, []⟩

def all : List Flow → Flow
  | [] => nothing
  | f :: fs => f.andThen (all fs)

def perhaps (f : Option Flow) : Flow := f.getD nothing

/-- Evaluations of which any may happen, in any order. -/
def apart (fs : List Flow) : Flow := all (fs.map contained)

/-- Operands of which only the first one is certain to be evaluated. -/
def first : List Flow → Flow
  | [] => nothing
  | f :: fs => f.andThen (all fs).contained

/-- A way that may be left for a default. -/
def orDefault (f : Flow) : Option Flow → Flow
  | none => f
  | some default => f.either default

/-- A path whose steps may fail. -/
def path (default : Option Flow) : List (Step Flow) → Flow
  | [] => nothing
  | .key k :: rest => k.andThen ((path default rest).orDefault default)
  | .attr _ :: rest => (path default rest).orDefault default

def handler (h : HandlerOp Flow) : Flow := (perhaps h.reraiseIf).andThen h.value

def side (s : JoinSideOp Flow) : Flow := (perhaps s.filter).andThen (all s.keys)

end Flow

open DataExpr.Flow in
/-- What a node needs and sets, from what its parts do. -/
def OpNode.flow : OpNode Flow → Flow
  | .input | .const .. | .param .. | .caught _ | .register _ | .groupKey .. => nothing
  | .access source steps default => source.andThen (path default steps)
  | .call _ _ args | .builtin _ args | .collection _ args => all args
  | .binary _ left right => left.andThen right
  | .unary _ operand => operand
  | .and items | .or items => first items
  | .dict pairs => all (pairs.map fun p => p.1.andThen p.2)
  | .loop op =>
    op.source.andThen
      ((perhaps op.filter).andThen ((perhaps op.key).andThen op.element)).contained
  | .sort op => op.source.andThen (all (op.keys.map SortKeyOp.op)).contained
  | .guarded op => op.handlers.foldl (fun f h => f.either (handler h)) op.body
  | .cond condition yes no => condition.andThen (yes.either no)
  | .pipe producer consumer => producer.andThen consumer
  | .memo _ definition => definition
  | .setLabel label value => value.andThen ⟨[], [label.slot]⟩
  | .getLabel label => ⟨[label.slot], []⟩
  | .aggregate op =>
    op.source.andThen (apart
      [(all op.keys).andThen (apart (op.slots.flatMap SlotOp.parts)), op.output])
  | .join op =>
    op.left.andThen (op.right.andThen (apart
      [perhaps op.preFilter, side op.leftSide, side op.rightSide, perhaps op.residual]))
  | .slotValue _ _ default => default.contained

/-- What an operation needs and sets. -/
def Op.flow (op : Op) : Flow := op.fold OpNode.flow

namespace Flow

variable {f g : Flow} {n : Nat}

theorem mem_needs_andThen :
    n ∈ (f.andThen g).needs ↔ n ∈ f.needs ∨ (n ∈ g.needs ∧ n ∉ f.sets) := by
  simp [andThen]

/-- What the second evaluation needs has been set before the first one or by it. -/
theorem mem_append_of_needs {A : List Nat} (hA : ∀ k ∈ (f.andThen g).needs, k ∈ A)
    (hn : n ∈ g.needs) : n ∈ A ++ f.sets := by
  by_cases hset : n ∈ f.sets
  · exact List.mem_append_right _ hset
  · exact List.mem_append_left _ (hA n (mem_needs_andThen.mpr (.inr ⟨hn, hset⟩)))

theorem mem_sets_andThen : n ∈ (f.andThen g).sets ↔ n ∈ f.sets ∨ n ∈ g.sets := by
  simp [andThen]

theorem mem_needs_either : n ∈ (f.either g).needs ↔ n ∈ f.needs ∨ n ∈ g.needs := by
  simp [either]

theorem mem_sets_either : n ∈ (f.either g).sets ↔ n ∈ f.sets ∧ n ∈ g.sets := by
  simp [either]

theorem mem_needs_apart {fs : List Flow} :
    n ∈ (apart fs).needs ↔ ∃ f ∈ fs, n ∈ f.needs := by
  induction fs with
  | nil => simp [apart, all, nothing]
  | cons f fs ih =>
    have step : apart (f :: fs) = f.contained.andThen (apart fs) := rfl
    rw [step, mem_needs_andThen, ih]
    simp [contained]

theorem sets_apart (fs : List Flow) : (apart fs).sets = [] := by
  induction fs with
  | nil => rfl
  | cons f fs ih =>
    have step : apart (f :: fs) = f.contained.andThen (apart fs) := rfl
    rw [step, andThen, ih]
    rfl

/-- A flow that needs no more and sets no less. -/
structure Refines (f g : Flow) : Prop where
  needs : ∀ n ∈ f.needs, n ∈ g.needs
  sets : ∀ n ∈ g.sets, n ∈ f.sets

namespace Refines

variable {f' g' h : Flow}

theorem refl (f : Flow) : Refines f f := ⟨fun _ => id, fun _ => id⟩

theorem nothing_andThen (f : Flow) : Refines f (nothing.andThen f) := by
  refine ⟨fun n hn => ?_, fun n hn => ?_⟩
  · exact mem_needs_andThen.mpr (.inr ⟨hn, List.not_mem_nil⟩)
  · exact (mem_sets_andThen.mp hn).resolve_left List.not_mem_nil

theorem trans (hf : Refines f g) (hg : Refines g h) : Refines f h :=
  ⟨fun n hn => hg.needs n (hf.needs n hn), fun n hn => hf.sets n (hg.sets n hn)⟩

theorem either_left (f g : Flow) : Refines f (f.either g) :=
  ⟨fun _ hn => mem_needs_either.mpr (.inl hn), fun _ hn => (mem_sets_either.mp hn).1⟩

theorem either_right (f g : Flow) : Refines g (f.either g) :=
  ⟨fun _ hn => mem_needs_either.mpr (.inr hn), fun _ hn => (mem_sets_either.mp hn).2⟩

theorem before_nothing (f : Flow) : Refines (f.andThen nothing) f := by
  refine ⟨fun n hn => ?_, fun n hn => mem_sets_andThen.mpr (.inl hn)⟩
  exact (mem_needs_andThen.mp hn).resolve_right fun h => absurd h.1 List.not_mem_nil

theorem after_nothing (f : Flow) : Refines (nothing.andThen f) f := by
  refine ⟨fun n hn => ?_, fun n hn => mem_sets_andThen.mpr (.inr hn)⟩
  rcases mem_needs_andThen.mp hn with hn | ⟨hn, -⟩
  · exact absurd hn List.not_mem_nil
  · exact hn

theorem contained (hneeds : ∀ n ∈ f.needs, n ∈ g.needs) : Refines f.contained g.contained :=
  ⟨hneeds, fun _ h => absurd h List.not_mem_nil⟩

theorem nothing_contained (f : Flow) : Refines nothing f.contained :=
  ⟨fun _ h => absurd h List.not_mem_nil, fun _ h => absurd h List.not_mem_nil⟩

theorem self_contained (f : Flow) : Refines f f.contained :=
  ⟨fun _ h => h, fun _ h => absurd h List.not_mem_nil⟩

theorem either_comm (f g : Flow) : Refines (f.either g) (g.either f) := by
  refine ⟨fun n hn => ?_, fun n hn => ?_⟩
  · exact mem_needs_either.mpr (mem_needs_either.mp hn).symm
  · exact mem_sets_either.mpr (mem_sets_either.mp hn).symm

/-- Evaluations of which any may happen need what they need one after the other. -/
theorem apart_append (fs gs : List Flow) :
    Refines (apart (fs ++ gs)) ((apart fs).andThen (apart gs)) := by
  refine ⟨fun n hn => ?_, fun n hn => ?_⟩
  · obtain ⟨f, hf, hn⟩ := mem_needs_apart.mp hn
    rw [mem_needs_andThen, mem_needs_apart, mem_needs_apart, sets_apart]
    rcases List.mem_append.mp hf with hf | hf
    · exact .inl ⟨f, hf, hn⟩
    · exact .inr ⟨⟨f, hf, hn⟩, List.not_mem_nil⟩
  · rw [mem_sets_andThen, sets_apart, sets_apart] at hn
    rcases hn with hn | hn <;> exact absurd hn List.not_mem_nil

theorem apart_singleton (f : Flow) : Refines (apart [f]) f.contained := by
  refine ⟨fun n hn => ?_, fun n hn => absurd hn List.not_mem_nil⟩
  obtain ⟨g, hg, hn⟩ := mem_needs_apart.mp hn
  rw [List.mem_singleton.mp hg] at hn
  exact hn

end Refines

/-- The keys of a path. -/
def keys (steps : List (Step Flow)) : List Flow := steps.flatMap Step.parts

/-- A path without a default evaluates all its keys. -/
theorem path_none (steps : List (Step Flow)) : path none steps = all (keys steps) := by
  induction steps with
  | nil => rfl
  | cons step rest ih =>
    cases step with
    | key k => simp only [path, orDefault, ih, keys, List.flatMap_cons, Step.parts, all,
        List.singleton_append]
    | attr name => simp only [path, orDefault, ih, keys, List.flatMap_cons, Step.parts,
        List.nil_append]

/-- What a path with a default needs, its keys and the default need. -/
theorem refines_path (default : Flow) (steps : List (Step Flow)) :
    Refines ((path (some default) steps).orDefault (some default))
      ((apart (keys steps)).andThen default.contained) := by
  refine ⟨fun n hn => ?_, fun n hn => ?_⟩
  · rw [mem_needs_andThen, mem_needs_apart, sets_apart]
    rcases mem_needs_either.mp hn with hn | hn
    · induction steps with
      | nil => exact absurd hn List.not_mem_nil
      | cons step rest ih =>
        have tail : n ∈ ((path (some default) rest).orDefault (some default)).needs →
            (∃ f ∈ keys (step :: rest), n ∈ f.needs) ∨ n ∈ default.contained.needs ∧ n ∉ [] := by
          intro hn
          rcases mem_needs_either.mp hn with hn | hn
          · rcases ih (mem_needs_either.mpr (.inl hn)) hn with ⟨f, hf, hn⟩ | hn
            · exact .inl ⟨f, List.mem_flatMap.mpr
                ((List.mem_flatMap.mp hf).imp fun s h => ⟨List.mem_cons_of_mem _ h.1, h.2⟩), hn⟩
            · exact .inr hn
          · exact .inr ⟨hn, List.not_mem_nil⟩
        cases step with
        | key k =>
          rcases mem_needs_andThen.mp hn with hn | ⟨hn, -⟩
          · exact .inl ⟨k, List.mem_cons_self, hn⟩
          · exact tail hn
        | attr name => exact tail hn
    · exact .inr ⟨hn, List.not_mem_nil⟩
  · rw [mem_sets_andThen, sets_apart] at hn
    rcases hn with hn | hn <;> exact absurd hn List.not_mem_nil

end Flow
end DataExpr
