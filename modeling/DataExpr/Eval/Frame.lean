import DataExpr.Program.Basic

/-!
# Frames

What a call of a program changes while it runs: the slots of lazy bindings, labels,
join rows and caught errors, and the groups that aggregates are emitting.  Each call
has a frame of its own.
-/

namespace DataExpr

/-- The group for which an aggregate evaluates its output. -/
structure Group where
  /-- The key values of the group's first row. -/
  key : List Value
  /-- The value of each slot, if some row reached it. -/
  values : List (Option Value)

structure Frame where
  params : List Value
  slots : Array (Option Value)
  groups : Array (Option Group)

namespace Frame

/-- The frame at the start of a call. -/
def ofLayout (layout : Layout) (params : List Value) : Frame :=
  { params, slots := .replicate layout.slots none, groups := .replicate layout.groups none }

def param (frame : Frame) (index : Nat) : Value := frame.params[index]?.getD .null

def slot? (frame : Frame) (slot : Nat) : Option Value := frame.slots[slot]?.join

def setSlot (frame : Frame) (slot : Nat) (value : Value) : Frame :=
  { frame with slots := frame.slots.setIfInBounds slot (some value) }

/-- Forgets what some slots hold. -/
def reset (frame : Frame) (slots : List Nat) : Frame :=
  { frame with slots := slots.foldl (fun all slot => all.setIfInBounds slot none) frame.slots }

def group? (frame : Frame) (group : Nat) : Option Group := frame.groups[group]?.join

def setGroup (frame : Frame) (group : Nat) (view : Option Group) : Frame :=
  { frame with groups := frame.groups.setIfInBounds group view }

end Frame
end DataExpr
