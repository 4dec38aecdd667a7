import DataExpr.Eval.Frame
import Mathlib.Data.List.Nodup

/-!
# Frames and the roles of their slots

What a change of a frame does to its slots and groups, and the roles that slots play for an
evaluation: some are free to be overwritten, some are kept by everybody, and some hold a lazy
binding.  A scope gives a role to the slots of its bindings while it is entered.
-/

namespace DataExpr

namespace Frame

variable (frame : Frame) {m n : Nat} (v : Value)

@[simp] theorem size_setSlot : (frame.setSlot n v).slots.size = frame.slots.size := by
  simp [setSlot]

theorem slot?_setSlot_self (h : n < frame.slots.size) :
    (frame.setSlot n v).slot? n = some v := by
  simp [slot?, setSlot, h]

theorem slot?_setSlot_ne (h : n ≠ m) : (frame.setSlot n v).slot? m = frame.slot? m := by
  simp [slot?, setSlot, h]

theorem group?_setGroup_self {g : Nat} {view : Option Group} (h : g < frame.groups.size) :
    (frame.setGroup g view).group? g = view := by
  simp [group?, setGroup, h]

theorem group?_setGroup_ne {g k : Nat} {view : Option Group} (h : g ≠ k) :
    (frame.setGroup g view).group? k = frame.group? k := by
  simp [group?, setGroup, h]

theorem reset_cons (n : Nat) (ns : List Nat) :
    frame.reset (n :: ns) =
      { frame with slots := frame.slots.setIfInBounds n none }.reset ns := rfl

@[simp] theorem size_reset (ns : List Nat) : (frame.reset ns).slots.size = frame.slots.size := by
  induction ns generalizing frame with
  | nil => rfl
  | cons n ns ih => simp [reset_cons, ih]

theorem slot?_reset_of_mem {ns : List Nat} (h : n ∈ ns) : (frame.reset ns).slot? n = none := by
  -- A slot that is none stays none, so it is enough that one reset reaches it.
  have stays (frame : Frame) (ns : List Nat) (h : frame.slot? n = none) :
      (frame.reset ns).slot? n = none := by
    induction ns generalizing frame with
    | nil => exact h
    | cons k ns ih =>
      rw [reset_cons]
      refine ih _ ?_
      by_cases hk : k = n
      · subst hk
        by_cases hlt : k < frame.slots.size <;> simp [slot?, hlt]
      · simpa [slot?, hk] using h
  induction ns generalizing frame with
  | nil => exact absurd h List.not_mem_nil
  | cons k ns ih =>
    rw [reset_cons]
    by_cases hk : k = n
    · subst hk
      refine stays _ ns ?_
      by_cases hlt : k < frame.slots.size <;> simp [slot?, hlt]
    · exact ih _ ((List.mem_cons.mp h).resolve_left (Ne.symm hk))

theorem slot?_reset_of_not_mem {ns : List Nat} (h : n ∉ ns) :
    (frame.reset ns).slot? n = frame.slot? n := by
  induction ns generalizing frame with
  | nil => rfl
  | cons k ns ih =>
    rw [List.mem_cons, not_or] at h
    rw [reset_cons, ih _ h.2]
    simp [slot?, Ne.symm h.1]

/-- In a new frame no slot is set. -/
theorem slot?_ofLayout (layout : Layout) (params : List Value) :
    (ofLayout layout params).slot? n = none := by
  by_cases hn : n < layout.slots <;> simp [slot?, ofLayout, hn]

end Frame

/-! ### Roles -/

/-- What a slot is for: nothing that lasts, something that is kept, or a lazy binding. -/
inductive Role (κ ρ : Type) where
  | free
  | kept (k : κ)
  | memo (r : ρ)

abbrev Roles (κ ρ : Type) := Nat → Role κ ρ

namespace Roles

variable {κ ρ : Type} (roles : Roles κ ρ)

/-- The roles while a scope with these bindings is entered. -/
def enter (memos : List (Nat × ρ)) : Roles κ ρ := fun n =>
  match memos.find? fun m => m.1 == n with
  | some m => .memo m.2
  | none => roles n

/-- The roles while a slot is kept. -/
def keep (n : Nat) (k : κ) : Roles κ ρ := fun m => if m = n then .kept k else roles m

variable {memos : List (Nat × ρ)} {n : Nat}

theorem enter_of_mem (hnodup : (memos.map Prod.fst).Nodup) {r : ρ} (h : (n, r) ∈ memos) :
    roles.enter memos n = .memo r := by
  cases hfind : memos.find? fun m => m.1 == n with
  | none => exact absurd (List.find?_eq_none.mp hfind _ h) (by simp)
  | some m =>
    have hn : m.1 = n := by simpa using List.find?_some hfind
    have same : m = (n, r) :=
      List.inj_on_of_nodup_map hnodup (List.mem_of_find?_eq_some hfind) h hn
    simp only [enter, hfind, same]

theorem enter_of_not_mem (h : n ∉ memos.map Prod.fst) : roles.enter memos n = roles n := by
  have hfind : memos.find? (fun m => m.1 == n) = none := by
    refine List.find?_eq_none.mpr fun m hm heq => h ?_
    rw [← eq_of_beq heq]
    exact List.mem_map_of_mem hm
  simp only [enter, hfind]

/-- A slot that has a lasting role in a scope, but is none of its bindings, has it outside. -/
theorem enter_eq_kept {k : κ} (h : roles.enter memos n = .kept k) : roles n = .kept k := by
  unfold enter at h
  split at h
  · cases h
  · exact h

theorem keep_self (n : Nat) (k : κ) : roles.keep n k n = .kept k := if_pos rfl

theorem keep_ne {m : Nat} {k : κ} (h : m ≠ n) : roles.keep n k m = roles m := if_neg h

/-- Whatever is used in the first roles is used in the same way in the second. -/
def Below (roles roles' : Roles κ ρ) : Prop := ∀ n, roles n ≠ .free → roles' n = roles n

section Below

variable {roles} {roles' roles'' : Roles κ ρ}

theorem Below.refl (roles : Roles κ ρ) : roles.Below roles := fun _ _ => rfl

theorem Below.trans (h : roles.Below roles') (h' : roles'.Below roles'') : roles.Below roles'' := by
  intro n hn
  rw [h' n (h n hn ▸ hn), h n hn]

theorem Below.kept (h : roles.Below roles') {k : κ} (hn : roles n = .kept k) :
    roles' n = .kept k := by
  rw [h n (by rw [hn]; nofun), hn]

theorem Below.memo (h : roles.Below roles') {r : ρ} (hn : roles n = .memo r) :
    roles' n = .memo r := by
  rw [h n (by rw [hn]; nofun), hn]

/-- A slot that was free may be kept. -/
theorem below_keep (hfree : roles n = .free) (k : κ) : roles.Below (roles.keep n k) := by
  intro m hm
  apply keep_ne
  rintro rfl
  exact hm hfree

end Below

theorem keep_comm {m : Nat} {k l : κ} (h : m ≠ n) :
    (roles.keep n k).keep m l = (roles.keep m l).keep n k := by
  funext i
  unfold keep
  split
  · rw [if_neg]
    rintro rfl
    exact h ‹i = m›.symm
  · rfl

end Roles
end DataExpr
