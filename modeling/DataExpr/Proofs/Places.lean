import DataExpr.Proofs.LoweringCases
import DataExpr.Proofs.OpParts

/-!
# The slots that lowering hands out

Lowering never gives a slot to two uses at once.  The slots that an operation overwrites for
its own purposes are either new or belong to a binding of the current scope or to the
producer of the input, and they are neither the slot of a label nor that of a binding of
the scope.  Slots that have been handed out stay what they are.
-/

namespace DataExpr.Lowering

/-- The slots that are overwritten at each use of the input. -/
def Input.scratch : Input → List Nat
  | .inline producer => producer.scratch
  | .value | .unavailable => []

/-- The slots that are overwritten by the input, given those, and by the bindings of the
    scope. -/
def known (input : List Nat) (bound : List Bound) : List Nat :=
  input ++ bound.flatMap fun b => b.definition.scratch

/-- The slots of the bindings of the scope and of the labels. -/
def taken (supply : Supply) (bound : List Bound) : List Nat :=
  (bound.map fun b => b.binding.slot) ++ supply.labels.map fun l => l.2.slot

/-- All slots have been handed out, and each of them has one use. -/
structure Tidy (input : List Nat) (supply : Supply) (bound : List Bound) : Prop where
  known_lt : ∀ n ∈ known input bound, n < supply.slots
  taken_lt : ∀ n ∈ taken supply bound, n < supply.slots
  nodup : (taken supply bound).Nodup
  apart : ∀ n ∈ known input bound, n ∉ taken supply bound
  names : (supply.labels.map Prod.fst).Nodup

/-- What was handed out before stays, and the rest is new. -/
structure Grows (s s' : State) : Prop where
  slots : s.supply.slots ≤ s'.supply.slots
  groups : s.supply.groups ≤ s'.supply.groups
  bound : ∃ bs, s'.bound = s.bound ++ bs ∧ ∀ b ∈ bs, s.supply.slots ≤ b.binding.slot
  labels : ∃ ls, s'.supply.labels = s.supply.labels ++ ls ∧ ∀ l ∈ ls, s.supply.slots ≤ l.2.slot

/-- Slots that were known in a state or have been handed out since. -/
def Since (input : List Nat) (s : State) (ns : List Nat) : Prop :=
  ∀ n ∈ ns, n ∈ known input s.bound ∨ s.supply.slots ≤ n

/-- Slots that have been handed out and are in use for nothing that lasts. -/
structure Apart (ns : List Nat) (s : State) : Prop where
  lt : ∀ n ∈ ns, n < s.supply.slots
  apart : ∀ n ∈ ns, n ∉ taken s.supply s.bound

/-- What a step that keeps the slots apart does; what it gives overwrites the slots `ns`. -/
structure Kept (input : List Nat) (s : State) (ns : List Nat) (s' : State) : Prop where
  tidy : Tidy input s'.supply s'.bound
  grows : Grows s s'
  known : Since input s (Lowering.known input s'.bound)
  since : Since input s ns
  apart : Apart ns s'

/-- A step that keeps the slots apart. -/
def Tidies (input : List Nat) (s : State) (ns : List Nat) (s' : State) : Prop :=
  Tidy input s.supply s.bound → Kept input s ns s'

variable {input input' : List Nat} {s s₁ s₂ s' : State} {ns ms : List Nat}

namespace Grows

theorem refl (s : State) : Grows s s :=
  ⟨Nat.le_refl _, Nat.le_refl _, ⟨[], by simp, fun _ h => absurd h List.not_mem_nil⟩,
    ⟨[], by simp, fun _ h => absurd h List.not_mem_nil⟩⟩

theorem mem_bound (h : Grows s s') {b : Bound} (hb : b ∈ s.bound) : b ∈ s'.bound := by
  obtain ⟨bs, hbs, -⟩ := h.bound
  rw [hbs]
  exact List.mem_append_left bs hb

theorem mem_labels (h : Grows s s') {l : String × Binding} (hl : l ∈ s.supply.labels) :
    l ∈ s'.supply.labels := by
  obtain ⟨ls, hls, -⟩ := h.labels
  rw [hls]
  exact List.mem_append_left ls hl

theorem of_mem_taken (h : Grows s s') {n : Nat} (hn : n ∈ taken s'.supply s'.bound) :
    n ∈ taken s.supply s.bound ∨ s.supply.slots ≤ n := by
  obtain ⟨bs, hbs, hbsNew⟩ := h.bound
  obtain ⟨ls, hls, hlsNew⟩ := h.labels
  simp only [taken, hbs, hls, List.map_append, List.mem_append, List.mem_map] at hn
  rcases hn with (⟨b, hb, rfl⟩ | ⟨b, hb, rfl⟩) | ⟨l, hl, rfl⟩ | ⟨l, hl, rfl⟩
  · exact .inl (List.mem_append_left _ (List.mem_map_of_mem (f := fun b => b.binding.slot) hb))
  · exact .inr (hbsNew b hb)
  · exact .inl (List.mem_append_right _ (List.mem_map_of_mem (f := fun l => l.2.slot) hl))
  · exact .inr (hlsNew l hl)

theorem trans (h : Grows s s₁) (h' : Grows s₁ s₂) : Grows s s₂ := by
  obtain ⟨bs, hbs, hbsNew⟩ := h.bound
  obtain ⟨bs', hbs', hbsNew'⟩ := h'.bound
  obtain ⟨ls, hls, hlsNew⟩ := h.labels
  obtain ⟨ls', hls', hlsNew'⟩ := h'.labels
  have hslots := h.slots
  refine ⟨Nat.le_trans h.slots h'.slots, Nat.le_trans h.groups h'.groups,
    ⟨bs ++ bs', by rw [hbs', hbs, List.append_assoc], ?_⟩,
    ⟨ls ++ ls', by rw [hls', hls, List.append_assoc], ?_⟩⟩
  · intro b hb
    rcases List.mem_append.mp hb with hb | hb
    · exact hbsNew b hb
    · exact Nat.le_trans hslots (hbsNew' b hb)
  · intro l hl
    rcases List.mem_append.mp hl with hl | hl
    · exact hlsNew l hl
    · exact Nat.le_trans hslots (hlsNew' l hl)

end Grows

namespace Apart

theorem subset (h : Apart ns s) (hms : ∀ n ∈ ms, n ∈ ns) : Apart ms s :=
  ⟨fun n hn => h.lt n (hms n hn), fun n hn => h.apart n (hms n hn)⟩

theorem append (h : Apart ns s) (h' : Apart ms s) : Apart (ns ++ ms) s :=
  ⟨fun n hn => (List.mem_append.mp hn).elim (h.lt n) (h'.lt n),
    fun n hn => (List.mem_append.mp hn).elim (h.apart n) (h'.apart n)⟩

/-- Later steps leave alone what has been lowered. -/
theorem later (h : Apart ns s₁) (hgrows : Grows s₁ s₂) : Apart ns s₂ := by
  refine ⟨fun n hn => Nat.lt_of_lt_of_le (h.lt n hn) hgrows.slots, fun n hn hmem => ?_⟩
  rcases hgrows.of_mem_taken hmem with hmem | hle
  · exact h.apart n hn hmem
  · have := h.lt n hn
    omega

end Apart

theorem Since.append (h : Since input s ns) (h' : Since input s ms) : Since input s (ns ++ ms) :=
  fun n hn => (List.mem_append.mp hn).elim (h n) (h' n)

/-- What is known or new after a first step is known or new before it. -/
theorem Since.before (h : Since input' s₁ ms) (hslots : s.supply.slots ≤ s₁.supply.slots)
    (hknown : Since input s (known input' s₁.bound)) : Since input s ms := by
  intro n hn
  rcases h n hn with hn | hn
  · exact hknown n hn
  · exact .inr (Nat.le_trans hslots hn)

/-- The slots of a tidy state stay apart when the input overwrites others that are. -/
theorem Tidy.reinput {supply : Supply} {bound : List Bound} (h : Tidy input supply bound)
    (hlt : ∀ n ∈ input', n < supply.slots) (hapart : ∀ n ∈ input', n ∉ taken supply bound) :
    Tidy input' supply bound := by
  refine ⟨fun n hn => ?_, h.taken_lt, h.nodup, fun n hn => ?_, h.names⟩
  · rcases List.mem_append.mp hn with hn | hn
    · exact hlt n hn
    · exact h.known_lt n (List.mem_append_right _ hn)
  · rcases List.mem_append.mp hn with hn | hn
    · exact hapart n hn
    · exact h.apart n (List.mem_append_right _ hn)

/-- A scope starts without bindings of its own. -/
theorem Tidy.enter (h : Tidy input s.supply s.bound) (hinput : ∀ n ∈ input', n ∈ input) :
    Tidy input' s.enter.supply s.enter.bound := by
  refine ⟨fun n hn => ?_, fun n hn => ?_, ?_, fun n hn hmem => ?_, h.names⟩
  · simp only [known, State.enter, List.flatMap_nil, List.append_nil] at hn
    exact h.known_lt n (List.mem_append_left _ (hinput n hn))
  · exact h.taken_lt n (List.mem_append_right _ hn)
  · exact (List.nodup_append.mp h.nodup).2.1
  · simp only [known, State.enter, List.flatMap_nil, List.append_nil] at hn
    exact h.apart n (List.mem_append_left _ (hinput n hn)) (List.mem_append_right _ hmem)

namespace Tidies

theorem refl (input : List Nat) (s : State) : Tidies input s [] s :=
  fun h => ⟨h, .refl s, fun _ hn => .inl hn, fun _ hn => absurd hn List.not_mem_nil,
    fun _ hn => absurd hn List.not_mem_nil, fun _ hn => absurd hn List.not_mem_nil⟩

theorem subset (h : Tidies input s ns s') (hms : ∀ n ∈ ms, n ∈ ns) : Tidies input s ms s' := by
  intro htidy
  obtain ⟨htidy', hgrows, hknown, hsince, hapart⟩ := h htidy
  exact ⟨htidy', hgrows, hknown, fun n hn => hsince n (hms n hn), hapart.subset hms⟩

/-- Two steps, of which the second may run with an input that the first one has lowered. -/
theorem pipe (h : Tidies input s ns s₁) (h' : Tidies input' s₁ ms s₂)
    (hinput : ∀ n ∈ input', n ∈ input ∨ n ∈ ns) : Tidies input s (ns ++ ms) s₂ := by
  intro htidy
  obtain ⟨htidy₁, hgrows, hknown, hsince, hapart⟩ := h htidy
  have hinputApart : Apart input s₁ :=
    ⟨fun n hn => htidy₁.known_lt n (List.mem_append_left _ hn),
      fun n hn => htidy₁.apart n (List.mem_append_left _ hn)⟩
  have hinputApart' : Apart input' s₁ := by
    refine ⟨fun n hn => ?_, fun n hn => ?_⟩
    · exact (hinput n hn).elim (hinputApart.lt n) (hapart.lt n)
    · exact (hinput n hn).elim (hinputApart.apart n) (hapart.apart n)
  obtain ⟨htidy₂, hgrows', hknown', hsince', hapart'⟩ :=
    h' (htidy₁.reinput hinputApart'.lt hinputApart'.apart)
  -- What the second step knows of its input, the first one knows or has lowered.
  have hold : Since input s (known input' s₁.bound) := by
    intro n hn
    rcases List.mem_append.mp hn with hn | hn
    · rcases hinput n hn with hn | hn
      · exact .inl (List.mem_append_left _ hn)
      · exact hsince n hn
    · exact hknown n (List.mem_append_right _ hn)
  refine ⟨?_, hgrows.trans hgrows', ?_, ?_, ?_⟩
  · have := hinputApart.later hgrows'
    exact htidy₂.reinput this.lt this.apart
  · intro n hn
    rcases List.mem_append.mp hn with hn | hn
    · exact .inl (List.mem_append_left _ hn)
    · exact hknown'.before hgrows.slots hold n (List.mem_append_right _ hn)
  · exact hsince.append (hsince'.before hgrows.slots hold)
  · exact (hapart.later hgrows').append hapart'

/-- Two steps with the same input. -/
theorem trans (h : Tidies input s ns s₁) (h' : Tidies input s₁ ms s₂) :
    Tidies input s (ns ++ ms) s₂ := h.pipe h' fun _ hn => .inl hn

/-- A step that hands out nothing that counts here. -/
theorem of_eq (hslots : s'.supply.slots = s.supply.slots)
    (hlabels : s'.supply.labels = s.supply.labels) (hbound : s'.bound = s.bound)
    (hgroups : s.supply.groups ≤ s'.supply.groups) : Tidies input s [] s' := by
  intro htidy
  have hknown : known input s'.bound = known input s.bound := by rw [hbound]
  have htaken : taken s'.supply s'.bound = taken s.supply s.bound := by
    rw [taken, taken, hlabels, hbound]
  refine ⟨⟨?_, ?_, ?_, ?_, ?_⟩, ⟨?_, hgroups, ⟨[], ?_, ?_⟩, ⟨[], ?_, ?_⟩⟩, ?_, ?_, ?_⟩
  · rw [hknown, hslots]
    exact htidy.known_lt
  · rw [htaken, hslots]
    exact htidy.taken_lt
  · rw [htaken]
    exact htidy.nodup
  · rw [hknown, htaken]
    exact htidy.apart
  · rw [hlabels]
    exact htidy.names
  · exact Nat.le_of_eq hslots.symm
  · rw [hbound, List.append_nil]
  · exact fun _ hn => absurd hn List.not_mem_nil
  · rw [hlabels, List.append_nil]
  · exact fun _ hn => absurd hn List.not_mem_nil
  · rw [hknown]
    exact fun n hn => .inl hn
  · exact fun _ hn => absurd hn List.not_mem_nil
  · exact ⟨fun _ hn => absurd hn List.not_mem_nil, fun _ hn => absurd hn List.not_mem_nil⟩

theorem freshName {stem name : String} (h : Gives (freshName stem) s name s') :
    Tidies input s [] s' := by
  obtain ⟨n, rfl⟩ := gives_freshName h
  exact of_eq rfl rfl rfl (Nat.le_refl _)

theorem constantName {value : Value} {name : String} (h : Gives (constantName value) s name s') :
    Tidies input s [] s' := by
  obtain ⟨n, cs, rfl⟩ := gives_constantName h
  exact of_eq rfl rfl rfl (Nat.le_refl _)

theorem paramIndex {name : String} {index : Nat} (h : Gives (paramIndex name) s index s') :
    Tidies input s [] s' := by
  rcases gives_paramIndex h with ⟨-, rfl⟩ | ⟨-, -, rfl⟩
  · exact refl input s'
  · exact of_eq rfl rfl rfl (Nat.le_refl _)

theorem freshGroup {g : Nat} (h : Gives freshGroup s g s') : Tidies input s [] s' := by
  obtain ⟨-, rfl⟩ := gives_freshGroup h
  exact of_eq rfl rfl rfl (Nat.le_succ _)

/-- A slot that is handed out is free for whoever asked for it. -/
theorem freshSlot {stem : String} {b : Binding} (h : Gives (freshSlot stem) s b s') :
    Tidies input s [b.slot] s' := by
  obtain ⟨hslot, n, rfl⟩ := gives_freshSlot h
  intro htidy
  refine ⟨⟨?_, ?_, htidy.nodup, htidy.apart, htidy.names⟩,
    ⟨Nat.le_succ _, Nat.le_refl _, ⟨[], by simp, ?_⟩, ⟨[], by simp, ?_⟩⟩, ?_, ?_, ?_, ?_⟩
  · exact fun n hn => Nat.lt_succ_of_lt (htidy.known_lt n hn)
  · exact fun n hn => Nat.lt_succ_of_lt (htidy.taken_lt n hn)
  · exact fun _ hn => absurd hn List.not_mem_nil
  · exact fun _ hn => absurd hn List.not_mem_nil
  · exact fun n hn => .inl hn
  · intro n hn
    obtain rfl := List.mem_singleton.mp hn
    exact .inr (Nat.le_of_eq hslot.symm)
  · intro n hn
    obtain rfl := List.mem_singleton.mp hn
    exact hslot ▸ Nat.lt_succ_self _
  · intro n hn hmem
    obtain rfl := List.mem_singleton.mp hn
    have := htidy.taken_lt b.slot hmem
    omega

theorem labelSlot {name : String} {b : Binding} (h : Gives (labelSlot name) s b s') :
    Tidies input s [] s' := by
  rcases gives_labelSlot h with ⟨-, rfl⟩ | ⟨rfl, hnew, rfl⟩
  · exact refl input s'
  intro htidy
  have htaken : taken
      { s.supply with
        slots := s.supply.slots + 1
        labels := s.supply.labels ++ [(name, (⟨s.supply.slots, "label_" ++ name⟩ : Binding))] }
      s.bound = taken s.supply s.bound ++ [s.supply.slots] := by
    simp [taken]
  refine ⟨⟨?_, ?_, ?_, ?_, ?_⟩, ⟨Nat.le_succ _, Nat.le_refl _, ⟨[], by simp, ?_⟩, ⟨_, rfl, ?_⟩⟩,
    fun n hn => .inl hn, fun _ hn => absurd hn List.not_mem_nil,
    fun _ hn => absurd hn List.not_mem_nil, fun _ hn => absurd hn List.not_mem_nil⟩
  · exact fun n hn => Nat.lt_succ_of_lt (htidy.known_lt n hn)
  · intro n hn
    rw [htaken, List.mem_append, List.mem_singleton] at hn
    rcases hn with hn | rfl
    · exact Nat.lt_succ_of_lt (htidy.taken_lt n hn)
    · exact Nat.lt_succ_self _
  · rw [htaken]
    refine List.nodup_append.mpr ⟨htidy.nodup, by simp, fun n hn m hm => ?_⟩
    obtain rfl := List.mem_singleton.mp hm
    exact Nat.ne_of_lt (htidy.taken_lt n hn)
  · intro n hn hmem
    rw [htaken, List.mem_append, List.mem_singleton] at hmem
    rcases hmem with hmem | rfl
    · exact htidy.apart n hn hmem
    · exact Nat.lt_irrefl _ (htidy.known_lt _ hn)
  · rw [List.map_append, List.map_singleton]
    refine List.nodup_append.mpr ⟨htidy.names, by simp, fun n hn m hm => ?_⟩
    obtain rfl := List.mem_singleton.mp hm
    obtain ⟨l, hl, rfl⟩ := List.mem_map.mp hn
    exact hnew l hl
  · exact fun _ hn => absurd hn List.not_mem_nil
  · intro l hl
    obtain rfl := List.mem_singleton.mp hl
    exact Nat.le_refl _

/-- A new binding of the scope. -/
theorem bind {definition : Op} {binding : Binding} {site : Site} {reads writes : NameSet}
    (h : Tidies input s definition.scratch s₁)
    (hslot : Gives (Lowering.freshSlot "v") s₁ binding s₂) :
    Tidies input s definition.scratch
      { s₂ with bound := s₂.bound ++ [⟨site, binding, definition, reads, writes⟩] } := by
  intro htidy
  obtain ⟨htidy₁, hgrows, hknown, hsince, hapart⟩ := h htidy
  obtain ⟨hb, n, rfl⟩ := gives_freshSlot hslot
  -- The new slot is above all that are taken, and the places of the definition are known from now
  -- on.
  have hknownEq : known input (s₁.bound ++ [⟨site, binding, definition, reads, writes⟩]) =
      known input s₁.bound ++ definition.scratch := by
    simp [known]
  have hmem : ∀ m, m ∈ taken s₁.supply (s₁.bound ++ [⟨site, binding, definition, reads, writes⟩]) ↔
      m ∈ taken s₁.supply s₁.bound ∨ m = binding.slot := by
    intro m
    simp only [taken, List.map_append, List.map_cons, List.map_nil, List.mem_append,
      List.mem_singleton]
    constructor
    · rintro ((h | h) | h)
      · exact .inl (.inl h)
      · exact .inr h
      · exact .inl (.inr h)
    · rintro ((h | h) | h)
      · exact .inl (.inl h)
      · exact .inr h
      · exact .inl (.inr h)
  have hknownLt : ∀ m ∈ known input s₁.bound ++ definition.scratch, m < s₁.supply.slots := by
    intro m hm
    exact (List.mem_append.mp hm).elim (htidy₁.known_lt m) (hapart.lt m)
  have hknownApart : ∀ m ∈ known input s₁.bound ++ definition.scratch,
      m ∉ taken s₁.supply s₁.bound := by
    intro m hm
    exact (List.mem_append.mp hm).elim (htidy₁.apart m) (hapart.apart m)
  refine ⟨⟨?_, ?_, ?_, ?_, htidy₁.names⟩, ?_, ?_, hsince, ?_, ?_⟩
  · intro m hm
    rw [hknownEq] at hm
    exact Nat.lt_succ_of_lt (hknownLt m hm)
  · intro m hm
    rcases (hmem m).mp hm with hm | rfl
    · exact Nat.lt_succ_of_lt (htidy₁.taken_lt m hm)
    · exact hb ▸ Nat.lt_succ_self _
  · have hperm : (taken s₁.supply (s₁.bound ++ [⟨site, binding, definition, reads, writes⟩])).Perm
        (binding.slot :: taken s₁.supply s₁.bound) := by
      simp only [taken, List.map_append, List.map_cons, List.map_nil, List.append_assoc,
        List.singleton_append]
      exact List.perm_middle
    refine hperm.nodup_iff.mpr (List.nodup_cons.mpr ⟨fun h => ?_, htidy₁.nodup⟩)
    have := htidy₁.taken_lt _ h
    omega
  · intro m hm hm'
    rw [hknownEq] at hm
    rcases (hmem m).mp hm' with hm' | rfl
    · exact hknownApart m hm hm'
    · have := hknownLt _ hm
      omega
  · obtain ⟨bs, hbs, hbsNew⟩ := hgrows.bound
    refine ⟨Nat.le_succ_of_le hgrows.slots, hgrows.groups,
      ⟨bs ++ [⟨site, binding, definition, reads, writes⟩], ?_, ?_⟩, hgrows.labels⟩
    · simp only [hbs, List.append_assoc]
    · intro b hmemb
      rcases List.mem_append.mp hmemb with hmemb | hmemb
      · exact hbsNew b hmemb
      · obtain rfl := List.mem_singleton.mp hmemb
        exact hb ▸ hgrows.slots
  · intro m hm
    rw [hknownEq] at hm
    exact (List.mem_append.mp hm).elim (hknown m) (hsince m)
  · exact fun m hm => Nat.lt_succ_of_lt (hapart.lt m hm)
  · intro m hm hm'
    rcases (hmem m).mp hm' with hm' | rfl
    · exact hapart.apart m hm hm'
    · have := hapart.lt _ hm
      omega

/-- A scope: afterwards its own bindings are only forgotten when it is entered again. -/
theorem scope (h : Tidies input' s.enter ns s₁) (hinput : ∀ n ∈ input', n ∈ input) :
    Tidies input s (s₁.scope.resets ++ ns) (s₁.leave s) := by
  intro htidy
  obtain ⟨htidy₁, hgrows, hknown, hsince, hapart⟩ := h (htidy.enter hinput)
  have hslots : s.supply.slots ≤ s₁.supply.slots := hgrows.slots
  obtain ⟨ls, hls, hlsNew⟩ := hgrows.labels
  obtain ⟨bs, hbs, hbsNew⟩ := hgrows.bound
  simp only [State.enter, List.nil_append] at hbs hbsNew hls hlsNew
  have hresetsNew : ∀ n ∈ s₁.scope.resets, s.supply.slots ≤ n := by
    intro n hn
    rw [State.resets_scope, hbs] at hn
    obtain ⟨b, hb, rfl⟩ := List.mem_map.mp hn
    exact hbsNew b hb
  have hgrows' : Grows s (s₁.leave s) :=
    ⟨hslots, hgrows.groups, ⟨[], (List.append_nil _).symm, fun _ hn => absurd hn List.not_mem_nil⟩,
      ⟨ls, hls, hlsNew⟩⟩
  have hlabelsApart : ∀ n, n < s.supply.slots → n ∈ s₁.supply.labels.map (fun l => l.2.slot) →
      n ∈ s.supply.labels.map (fun l => l.2.slot) := by
    intro n hlt hn
    rw [hls, List.map_append, List.mem_append] at hn
    rcases hn with hn | hn
    · exact hn
    · obtain ⟨l, hl, rfl⟩ := List.mem_map.mp hn
      have := hlsNew l hl
      omega
  -- What the scope overwrites is no slot of the outer bindings and none of the labels.
  have hsince' : Since input s ns := by
    intro n hn
    rcases hsince n hn with hn | hn
    · simp only [known, State.enter, List.flatMap_nil, List.append_nil] at hn
      exact .inl (List.mem_append_left _ (hinput n hn))
    · exact .inr hn
  have houter : ∀ n, n ∈ known input s.bound ∨ s.supply.slots ≤ n →
      n ∉ s.bound.map fun b => b.binding.slot := by
    intro n hn hmem
    have hmem : n ∈ taken s.supply s.bound := List.mem_append_left _ hmem
    rcases hn with hn | hn
    · exact htidy.apart n hn hmem
    · have := htidy.taken_lt n hmem
      omega
  refine ⟨⟨?_, ?_, ?_, ?_, htidy₁.names⟩, hgrows', fun n hn => .inl hn, ?_, ?_, ?_⟩
  · exact fun n hn => Nat.lt_of_lt_of_le (htidy.known_lt n hn) hslots
  · intro n hn
    rcases List.mem_append.mp hn with hn | hn
    · exact Nat.lt_of_lt_of_le (htidy.taken_lt n (List.mem_append_left _ hn)) hslots
    · exact htidy₁.taken_lt n (List.mem_append_right _ hn)
  · refine List.nodup_append.mpr ⟨(List.nodup_append.mp htidy.nodup).1,
      (List.nodup_append.mp htidy₁.nodup).2.1, fun n hn m hm hnm => ?_⟩
    subst hnm
    have hlt := htidy.taken_lt n (List.mem_append_left _ hn)
    exact (List.nodup_append.mp htidy.nodup).2.2 n hn n (hlabelsApart n hlt hm) rfl
  · intro n hn hmem
    rcases List.mem_append.mp hmem with hmem | hmem
    · exact houter n (.inl hn) hmem
    · have hlt := htidy.known_lt n hn
      exact htidy.apart n hn (List.mem_append_right _ (hlabelsApart n hlt hmem))
  · exact Since.append (fun n hn => .inr (hresetsNew n hn)) hsince'
  · intro n hn
    rcases List.mem_append.mp hn with hn | hn
    · rw [State.resets_scope] at hn
      exact htidy₁.taken_lt n (List.mem_append_left _ hn)
    · exact hapart.lt n hn
  · intro n hn hmem
    rcases List.mem_append.mp hn with hn | hn
    · rcases List.mem_append.mp hmem with hmem | hmem
      · exact houter n (.inr (hresetsNew n hn)) hmem
      · rw [State.resets_scope] at hn
        exact (List.nodup_append.mp htidy₁.nodup).2.2 n hn n hmem rfl
    · rcases List.mem_append.mp hmem with hmem | hmem
      · exact houter n (hsince' n hn) hmem
      · exact hapart.apart n hn (List.mem_append_right _ hmem)

/-! ### Lists of steps -/

section Lists

variable {α β : Type} {R : α → State → β → State → Prop} {f : β → List Nat}

end Lists

/-- Labels that become known have no part in this. -/
theorem assign (h : Tidies input s ns s₁) (names : NameSet) :
    Tidies input s ns { s₁ with assigned := names } := by
  have after : Tidies input s₁ [] { s₁ with assigned := names } :=
    of_eq rfl rfl rfl (Nat.le_refl _)
  exact (h.trans after).subset fun _ hn => List.mem_append_left _ hn

/-- Labels that are known before have no part in this. -/
theorem assignBefore {names : NameSet} (h : Tidies input { s with assigned := names } ns s') :
    Tidies input s ns s' := by
  have before : Tidies input s [] { s with assigned := names } :=
    of_eq rfl rfl rfl (Nat.le_refl _)
  exact before.trans h

end Tidies

end DataExpr.Lowering
