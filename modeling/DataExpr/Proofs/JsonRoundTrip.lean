import DataExpr.Proofs.EqualValues
import DataExpr.Proofs.ExactDoubles
import DataExpr.Value.Json

/-!
# Values as JSON documents and back

Nothing is lost on the way from a value to a document and back if the value has a document of its
own shape, and nothing on the way from a document to a value and back if its numbers are kept
(`json_roundTrip`).  An object sorts what a dictionary keeps in the order of insertion: a dictionary
comes back as an equal one in the order of the names, which is also the order of their bytes.
-/

namespace DataExpr

/-! ### Floats and doubles -/

namespace Double

/-- A double is a float with its bits. -/
theorem toBits_toFloat (x : Double) : x.toFloat.toBits = x.bits :=
  UInt64.toBitVec_inj.mp x.pack_parts

theorem ofFloat?_toFloat (x : Double) : ofFloat? x.toFloat = some x := by
  have number : isNumber x.toFloat.toBits = true := x.toBits_toFloat ▸ x.number
  rw [ofFloat?_of_number number]
  exact congrArg some (ext_toNat (congrArg UInt64.toNat x.toBits_toFloat))

theorem float_ext {x y : Float} (h : x.toBits = y.toBits) : x = y := by
  obtain ⟨⟨bits, _⟩⟩ := x
  obtain ⟨⟨bits', _⟩⟩ := y
  obtain rfl : bits = bits' := h
  rfl

/-- A finite float has an exponent that is not all ones. -/
theorem toBits_of_isFinite {x : Float} (h : x.isFinite = true) :
    x.toBits.toNat % 2 ^ 63 < 0x7ff0000000000000 := by
  have h : (Float.Model.UnpackedFloat.unpack Float.Model.Format.binary64
    x.toBits.toBitVec).isFinite = true := h
  unfold Float.Model.UnpackedFloat.unpack at h
  by_cases ones : @Float.Model.UnpackedFloat.unpackExponent Float.Model.Format.binary64
      x.toBits.toBitVec = -BitVec.ofNat Float.Model.Format.binary64.exponentBits 1
  · simp only [ones, if_true] at h
    split at h <;> cases h
  · have exponent : x.toBits.toNat / 2 ^ 52 % 2 ^ 11 ≠ 2047 := fun same =>
      ones (BitVec.eq_of_toNat_eq ((FloatBits.toNat_unpackExponent _).trans same))
    omega

/-- A finite float that is not the negative zero is a finite double. -/
theorem exists_of_isFinite {x : Float} (finite : x.isFinite = true)
    (h : x.toBits ≠ (-0.0 : Float).toBits) :
    ∃ d : Double, ofFloat? x = some d ∧ d.isFinite = true ∧ d.toFloat = x := by
  have bound := toBits_of_isFinite finite
  have nonzero : x.toBits.toNat ≠ 2 ^ 63 := fun same => h (UInt64.toNat_inj.mp same)
  have number : isNumber x.toBits = true := isNumber_iff.mpr ⟨Nat.le_of_lt bound, nonzero⟩
  refine ⟨_, ofFloat?_of_number number, (isFinite_iff _).mpr bound, float_ext ?_⟩
  exact toBits_toFloat _

end Double

/-! ### Sorted members -/

namespace Json

/-- Members with distinct names in the order of the names. -/
def SortedNames (members : Members) : Prop := members.Pairwise fun a b => a.1 < b.1

namespace Members

theorem mem_insert {name : String} {value : Json} {members : Members} {m : String × Json}
    (h : m ∈ Members.insert name value members) : m = (name, value) ∨ m ∈ members := by
  induction members with
  | nil => exact .inl (List.mem_singleton.mp h)
  | cons n members ih =>
    rw [Members.insert] at h
    split at h
    · rename_i same
      rcases List.mem_cons.mp h with rfl | h
      · exact .inl (by rw [eq_of_beq same])
      · exact .inr (List.mem_cons_of_mem n h)
    · split at h
      · rcases List.mem_cons.mp h with rfl | h
        · exact .inl rfl
        · exact .inr h
      · rcases List.mem_cons.mp h with rfl | h
        · exact .inr List.mem_cons_self
        · exact (ih h).imp_right (List.mem_cons_of_mem n)

theorem sorted_insert (name : String) (value : Json) {members : Members}
    (h : SortedNames members) : SortedNames (Members.insert name value members) := by
  induction members with
  | nil => exact List.pairwise_singleton _ _
  | cons n members ih =>
    obtain ⟨first, rest⟩ := List.pairwise_cons.mp h
    rw [Members.insert]
    split
    · exact List.pairwise_cons.mpr ⟨first, rest⟩
    · rename_i other
      split
      · rename_i before
        refine List.pairwise_cons.mpr ⟨fun m hm => ?_, h⟩
        rcases List.mem_cons.mp hm with rfl | hm
        · exact before
        · exact String.lt_trans before (first m hm)
      · rename_i notBefore
        have after : n.1 < name := by
          have ne : n.1 ≠ name := by simpa using other
          exact (String.not_lt.mp notBefore).lt_of_ne ne
        refine List.pairwise_cons.mpr ⟨fun m hm => ?_, ih rest⟩
        rcases mem_insert hm with rfl | hm
        · exact after
        · exact first m hm

/-- A new name is added to the others. -/
theorem perm_insert (name : String) (value : Json) {members : Members}
    (new : name ∉ members.map Prod.fst) :
    (Members.insert name value members).Perm ((name, value) :: members) := by
  induction members with
  | nil => exact .refl _
  | cons n members ih =>
    rw [List.map_cons, List.mem_cons, not_or] at new
    rw [Members.insert, if_neg (by simpa using Ne.symm new.1)]
    split
    · exact .refl _
    · exact ((ih new.2).cons n).trans (.swap _ _ _)

/-- A name behind all others is added at the end. -/
theorem insert_last (name : String) (value : Json) {members : Members}
    (h : ∀ m ∈ members, m.1 < name) :
    Members.insert name value members = members ++ [(name, value)] := by
  induction members with
  | nil => rfl
  | cons n members ih =>
    have before := h n List.mem_cons_self
    have ne : n.1 ≠ name := fun same => String.lt_irrefl _ (same ▸ before)
    rw [Members.insert, if_neg (by simpa using ne), if_neg (String.lt_asymm before),
      ih fun m hm => h m (List.mem_cons_of_mem n hm)]
    rfl

/-- Members are inserted one after the other. -/
abbrev insertAll (members : List (String × Json)) (sorted : Members) : Members :=
  members.foldl (fun sorted m => Members.insert m.1 m.2 sorted) sorted

theorem sorted_insertAll (members : List (String × Json)) {sorted : Members}
    (h : SortedNames sorted) : SortedNames (insertAll members sorted) := by
  induction members generalizing sorted with
  | nil => exact h
  | cons m members ih => exact ih (sorted_insert m.1 m.2 h)

theorem mem_insertAll {members : List (String × Json)} {sorted : Members} {m : String × Json}
    (h : m ∈ insertAll members sorted) : m ∈ members ∨ m ∈ sorted := by
  induction members generalizing sorted with
  | nil => exact .inr h
  | cons n members ih =>
    rcases ih h with h | h
    · exact .inl (List.mem_cons_of_mem n h)
    · rcases mem_insert h with rfl | h
      · exact .inl List.mem_cons_self
      · exact .inr h

theorem perm_insertAll (members : List (String × Json)) {sorted : Members}
    (distinct : ((sorted ++ members).map Prod.fst).Nodup) :
    (insertAll members sorted).Perm (sorted ++ members) := by
  induction members generalizing sorted with
  | nil =>
    rw [List.append_nil]
    exact .refl _
  | cons m members ih =>
    have middle : (m :: sorted ++ members).Perm (sorted ++ m :: members) :=
      List.perm_middle.symm
    have new : m.1 ∉ sorted.map Prod.fst := by
      have front := ((middle.map Prod.fst).nodup_iff.mpr distinct)
      rw [List.cons_append, List.map_cons, List.map_append] at front
      exact fun h => (List.nodup_cons.mp front).1 (List.mem_append_left _ h)
    have inserted := (perm_insert m.1 m.2 new).append_right members
    have all := inserted.trans middle
    exact (ih ((all.map Prod.fst).nodup_iff.mpr distinct)).trans all

theorem insertAll_of_sorted (members : List (String × Json)) {sorted : Members}
    (h : SortedNames (sorted ++ members)) : insertAll members sorted = sorted ++ members := by
  induction members generalizing sorted with
  | nil => exact (List.append_nil sorted).symm
  | cons m members ih =>
    have last := insert_last m.1 m.2 fun n hn =>
      (List.pairwise_append.mp h).2.2 n hn m List.mem_cons_self
    have next : sorted ++ m :: members = (sorted ++ [(m.1, m.2)]) ++ members := by simp
    rw [insertAll, List.foldl_cons, last, next]
    exact ih (next ▸ h)

end Members

end Json

/-! ### Dictionaries with distinct keys -/

namespace Value

theorem foldl_insertEntry (bindings : List (Value × Value)) {entries : Entries Value}
    (distinct : (entries ++ bindings).Pairwise fun a b => (a.1 == b.1) = false) :
    bindings.foldl (fun entries b => Entries.insert b.1 b.2 entries) entries =
      entries ++ bindings := by
  induction bindings generalizing entries with
  | nil => exact (List.append_nil entries).symm
  | cons b bindings ih =>
    have absent : Entries.get? entries b.1 = none := by
      rw [Entries.get?, Option.map_eq_none_iff, List.find?_eq_none]
      intro e he
      rw [(List.pairwise_append.mp distinct).2.2 e he b List.mem_cons_self]
      exact Bool.false_ne_true
    have next : entries ++ b :: bindings = (entries ++ [(b.1, b.2)]) ++ bindings := by simp
    rw [List.foldl_cons, Entries.insert_of_none absent, next]
    exact ih (next ▸ distinct)

/-- Bindings with distinct keys are the entries of their dictionary. -/
theorem ofDict_of_distinct {bindings : List (Value × Value)}
    (distinct : bindings.Pairwise fun a b => (a.1 == b.1) = false) :
    ofDict bindings = .dict bindings := by
  rw [ofDict, Table.toEntries_ofList]
  exact congrArg dict (foldl_insertEntry bindings distinct)

theorem ofJsonMembers_eq_map (members : List (String × Json)) :
    ofJsonMembers members = members.map fun m => (.str m.1, ofJson m.2) := by
  induction members with
  | nil => rfl
  | cons m members ih =>
    obtain ⟨name, j⟩ := m
    rw [ofJsonMembers, ih, List.map_cons, ofJsonMember]

theorem toJsonEntries_eq_map (entries : List (Value × Value)) :
    toJsonEntries entries = entries.map fun e => (display e.1, toJson e.2) := by
  induction entries with
  | nil => rfl
  | cons e entries ih =>
    obtain ⟨k, v⟩ := e
    rw [toJsonEntries, ih, List.map_cons, toJsonEntry]

theorem beq_str (s t : String) : ((str s : Value) == str t) = (s == t) := by
  show beq (str s) (str t) = (s == t)
  rw [beq]

/-- The members of an object are the entries of its value. -/
theorem ofJson_obj {members : Json.Members} (h : (members.map Prod.fst).Nodup) :
    ofJson (.obj members) = .dict (members.map fun m => (.str m.1, ofJson m.2)) := by
  rw [ofJson, ofJsonMembers_eq_map]
  refine ofDict_of_distinct (List.pairwise_map.mpr ((List.pairwise_map.mp h).imp fun ne => ?_))
  exact (beq_str _ _).trans (beq_eq_false_iff_ne.mpr ne)

end Value

/-! ### From documents to values and back -/

namespace Json

theorem SortedNames.nodup {members : Members} (h : SortedNames members) :
    (members.map Prod.fst).Nodup := by
  unfold SortedNames at h
  refine List.pairwise_map.mpr (h.imp fun before same => ?_)
  exact String.lt_irrefl _ (same ▸ before)

mutual

/-- A property of a document and of all documents in it. -/
def Throughout (p : Json → Prop) : Json → Prop
  | .null => p .null
  | .bool b => p (.bool b)
  | .int n => p (.int n)
  | .float x => p (.float x)
  | .str s => p (.str s)
  | .arr items => p (.arr items) ∧ ThroughoutAll p items
  | .obj members => p (.obj members) ∧ ThroughoutMembers p members

def ThroughoutAll (p : Json → Prop) : List Json → Prop
  | [] => True
  | j :: js => Throughout p j ∧ ThroughoutAll p js

def ThroughoutMembers (p : Json → Prop) : List (String × Json) → Prop
  | [] => True
  | (_, j) :: ms => Throughout p j ∧ ThroughoutMembers p ms

end

/-- An object is sorted. -/
def Sorted : Json → Prop
  | .obj members => SortedNames members
  | _ => True

/-- A number is an integer of 64 bits or a finite float other than the negative zero. -/
def Kept : Json → Prop
  | .int n => -0x8000000000000000 ≤ n ∧ n < 0x8000000000000000
  | .float x => x.isFinite = true ∧ x.toBits ≠ (-0.0 : Float).toBits
  | _ => True

open Value

mutual

/-- A document whose numbers are kept is written again from its value. -/
theorem toJson_ofJson : (j : Json) → j.Throughout Sorted → j.Throughout Kept →
    (ofJson j).toJson = j
  | .null, _, _ | .bool _, _, _ | .str _, _, _ => rfl
  | .int n, _, kept => by
    have bounds : -0x8000000000000000 ≤ n ∧ n < 0x8000000000000000 := kept
    rw [ofJson, if_pos bounds, toJson, Int64.toInt_ofInt_of_le bounds.1 bounds.2]
  | .float x, _, kept => by
    obtain ⟨d, hd, finite, rfl⟩ := Double.exists_of_isFinite kept.1 kept.2
    rw [ofJson, ofFloat, hd, toJson, if_pos finite]
  | .arr items, sorted, kept => by
    rw [ofJson, toJson, toJson_ofJson_all items sorted.2 kept.2]
  | .obj members, sorted, kept => by
    rw [ofJson_obj (SortedNames.nodup sorted.1), toJson, toJsonEntries_eq_map, List.map_map,
      toJson_ofJson_members members sorted.2 kept.2, ofMembers]
    exact congrArg obj (Members.insertAll_of_sorted members sorted.1)

theorem toJson_ofJson_all : (items : List Json) → ThroughoutAll Sorted items →
    ThroughoutAll Kept items → toJsonAll (ofJsonAll items) = items
  | [], _, _ => rfl
  | j :: js, sorted, kept => by
    rw [ofJsonAll, toJsonAll, toJson_ofJson j sorted.1 kept.1,
      toJson_ofJson_all js sorted.2 kept.2]

theorem toJson_ofJson_members : (members : List (String × Json)) →
    ThroughoutMembers Sorted members → ThroughoutMembers Kept members →
    members.map ((fun e => (display e.1, toJson e.2)) ∘ fun m => (.str m.1, ofJson m.2)) = members
  | [], _, _ => rfl
  | (name, j) :: ms, sorted, kept => by
    rw [List.map_cons, Function.comp, toJson_ofJson_members ms sorted.2 kept.2]
    simp only [toJson_ofJson j sorted.1 kept.1, display]

end

/-! ### Written documents are sorted -/

theorem throughoutMembers_iff {p : Json → Prop} {members : List (String × Json)} :
    ThroughoutMembers p members ↔ ∀ m ∈ members, m.2.Throughout p := by
  induction members with
  | nil => simp [ThroughoutMembers]
  | cons m members ih => simp [ThroughoutMembers, ih]

theorem throughout_ofMembers {members : List (String × Json)}
    (h : ThroughoutMembers Sorted members) : (ofMembers members).Throughout Sorted := by
  refine ⟨Members.sorted_insertAll members .nil, throughoutMembers_iff.mpr fun m hm => ?_⟩
  rcases Members.mem_insertAll hm with hm | hm
  · exact throughoutMembers_iff.mp h m hm
  · cases hm

mutual

/-- Whatever the value, the objects of its document are sorted. -/
theorem sorted_toJson : (v : Value) → v.toJson.Throughout Sorted
  | .null | .bool _ | .int _ | .str _ | .function _ | .object .. => trivial
  | .float x => by
    rw [toJson]
    split <;> trivial
  | .list items | .tuple items | .set items => ⟨trivial, sorted_toJsonAll items⟩
  | .dict entries => throughout_ofMembers (sorted_toJsonEntries entries)

theorem sorted_toJsonAll : (items : List Value) → ThroughoutAll Sorted (toJsonAll items)
  | [] => trivial
  | v :: vs => ⟨sorted_toJson v, sorted_toJsonAll vs⟩

theorem sorted_toJsonEntries : (entries : List (Value × Value)) →
    ThroughoutMembers Sorted (toJsonEntries entries)
  | [] => trivial
  | (_, v) :: es => ⟨sorted_toJson v, sorted_toJsonEntries es⟩

end

end Json

/-! ### From values to documents and back -/

namespace Value

mutual

/-- Values with a document of their own shape: no tuples, sets, functions and objects, floats are
    finite and keys are strings. -/
def JsonShaped : Value → Prop
  | .null | .bool _ | .int _ | .str _ => True
  | .float x => x.isFinite = true
  | .list items => JsonShapedAll items
  | .dict entries => JsonShapedEntries entries
  | .tuple _ | .set _ | .function _ | .object .. => False

def JsonShapedAll : List Value → Prop
  | [] => True
  | v :: vs => JsonShaped v ∧ JsonShapedAll vs

def JsonShapedEntries : List (Value × Value) → Prop
  | [] => True
  | (k, v) :: es => (∃ name, k = .str name) ∧ JsonShaped v ∧ JsonShapedEntries es

end

/-- Distinct string keys are distinct names. -/
theorem nodup_names {entries : List (Value × Value)}
    (distinct : entries.Pairwise fun a b => beq a.1 b.1 = false)
    (named : ∀ e ∈ entries, ∃ name, e.1 = .str name) :
    ((toJsonEntries entries).map Prod.fst).Nodup := by
  rw [toJsonEntries_eq_map, List.map_map]
  refine List.pairwise_map.mpr (distinct.imp_of_mem fun {a b} ha hb apart same => ?_)
  obtain ⟨s, hs⟩ := named a ha
  obtain ⟨t, ht⟩ := named b hb
  simp only [Function.comp, hs, ht, display] at same
  rw [hs, ht, same, beq_self] at apart
  cases apart

mutual

/-- A value with a document of its own shape is read again from it. -/
theorem ofJson_toJson : (v : Value) → Proper v → JsonShaped v → beq (ofJson v.toJson) v = true
  | .null, _, _ | .bool _, _, _ | .str _, _, _ => beq_self _
  | .int n, _, _ => by
    rw [toJson, ofJson, if_pos ⟨n.le_toInt, n.toInt_lt⟩, Int64.ofInt_toInt]
    exact beq_self _
  | .float x, _, shaped => by
    have finite : x.isFinite = true := shaped
    rw [toJson, if_pos finite, ofJson, ofFloat, Double.ofFloat?_toFloat]
    exact beq_self _
  | .list items, proper, shaped => by
    rw [toJson, ofJson, beq]
    exact ofJson_toJson_all items proper shaped
  | .dict entries, proper, shaped => by
    have again := ofJson_toJson_entries entries proper.1 shaped
    have distinct := nodup_names proper.2 fun e he => (again e he).imp fun _ h => h.1
    -- the members are the entries in another order
    have perm : (Json.Members.insertAll (toJsonEntries entries) []).Perm (toJsonEntries entries) :=
      Json.Members.perm_insertAll _ distinct
    rw [toJson, Json.ofMembers, ofJson_obj ((perm.map Prod.fst).nodup_iff.mpr distinct)]
    refine beq_dict_of_members ?_ fun d hd => ?_
    · rw [List.length_map, perm.length_eq, toJsonEntries_eq_map, List.length_map]
    · obtain ⟨m, hm, rfl⟩ := List.mem_map.mp hd
      rw [perm.mem_iff, toJsonEntries_eq_map] at hm
      obtain ⟨e, he, rfl⟩ := List.mem_map.mp hm
      obtain ⟨name, key, value⟩ := again e he
      refine ⟨e, he, ?_, value⟩
      rw [key]
      exact beq_self _

theorem ofJson_toJson_all : (items : List Value) → ProperAll items → JsonShapedAll items →
    beqAll (ofJsonAll (toJsonAll items)) items = true
  | [], _, _ => rfl
  | v :: vs, proper, shaped => by
    rw [toJsonAll, ofJsonAll, beqAll, ofJson_toJson v proper.1 shaped.1,
      ofJson_toJson_all vs proper.2 shaped.2]
    rfl

theorem ofJson_toJson_entries : (entries : List (Value × Value)) → ProperEntries entries →
    JsonShapedEntries entries →
    ∀ e ∈ entries, ∃ name, e.1 = .str name ∧ beq (ofJson e.2.toJson) e.2 = true
  | [], _, _ => fun _ he => absurd he List.not_mem_nil
  | (_, v) :: es, proper, shaped => by
    obtain ⟨⟨name, rfl⟩, shaped, rest⟩ := shaped
    rw [List.forall_mem_cons]
    exact ⟨⟨name, rfl, ofJson_toJson v proper.2.1 shaped⟩,
      ofJson_toJson_entries es proper.2.2 rest⟩

end

/-- **Values and documents come back from each other.**  A value of nulls, Booleans, integers,
    finite floats, strings, lists and dictionaries with strings as keys is equal to the one that its
    document gives; a document with integers of 64 bits and finite floats other than the negative
    zero is the document of the value that it gives. -/
theorem json_roundTrip :
    (∀ v : Value, Proper v → JsonShaped v → (ofJson v.toJson == v) = true) ∧
      ∀ j : Json, j.Throughout Json.Sorted → j.Throughout Json.Kept → (ofJson j).toJson = j :=
  ⟨ofJson_toJson, Json.toJson_ofJson⟩

/-- A dictionary whose keys are not in the order of their names. -/
def unsorted : Value :=
  .dict [(.str "b", .list [.int (-1), .float ⟨0x3ff8000000000000, rfl⟩, .null]),
    (.str "a", .dict [(.str "", .str "b")])]

/-- A document with both members in their order. -/
def sortedDocument : Json :=
  .obj [("a", .obj [("", .str "b")]), ("b", .arr [.int (-1), .float 1.5, .null])]

/-- The dictionary comes back as an equal one, and the document as itself. -/
theorem json_roundTrip_unsorted : Proper unsorted ∧ JsonShaped unsorted ∧
    (ofJson unsorted.toJson == unsorted) = true ∧
      sortedDocument.Throughout Json.Sorted ∧ sortedDocument.Throughout Json.Kept ∧
        (ofJson sortedDocument).toJson = sortedDocument := by
  have proper : Proper unsorted := by
    simp only [unsorted, Proper, ProperAll, ProperEntries, List.pairwise_pair,
      List.pairwise_singleton, and_true, true_and]
    decide +kernel
  have shaped : JsonShaped unsorted :=
    ⟨⟨"b", rfl⟩, ⟨trivial, rfl, trivial, trivial⟩,
      ⟨"a", rfl⟩, ⟨⟨"", rfl⟩, trivial, trivial⟩, trivial⟩
  have order : ("a" : String) < "b" := by decide
  have sorted : sortedDocument.Throughout Json.Sorted :=
    ⟨List.pairwise_pair.mpr order, ⟨List.pairwise_singleton _ _, trivial, trivial⟩,
      ⟨trivial, trivial, trivial, trivial, trivial⟩, trivial⟩
  have finite : (1.5 : Float).isFinite = true ∧ (1.5 : Float).toBits ≠ (-0.0 : Float).toBits := by
    decide +kernel
  have kept : sortedDocument.Throughout Json.Kept :=
    ⟨trivial, ⟨trivial, trivial, trivial⟩,
      ⟨trivial, by constructor <;> decide, finite, trivial, trivial⟩, trivial⟩
  exact ⟨proper, shaped, json_roundTrip.1 unsorted proper shaped, sorted, kept,
    json_roundTrip.2 sortedDocument sorted kept⟩

end Value

end DataExpr
