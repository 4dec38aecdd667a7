import DataExpr.Signature
import Mathlib.Data.List.Nodup

/-!
# Binding parameters

A signature that is valid has distinct names, so a parameter can be given by its position as well
as by its name.  Values given by position bind the first parameters; the others take their
defaults, and the first one that has none is reported as missing (`Signature.bind_positional`).
-/

namespace DataExpr

/-- What is given for the parameter at a position with a name. -/
def Params.given? (params : Params) (index : Nat) (name : String) : Option Value :=
  (params.getPositional? index).or (params.getNamed? name)

namespace Signature

variable {signature : Signature} {params : Params} {spec : ParamSpec} {index : Nat}

/-! ### Names -/

theorem nodup_of_validateFrom {seen : List String} {defaulted : Bool}
    (h : validateFrom seen defaulted signature = .ok ()) :
    signature.names.Nodup ∧ ∀ n ∈ signature.names, n ∉ seen := by
  induction signature generalizing seen defaulted with
  | nil => exact ⟨List.nodup_nil, fun _ hn => absurd hn List.not_mem_nil⟩
  | cons param rest ih =>
    rw [validateFrom] at h
    split_ifs at h with _ known _
    obtain ⟨nodup, fresh⟩ := ih h
    refine ⟨List.nodup_cons.2 ⟨fun hmem => fresh _ hmem List.mem_cons_self, nodup⟩, ?_⟩
    rintro n (_ | ⟨_, hn⟩)
    · simpa using known
    · exact fun hseen => fresh n hn (List.mem_cons_of_mem _ hseen)

theorem nodup_of_validate (h : signature.validate = .ok ()) : signature.names.Nodup :=
  (nodup_of_validateFrom h).1

theorem getElem?_names (signature : Signature) (index : Nat) :
    signature.names[index]? = signature[index]?.map ParamSpec.name := List.getElem?_map

/-- Where names are distinct, each one is found at its position. -/
theorem indexOf?_name (nodup : signature.names.Nodup) (h : signature[index]? = some spec) :
    signature.indexOf? spec.name = some index := by
  have hname : signature.names[index]? = some spec.name := by rw [getElem?_names, h]; rfl
  obtain ⟨inside, hname⟩ := List.getElem?_eq_some_iff.1 hname
  refine List.idxOf?_eq_some_iff.2 ⟨inside, hname, fun j before same => ?_⟩
  exact Nat.ne_of_lt before ((List.getElem_inj nodup).1 (same.trans hname.symm))

/-! ### What is given -/

/-- Parameters that are accepted give for each declared one what is given for its position and its
    name. -/
theorem given_eq (nodup : signature.names.Nodup) {values : List (Option Value)}
    (h : signature.given params = .ok values) :
    values = signature.mapIdx fun i spec => params.given? i spec.name := by
  refine List.ext_getElem? fun i => ?_
  rw [List.getElem?_mapIdx]
  cases params with
  | none =>
    cases h
    exact List.getElem?_map
  | positional given =>
    rw [Signature.given] at h
    split_ifs at h
    cases h
    simp only [Params.given?, Params.getPositional?, Params.getNamed?, Option.or_none]
    by_cases inside : i < signature.length
    · simp [inside]
    · simp [inside]
  | named given =>
    rw [Signature.given] at h
    split at h
    · cases h
    · cases h
      rw [List.getElem?_mapIdx]
      cases hspec : signature[i]? with
      | none => rfl
      | some spec => simp [indexOf?_name nodup hspec, Params.given?, Params.getPositional?,
          Params.getNamed?]

/-- The values of parameters, or the first one that has none. -/
theorem mapM_resolve (pairs : List (ParamSpec × Option Value)) :
    (pairs.mapM fun p => resolve p.1 p.2) =
      match pairs.find? fun p => (p.2.or p.1.default).isNone with
      | some p => .error (.missingParameter p.1.name)
      | none => .ok (pairs.filterMap fun p => p.2.or p.1.default) := by
  induction pairs with
  | nil => rfl
  | cons p rest ih =>
    obtain ⟨⟨name, default⟩, value⟩ := p
    rw [List.mapM_cons, ih, List.find?_cons]
    generalize (rest.find? fun p => (p.2.or p.1.default).isNone) = missing
    cases value with
    | some v => cases missing <;> rfl
    | none =>
      cases default with
      | some v => cases missing <;> rfl
      | none => rfl

theorem map_some_of_mapM_resolve {pairs : List (ParamSpec × Option Value)} {bound : List Value}
    (h : (pairs.mapM fun p => resolve p.1 p.2) = .ok bound) :
    bound.map some = pairs.map fun p => p.2.or p.1.default := by
  rw [mapM_resolve] at h
  cases missing : pairs.find? fun p => (p.2.or p.1.default).isNone with
  | some p =>
    rw [missing] at h
    cases h
  | none =>
    rw [missing] at h
    cases h
    have all : (pairs.filterMap fun p => (p.2.or p.1.default).map some) =
        pairs.filterMap (some ∘ fun p => p.2.or p.1.default) := by
      refine List.filterMap_congr fun p hp => ?_
      have present := List.find?_eq_none.1 missing p hp
      cases hvalue : p.2.or p.1.default with
      | some v => simp [hvalue]
      | none => simp [hvalue] at present
    rw [List.map_filterMap, all, List.filterMap_eq_map]

/-- Each parameter is bound to what is given for it, else to its default. -/
theorem valueAt_of_bind (nodup : signature.names.Nodup) {bound : List Value}
    (h : signature.bind params = .ok bound) (hspec : signature[index]? = some spec) :
    (params.given? index spec.name).or spec.default = bound[index]? ∧
      (bound[index]?).isSome = true := by
  unfold Signature.bind at h
  cases hgiven : signature.given params with
  | error e =>
    rw [hgiven] at h
    cases h
  | ok values =>
    obtain rfl := given_eq nodup hgiven
    rw [hgiven] at h
    have all := congrArg (·[index]?) (map_some_of_mapM_resolve h)
    have pair : (signature.zip (signature.mapIdx fun i spec => params.given? i spec.name))[index]? =
        some (spec, params.given? index spec.name) := by
      rw [List.getElem?_zip_eq_some, List.getElem?_mapIdx, hspec]
      exact ⟨rfl, rfl⟩
    rw [List.getElem?_map, List.getElem?_map, pair] at all
    cases hvalue : bound[index]? with
    | some v =>
      rw [hvalue] at all
      exact ⟨(Option.some.inj all).symm, rfl⟩
    | none =>
      rw [hvalue] at all
      cases all

/-- Values by position are those of the first parameters. -/
theorem zip_positions (signature : Signature) (values : List Value)
    (h : values.length ≤ signature.length) :
    (signature.zip (signature.mapIdx fun i _ => values[i]?)) =
      (signature.take values.length).zip (values.map some) ++
        (signature.drop values.length).map fun spec => (spec, none) := by
  induction signature generalizing values with
  | nil =>
    obtain rfl : values = [] := List.length_eq_zero_iff.1 (Nat.le_zero.1 h)
    rfl
  | cons spec rest ih =>
    cases values with
    | nil =>
      have tail := ih [] (Nat.zero_le _)
      simp_all [List.mapIdx_cons]
    | cons v values =>
      have tail := ih values (Nat.le_of_succ_le_succ h)
      simp_all [List.mapIdx_cons]

/-- **Values that are given by position** bind the first parameters.  The others take their
    defaults, and the first one without a default is missing. -/
theorem bind_positional (nodup : signature.names.Nodup) (values : List Value)
    (h : values.length ≤ signature.length) :
    signature.bind (.positional values) =
      match (signature.drop values.length).find? fun spec => spec.default.isNone with
      | some spec => .error (.missingParameter spec.name)
      | none => .ok (values ++ (signature.drop values.length).filterMap ParamSpec.default) := by
  have given : signature.given (.positional values) =
      .ok (signature.mapIdx fun i _ => values[i]?) := by
    have accepted : signature.given (.positional values) =
        .ok ((List.range signature.length).map fun i => values[i]?) := if_neg (Nat.not_lt.2 h)
    rw [accepted, given_eq nodup accepted]
    simp [Params.given?, Params.getPositional?, Params.getNamed?]
  have first : ((signature.take values.length).zip (values.map some)).find?
      (fun p => (p.2.or p.1.default).isNone) = none := by
    refine List.find?_eq_none.2 fun p hp => ?_
    obtain ⟨v, -, hv⟩ := List.mem_map.1 (List.of_mem_zip hp).2
    simp [← hv]
  rw [Signature.bind, given]
  change (signature.zip _).mapM (fun p => resolve p.1 p.2) = _
  rw [zip_positions signature values h, mapM_resolve, List.find?_append, first, List.find?_map,
    List.filterMap_append]
  have second : ((fun p : ParamSpec × Option Value => (p.2.or p.1.default).isNone) ∘
      fun spec => (spec, none)) = fun spec => spec.default.isNone := rfl
  have values' : ((signature.take values.length).zip (values.map some)).filterMap
      (fun p => p.2.or p.1.default) = values := by
    have own : ((signature.take values.length).zip (values.map some)).filterMap
        (fun p => p.2.or p.1.default) =
          (((signature.take values.length).zip (values.map some)).map Prod.snd).filterMap id := by
      rw [List.filterMap_map]
      refine List.filterMap_congr fun p hp => ?_
      obtain ⟨v, -, hv⟩ := List.mem_map.1 (List.of_mem_zip hp).2
      simp [← hv]
    rw [own, List.map_snd_zip (by simp [h]), List.filterMap_map]
    exact List.filterMap_some
  rw [second, values', List.filterMap_map]
  cases (signature.drop values.length).find? fun spec => spec.default.isNone <;> rfl

/-- A name is paired with the value at its position. -/
theorem find?_zip {names : List String} (nodup : names.Nodup) (values : List Value) {name : String}
    (h : names[index]? = some name) :
    ((names.zip values).find? fun p => p.1 == name).map (·.2) = values[index]? := by
  induction names generalizing values index with
  | nil => cases h
  | cons n names ih =>
    obtain ⟨fresh, nodup⟩ := List.nodup_cons.1 nodup
    cases values with
    | nil => rfl
    | cons v values =>
      cases index with
      | zero =>
        obtain rfl := Option.some.inj h
        simp
      | succ index =>
        have differ : n ≠ name := fun same => fresh (same ▸ List.mem_of_getElem? h)
        simpa [differ] using ih nodup values h

/-- Values may as well be given by name. -/
theorem bind_named_zip (nodup : signature.names.Nodup) (values : List Value)
    (h : values.length ≤ signature.length) :
    signature.bind (.named (signature.names.zip values)) = signature.bind (.positional values) := by
  have known : (signature.names.zip values).find? (fun v => (signature.indexOf? v.1).isNone) =
      none := by
    refine List.find?_eq_none.2 fun v hv => ?_
    have hname := (List.of_mem_zip hv).1
    rw [Option.isNone_iff_eq_none, indexOf?, List.idxOf?_eq_none_iff]
    exact fun h => h hname
  obtain ⟨given, accepted⟩ : ∃ given,
      signature.given (.named (signature.names.zip values)) = .ok given := by
    rw [Signature.given, known]
    exact ⟨_, rfl⟩
  have same : signature.mapIdx (fun i spec =>
      Params.given? (.named (signature.names.zip values)) i spec.name) =
        signature.mapIdx fun i spec => Params.given? (.positional values) i spec.name := by
    refine List.ext_getElem? fun i => ?_
    rw [List.getElem?_mapIdx, List.getElem?_mapIdx]
    cases hspec : signature[i]? with
    | none => rfl
    | some spec =>
      have hname : signature.names[i]? = some spec.name := by rw [getElem?_names, hspec]; rfl
      simp [Params.given?, Params.getPositional?, Params.getNamed?, find?_zip nodup values hname]
  have positional : signature.given (.positional values) =
      .ok ((List.range signature.length).map fun i => values[i]?) := if_neg (Nat.not_lt.2 h)
  rw [Signature.bind, Signature.bind, accepted, given_eq nodup accepted, same, positional,
    given_eq nodup positional]

end Signature
end DataExpr
