import PropSat.Proofs.Formula.Truth

/-!
Models given by a list of distinct names with a value for each. The names are the ones that the model
binds, and the values are read back in their order.
-/

namespace PropSat.Model

variable {names : List String} {values : List Bool} {name : String} {m : Model}

/-- With distinct names the entries are those of the list. -/
theorem getElem?_ofEntries {entries : List (String × Bool)} (distinct : (entries.map Prod.fst).Nodup)
    {value : Bool} : (ofEntries entries)[name]? = some value ↔ (name, value) ∈ entries := by
  have apart : entries.Pairwise fun a b => ¬compare a.1 b.1 = .eq := by
    rw [List.Nodup, List.pairwise_map] at distinct
    exact distinct.imp fun differ same => differ (Std.LawfulEqOrd.eq_of_compare same)
  have entry : ∀ {value}, (name, value) ∈ entries → (ofEntries entries)[name]? = some value := fun member =>
    Std.ExtTreeMap.getElem?_ofList_of_mem Std.ReflOrd.compare_self apart member
  constructor
  · intro known
    have bound : name ∈ ofEntries entries := Std.ExtTreeMap.mem_iff_isSome_getElem?.2 (by rw [known]; rfl)
    rw [ofEntries, Std.ExtTreeMap.mem_ofList, List.contains_iff_mem] at bound
    obtain ⟨⟨_, other⟩, member, rfl⟩ := List.mem_map.1 bound
    rw [entry member, Option.some.injEq] at known
    exact known ▸ member
  · exact entry

theorem mem_entries {value : Bool} : (name, value) ∈ m.entries ↔ m[name]? = some value :=
  Std.ExtTreeMap.mem_toList_iff_getElem?_eq_some

theorem entries_distinct (m : Model) : (m.entries.map Prod.fst).Nodup := by
  rw [List.Nodup, List.pairwise_map]
  refine Std.ExtTreeMap.distinct_keys_toList.imp ?_
  intro a b differ same
  exact differ (same ▸ Std.ReflOrd.compare_self)

/-- Models that bind the same names have them in the same order. -/
theorem entries_names {m' : Model} (same : ∀ name, name ∈ m ↔ name ∈ m') :
    m.entries.map Prod.fst = m'.entries.map Prod.fst := by
  have names : m.keys = m'.keys := by
    apply List.Perm.eq_of_pairwise _ Std.ExtTreeMap.ordered_keys Std.ExtTreeMap.ordered_keys
    · rw [List.perm_ext_iff_of_nodup Std.ExtTreeMap.nodup_keys Std.ExtTreeMap.nodup_keys]
      intro name
      rw [Std.ExtTreeMap.mem_keys, Std.ExtTreeMap.mem_keys, same]
    · intro a b _ _ before after
      exact absurd after (Std.OrientedCmp.not_lt_of_lt before)
  simpa only [entries, Std.ExtTreeMap.map_fst_toList_eq_keys] using names

theorem mem_ofNames (lengths : values.length = names.length) :
    name ∈ ofNames names values ↔ name ∈ names := by
  unfold ofNames ofEntries
  rw [Std.ExtTreeMap.mem_ofList, List.contains_iff_mem, List.map_fst_zip (Nat.le_of_eq lengths.symm)]

section
variable (distinct : names.Nodup) (lengths : values.length = names.length)

include distinct lengths

theorem getElem?_ofNames {v : Nat} (named : names[v]? = some name) :
    (ofNames names values)[name]? = values[v]? := by
  have inside : v < values.length := lengths ▸ (List.getElem?_eq_some_iff.1 named).1
  have firsts : ((names.zip values).map Prod.fst).Nodup := by
    rwa [List.map_fst_zip (Nat.le_of_eq lengths.symm)]
  rw [List.getElem?_eq_getElem inside, ofNames, getElem?_ofEntries firsts, List.mem_iff_getElem?]
  exact ⟨v, List.getElem?_zip_eq_some.2 ⟨named, List.getElem?_eq_getElem inside⟩⟩

theorem values_ofNames : names.map (ofNames names values).value = values := by
  apply List.ext_getElem?
  intro v
  rw [List.getElem?_map]
  by_cases inside : v < names.length
  · have named := List.getElem?_eq_getElem inside
    rw [named, Option.map_some, value, getElem?_ofNames distinct lengths named,
      List.getElem?_eq_getElem (lengths ▸ inside)]
    rfl
  · have beyond : values.length ≤ v := by omega
    rw [List.getElem?_eq_none (Nat.not_lt.1 inside), List.getElem?_eq_none beyond]
    rfl

end

theorem value_ofNames (distinct : names.Nodup) (v : String → Bool) (member : name ∈ names) :
    (ofNames names (names.map v)).value name = v name :=
  List.map_inj_left.1 (values_ofNames distinct (List.length_map v)) name member

theorem ofNames_values (distinct : names.Nodup) (binds : ∀ name, name ∈ m ↔ name ∈ names) :
    ofNames names (names.map m.value) = m := by
  apply Std.ExtTreeMap.ext_getElem?
  intro name
  by_cases bound : name ∈ m
  · obtain ⟨v, named⟩ := List.mem_iff_getElem?.1 ((binds name).1 bound)
    rw [getElem?_ofNames distinct (List.length_map _) named, List.getElem?_map, named, Option.map_some,
      value, Std.ExtTreeMap.getElem?_eq_some_getElem bound]
    rfl
  · have open_too : name ∉ ofNames names (names.map m.value) := by
      rwa [mem_ofNames (List.length_map _), ← binds]
    rw [Std.ExtTreeMap.getElem?_eq_none bound, Std.ExtTreeMap.getElem?_eq_none open_too]

end PropSat.Model
