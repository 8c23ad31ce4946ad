import Mathlib.Data.Set.Function
import PropSat.Proofs.FirstMentions
import PropSat.Proofs.NameTable

/-!
What the numbers of a table are, by the names that were entered and nothing else (`Numbering`): the names stand in
the order of their first mentions, and each is numbered by its place among these. Names that are entered later
change none of it (`numberAll_numbering`).
-/

namespace PropSat.NameTable

/-- The numbers that some names get, entered one after the other, and the table that this leads to. -/
def numberAll (t : NameTable) : List String → List Nat × NameTable
  | [] => ([], t)
  | name :: rest =>
    let (v, next) := t.intern name
    let (later, final) := next.numberAll rest
    (v :: later, final)

/-- The numbers given to some names, and the table that has these names and no others. -/
structure Numbering (names : List String) (given : List Nat) (t : NameTable) : Prop where
  listed : t.toList = names.eraseDups
  places : given = names.map fun name => names.eraseDups.idxOf name
  inOrder : given.eraseDups = List.range t.size
  again : ∀ name v, t.get? name = some v → t.intern name = (v, t)
  inverse : ∀ name v, t.get? name = some v ↔ v < t.size ∧ t.name v = .ok name
  bijective : Set.BijOn t.get? {name | name ∈ names} (some '' {v | v < t.size})

section
variable {t : NameTable} {name : String} {v : Nat}

theorem name_eq_ok : t.name v = .ok name ↔ t.names[v]? = some name := fetch_eq_ok

theorem get?_eq_some_iff_name : t.get? name = some v ↔ v < t.size ∧ t.name v = .ok name := by
  rw [name_eq_ok, get?_eq_some]
  exact ⟨fun found => ⟨(Array.getElem?_eq_some_iff.1 found).1, found⟩, And.right⟩

theorem intern_of_get? (known : t.get? name = some v) : t.intern name = (v, t) := by
  obtain ⟨w, numbered, same⟩ | ⟨unknown, -⟩ := t.intern_cases name
  · rw [same, Option.some.inj (numbered.symm.trans known)]
  · rw [unknown] at known
    cases known

theorem idxOf_toList (found : t.names[v]? = some name) : t.toList.idxOf name = v := by
  obtain ⟨inside, rfl⟩ := Array.getElem?_eq_some_iff.1 found
  exact t.toList_nodup.idxOf_getElem v inside

/-- A name that is new is numbered by how many there are. -/
theorem range_size_intern (t : NameTable) (name : String) :
    List.range (t.intern name).2.size =
      if (List.range t.size).any ((t.intern name).1 == ·) then List.range t.size
      else List.range t.size ++ [(t.intern name).1] := by
  obtain ⟨v, known, same⟩ | ⟨-, number, names⟩ := t.intern_cases name
  · have inside : v < t.size := (get?_eq_some_iff_name.1 known).1
    rw [same, if_pos (List.any_eq_true.2 ⟨v, List.mem_range.2 inside, BEq.rfl⟩)]
  · have more : (t.intern name).2.size = t.size + 1 := by
      rw [size, names]
      exact Array.size_push name
    rw [number, more, if_neg (by simp), List.range_succ]

end

/-! Runs. -/

section
variable (t : NameTable) (names : List String)

theorem numberAll_snd : (t.numberAll names).2 = t.internAll names := by
  induction names generalizing t with
  | nil => rfl
  | cons name rest ih => exact ih (t.intern name).2

theorem numberAll_concat (name : String) :
    (t.numberAll (names ++ [name])).1 = (t.numberAll names).1 ++ [((t.internAll names).intern name).1] := by
  induction names generalizing t with
  | nil => rfl
  | cons first rest ih => exact congrArg ((t.intern first).1 :: ·) (ih (t.intern first).2)

/-- Numbers are the places of the names in the table, also once all names are entered. -/
theorem numberAll_fst :
    (t.numberAll names).1 = names.map fun name => (t.internAll names).toList.idxOf name := by
  induction names generalizing t with
  | nil => rfl
  | cons name rest ih =>
    have kept := extends_internAll (t.intern name).2 rest _ _ (t.getElem?_intern name)
    exact congrArg₂ _ (idxOf_toList kept).symm (ih (t.intern name).2)

end

theorem toList_internAll_empty (names : List String) : (empty.internAll names).toList = names.eraseDups := by
  induction names using List.reverseRecOn with
  | nil => rfl
  | append_singleton names name ih =>
    rw [eraseDups_concat, ← ih, internAll_append]
    change ((empty.internAll names).intern name).2.toList = _
    by_cases known : name ∈ (empty.internAll names).toList
    · rw [intern_known known, if_pos (List.any_eq_true.2 ⟨name, known, BEq.rfl⟩)]
    · have new : ¬(empty.internAll names).toList.any (name == ·) = true := by simpa using known
      rw [toList_intern_fresh known, if_neg new]

/-- New numbers come in order, each when the one before it is taken. -/
theorem eraseDups_numberAll_empty (names : List String) :
    (empty.numberAll names).1.eraseDups = List.range (empty.internAll names).size := by
  induction names using List.reverseRecOn with
  | nil => rfl
  | append_singleton names name ih =>
    rw [numberAll_concat, eraseDups_concat, ih, internAll_append]
    exact (range_size_intern (empty.internAll names) name).symm

theorem bijOn_get? (names : List String) :
    Set.BijOn (empty.internAll names).get? {name | name ∈ names}
      (some '' {v | v < (empty.internAll names).size}) := by
  have numbered : ∀ name, name ∈ names ↔ ∃ v, (empty.internAll names).get? name = some v := by
    intro name
    rw [← mem_toList, mem_toList_internAll]
    exact (or_iff_right List.not_mem_nil).symm
  refine ⟨?maps, ?injective, ?surjective⟩
  case maps =>
    intro name member
    obtain ⟨v, known⟩ := (numbered name).1 member
    exact ⟨v, (get?_eq_some_iff_name.1 known).1, known.symm⟩
  case injective =>
    intro name member other _ same
    obtain ⟨v, known⟩ := (numbered name).1 member
    have known' := get?_eq_some.1 (same.symm.trans known)
    exact Option.some.inj ((get?_eq_some.1 known).symm.trans known')
  case surjective =>
    rintro _ ⟨v, small, rfl⟩
    have found := get?_eq_some.2 (Array.getElem?_eq_getElem small)
    exact ⟨_, (numbered _).2 ⟨v, found⟩, found⟩

theorem numbering_numberAll (names : List String) :
    Numbering names (empty.numberAll names).1 (empty.internAll names) where
  listed := toList_internAll_empty names
  places := by rw [numberAll_fst, toList_internAll_empty]
  inOrder := eraseDups_numberAll_empty names
  again _ _ := intern_of_get?
  inverse _ _ := get?_eq_some_iff_name
  bijective := bijOn_get? names

/-- Whatever names are entered, the table numbers them by their first mentions, and whoever asks again later, for a
name or for a number, is told the same. -/
theorem numberAll_numbering (before after : List String) :
    Numbering before (empty.numberAll before).1 (empty.numberAll before).2 ∧
      (∀ name v, (empty.numberAll before).2.get? name = some v →
        (empty.numberAll (before ++ after)).2.get? name = some v) ∧
      ∀ v name, (empty.numberAll before).2.name v = .ok name →
        (empty.numberAll (before ++ after)).2.name v = .ok name := by
  have kept := extends_internAll (empty.internAll before) after
  rw [numberAll_snd, numberAll_snd, internAll_append]
  refine ⟨numbering_numberAll before, ?_, ?_⟩
  · intro name v known
    exact get?_eq_some.2 (kept v name (get?_eq_some.1 known))
  · intro v name known
    exact name_eq_ok.2 (kept v name (name_eq_ok.1 known))

theorem numberAll_numbering_repeated :
    (empty.numberAll ["b", "a", "b", "c", "a"]).1 = [0, 1, 0, 2, 1] ∧
      (empty.numberAll ["b", "a", "b", "c", "a"]).2.toList = ["b", "a", "c"] ∧
      (empty.numberAll ["b", "a", "b", "c", "a"]).2.get? "c" = some 2 ∧
      (empty.numberAll (["b", "a", "b", "c", "a"] ++ ["d", "c"])).2.get? "c" = some 2 ∧
      (empty.numberAll (["b", "a", "b", "c", "a"] ++ ["d", "c"])).2.name 2 = .ok "c" := by
  obtain ⟨now, stays, stays'⟩ := numberAll_numbering ["b", "a", "b", "c", "a"] ["d", "c"]
  have listed : _ = ["b", "a", "c"] := now.listed
  have third : (empty.numberAll ["b", "a", "b", "c", "a"]).2.get? "c" = some 2 := by
    rw [get?_eq_some, ← toList_getElem?, listed]
    rfl
  exact ⟨now.places, listed, third, stays _ _ third, stays' _ _ ((now.inverse _ _).1 third).2⟩

end PropSat.NameTable
