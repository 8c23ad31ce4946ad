import Mathlib.Data.List.Perm.Subperm
import PropSat.Formula.Variables
import PropSat.Proofs.Formula.Truth

/-!
Numbers once given stay, and a table holds the names given to it, the new ones in the order they come. The
variables of a formula are the names in it, each once.
-/

namespace PropSat

namespace NameTable

variable {t : NameTable} {name : String} {v : Nat}

def internAll (t : NameTable) (names : List String) : NameTable :=
  names.foldl (fun t name => (t.intern name).2) t

theorem toList_getElem? (t : NameTable) (v : Nat) : t.toList[v]? = t.names[v]? := Array.getElem?_toList

theorem length_toList (t : NameTable) : t.toList.length = t.size := Array.length_toList

theorem number_unique {w : Nat} (first : t.names[v]? = some name) (second : t.names[w]? = some name) :
    v = w :=
  Option.some.inj (((t.agree name v).2 first).symm.trans ((t.agree name w).2 second))

theorem toList_nodup (t : NameTable) : t.toList.Nodup := by
  unfold List.Nodup
  rw [List.pairwise_iff_getElem]
  intro i j hi hj before same
  have first : t.names[i]? = some t.toList[i] := by
    rw [← toList_getElem?, List.getElem?_eq_getElem hi]
  have second : t.names[j]? = some t.toList[i] := by
    rw [← toList_getElem?, List.getElem?_eq_getElem hj, same]
  exact Nat.ne_of_lt before (number_unique first second)

theorem get?_eq_some : t.get? name = some v ↔ t.names[v]? = some name := t.agree name v

theorem mem_toList : name ∈ t.toList ↔ ∃ v, t.get? name = some v := by
  rw [List.mem_iff_getElem?]
  simp only [toList_getElem?, get?_eq_some]

/-- A name that is known keeps its number, and one that is new comes last. -/
theorem intern_cases (t : NameTable) (name : String) :
    (∃ v, t.get? name = some v ∧ t.intern name = (v, t)) ∨
      t.get? name = none ∧ (t.intern name).1 = t.size ∧ (t.intern name).2.names = t.names.push name := by
  unfold intern
  split
  case h_1 v known => exact .inl ⟨v, known, rfl⟩
  case h_2 unknown => exact .inr ⟨unknown, rfl, rfl⟩

theorem getElem?_intern (t : NameTable) (name : String) :
    (t.intern name).2.names[(t.intern name).1]? = some name := by
  obtain ⟨v, known, same⟩ | ⟨-, number, names⟩ := t.intern_cases name
  · rw [same]
    exact get?_eq_some.1 known
  · rw [number, names]
    exact Array.getElem?_push_size

theorem mem_toList_intern {other : String} :
    other ∈ (t.intern name).2.toList ↔ other ∈ t.toList ∨ other = name := by
  obtain ⟨v, known, same⟩ | ⟨-, -, names⟩ := t.intern_cases name
  · rw [same]
    exact ⟨.inl, fun either => either.elim id fun itself => itself ▸ mem_toList.2 ⟨v, known⟩⟩
  · simp [toList, names]

/-- Whatever has a number in the one table has the same number in the other. -/
def Extends (t final : NameTable) : Prop :=
  ∀ (v : Nat) (name : String), t.names[v]? = some name → final.names[v]? = some name

theorem extends_intern (t : NameTable) (other : String) : t.Extends (t.intern other).2 := by
  intro v name known
  obtain ⟨_, -, same⟩ | ⟨-, -, names⟩ := t.intern_cases other
  · rwa [same]
  · have inside : v < t.names.size := (Array.getElem?_eq_some_iff.1 known).1
    rw [names, Array.getElem?_push_lt inside, ← Array.getElem?_eq_getElem inside]
    exact known

theorem Extends.refl (t : NameTable) : t.Extends t := fun _ _ => id

theorem Extends.trans {t t' final : NameTable} (first : t.Extends t') (second : t'.Extends final) :
    t.Extends final :=
  fun v name known => second v name (first v name known)

theorem extends_internAll (t : NameTable) (names : List String) : t.Extends (t.internAll names) := by
  induction names generalizing t with
  | nil => exact .refl t
  | cons first rest ih => exact (t.extends_intern first).trans (ih _)

theorem mem_toList_internAll {names : List String} {other : String} :
    other ∈ (t.internAll names).toList ↔ other ∈ t.toList ∨ other ∈ names := by
  induction names generalizing t with
  | nil => simp [internAll]
  | cons first rest ih =>
    change other ∈ ((t.intern first).2.internAll rest).toList ↔ _
    rw [ih, mem_toList_intern, List.mem_cons, or_assoc]

theorem internAll_append (t : NameTable) (first second : List String) :
    t.internAll (first ++ second) = (t.internAll first).internAll second :=
  List.foldl_append

theorem intern_known (known : name ∈ t.toList) : (t.intern name).2 = t := by
  obtain ⟨_, -, same⟩ | ⟨unknown, -⟩ := t.intern_cases name
  · rw [same]
  · obtain ⟨v, numbered⟩ := mem_toList.1 known
    rw [unknown] at numbered
    cases numbered

theorem toList_intern_fresh (fresh : name ∉ t.toList) : (t.intern name).2.toList = t.toList ++ [name] := by
  obtain ⟨v, known, -⟩ | ⟨-, -, names⟩ := t.intern_cases name
  · exact absurd (mem_toList.2 ⟨v, known⟩) fresh
  · rw [toList, names]
    exact Array.toList_push

theorem internAll_known {names : List String} (known : ∀ name ∈ names, name ∈ t.toList) :
    t.internAll names = t := by
  induction names with
  | nil => rfl
  | cons first rest ih =>
    change (t.intern first).2.internAll rest = t
    rw [intern_known (known first List.mem_cons_self)]
    exact ih fun name member => known name (List.mem_cons_of_mem first member)

theorem internAll_twice (t : NameTable) (names : List String) :
    t.internAll (names ++ names) = t.internAll names := by
  rw [internAll_append]
  exact internAll_known fun name member => mem_toList_internAll.2 (.inr member)

theorem toList_internAll_fresh {names : List String} (distinct : (t.toList ++ names).Nodup) :
    (t.internAll names).toList = t.toList ++ names := by
  induction names generalizing t with
  | nil => exact (List.append_nil _).symm
  | cons first rest ih =>
    change ((t.intern first).2.internAll rest).toList = _
    have fresh : first ∉ t.toList := fun known =>
      (List.nodup_append.1 distinct).2.2 first known first List.mem_cons_self rfl
    have next := toList_intern_fresh fresh
    rw [ih (by rwa [next, List.append_assoc]), next, List.append_assoc, List.singleton_append]

/-- Blocks of new names, each followed by names that it has brought in, give the new names in order. -/
theorem toList_internAll_blocks {α : Type} {blocks : List α} {new again : α → List String}
    (repeated : ∀ x ∈ blocks, ∀ name ∈ again x, name ∈ new x)
    (distinct : (t.toList ++ blocks.flatMap new).Nodup) :
    (t.internAll (blocks.flatMap fun x => new x ++ again x)).toList = t.toList ++ blocks.flatMap new := by
  induction blocks generalizing t with
  | nil => exact (List.append_nil _).symm
  | cons x rest ih =>
    rw [List.flatMap_cons, ← List.append_assoc] at distinct
    have here := toList_internAll_fresh (List.nodup_append.1 distinct).1
    have known : ∀ name ∈ again x, name ∈ (t.internAll (new x)).toList := by
      intro name member
      rw [here]
      exact List.mem_append_right _ (repeated x List.mem_cons_self name member)
    rw [List.flatMap_cons, internAll_append, internAll_append, internAll_known known,
      ih (fun y member => repeated y (List.mem_cons_of_mem x member)) (by rwa [here]), here,
      List.append_assoc, List.flatMap_cons]

end NameTable

namespace Formula

theorem foldWith_internNode (f : Formula) (t : NameTable) :
    (f.foldWith internNode t).2 = t.internAll f.names := by
  induction f generalizing t with
  | var name =>
    rw [foldWith_var]
    rfl
  | not arg ih =>
    rw [foldWith_not, internNode]
    · exact ih t
    · intro name other
      cases other
  | binary op left right ihl ihr =>
    rw [foldWith_binary, internNode]
    · rw [ihl, ihr, names, NameTable.internAll_append]
    · intro name other
      cases other

theorem vars_eq (f : Formula) : f.vars = (NameTable.empty.internAll f.names).toList := by
  rw [vars, foldWith_internNode]

theorem mem_vars {f : Formula} {name : String} : name ∈ f.vars ↔ name ∈ f.names := by
  rw [vars_eq, NameTable.mem_toList_internAll]
  exact or_iff_right List.not_mem_nil

theorem vars_nodup (f : Formula) : f.vars.Nodup := NameTable.toList_nodup _

theorem vars_length_le (f : Formula) : f.vars.length ≤ f.names.length :=
  (List.subperm_of_subset f.vars_nodup fun _ => mem_vars.1).length_le

end Formula

end PropSat
