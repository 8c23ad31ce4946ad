import Mathlib.Data.List.FinRange
import Mathlib.Data.List.Nodup
import PropSat.Problem.Basic
import PropSat.Proofs.NameTable
import PropSat.Proofs.NormalForm.ConjunctiveForm

/-!
What the constraints that problems are made of say, and which names they mention. `exactlyOne` holds just
when one place of its list has a true name (`all_exactlyOne`), and so it does under a model that binds the
names (`eval_exactlyOne`); it mentions the names of the list in their order, and after that only names it
has mentioned. All constraints are in conjunctive form, so the whole of a problem is (`conjunctive_allOf`).
-/

namespace PropSat.Problem

open Formula

variable {v : String → Bool} {names : List String} {clauses : List Formula}

theorem truth_notBoth (v : String → Bool) (a b : String) : (notBoth a b).truth v = !(v a && v b) := by
  cases first : v a <;> cases second : v b <;> simp [notBoth, truth, Connective.apply, first, second]

theorem truth_atLeastOne (v : String → Bool) (names : List String) :
    (atLeastOne names).truth v = names.any v := by
  unfold atLeastOne
  rcases joinAll?_cases .or (names.map .var) with ⟨nothing, joined⟩ | ⟨f, joined⟩
  · rw [List.map_eq_nil_iff] at nothing
    subst nothing
    rw [joined]
    cases known : v reserved <;> simp [truth, Connective.apply, known]
  · rw [joined, Option.getD_some, truth_joinAll_or joined, List.any_map]
    rfl

theorem truth_allOf (v : String → Bool) (clauses : List Formula) :
    (allOf clauses).truth v = clauses.all (truth v) := by
  unfold allOf
  rcases joinAll?_cases .and clauses with ⟨rfl, joined⟩ | ⟨f, joined⟩
  · rw [joined]
    cases known : v reserved <;> simp [truth, Connective.apply, known]
  · rw [joined, Option.getD_some, truth_joinAll_and joined]

theorem all_notBoth (v : String → Bool) (a : String) (rest : List String) :
    (rest.map (notBoth a)).all (truth v) = true ↔ (v a = true → rest.countP v = 0) := by
  simp only [List.all_map, List.all_eq_true, Function.comp_apply, truth_notBoth, List.countP_eq_zero]
  constructor
  · intro apart here name member both
    simpa [here, both] using apart name member
  · intro apart name member
    cases here : v a with
    | false => rfl
    | true => simpa using apart here name member

theorem all_atMostOne (v : String → Bool) (names : List String) :
    (atMostOne names).all (truth v) = true ↔ names.countP v ≤ 1 := by
  induction names with
  | nil => simp [atMostOne]
  | cons a rest ih =>
    rw [atMostOne, List.all_append, Bool.and_eq_true, all_notBoth, ih, List.countP_cons]
    by_cases here : v a = true
    · rw [if_pos here]
      constructor
      · rintro ⟨none_else, -⟩
        have nothing := none_else here
        omega
      · intro few
        exact ⟨fun _ => by omega, by omega⟩
    · rw [if_neg here, Nat.add_zero]
      exact and_iff_right fun there => absurd there here

/-- Just one place of the list has a true name. -/
theorem all_exactlyOne (v : String → Bool) (names : List String) :
    (exactlyOne names).all (truth v) = true ↔ names.countP v = 1 := by
  rw [exactlyOne, List.all_cons, Bool.and_eq_true, all_atMostOne, truth_atLeastOne, List.any_eq_true,
    ← List.countP_pos_iff]
  omega

theorem countP_eq_one_iff {α : Type} {q : α → Bool} {xs : List α} (distinct : xs.Nodup) :
    xs.countP q = 1 ↔ ∃! x, x ∈ xs ∧ q x = true := by
  rw [List.countP_eq_length_filter]
  constructor
  · intro one
    obtain ⟨a, only⟩ := List.length_eq_one_iff.1 one
    simp only [← List.mem_filter, only, List.mem_singleton]
    exact existsUnique_eq
  · rintro ⟨a, holds, only⟩
    have perm : (xs.filter q).Perm [a] := by
      rw [List.perm_ext_iff_of_nodup (distinct.filter _) (List.nodup_singleton a)]
      intro x
      rw [List.mem_filter, List.mem_singleton]
      exact ⟨only x, fun same => same ▸ holds⟩
    exact perm.length_eq

/-! The form of the constraints. -/

theorem conjunctive_joinAll_or {fs : List Formula} {f : Formula}
    (joined : Connective.or.joinAll? fs = some f) (literals : ∀ l ∈ fs, IsLiteral l) : Conjunctive f := by
  apply conjunctive_of_literals
  rw [spine_joinAll joined]
  intro l member
  obtain ⟨part, inside, own⟩ := List.mem_flatMap.1 member
  rw [(literals part inside).spine, List.mem_singleton] at own
  exact own ▸ literals part inside

theorem conjunctive_allOf (all : ∀ c ∈ clauses, Conjunctive c) : Conjunctive (allOf clauses) := by
  unfold allOf
  rcases joinAll?_cases .and clauses with ⟨-, joined⟩ | ⟨f, joined⟩
  · rw [joined, Option.getD_none]
    apply conjunctive_of_literals
    simp [IsLiteral.var, IsLiteral.not]
  · rw [joined, Option.getD_some]
    intro conjunct inner
    rw [spine_joinAll joined] at inner
    obtain ⟨c, member, own⟩ := List.mem_flatMap.1 inner
    exact all c member conjunct own

theorem conjunctive_var (name : String) : Conjunctive (.var name) := (IsLiteral.var name).conjunctive

theorem conjunctive_notBoth (a b : String) : Conjunctive (notBoth a b) := by
  apply conjunctive_of_literals
  simp [notBoth, IsLiteral.not]

theorem conjunctive_atLeastOne (names : List String) : Conjunctive (atLeastOne names) := by
  unfold atLeastOne
  rcases joinAll?_cases .or (names.map .var) with ⟨-, joined⟩ | ⟨f, joined⟩
  · rw [joined, Option.getD_none]
    exact conjunctive_and_iff.2 ⟨conjunctive_var reserved, (IsLiteral.not reserved).conjunctive⟩
  · rw [joined, Option.getD_some]
    apply conjunctive_joinAll_or joined
    intro l member
    obtain ⟨name, -, rfl⟩ := List.mem_map.1 member
    exact .var name

theorem conjunctive_exactlyOne (names : List String) : ∀ c ∈ exactlyOne names, Conjunctive c := by
  have pairs : ∀ c ∈ atMostOne names, Conjunctive c := by
    induction names with
    | nil => exact List.forall_mem_nil _
    | cons a rest ih =>
      rw [atMostOne, List.forall_mem_append]
      refine ⟨?_, ih⟩
      intro c member
      obtain ⟨b, -, rfl⟩ := List.mem_map.1 member
      exact conjunctive_notBoth a b
  exact List.forall_mem_cons.2 ⟨conjunctive_atLeastOne names, pairs⟩

/-! The names that the constraints mention. -/

theorem names_allOf (some_clause : clauses ≠ []) :
    (allOf clauses).names = clauses.flatMap Formula.names := by
  obtain ⟨first, rest, rfl⟩ := List.exists_cons_of_ne_nil some_clause
  exact names_joinAll (Connective.and.joinAll?_cons first rest)

theorem vars_allOf_nil : (allOf []).vars = [reserved] := by
  have same : (allOf []).vars.Perm [reserved] := by
    rw [List.perm_ext_iff_of_nodup (vars_nodup _) (List.nodup_singleton _)]
    intro name
    rw [mem_vars]
    simp [allOf, Connective.joinAll?, Formula.names]
  exact List.perm_singleton.1 same

/-- Only where nothing is asked the reserved name comes in. -/
theorem mem_names_allOf {name : String} (member : name ∈ (allOf clauses).names) :
    name = reserved ∨ ∃ c ∈ clauses, name ∈ c.names := by
  by_cases nothing : clauses = []
  · subst nothing
    simp only [allOf, Connective.joinAll?, Option.getD_none, Formula.names, List.mem_append,
      List.mem_singleton, or_self] at member
    exact .inl member
  · rw [names_allOf nothing, List.mem_flatMap] at member
    exact .inr member

theorem names_atMostOne : ∀ name ∈ (atMostOne names).flatMap Formula.names, name ∈ names := by
  induction names with
  | nil => exact List.forall_mem_nil _
  | cons a rest ih =>
    intro name member
    rw [atMostOne, List.flatMap_append, List.mem_append] at member
    rcases member with inFirst | later
    · obtain ⟨c, inside, own⟩ := List.mem_flatMap.1 inFirst
      obtain ⟨b, inRest, rfl⟩ := List.mem_map.1 inside
      have either : name = a ∨ name = b := by simpa [notBoth, Formula.names] using own
      rcases either with rfl | rfl
      · exact List.mem_cons_self
      · exact List.mem_cons_of_mem a inRest
    · exact List.mem_cons_of_mem a (ih name later)

/-- The names come in the order of the list, and after them the same names only. -/
theorem names_exactlyOne (some_name : names ≠ []) :
    (exactlyOne names).flatMap Formula.names =
      names ++ (atMostOne names).flatMap Formula.names := by
  rw [exactlyOne, List.flatMap_cons]
  congr 1
  unfold atLeastOne
  rcases joinAll?_cases .or (names.map .var) with ⟨nothing, -⟩ | ⟨f, joined⟩
  · exact absurd (List.map_eq_nil_iff.1 nothing) some_name
  · rw [joined, Option.getD_some, names_joinAll joined, List.flatMap_map]
    exact List.flatMap_singleton' names

theorem mem_names_exactlyOne (some_name : names ≠ []) {c : Formula} (member : c ∈ exactlyOne names) :
    ∀ name ∈ c.names, name ∈ names := by
  intro name own
  have inside : name ∈ (exactlyOne names).flatMap Formula.names := List.mem_flatMap.2 ⟨c, member, own⟩
  rw [names_exactlyOne some_name, List.mem_append] at inside
  exact inside.elim id (names_atMostOne name)

theorem mem_names_exactlyOne_nil {c : Formula} (member : c ∈ exactlyOne []) :
    ∀ name ∈ c.names, name = reserved := by
  simp only [exactlyOne, atMostOne, List.mem_singleton] at member
  subst member
  simp [atLeastOne, Connective.joinAll?, Formula.names]

/-- Where a problem begins with choices among distinct names, and speaks of no other names later, its
variables are these names in order. -/
theorem vars_allOf {α : Type} {choices : List α} {options : α → List String} {others : List Formula}
    (some_choice : choices ≠ []) (some_option : ∀ x ∈ choices, options x ≠ [])
    (distinct : (choices.flatMap options).Nodup)
    (known : ∀ c ∈ others, ∀ name ∈ c.names, name ∈ choices.flatMap options) :
    (allOf (choices.flatMap (fun x => exactlyOne (options x)) ++ others)).vars =
      choices.flatMap options := by
  have some_clause : choices.flatMap (fun x => exactlyOne (options x)) ++ others ≠ [] := by
    obtain ⟨first, rest, rfl⟩ := List.exists_cons_of_ne_nil some_choice
    simp [exactlyOne]
  have blocks : (choices.flatMap fun x => exactlyOne (options x)).flatMap Formula.names =
      choices.flatMap fun x => options x ++ (atMostOne (options x)).flatMap Formula.names := by
    rw [List.flatMap_assoc]
    exact List.flatMap_congr fun x member => names_exactlyOne (some_option x member)
  have numbered : (NameTable.empty.internAll (choices.flatMap fun x =>
      options x ++ (atMostOne (options x)).flatMap Formula.names)).toList = choices.flatMap options :=
    NameTable.toList_internAll_blocks (fun x _ => names_atMostOne) distinct
  rw [vars_eq, names_allOf some_clause, List.flatMap_append, blocks, NameTable.internAll_append,
    NameTable.internAll_known, numbered]
  intro name member
  obtain ⟨c, inside, own⟩ := List.mem_flatMap.1 member
  rw [numbered]
  exact known c inside name own

/-! The constraints under a model. -/

theorem countP_eq_one_iff_place {α : Type} {q : α → Bool} {xs : List α} :
    xs.countP q = 1 ↔ ∃! i : Fin xs.length, q xs[i] = true := by
  have places : xs.countP q = (List.finRange xs.length).countP fun i => q xs[i] := by
    conv_lhs => rw [← List.map_getElem_finRange xs]
    exact List.countP_map
  rw [places, countP_eq_one_iff (List.nodup_finRange _)]
  simp only [List.mem_finRange, true_and]

/-- Where every name of the list is bound, all clauses have the value true just when one place of the list has a true
name, and no other place has one. A name counts at each place where it stands. Without any name a clause fails, whether
the reserved name is bound or not. -/
theorem eval_exactlyOne {m : Model} (bound : ∀ name ∈ names, name ∈ m) :
    (∀ c ∈ exactlyOne names, c.eval m = some true) ↔
      ∃! i : Fin names.length, m[names[i]]? = some true := by
  have value : ∀ name, m[name]? = some true ↔ m.value name = true := by
    intro name
    rw [← m.beq_some_true, beq_iff_eq]
  simp only [value, ← countP_eq_one_iff_place, ← all_exactlyOne, List.all_eq_true]
  constructor
  · intro all c member
    exact truth_of_eval (all c member)
  · intro all c member
    have some_name : names ≠ [] := by
      rintro rfl
      have one := (all_exactlyOne m.value []).1 (List.all_eq_true.2 all)
      cases one
    rw [eval_bound fun name own => bound name (mem_names_exactlyOne some_name member name own), all c member]

/-- One true name, and a false one twice. -/
theorem eval_exactlyOne_repeated :
    (∀ name ∈ ["b", "a", "b"], name ∈ Model.ofEntries [("a", true), ("b", false)]) ∧
    (∃! i : Fin ["b", "a", "b"].length,
      (Model.ofEntries [("a", true), ("b", false)])[["b", "a", "b"][i]]? = some true) ∧
    ∀ c ∈ exactlyOne ["b", "a", "b"], c.eval (Model.ofEntries [("a", true), ("b", false)]) = some true := by
  have bound : ∀ name ∈ ["b", "a", "b"], name ∈ Model.ofEntries [("a", true), ("b", false)] := by
    simp [Model.ofEntries, Std.ExtTreeMap.mem_ofList]
  have one : ∃! i : Fin ["b", "a", "b"].length,
      (Model.ofEntries [("a", true), ("b", false)])[["b", "a", "b"][i]]? = some true := ⟨1, rfl, by decide⟩
  exact ⟨bound, one, (eval_exactlyOne bound).2 one⟩

end PropSat.Problem
