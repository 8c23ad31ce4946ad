import Mathlib.Data.List.Nodup
import Mathlib.Data.Set.Function
import Mathlib.Logic.Equiv.Basic
import PropSat.Proofs.NormalForm.Renaming
import PropSat.Proofs.Solver.Models

/-!
Nothing that a solver does depends on how names are spelled or ordered. If different names of a formula are
replaced by different names, the table has the new names at the same numbers, the clauses are the same, so the
search is the same, and the models come in the same order with their names replaced (`allModels_rename`).
-/

namespace PropSat

open Formula

namespace Model

/-- Every name replaced by what the map gives for it. -/
def rename (r : String → String) (m : Model) : Model := ofEntries (m.entries.map (Prod.map r id))

section
variable {entries : List (String × Bool)} {r : String → String} {known : Set String}

theorem distinct_rename (injective : Set.InjOn r known) (inside : ∀ name ∈ entries.map Prod.fst, name ∈ known)
    (distinct : (entries.map Prod.fst).Nodup) : ((entries.map (Prod.map r id)).map Prod.fst).Nodup := by
  have names : (entries.map (Prod.map r id)).map Prod.fst = (entries.map Prod.fst).map r := by
    rw [List.map_map, List.map_map]
    rfl
  rw [names]
  exact distinct.map_on fun a own b other => injective (inside a own) (inside b other)

theorem ofEntries_rename (injective : Set.InjOn r known) (inside : ∀ name ∈ entries.map Prod.fst, name ∈ known)
    (distinct : (entries.map Prod.fst).Nodup) :
    ofEntries (entries.map (Prod.map r id)) = (ofEntries entries).rename r := by
  have same : ∀ entry, entry ∈ (ofEntries entries).entries ↔ entry ∈ entries := fun ⟨_, _⟩ => by
    rw [mem_entries, getElem?_ofEntries distinct]
  have inside' : ∀ name ∈ (ofEntries entries).entries.map Prod.fst, name ∈ known := by
    simpa only [List.mem_map, same] using inside
  apply Std.ExtTreeMap.ext_getElem?
  intro name
  apply Option.ext
  intro value
  rw [rename, getElem?_ofEntries (distinct_rename injective inside distinct),
    getElem?_ofEntries (distinct_rename injective inside' (entries_distinct _))]
  simp only [List.mem_map, same]

theorem map_fst_zip_sublist {α β : Type} (xs : List α) (ys : List β) :
    ((xs.zip ys).map Prod.fst).Sublist xs := by
  induction xs generalizing ys with
  | nil => exact List.nil_sublist _
  | cons x xs ih =>
    cases ys with
    | nil => exact List.nil_sublist _
    | cons y ys => exact (ih ys).cons_cons x

theorem ofNames_rename (injective : Set.InjOn r known) {names : List String}
    (inside : ∀ name ∈ names, name ∈ known) (distinct : names.Nodup) (values : List Bool) :
    ofNames (names.map r) values = (ofNames names values).rename r := by
  have part := map_fst_zip_sublist names values
  rw [ofNames, List.zip_map_left]
  exact ofEntries_rename injective (fun name own => inside name (part.mem own)) (distinct.sublist part)

end

end Model

/-- The one table has known names, the other has what the map gives for them, at the same numbers. -/
structure NameTable.Renames (r : String → String) (known : Set String) (t t' : NameTable) : Prop where
  names : t'.toList = t.toList.map r
  inside : ∀ name ∈ t.toList, name ∈ known

section
variable {r : String → String} {known : Set String} {t t' : NameTable}

theorem NameTable.Renames.getElem? (renames : Renames r known t t') (v : Nat) :
    t'.names[v]? = (t.names[v]?).map r := by
  rw [← toList_getElem?, ← toList_getElem?, renames.names, List.getElem?_map]

/-- What is numbered anew in the one is numbered anew in the other, with the same number. -/
theorem NameTable.Renames.intern (injective : Set.InjOn r known) (renames : Renames r known t t')
    {name : String} (own : name ∈ known) :
    (t'.intern (r name)).1 = (t.intern name).1 ∧
      Renames r known (t.intern name).2 (t'.intern (r name)).2 := by
  have same : r name ∈ t'.toList ↔ name ∈ t.toList := by
    rw [renames.names, List.mem_map]
    constructor
    · rintro ⟨other, there, image⟩
      exact injective (renames.inside other there) own image ▸ there
    · exact fun here => ⟨name, here, rfl⟩
  have names : (t'.intern (r name)).2.toList = (t.intern name).2.toList.map r := by
    by_cases numbered : name ∈ t.toList
    · rw [intern_known numbered, intern_known (same.2 numbered), renames.names]
    · rw [toList_intern_fresh numbered, toList_intern_fresh fun there => numbered (same.1 there),
        renames.names, List.map_append]
      rfl
  have inside : ∀ other ∈ (t.intern name).2.toList, other ∈ known := by
    intro other member
    rcases mem_toList_intern.1 member with there | rfl
    · exact renames.inside other there
    · exact own
  have after : Renames r known (t.intern name).2 (t'.intern (r name)).2 := ⟨names, inside⟩
  refine ⟨?_, after⟩
  have here := after.getElem? (t.intern name).1
  rw [getElem?_intern, Option.map_some] at here
  exact number_unique (getElem?_intern t' (r name)) here

end

namespace Encoding

/-- Two results of reading that belong together: what is read is related, and errors are about parts that
correspond. -/
def Together {α : Type} (r : String → String) (R : α → α → Prop) : Except NotCnf α → Except NotCnf α → Prop
  | .ok a, .ok b => R a b
  | .error one, .error other => other.culprit = one.culprit.rename r
  | _, _ => False

section
variable {α β : Type} {r : String → String} {R : α → α → Prop} {S : β → β → Prop}

theorem Together.bind {x y : Except NotCnf α} (both : Together r R x y) {next next' : α → Except NotCnf β}
    (follows : ∀ a b, R a b → Together r S (next a) (next' b)) : Together r S (x >>= next) (y >>= next') := by
  cases x with
  | error one =>
    cases y with
    | error other => exact both
    | ok b => exact both.elim
  | ok a =>
    cases y with
    | error other => exact both.elim
    | ok b => exact follows a b both

theorem Together.foldlM {step : α → Formula → Except NotCnf α} {parts : List Formula}
    (each : ∀ f ∈ parts, ∀ a b, R a b → Together r R (step a f) (step b (f.rename r))) {a b : α}
    (related : R a b) : Together r R (parts.foldlM step a) ((parts.map (rename r)).foldlM step b) := by
  induction parts generalizing a b with
  | nil => exact related
  | cons first rest ih =>
    obtain ⟨here, later⟩ := List.forall_mem_cons.1 each
    rw [List.map_cons, List.foldlM_cons, List.foldlM_cons]
    exact (here a b related).bind fun _ _ => ih later

/-- The same literals read, and the same names numbered but for the renaming. -/
structure SameLiterals (r : String → String) (known : Set String) (a b : List Literal × NameTable) : Prop where
  literals : b.1 = a.1
  table : a.2.Renames r known b.2

/-- The same clauses over renamed names. -/
structure Renames (r : String → String) (known : Set String) (e e' : Encoding) : Prop where
  clauses : e'.clauses = e.clauses
  table : e.table.Renames r known e'.table

variable {known : Set String} (injective : Set.InjOn r known)

include injective

theorem together_addLiteral (f : Formula) (inside : ∀ name ∈ f.names, name ∈ known)
    (a b : List Literal × NameTable) (same : SameLiterals r known a b) :
    Together r (SameLiterals r known) (addLiteral a f) (addLiteral b (f.rename r)) := by
  obtain ⟨literals, t⟩ := a
  obtain ⟨others, t'⟩ := b
  obtain ⟨found, renames⟩ := same
  dsimp only at found renames
  subst found
  cases f with
  | var name =>
    obtain ⟨number, after⟩ := renames.intern injective (inside name List.mem_cons_self)
    exact ⟨congrArg (Literal.positive · :: others) number, after⟩
  | not arg =>
    cases arg with
    | var name =>
      obtain ⟨number, after⟩ := renames.intern injective (inside name List.mem_cons_self)
      exact ⟨congrArg (Literal.negative · :: others) number, after⟩
    | not | binary => rfl
  | binary op left right => rfl

theorem together_addClause (conjunct : Formula) (inside : ∀ name ∈ conjunct.names, name ∈ known)
    (e e' : Encoding) (renames : Renames r known e e') :
    Together r (Renames r known) (addClause e conjunct) (addClause e' (conjunct.rename r)) := by
  obtain ⟨t, clauses⟩ := e
  obtain ⟨t', clauses'⟩ := e'
  obtain ⟨read, table⟩ := renames
  dsimp only at read table
  subst read
  have literals : Together r (SameLiterals r known) ((conjunct.spine .or).foldlM addLiteral ([], t))
      (((conjunct.spine .or).map (rename r)).foldlM addLiteral ([], t')) := by
    refine Together.foldlM ?_ ⟨rfl, table⟩
    intro part member
    exact together_addLiteral injective part fun name own => inside name (mem_names_of_spine member own)
  rw [addClause, addClause, spine_rename]
  refine literals.bind ?_
  intro a b same
  exact ⟨congrArg (clauses'.push <| Clause.ofList ·) same.literals, same.table⟩

/-- A formula is read as the same clauses whatever its names, or refused for the same part. -/
theorem together_ofFormula (f : Formula) (inside : ∀ name ∈ f.names, name ∈ known) :
    Together r (Renames r known) (ofFormula f) (ofFormula (f.rename r)) := by
  rw [ofFormula, ofFormula, spine_rename]
  refine Together.foldlM ?_ ⟨rfl, rfl, fun _ => (absurd · List.not_mem_nil)⟩
  intro conjunct member
  exact together_addClause injective conjunct fun name own => inside name (mem_names_of_spine member own)

end

end Encoding

namespace Solver

variable {r : String → String} {known : Set String}

theorem modelOf_rename (injective : Set.InjOn r known) {t t' : NameTable} (renames : t.Renames r known t')
    (values : List Bool) : modelOf t' values = (modelOf t values).rename r := by
  rw [modelOf, renames.names]
  exact Model.ofNames_rename injective renames.inside t.toList_nodup values

/-- Two solvers for the same search give the same models but for the names. -/
theorem allModels_of_same_search (injective : Set.InjOn r known) {t t' : NameTable}
    (renames : t.Renames r known t') {session : Session} {entries : List Search.Entry}
    (expects : session.Expects entries) :
    ∃ models after after', allModels ⟨t, session, #[]⟩ = .ok (models, after) ∧
      allModels ⟨t', session, #[]⟩ = .ok (models.map (Array.map (Model.rename r)), after') := by
  have same : (Search.founds entries).map (modelOf t') =
      ((Search.founds entries).map (modelOf t)).map (Model.rename r) := by
    rw [List.map_map]
    exact List.map_congr_left fun values _ => modelOf_rename injective renames values
  obtain ⟨_, one, -⟩ := allModels_ok (s := ⟨t, session, #[]⟩) expects (List.nil_append _).symm
  obtain ⟨_, other, -⟩ := allModels_ok (s := ⟨t', session, #[]⟩) expects (List.nil_append _).symm
  rw [same] at other
  generalize (Search.founds entries).map (modelOf t) = models at one other
  cases models with
  | nil => exact ⟨none, _, _, one, other⟩
  | cons first rest =>
    rw [if_neg (List.cons_ne_nil _ _)] at one
    rw [List.map_cons, if_neg (List.cons_ne_nil _ _), ← List.map_cons, ← List.map_toArray] at other
    exact ⟨_, _, _, one, other⟩

/-- With different names replaced by different ones a formula is converted to the same formula but for the names.
It is read as the same clauses, with the new names at the same numbers, or refused for the same part; and its
models are the same and come in the same order. -/
theorem allModels_rename (f : Formula) (injective : Set.InjOn r {name | name ∈ f.names}) :
    (f.rename r).toCnf = f.toCnf.rename r ∧
    Encoding.Together r (Encoding.Renames r {name | name ∈ f.names})
      (Encoding.ofFormula f) (Encoding.ofFormula (f.rename r)) ∧
    ∃ s s' models after after', ofFormula f = .ok s ∧ ofFormula (f.rename r) = .ok s' ∧
      s.allModels = .ok (models, after) ∧
      s'.allModels = .ok (models.map (Array.map (Model.rename r)), after') := by
  have converted := toCnf_rename r f
  refine ⟨converted, Encoding.together_ofFormula injective f fun _ => id, ?_⟩
  obtain ⟨e, read, -, each⟩ := Encoding.ofFormula_ok f.toCnf_conjunctive
  obtain ⟨e', read', -, -⟩ := Encoding.ofFormula_ok (f.rename r).toCnf_conjunctive
  have together := Encoding.together_ofFormula injective f.toCnf fun name => ((toCnf_equivalent f).names name).1
  rw [← converted, read, read'] at together
  obtain ⟨clauses, table⟩ := together
  have size : e'.table.size = e.table.size := by
    rw [← e'.table.length_toList, table.names, List.length_map, e.table.length_toList]
  obtain ⟨session, entries, start, expects, -⟩ := Session.start_satisfied (Encoding.inRange each)
  have start' : Session.start e'.table.size e'.clauses = .ok session := by rw [size, clauses, start]
  obtain ⟨models, after, after', one, other⟩ := allModels_of_same_search injective table expects
  exact ⟨_, _, models, after, after', ofCnf_read read start, ofCnf_read read' start', one, other⟩

/-- Two names exchanged. -/
theorem allModels_rename_swap :
    Set.InjOn (Equiv.swap "a" "b") {name | name ∈ (Formula.implies (.var "b") (.var "a")).names} ∧
    (Formula.implies (.var "b") (.var "a")).rename (Equiv.swap "a" "b") = .implies (.var "a") (.var "b") ∧
    (Formula.implies (.var "a") (.var "b")).toCnf =
      (Formula.implies (.var "b") (.var "a")).toCnf.rename (Equiv.swap "a" "b") ∧
    Encoding.Together (Equiv.swap "a" "b")
      (Encoding.Renames (Equiv.swap "a" "b") {name | name ∈ (Formula.implies (.var "b") (.var "a")).names})
      (Encoding.ofFormula (.implies (.var "b") (.var "a")))
      (Encoding.ofFormula (.implies (.var "a") (.var "b"))) ∧
    ∃ s s' models after after', ofFormula (.implies (.var "b") (.var "a")) = .ok s ∧
      ofFormula (.implies (.var "a") (.var "b")) = .ok s' ∧ s.allModels = .ok (models, after) ∧
      s'.allModels = .ok (models.map (Array.map (Model.rename (Equiv.swap "a" "b"))), after') := by
  have injective : Set.InjOn (Equiv.swap "a" "b") {name | name ∈ (Formula.implies (.var "b") (.var "a")).names} :=
    (Equiv.swap "a" "b").injective.injOn
  have exchanged : (Formula.implies (.var "b") (.var "a")).rename (Equiv.swap "a" "b") =
      .implies (.var "a") (.var "b") := by
    simp [rename]
  have right := allModels_rename (.implies (.var "b") (.var "a")) injective
  rw [exchanged] at right
  exact ⟨injective, exchanged, right⟩

end Solver

end PropSat
