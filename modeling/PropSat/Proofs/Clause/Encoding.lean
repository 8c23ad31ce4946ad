import Mathlib.Data.List.Forall2
import PropSat.Clause.Encoding
import PropSat.Proofs.Assignment
import PropSat.Proofs.Model
import PropSat.Proofs.NormalForm.ConjunctiveForm

/-!
Clauses that stand for the conjuncts of a formula, literal by literal. The table grows while clauses are
read and what has been numbered keeps its number, so a literal goes on standing for the same part of the
formula. Under an assignment the clauses hold together just when the formula is true.
-/

namespace PropSat

namespace Encoding

open Formula

section
variable {α β γ : Type} {R : α → β → Prop} {xs : List α} {ys : List β}

theorem forall_mem_of_forall₂ (each : List.Forall₂ R xs ys) {p : β → Prop}
    (passes : ∀ x y, R x y → p y) : ∀ y ∈ ys, p y := by
  induction each with
  | nil => exact fun y none_left => absurd none_left List.not_mem_nil
  | cons first _ ih => exact List.forall_mem_cons.2 ⟨passes _ _ first, ih⟩

theorem map_eq_of_forall₂ (each : List.Forall₂ R xs ys) {g : β → γ} {h : α → γ}
    (same : ∀ x y, R x y → g y = h x) : ys.map g = xs.map h := by
  induction each with
  | nil => rfl
  | cons first _ ih => rw [List.map_cons, List.map_cons, same _ _ first, ih]

end

/-- A literal stands for a formula when it has its sign and the number of its name. -/
inductive StandsFor (t : NameTable) : Formula → Literal → Prop where
  | positive {v : Nat} {name : String} :
    t.names[v]? = some name → StandsFor t (.var name) (.positive v)
  | negative {v : Nat} {name : String} :
    t.names[v]? = some name → StandsFor t (.not (.var name)) (.negative v)

/-- A clause is made of literals for all that its conjunct joins. -/
def StandsForAll (t : NameTable) (conjunct : Formula) (clause : Clause) : Prop :=
  ∃ literals, (∀ l, l ∈ clause.literals ↔ l ∈ literals) ∧
    List.Forall₂ (StandsFor t) (conjunct.spine .or) literals

variable {t t' : NameTable} {f conjunct : Formula} {l : Literal} {clause : Clause}

theorem StandsFor.extend (stands : StandsFor t f l) (grown : t.Extends t') : StandsFor t' f l := by
  cases stands with
  | positive named => exact .positive (grown _ _ named)
  | negative named => exact .negative (grown _ _ named)

theorem StandsForAll.extend (stands : StandsForAll t conjunct clause) (grown : t.Extends t') :
    StandsForAll t' conjunct clause := by
  obtain ⟨literals, members, each⟩ := stands
  exact ⟨literals, members, each.imp fun _ _ stands => stands.extend grown⟩

theorem addLiteral_ok (literal : IsLiteral f) (found : List Literal) (t : NameTable) :
    ∃ l, addLiteral (found, t) f = .ok (l :: found, t.internAll f.names) ∧
      StandsFor (t.internAll f.names) f l := by
  cases literal with
  | var name => exact ⟨_, rfl, .positive (t.getElem?_intern name)⟩
  | not name => exact ⟨_, rfl, .negative (t.getElem?_intern name)⟩

theorem foldlM_addLiteral {parts : List Formula} (all : ∀ f ∈ parts, IsLiteral f)
    (found : List Literal) (t : NameTable) :
    ∃ literals, parts.foldlM addLiteral (found, t) =
        .ok (literals.reverse ++ found, t.internAll (parts.flatMap names)) ∧
      List.Forall₂ (StandsFor (t.internAll (parts.flatMap names))) parts literals := by
  induction parts generalizing found t with
  | nil => exact ⟨[], rfl, .nil⟩
  | cons f parts ih =>
    obtain ⟨l, one, stands⟩ := addLiteral_ok (all f List.mem_cons_self) found t
    obtain ⟨literals, more, each⟩ :=
      ih (fun f member => all f (List.mem_cons_of_mem _ member)) (l :: found) (t.internAll f.names)
    -- what the first literal stands for in the table of its time it stands for in the last one
    rw [List.flatMap_cons, NameTable.internAll_append]
    refine ⟨l :: literals, ?_, .cons (stands.extend (NameTable.extends_internAll _ _)) each⟩
    rw [List.foldlM_cons, one]
    change parts.foldlM addLiteral (l :: found, t.internAll f.names) = _
    rw [more, List.reverse_cons, List.append_assoc, List.singleton_append]

theorem addClause_ok (all : ∀ f ∈ conjunct.spine .or, IsLiteral f) (t : NameTable)
    (clauses : Array Clause) :
    ∃ clause, addClause ⟨t, clauses⟩ conjunct = .ok ⟨t.internAll conjunct.names, clauses.push clause⟩ ∧
      StandsForAll (t.internAll conjunct.names) conjunct clause := by
  obtain ⟨literals, run, each⟩ := foldlM_addLiteral all [] t
  rw [names_spine] at run each
  refine ⟨.ofList (literals.reverse ++ []), ?_, literals, ?_, each⟩
  · rw [addClause, run]
    rfl
  · intro l
    rw [Clause.mem_ofList, List.append_nil, List.mem_reverse]

theorem foldlM_addClause {conjuncts : List Formula}
    (all : ∀ c ∈ conjuncts, ∀ f ∈ c.spine .or, IsLiteral f) (t : NameTable) (found : Array Clause) :
    ∃ clauses : List Clause, conjuncts.foldlM addClause ⟨t, found⟩ =
        .ok ⟨t.internAll (conjuncts.flatMap names), found ++ clauses⟩ ∧
      List.Forall₂ (StandsForAll (t.internAll (conjuncts.flatMap names))) conjuncts clauses := by
  induction conjuncts generalizing t found with
  | nil => exact ⟨[], rfl, .nil⟩
  | cons c conjuncts ih =>
    obtain ⟨clause, one, stands⟩ := addClause_ok (all c List.mem_cons_self) t found
    obtain ⟨clauses, more, each⟩ := ih (fun c member => all c (List.mem_cons_of_mem _ member))
      (t.internAll c.names) (found.push clause)
    rw [List.flatMap_cons, NameTable.internAll_append]
    refine ⟨clause :: clauses, ?_, .cons (stands.extend (NameTable.extends_internAll _ _)) each⟩
    rw [List.foldlM_cons, one]
    change conjuncts.foldlM addClause ⟨t.internAll c.names, found.push clause⟩ = _
    rw [more]
    simp

/-- A formula in conjunctive form is read without an error, its names numbered as its variables are. -/
theorem ofFormula_ok (form : Conjunctive f) :
    ∃ e, ofFormula f = .ok e ∧ e.table.toList = f.vars ∧
      List.Forall₂ (StandsForAll e.table) (f.spine .and) e.clauses.toList := by
  obtain ⟨clauses, run, each⟩ := foldlM_addClause form .empty #[]
  rw [names_spine] at run each
  refine ⟨_, run, (vars_eq f).symm, ?_⟩
  simpa using each

theorem StandsFor.var_lt (stands : StandsFor t f l) : l.var < t.size := by
  cases stands with
  | @positive v name named =>
    exact Nat.lt_of_le_of_lt (Literal.var_positive_le v) (Array.getElem?_eq_some_iff.1 named).1
  | @negative v name named =>
    exact Nat.lt_of_le_of_lt (Literal.var_negative_le v) (Array.getElem?_eq_some_iff.1 named).1

theorem StandsForAll.var_lt (stands : StandsForAll t conjunct clause) :
    ∀ l ∈ clause.literals, l.var < t.size := by
  obtain ⟨literals, members, each⟩ := stands
  intro l own
  exact forall_mem_of_forall₂ each (fun _ _ stands => stands.var_lt) l ((members l).1 own)

section
variable {t : NameTable} {f conjunct : Formula} {l : Literal} {clause : Clause} {values : List Bool}
  (numbered : 2 * t.size ≤ UInt64.size) (total : values.length = t.size)

include numbered total

theorem StandsFor.holds (stands : StandsFor t f l) :
    l.holds values = f.truth (Model.ofNames t.toList values).value := by
  have lengths : values.length = t.toList.length := total.trans t.length_toList.symm
  have named : ∀ {v name}, t.names[v]? = some name →
      v < values.length ∧ (Model.ofNames t.toList values).value name = values[v]?.getD false := by
    intro v name known
    rw [← t.toList_getElem?] at known
    rw [Model.value, Model.getElem?_ofNames t.toList_nodup lengths known]
    exact ⟨lengths ▸ (List.getElem?_eq_some_iff.1 known).1, rfl⟩
  cases stands with
  | @positive v name known =>
    obtain ⟨inside, value⟩ := named known
    rw [Literal.holds, Literal.var_positive (by omega), Literal.isNegative_positive, truth, value,
      List.getElem?_eq_getElem inside]
    cases values[v] <;> rfl
  | @negative v name known =>
    obtain ⟨inside, value⟩ := named known
    rw [Literal.holds, Literal.var_negative (by omega), Literal.isNegative_negative, truth, truth, value,
      List.getElem?_eq_getElem inside]
    cases values[v] <;> rfl

theorem StandsForAll.holds (stands : StandsForAll t conjunct clause) :
    clause.holds values = conjunct.truth (Model.ofNames t.toList values).value := by
  obtain ⟨literals, members, each⟩ := stands
  have same : clause.holds values = literals.any (·.holds values) := by
    rw [Clause.holds, Bool.eq_iff_iff, List.any_eq_true, List.any_eq_true]
    exact exists_congr fun l => and_congr_left fun _ => members l
  have parts : literals.map (·.holds values) =
      (conjunct.spine .or).map (truth (Model.ofNames t.toList values).value) :=
    map_eq_of_forall₂ each fun _ _ stands => stands.holds numbered total
  rw [same, ← truth_spine_or]
  simpa only [List.any_map, Function.id_comp] using congrArg (List.any · id) parts

end

/-- Clauses that stand for the conjuncts of a formula hold together just under the assignments that make
the formula true. -/
theorem satisfied_eq_truth {e : Encoding} {f : Formula} {values : List Bool}
    (each : List.Forall₂ (StandsForAll e.table) (f.spine .and) e.clauses.toList)
    (numbered : 2 * e.table.size ≤ UInt64.size) (total : values.length = e.table.size) :
    satisfied e.clauses values = f.truth (Model.ofNames e.table.toList values).value := by
  have parts : e.clauses.toList.map (·.holds values) =
      (f.spine .and).map (truth (Model.ofNames e.table.toList values).value) :=
    map_eq_of_forall₂ each fun _ _ stands => stands.holds numbered total
  rw [satisfied, ← Array.all_toList, ← truth_spine_and]
  simpa only [List.all_map, Function.id_comp] using congrArg (List.all · id) parts

theorem inRange {e : Encoding} {f : Formula}
    (each : List.Forall₂ (StandsForAll e.table) (f.spine .and) e.clauses.toList) :
    InRange e.table.size e.clauses := by
  intro c member
  exact forall_mem_of_forall₂ each (fun _ _ stands => stands.var_lt) c (Array.mem_toList_iff.2 member)

end Encoding

end PropSat
