import PropSat.Proofs.Clause.Encoding

/-!
Whatever is read as clauses was in conjunctive form, since the first part that is no literal ends the
reading. So the clauses stand for the conjuncts of the formula, and their truth is its value.
-/

namespace PropSat

namespace Encoding

open Formula

/-- A run that comes to its end was stopped by none of its elements. -/
theorem forall_mem_of_foldlM {ε α σ : Type} {step : σ → α → Except ε σ} {p : α → Prop}
    (passes : ∀ s x s', step s x = .ok s' → p x) {xs : List α} {s s' : σ}
    (run : xs.foldlM step s = .ok s') : ∀ x ∈ xs, p x := by
  induction xs generalizing s with
  | nil => exact fun x none_left => absurd none_left List.not_mem_nil
  | cons first rest ih =>
    rw [List.foldlM_cons, bind_eq_ok] at run
    obtain ⟨next, one, run⟩ := run
    exact List.forall_mem_cons.2 ⟨passes s first next one, ih run⟩

variable {t : NameTable} {f conjunct : Formula} {clause : Clause} {e : Encoding}

theorem isLiteral_of_addLiteral {s s' : List Literal × NameTable}
    (read : addLiteral s f = .ok s') : IsLiteral f := by
  unfold addLiteral at read
  split at read
  case h_1 literals table name => exact .var name
  case h_2 literals table name => exact .not name
  case h_3 => cases read

theorem isLiteral_of_addClause {e' : Encoding} (read : addClause e conjunct = .ok e') :
    ∀ f ∈ conjunct.spine .or, IsLiteral f := by
  rw [addClause, bind_eq_ok] at read
  obtain ⟨literals, run, -⟩ := read
  refine forall_mem_of_foldlM ?_ run
  intro s part s' one
  exact isLiteral_of_addLiteral one

theorem conjunctive_of_ofFormula (read : ofFormula f = .ok e) : Conjunctive f := by
  refine forall_mem_of_foldlM ?_ read
  intro e conjunct e' one
  exact isLiteral_of_addClause one

/-- Each conjunct is read as a clause of its own. -/
theorem size_clauses (read : ofFormula f = .ok e) : e.clauses.size = (f.spine .and).length := by
  obtain ⟨e', again, -, each⟩ := ofFormula_ok (conjunctive_of_ofFormula read)
  obtain rfl : e' = e := Except.ok.inj (again.symm.trans read)
  exact each.length_eq.symm

/-- A conjunct joins one part at least, so its clause has a literal. -/
theorem StandsForAll.literals_ne_nil (stands : StandsForAll t conjunct clause) :
    clause.literals ≠ [] := by
  obtain ⟨literals, members, each⟩ := stands
  obtain ⟨l, own⟩ : ∃ l, l ∈ literals := by
    apply List.exists_mem_of_ne_nil
    rintro rfl
    exact spine_ne_nil .or conjunct (List.forall₂_nil_right_iff.1 each)
  exact List.ne_nil_of_mem ((members l).2 own)

/-- The names are numbered as the formula's variables are listed, each clause is in range and says
something, and under every assignment of the numbers the formula has just the value that the clauses have
together. Only in a table of more than 2^63 names, more than a memory of 64-bit addresses holds, would two
of them share a literal. -/
theorem eval_ofFormula (read : ofFormula f = .ok e) :
    e.table.toList = f.vars ∧
    (∀ c ∈ e.clauses, c.literals ≠ [] ∧ c.literals.Pairwise (·.code < ·.code) ∧
      ∀ l ∈ c.literals, l.var < e.table.size) ∧
    (2 * e.table.size ≤ UInt64.size → ∀ values : List Bool, values.length = e.table.size →
      f.eval (Model.ofNames e.table.toList values) = some (satisfied e.clauses values)) := by
  obtain ⟨e', again, names, each⟩ := ofFormula_ok (conjunctive_of_ofFormula read)
  obtain rfl : e' = e := Except.ok.inj (again.symm.trans read)
  refine ⟨names, ?_, ?_⟩
  · intro c member
    have full : c.literals ≠ [] :=
      forall_mem_of_forall₂ each (fun _ _ stands => stands.literals_ne_nil) c (Array.mem_toList_iff.2 member)
    exact ⟨full, c.ascending, inRange each c member⟩
  · intro numbered values total
    have lengths : values.length = e'.table.toList.length := total.trans e'.table.length_toList.symm
    have binds : ∀ name ∈ f.names, name ∈ Model.ofNames e'.table.toList values := by
      intro name here
      rw [Model.mem_ofNames lengths, names, mem_vars]
      exact here
    rw [eval_bound binds, satisfied_eq_truth each numbered total]

/-- Names met a second time and in both signs. -/
theorem eval_ofFormula_repeated :
    ∃ e, ofFormula (.and (.or (.var "b") (.not (.var "a"))) (.or (.var "a") (.or (.var "a") (.var "b")))) =
        .ok e ∧
      2 * e.table.size ≤ UInt64.size ∧
      (e.table.toList.map (· == "a")).length = e.table.size ∧
      e.table.toList = (Formula.and (.or (.var "b") (.not (.var "a")))
        (.or (.var "a") (.or (.var "a") (.var "b")))).vars ∧
      (∀ c ∈ e.clauses, c.literals ≠ [] ∧ c.literals.Pairwise (·.code < ·.code) ∧
        ∀ l ∈ c.literals, l.var < e.table.size) ∧
      (Formula.and (.or (.var "b") (.not (.var "a"))) (.or (.var "a") (.or (.var "a") (.var "b")))).eval
          (Model.ofNames e.table.toList (e.table.toList.map (· == "a"))) =
        some (satisfied e.clauses (e.table.toList.map (· == "a"))) := by
  have form : Conjunctive
      (.and (.or (.var "b") (.not (.var "a"))) (.or (.var "a") (.or (.var "a") (.var "b")))) := by
    simp [Conjunctive, spine_binary_of_ne, IsLiteral.var, IsLiteral.not]
  obtain ⟨e, read, -, -⟩ := ofFormula_ok form
  obtain ⟨names, clauses, value⟩ := eval_ofFormula read
  have few := vars_length_le
    (.and (.or (.var "b") (.not (.var "a"))) (.or (.var "a") (.or (.var "a") (.var "b"))))
  have numbered : 2 * e.table.size ≤ UInt64.size := by
    rw [← e.table.length_toList, names]
    simp only [Formula.names, List.length_append, List.length_singleton] at few
    simp only [UInt64.size]
    omega
  have total : (e.table.toList.map (· == "a")).length = e.table.size := by
    rw [List.length_map, e.table.length_toList]
  exact ⟨e, read, numbered, total, names, clauses, value numbered _ total⟩

end Encoding

end PropSat
