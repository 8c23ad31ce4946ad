import PropSat.Proofs.NormalForm.FixedPoint
import PropSat.Proofs.Solver.Requests

/-!
Conversion leaves a formula as it is just when the formula is in conjunctive form (`toCnf_eq_iff_isCnf`). So it
makes no difference to a solver whether such a formula was converted before.
-/

namespace PropSat.Solver

open Formula

variable {f : Formula}

theorem ofFormula_eq (form : Conjunctive f) : ofFormula f = ofCnf f := by
  rw [ofFormula, form.toCnf_eq]

/-- A solver has the table and the clauses that the formula is read as. -/
theorem ofCnf_encoding (form : Conjunctive f) :
    ∃ e s, Encoding.ofFormula f = .ok e ∧ ofCnf f = .ok s ∧ s.table = e.table ∧
      s.session.clauses = e.clauses := by
  obtain ⟨e, read, -, each⟩ := Encoding.ofFormula_ok form
  obtain ⟨watches, exhausted, -, start⟩ := Session.start_eq (Encoding.inRange each)
  exact ⟨e, _, read, ofCnf_read read start, rfl, rfl⟩

/-- Conversion leaves just the conjunctive formulas as they are, since these are the ones that no pass changes; so
a second conversion changes nothing. A solver for such a formula has the same numbering, the same clauses and the
same models in the same order with conversion and without it. -/
theorem toCnf_eq_iff_isCnf (f : Formula) :
    (f.toCnf = f ↔ f.isCnf = true) ∧
    ((∀ pass : Pass, pass.apply f = f) ↔ f.isCnf = true) ∧
    f.toCnf.toCnf = f.toCnf ∧
    (f.isCnf = true → ∃ e s models after,
      Encoding.ofFormula f = .ok e ∧ Encoding.ofFormula f.toCnf = .ok e ∧
      ofCnf f = .ok s ∧ ofFormula f = .ok s ∧
      s.table = e.table ∧ s.session.clauses = e.clauses ∧ s.allModels = .ok (given models, after)) := by
  rw [isCnf_iff]
  refine ⟨toCnf_eq_iff, ?_, f.toCnf_conjunctive.toCnf_eq, ?_⟩
  · constructor
    · intro each
      exact toCnf_eq_iff.1 (applyAll_eq fun pass _ => each pass)
    · exact Conjunctive.apply_eq
  · intro form
    obtain ⟨e, s, read, made, table, clauses⟩ := ofCnf_encoding form
    obtain ⟨models, keeps⟩ := ofCnf_keeps made
    obtain ⟨after, run, -⟩ := keeps.allModels
    exact ⟨e, s, models, after, read, form.toCnf_eq.symm ▸ read, made, (ofFormula_eq form).trans made, table,
      clauses, run⟩

/-- A clause joined to the right, with a name in both signs. -/
theorem toCnf_eq_iff_isCnf_nested :
    (Formula.and (.or (.var "a") (.or (.var "b") (.not (.var "a")))) (.not (.var "b"))).isCnf = true ∧
    ∃ e s models after,
      Encoding.ofFormula (.and (.or (.var "a") (.or (.var "b") (.not (.var "a")))) (.not (.var "b"))) = .ok e ∧
      Encoding.ofFormula
        (Formula.and (.or (.var "a") (.or (.var "b") (.not (.var "a")))) (.not (.var "b"))).toCnf = .ok e ∧
      ofCnf (.and (.or (.var "a") (.or (.var "b") (.not (.var "a")))) (.not (.var "b"))) = .ok s ∧
      ofFormula (.and (.or (.var "a") (.or (.var "b") (.not (.var "a")))) (.not (.var "b"))) = .ok s ∧
      s.table = e.table ∧ s.session.clauses = e.clauses ∧ s.allModels = .ok (given models, after) := by
  have recognised :
      (Formula.and (.or (.var "a") (.or (.var "b") (.not (.var "a")))) (.not (.var "b"))).isCnf = true := by
    simp [isCnf, CnfKind.ofNode, CnfKind.isClause]
  obtain ⟨-, -, -, same⟩ :=
    toCnf_eq_iff_isCnf (.and (.or (.var "a") (.or (.var "b") (.not (.var "a")))) (.not (.var "b")))
  exact ⟨recognised, same recognised⟩

end PropSat.Solver
