import PropSat.Problem.Basic
import PropSat.Proofs.Solver.Requests

/-!
The solutions of a problem in conjunctive form: what its models stand for, in the order of the models.
-/

namespace PropSat.Problem

/-- A problem in conjunctive form is always answered. With every variable numbered the solutions are those
of the models of its formula, and the first is that of the first model. -/
theorem solutions_ok {Solution : Type} {p : Problem Solution} (form : p.formula.Conjunctive) :
    ∃ models : List Model,
      p.allSolutions = .ok (if models = [] then none else some (models.map p.interpret)) ∧
      p.firstSolution = .ok (models.head?.map p.interpret) ∧
      (p.formula.Numbered → models = p.formula.models) := by
  obtain ⟨s, models, made, keeps, all⟩ := Solver.ofCnf_models form
  obtain ⟨after, allModels, -⟩ := keeps.allModels
  obtain ⟨after', firstModel, -⟩ := keeps.firstModel
  refine ⟨models, ?_, ?_, all⟩
  · rw [allSolutions, made]
    simp only [allModels, Solver.given, Except.mapError, bind, Except.bind, pure, Except.pure]
    by_cases nothing : models = []
    · simp [nothing]
    · simp [nothing]
  · rw [firstSolution, made]
    simp only [firstModel, Except.mapError, bind, Except.bind, pure, Except.pure]

/-- What a problem in conjunctive form is answered, said of the solutions alone. -/
theorem solutions_listed {Solution : Type} {p : Problem Solution} (form : p.formula.Conjunctive) :
    ∃ solutions : List Solution,
      p.allSolutions = .ok (if solutions = [] then none else some solutions) ∧
      p.firstSolution = .ok solutions.head? ∧
      (p.formula.Numbered → solutions = p.formula.models.map p.interpret) := by
  obtain ⟨models, all, first, known⟩ := solutions_ok form
  refine ⟨models.map p.interpret, ?_, ?_, fun numbered => congrArg _ (known numbered)⟩
  · simp only [List.map_eq_nil_iff]
    exact all
  · rw [List.head?_map]
    exact first

end PropSat.Problem
