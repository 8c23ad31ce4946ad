import PropSat.Solver

/-!
Problems whose solutions are read off the models of a formula in conjunctive normal form, and the
constraints such formulas are made of.
-/

namespace PropSat

/-- A formula, and how to read a solution off a model of it. -/
structure Problem (Solution : Type) where
  formula : Formula
  interpret : Model → Solution

namespace Problem

section
variable {Solution : Type}

def firstSolution (p : Problem Solution) : Except Error (Option Solution) := do
  let solver ← Solver.ofCnf p.formula
  let (model, _) ← solver.firstModel.mapError .fault
  return model.map p.interpret

def allSolutions (p : Problem Solution) : Except Error (Option (List Solution)) := do
  let solver ← Solver.ofCnf p.formula
  let (models, _) ← solver.allModels.mapError .fault
  return models.map fun models => models.toList.map p.interpret

end

/-- A name kept for formulas that must not depend on any other. -/
def reserved : String := "$"

/-- Some name of the list is true; a contradiction if there are no names. -/
def atLeastOne (names : List String) : Formula :=
  (Connective.or.joinAll? (names.map .var)).getD
    (.and (.var reserved) (.not (.var reserved)))

/-- Not both names are true. -/
def notBoth (a b : String) : Formula := .or (.not (.var a)) (.not (.var b))

/-- No two places of the list hold true names. -/
def atMostOne : List String → List Formula
  | [] => []
  | a :: rest => rest.map (notBoth a) ++ atMostOne rest

def exactlyOne (names : List String) : List Formula := atLeastOne names :: atMostOne names

/-- All clauses at once; a tautology if there are none. -/
def allOf (clauses : List Formula) : Formula :=
  (Connective.and.joinAll? clauses).getD (.or (.var reserved) (.not (.var reserved)))

end Problem

end PropSat
