import PropSat.Error
import PropSat.Formula.Variables
import PropSat.Model
import PropSat.NormalForm.Pass
import PropSat.Search.Enumerate

/-!
The models of a formula, found one after the other and kept once found. However requests for the first
model and for all of them are mixed, each is answered as if it came first.
-/

namespace PropSat

structure Solver where
  table : NameTable
  session : Session
  models : Array Model

namespace Solver

/-- A solver for a formula that is in conjunctive normal form. -/
def ofCnf (f : Formula) : Except Error Solver := do
  let ⟨table, clauses⟩ ← (Encoding.ofFormula f).mapError .notCnf
  let session ← (Session.start table.size clauses).mapError .fault
  return ⟨table, session, #[]⟩

def ofFormula (f : Formula) : Except Error Solver := ofCnf f.toCnf

def variableCount (s : Solver) : Nat := s.table.size

def clauseCount (s : Solver) : Nat := s.session.clauseCount

/-- An assignment with names for numbers. -/
def modelOf (table : NameTable) (assignment : List Bool) : Model :=
  Model.ofNames table.toList assignment

def firstModel : Solver → Except Fault (Option Model × Solver)
  | ⟨table, session, models⟩ =>
    match models[0]? with
    | some first => .ok (some first, ⟨table, session, models⟩)
    | none => do
      match ← session.next with
      | (none, session) => return (none, ⟨table, session, models⟩)
      | (some assignment, session) =>
        let model := modelOf table assignment
        return (some model, ⟨table, session, models.push model⟩)

def allModels : Solver → Except Fault (Option (Array Model) × Solver)
  | ⟨table, session, models⟩ => do
    let (assignments, session) ← session.rest
    let models := models ++ assignments.map (modelOf table)
    return (if models.isEmpty then none else some models, ⟨table, session, models⟩)

end Solver

end PropSat
