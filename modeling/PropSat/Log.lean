import PropSat.Search.Report
import PropSat.Solver

/-!
What each operation has to report while it works, in the order of the work. Reports are computed
beside the operations and from the same steps, so asking for them changes no answer.
-/

namespace PropSat

namespace Log

inductive Level where
  | debug
  | trace

inductive Topic where
  | normalForm
  | clauses
  | search
  | solver

inductive Event where
  | converted (vars : Nat)
  | encoded (vars clauses : Nat)
  | search (event : Search.Event)
  | found (models : Nat)

namespace Event

def topic : Event → Topic
  | .converted _ => .normalForm
  | .encoded _ _ => .clauses
  | .search _ => .search
  | .found _ => .solver

/-- Only single steps of the search are details. -/
def level : Event → Level
  | .search event => if event.isDetail then .trace else .debug
  | _ => .debug

def message : Event → String
  | .converted vars => s!"converted to cnf: {vars} variables"
  | .encoded vars clauses => s!"clausified {vars} variables, {clauses} clauses"
  | .search event => event.message
  | .found models => s!"found {models} models"

end Event

end Log

open Log

def Formula.toCnfEvents (f : Formula) : Array Event := #[.converted f.toCnf.vars.length]

def Encoding.ofFormulaEvents (f : Formula) : Array Event :=
  match Encoding.ofFormula f with
  | .ok e => #[.encoded e.table.size e.clauses.size]
  | .error _ => #[]

namespace Solver

def ofCnfEvents (f : Formula) : Array Event :=
  match Encoding.ofFormula f with
  | .ok e =>
    Encoding.ofFormulaEvents f ++ (Session.startEvents e.table.size e.clauses).map .search
  | .error _ => #[]

def ofFormulaEvents (f : Formula) : Array Event := f.toCnfEvents ++ ofCnfEvents f.toCnf

def firstModelEvents (s : Solver) : Array Event :=
  if s.models.isEmpty then s.session.nextEvents.map .search else #[]

def allModelsEvents (s : Solver) : Array Event :=
  match s.allModels with
  | .ok (_, s') => s.session.restEvents.map .search ++ #[.found s'.models.size]
  | .error _ => #[]

end Solver

end PropSat
