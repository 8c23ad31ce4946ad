import PropSat.Formula.Fold

/-!
Conjunctive normal form, read off bottom-up. A formula in this form is a conjunction of clauses, a
clause is a disjunction of literals, and a literal is a variable or a negated variable; conjunctions
and disjunctions may nest in any way.
-/

namespace PropSat

/-- How much of a normal form a formula is. Atoms and literals are clauses, clauses are conjunctions. -/
inductive CnfKind where
  | atom
  | literal
  | clause
  | conjunction
  | other
  deriving DecidableEq

def CnfKind.isClause : CnfKind → Bool
  | .atom | .literal | .clause => true
  | _ => false

def CnfKind.ofNode : Node CnfKind → CnfKind
  | .var _ => .atom
  | .not .atom => .literal
  | .not _ => .other
  | .binary .or left right => if left.isClause && right.isClause then .clause else .other
  | .binary .and .other _ => .other
  | .binary .and _ .other => .other
  | .binary .and _ _ => .conjunction
  | .binary _ _ _ => .other

namespace Formula

def cnfKind (f : Formula) : CnfKind := f.fold CnfKind.ofNode

def isCnf (f : Formula) : Bool := f.cnfKind != .other

@[simp] theorem cnfKind_var (name : String) : (var name).cnfKind = .atom := by
  simp [cnfKind, CnfKind.ofNode]

@[simp] theorem cnfKind_not (arg : Formula) : (not arg).cnfKind = CnfKind.ofNode (.not arg.cnfKind) := by
  simp [cnfKind]

@[simp] theorem cnfKind_binary (op : Connective) (left right : Formula) :
    (binary op left right).cnfKind = CnfKind.ofNode (.binary op left.cnfKind right.cnfKind) := by
  simp [cnfKind]

end Formula

end PropSat
