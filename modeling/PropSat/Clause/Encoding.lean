import PropSat.Formula.Equality
import PropSat.Formula.Print
import PropSat.Formula.Spine
import PropSat.NameTable

/-!
Formulas in conjunctive normal form as numbered clauses, one clause per conjunct. Names are numbered
as the literals are met from left to right. The leftmost part that is no literal is the error.
-/

namespace PropSat

/-- A part of a formula that stands where a literal should. -/
structure NotCnf where
  culprit : Formula
  deriving DecidableEq

namespace NotCnf

def formula (e : NotCnf) : String := e.culprit.text

def message (e : NotCnf) : String :=
  "formula not in conjunctive normal form: " ++ e.formula

end NotCnf

structure Encoding where
  table : NameTable
  clauses : Array Clause

namespace Encoding

/-- Reads one more literal in front of those already read. -/
def addLiteral : List Literal × NameTable → Formula →
    Except NotCnf (List Literal × NameTable)
  | (literals, table), .var name =>
    let (v, table) := table.intern name
    .ok (.positive v :: literals, table)
  | (literals, table), .not (.var name) =>
    let (v, table) := table.intern name
    .ok (.negative v :: literals, table)
  | _, f => .error ⟨f⟩

def addClause : Encoding → Formula → Except NotCnf Encoding
  | ⟨table, clauses⟩, f => do
    let (literals, table) ← (f.spine .or).foldlM addLiteral ([], table)
    return ⟨table, clauses.push (Clause.ofList literals)⟩

/-- The clauses of a formula in conjunctive normal form. -/
def ofFormula (f : Formula) : Except NotCnf Encoding :=
  (f.spine .and).foldlM addClause ⟨NameTable.empty, #[]⟩

end Encoding

end PropSat
