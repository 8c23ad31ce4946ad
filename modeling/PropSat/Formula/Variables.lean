import PropSat.Formula.Fold
import PropSat.NameTable

/-!
The distinct names in a formula, in the order of their first occurrence from left to right.
-/

namespace PropSat.Formula

/-- Numbers a name where it occurs. -/
def internNode : Node Unit → NameTable → Unit × NameTable
  | .var name, table => ((), (table.intern name).2)
  | _, table => ((), table)

def vars (f : Formula) : List String :=
  (f.foldWith internNode NameTable.empty).2.toList

end PropSat.Formula
