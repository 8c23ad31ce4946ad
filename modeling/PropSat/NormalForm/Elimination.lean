import PropSat.Formula.Fold

/-!
Doing without `iff` and without `if`. Both work bottom-up, so the operands they copy are already
transformed.
-/

namespace PropSat.Formula

/-- `(iff l r)` becomes `(and (or l (not r)) (or (not l) r))`. -/
def iffNode : Node Formula → Formula
  | .binary .iff left right => .and (.or left (.not right)) (.or (.not left) right)
  | node => node.toFormula

/-- `(if l r)` becomes `(or (not l) r)`. -/
def impliesNode : Node Formula → Formula
  | .binary .implies left right => .or (.not left) right
  | node => node.toFormula

def withoutIff (f : Formula) : Formula := f.fold iffNode

def withoutImplies (f : Formula) : Formula := f.fold impliesNode

end PropSat.Formula
