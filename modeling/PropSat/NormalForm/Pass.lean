import PropSat.NormalForm.Elimination
import PropSat.NormalForm.Negation
import PropSat.NormalForm.Distribution

/-!
The four transformations as steps that may be taken in any order, and the order that ends in conjunctive
normal form.
-/

namespace PropSat

inductive Pass where
  | withoutIff
  | withoutImplies
  | nnf
  | distributeOr
  deriving DecidableEq

namespace Pass

def apply : Pass → Formula → Formula
  | .withoutIff, f => f.withoutIff
  | .withoutImplies, f => f.withoutImplies
  | .nnf, f => f.nnf
  | .distributeOr, f => f.distributeOr

def applyAll (passes : List Pass) (f : Formula) : Formula :=
  passes.foldl (fun f pass => pass.apply f) f

/-- The order in which each pass finds what it relies on. -/
def toNormalForm : List Pass := [.withoutIff, .withoutImplies, .nnf, .distributeOr]

end Pass

def Formula.toCnf (f : Formula) : Formula := Pass.applyAll Pass.toNormalForm f

end PropSat
