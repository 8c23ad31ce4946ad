import PropSat.Formula.Equality
import PropSat.Proofs.Formula.Traversal

/-!
Formulas that are the same tree. A place in a formula is the list of the operands to go to from the root on; two
formulas are the same when each place has the same node in both, or none in either (`eq_of_nodes`). The comparison on a
list of pairs says yes to just these, wherever the first difference is (`same_trees`).
-/

namespace PropSat.Formula

def operands : Formula → List Formula
  | .var _ => []
  | .not arg => [arg]
  | .binary _ left right => [left, right]

/-- The node at a place, if the formula goes on that far. -/
def node? : List Nat → Formula → Option (Node Unit)
  | [], f => some f.root
  | k :: place, f => (f.operands[k]?).bind (node? place)

/-- Formulas with the same node at each place are the same. -/
theorem eq_of_nodes {a b : Formula} (same : ∀ place, a.node? place = b.node? place) : a = b := by
  induction a generalizing b with
  | var name =>
    have roots : root (.var name) = b.root := Option.some.inj (same [])
    cases b <;> cases roots
    rfl
  | not arg ih =>
    have roots : root (.not arg) = b.root := Option.some.inj (same [])
    cases b <;> cases roots
    case not arg' => rw [ih fun place => same (0 :: place)]
  | binary op left right ihl ihr =>
    have roots : root (.binary op left right) = b.root := Option.some.inj (same [])
    cases b <;> cases roots
    case binary left' right' =>
      rw [ihl fun place => same (0 :: place), ihr fun place => same (1 :: place)]

theorem fold_toFormula (f : Formula) : f.fold Node.toFormula = f := by
  induction f with
  | var name => rw [fold_var]; rfl
  | not arg ih => rw [fold_not, ih]; rfl
  | binary op left right ihl ihr => rw [fold_binary, ihl, ihr]; rfl

theorem same_iff_nodes {a b : Formula} : same a b = true ↔ ∀ place, a.node? place = b.node? place := by
  rw [same_iff]
  exact ⟨fun same place => by rw [same], eq_of_nodes⟩

theorem same_equivalence : Equivalence fun a b : Formula => same a b = true where
  refl _ := same_iff.2 rfl
  symm ab := same_iff.2 (same_iff.1 ab).symm
  trans ab bc := same_iff.2 ((same_iff.1 ab).trans (same_iff.1 bc))

/-- The comparison says yes just to formulas that are the same tree, with the same node, or none, at each place. So it
is an equivalence, and a formula is the same as the one that is put together again from its nodes. -/
theorem same_trees :
    (∀ a b : Formula, (same a b = true ↔ a = b) ∧
      (same a b = true ↔ ∀ place, a.node? place = b.node? place)) ∧
    (Equivalence fun a b : Formula => same a b = true) ∧
    ∀ a : Formula, same (a.fold Node.toFormula) a = true := by
  refine ⟨fun a b => ⟨same_iff, same_iff_nodes⟩, same_equivalence, ?_⟩
  intro a
  rw [same_iff, fold_toFormula]

end PropSat.Formula
