import PropSat.Formula.Evaluation
import PropSat.Proofs.NormalForm.Stacks

/-!
What the passes before the distribution do where a model leaves names open. Evaluation does not look at a right
operand where the left one decides, so whether a formula has a value depends on the order of its operands. These
passes keep the order, and what they put in the place of a connective needs an operand just where the connective
needed it. So after each of them a formula has the value it had before, or none if it had none
(`eval_before_distribution`).
-/

namespace PropSat

/-- A value, or the value of the negation. -/
def signed (negated : Bool) (value : Option Bool) : Option Bool :=
  if negated then value.map (!·) else value

theorem signed_not (negated : Bool) (value : Option Bool) :
    signed (!negated) value = signed negated (value.map (!·)) := by
  cases negated with
  | false => rfl
  | true => cases value <;> simp [signed]

namespace Connective

/-- The dual connective takes its operands negated as far as the negation of the whole reaches them, and needs
the right one in just the same cases. -/
theorem combine_signed (op : Connective) (negated : Bool) (left right : Option Bool) :
    (if negated then op.dual else op).combine (signed (negated && op.negatesLeft) left) (signed negated right) =
      signed negated (op.combine left right) := by
  cases negated with
  | false => rfl
  | true => cases op <;> rcases left with _ | _ | _ <;> rcases right with _ | _ | _ <;> rfl

theorem combine_iff (left right : Option Bool) :
    Connective.and.combine (Connective.or.combine left (right.map (!·)))
      (Connective.or.combine (left.map (!·)) right) = Connective.iff.combine left right := by
  rcases left with _ | _ | _ <;> rcases right with _ | _ | _ <;> rfl

theorem combine_implies (left right : Option Bool) :
    Connective.or.combine (left.map (!·)) right = Connective.implies.combine left right := by
  rcases left with _ | _ | _ <;> rfl

end Connective

namespace Formula

variable {m : Model}

theorem eval_congruent (m : Model) : Congruent fun f g => g.eval m = f.eval m where
  trans first second := second.trans first
  not same := by rw [eval_not, same, eval_not]
  binary op lefts rights := by rw [eval_binary, lefts, rights, eval_binary]

/-- A pass that keeps the value at each node keeps it altogether. -/
theorem eval_fold {combine : Node Formula → Formula}
    (keeps : ∀ node, (combine node).eval m = node.toFormula.eval m) (f : Formula) :
    (f.fold combine).eval m = f.eval m :=
  (eval_congruent m).fold keeps f

theorem eval_iffNode (node : Node Formula) : (iffNode node).eval m = node.toFormula.eval m := by
  unfold iffNode
  split
  case h_1 left right =>
    simp only [eval_binary, eval_not, Node.toFormula]
    exact Connective.combine_iff _ _
  case h_2 => rfl

theorem eval_impliesNode (node : Node Formula) : (impliesNode node).eval m = node.toFormula.eval m := by
  unfold impliesNode
  split
  case h_1 left right =>
    simp only [eval_binary, eval_not, Node.toFormula]
    exact Connective.combine_implies _ _
  case h_2 => rfl

theorem eval_readings (f : Formula) (negated : Bool) :
    (f.readings.of negated).eval m = signed negated (f.eval m) := by
  induction f generalizing negated with
  | var name =>
    rw [readings_var]
    cases negated with
    | false => rfl
    | true => exact eval_not m (.var name)
  | not arg ih => rw [readings_of_not, ih, signed_not, eval_not]
  | binary op left right ihl ihr =>
    rw [readings_of_binary, eval_binary, ihl, ihr, op.combine_signed, eval_binary]

/-- Doing without `iff`, doing without `if` and moving negations down keep the value of a formula under every
model, and give it none where it has none, whatever names the model leaves open. -/
theorem eval_before_distribution (f : Formula) (m : Model) :
    f.withoutIff.eval m = f.eval m ∧ f.withoutImplies.eval m = f.eval m ∧ f.nnf.eval m = f.eval m :=
  ⟨eval_fold eval_iffNode f, eval_fold eval_impliesNode f, eval_readings f false⟩

/-- Distribution puts a lone right operand first, and may give a value where there was none. -/
example : (Formula.or (.and (.var "b") (.var "c")) (.var "a")).eval (.ofEntries [("a", true)]) = none ∧
    (Formula.or (.and (.var "b") (.var "c")) (.var "a")).distributeOr.eval (.ofEntries [("a", true)]) =
      some true := by
  constructor <;> cbv

end Formula

end PropSat
