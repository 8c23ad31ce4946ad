import PropSat.Formula.Fold
import PropSat.Model

/-!
The value of a formula under a model that may leave names open. `and`, `or` and `implies` do not look
at the right operand where the left one decides; `not` and `iff` need every operand.
-/

namespace PropSat

/-- The value the left operand alone forces, if it forces one. -/
def Connective.decidedBy? : Connective → Bool → Option Bool
  | .and, false => some false
  | .or, true => some true
  | .implies, false => some true
  | _, _ => none

/-- The truth table where operands may be open, left operand first. -/
def Connective.combine (op : Connective) (left right : Option Bool) : Option Bool :=
  left.bind fun a =>
    match op.decidedBy? a with
    | some value => some value
    | none => right.map (op.apply a)

theorem Connective.decidedBy?_eq {op : Connective} {a value : Bool}
    (decided : op.decidedBy? a = some value) (b : Bool) : op.apply a b = value := by
  cases op <;> cases a <;> simp_all [decidedBy?, apply]

@[simp] theorem Connective.combine_some (op : Connective) (a b : Bool) :
    op.combine (some a) (some b) = some (op.apply a b) := by
  cases op <;> cases a <;> cases b <;> rfl

namespace Formula

def evalNode (m : Model) : Node (Option Bool) → Option Bool
  | .var name => m[name]?
  | .not arg => arg.map (!·)
  | .binary op left right => op.combine left right

/-- The value of the formula, or none where an open name is needed. -/
def eval (m : Model) (f : Formula) : Option Bool := f.fold (evalNode m)

@[simp] theorem eval_var (m : Model) (name : String) : (var name).eval m = m[name]? := by
  simp [eval, evalNode]

@[simp] theorem eval_not (m : Model) (arg : Formula) :
    (not arg).eval m = (arg.eval m).map (!·) := by
  simp [eval, evalNode]

@[simp] theorem eval_binary (m : Model) (op : Connective) (left right : Formula) :
    (binary op left right).eval m = op.combine (left.eval m) (right.eval m) := by
  simp [eval, evalNode]

end Formula

end PropSat
