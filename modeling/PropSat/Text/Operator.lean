import PropSat.Formula.Print

/-!
The words that may stand after an opening parenthesis, and what each does with its operands. `and`
and `or` take two or more and join to the left.
-/

namespace PropSat.Text

inductive Operator where
  | not
  | binary (op : Connective)
  deriving DecidableEq

namespace Operator

def word : Operator → String
  | .not => "not"
  | .binary op => op.word

def ofWord? : String → Option Operator
  | "not" => some .not
  | "and" => some (.binary .and)
  | "or" => some (.binary .or)
  | "if" => some (.binary .implies)
  | "iff" => some (.binary .iff)
  | _ => none

@[simp] theorem ofWord?_word (op : Operator) : ofWord? op.word = some op := by
  rcases op with _ | op
  · rfl
  · cases op <;> rfl

/-- How many operands it takes, in words. -/
def arity : Operator → String
  | .not => "exactly 1"
  | .binary .and | .binary .or => "at least 2"
  | .binary .implies | .binary .iff => "exactly 2"

/-- The formula it makes of its operands, none if their number is wrong. -/
def build? : Operator → List Formula → Option Formula
  | .not, [arg] => some (.not arg)
  | .binary .and, first :: second :: rest => some ((second :: rest).foldl .and first)
  | .binary .or, first :: second :: rest => some ((second :: rest).foldl .or first)
  | .binary .implies, [left, right] => some (.implies left right)
  | .binary .iff, [left, right] => some (.iff left right)
  | _, _ => none

end Operator

end PropSat.Text
