import PropSat.Text.Operator

/-!
What can be wrong with a sequence of tokens.
-/

namespace PropSat.Text

inductive Mistake where
  | unknownOperator (word : String)
  | wrongArity (op : Operator) (found : Nat)
  | emptyList
  | unmatchedClose
  | listAsOperator
  | trailingTokens
  | unclosed
  | emptyInput
  deriving DecidableEq

def Mistake.message : Mistake → String
  | .unknownOperator word => "invalid function: " ++ word
  | .wrongArity op found =>
    "`" ++ op.word ++ "' takes " ++ op.arity ++ " operands, found " ++ toString found
  | .emptyList => "empty list"
  | .unmatchedClose => "unexpected ')'"
  | .listAsOperator => "expected function name, found list"
  | .trailingTokens => "unexpected tokens after expression"
  | .unclosed => "unexpected end of input"
  | .emptyInput => "empty input"

end PropSat.Text
