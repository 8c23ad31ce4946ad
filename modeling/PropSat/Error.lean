import PropSat.Clause.Encoding
import PropSat.Text.Parse

/-!
Whatever keeps an input from being solved.
-/

namespace PropSat

inductive Error where
  | parse (cause : Text.ParseError)
  | notCnf (cause : NotCnf)
  | fault (cause : Fault)
  deriving DecidableEq

namespace Error

def message : Error → String
  | .parse cause => cause.message
  | .notCnf cause => cause.message
  | .fault cause => cause.message

/-- The messages of what lies below, nearest first. A failure to read has a cause of its own. -/
def causes : Error → List String
  | .parse (.read cause) => [cause.message, cause.message]
  | .parse (.format cause) => [cause.message]
  | .notCnf cause => [cause.message]
  | .fault _ => []

end Error

end PropSat
