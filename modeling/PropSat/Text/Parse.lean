import PropSat.Text.Input
import PropSat.Text.Parser

/-!
Formulas from bytes. The tokens of a line are used up before the next line is read, so of two errors
the one on the earlier line is reported.
-/

namespace PropSat.Text

inductive ParseError where
  | read (cause : ReadError)
  | format (cause : Mistake)
  deriving DecidableEq

namespace ParseError

def message : ParseError → String
  | .read cause => cause.message
  | .format cause => cause.message

end ParseError

def ofFormat {α : Type} : Except Mistake α → Except ParseError α := Except.mapError .format

def ofRead {α : Type} : Except ReadError α → Except ParseError α := Except.mapError .read

def parseLine (p : Parser) (line : Except ReadError String) : Except ParseError Parser := do
  let line ← ofRead line
  ofFormat (p.pushAll (tokens line))

/-- The formula an input holds. -/
def parse (input : Input) : Except ParseError Formula := do
  let p ← input.lines.foldlM parseLine Parser.start
  ofFormat p.finish

def parseString (program : String) : Except ParseError Formula := parse (.ofString program)

end PropSat.Text
