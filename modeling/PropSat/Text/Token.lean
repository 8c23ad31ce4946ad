import PropSat.Text.Blank

/-!
The tokens of a line: parentheses, and words between them. A semicolon ends the line; blanks and
parentheses end a word.
-/

namespace PropSat.Text

inductive Token where
  | opening
  | closing
  | word (text : String)
  deriving DecidableEq

/-- Begins the tokens with a word, unless it has no letters. -/
def flush (letters : List Char) (tokens : List Token) : List Token :=
  if letters.isEmpty then tokens else .word (String.ofList letters) :: tokens

/-- Puts a character in front of a line, whose first letters may be the rest of a word. -/
def scanChar (c : Char) (rest : List Char × List Token) : List Char × List Token :=
  if c = '(' then ([], .opening :: flush rest.1 rest.2)
  else if c = ')' then ([], .closing :: flush rest.1 rest.2)
  else if isBlank c then ([], flush rest.1 rest.2)
  else (c :: rest.1, rest.2)

/-- The tokens of a line without comment. -/
def scan (code : List Char) : List Token :=
  let rest := code.foldr scanChar ([], [])
  flush rest.1 rest.2

/-- What a line says before its first semicolon. -/
def code (line : List Char) : List Char := line.takeWhile (· != ';')

def tokens (line : String) : List Token := scan (code line.toList)

end PropSat.Text
