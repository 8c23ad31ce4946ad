import PropSat.Text.Token
import PropSat.Text.Mistake

/-!
Formulas from tokens, one token at a time. Nesting is kept in a list of the parentheses still open, so
depth costs no stack. The number of operands is judged when a list is closed.
-/

namespace PropSat.Text

/-- A list still open: its operator once read, its operands with the newest first. -/
structure OpenList where
  operator : Option Operator
  operands : List Formula

/-- The formula of a list at its closing parenthesis. -/
def OpenList.close (list : OpenList) : Except Mistake Formula :=
  match list.operator with
  | none => .error .emptyList
  | some op =>
    match op.build? list.operands.reverse with
    | some f => .ok f
    | none => .error (.wrongArity op list.operands.length)

/-- The lists still open, innermost first, and the formula that is complete, if one is. -/
structure Parser where
  openLists : List OpenList
  result : Option Formula

namespace Parser

def start : Parser := ⟨[], none⟩

/-- Hands a complete formula to the innermost open list, or makes it the result. -/
def emit (p : Parser) (f : Formula) : Except Mistake Parser :=
  match p.openLists, p.result with
  | ⟨operator, operands⟩ :: outer, result => .ok ⟨⟨operator, f :: operands⟩ :: outer, result⟩
  | [], none => .ok ⟨[], some f⟩
  | [], some _ => .error .trailingTokens

def push (p : Parser) : Token → Except Mistake Parser
  | .opening =>
    match p.openLists, p.result with
    | ⟨none, _⟩ :: _, _ => .error .listAsOperator
    | [], some _ => .error .trailingTokens
    | lists, result => .ok ⟨⟨none, []⟩ :: lists, result⟩
  | .closing =>
    match p.openLists with
    | [] => .error .unmatchedClose
    | list :: outer => do
      let f ← list.close
      emit ⟨outer, p.result⟩ f
  | .word text =>
    match p.openLists with
    | ⟨none, operands⟩ :: outer =>
      match Operator.ofWord? text with
      | some op => .ok ⟨⟨some op, operands⟩ :: outer, p.result⟩
      | none => .error (.unknownOperator text)
    | _ => p.emit (.var text)

/-- Stops at the first mistake. -/
def pushAll (p : Parser) (tokens : List Token) : Except Mistake Parser :=
  tokens.foldlM push p

def finish (p : Parser) : Except Mistake Formula :=
  match p.openLists, p.result with
  | _ :: _, _ => .error .unclosed
  | [], none => .error .emptyInput
  | [], some f => .ok f

end Parser

end PropSat.Text
