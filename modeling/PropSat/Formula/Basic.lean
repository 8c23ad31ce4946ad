/-!
Propositional formulas over named variables. A formula is a variable, a negation, or two formulas
joined by one of four connectives; nothing is shared, so a formula is a finite tree. Formulas may be
tens of thousands of levels deep, and what runs on them never recurses on the tree itself.
-/

namespace PropSat

inductive Connective where
  | and
  | or
  | implies
  | iff
  deriving DecidableEq

/-- The truth table of a connective. -/
def Connective.apply : Connective → Bool → Bool → Bool
  | .and, a, b => a && b
  | .or, a, b => a || b
  | .implies, a, b => !a || b
  | .iff, a, b => a == b

inductive Formula where
  | var (name : String)
  | not (arg : Formula)
  | binary (op : Connective) (left right : Formula)

namespace Formula

@[match_pattern] abbrev and (left right : Formula) : Formula := .binary .and left right
@[match_pattern] abbrev or (left right : Formula) : Formula := .binary .or left right
@[match_pattern] abbrev implies (left right : Formula) : Formula := .binary .implies left right
@[match_pattern] abbrev iff (left right : Formula) : Formula := .binary .iff left right

def size : Formula → Nat
  | .var _ => 1
  | .not arg => 1 + arg.size
  | .binary _ left right => 1 + left.size + right.size

def totalSize : List Formula → Nat
  | [] => 0
  | f :: rest => f.size + totalSize rest

theorem size_pos (f : Formula) : 0 < f.size := by
  cases f <;> simp only [size] <;> omega

end Formula

/-- Joins formulas to the left: `a, b, c` becomes `(a op b) op c`. No formulas, no result. -/
def Connective.joinAll? (op : Connective) : List Formula → Option Formula
  | [] => none
  | first :: rest => some (rest.foldl (.binary op) first)

theorem Connective.joinAll?_cons (op : Connective) (first : Formula) (rest : List Formula) :
    op.joinAll? (first :: rest) = some (rest.foldl (.binary op) first) := rfl

theorem Connective.joinAll?_concat (op : Connective) (fs : List Formula) (last : Formula) :
    op.joinAll? (fs ++ [last]) =
      some (match op.joinAll? fs with
        | none => last
        | some f => .binary op f last) := by
  cases fs with
  | nil => rfl
  | cons first rest => simp [joinAll?, List.foldl_append]

end PropSat
