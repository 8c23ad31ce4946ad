import PropSat.Formula.Fold

/-!
Negations moved down to the variables. Every node is read twice, as it stands and negated, and both
readings are put together from the readings of its operands; a `not` exchanges the two. Connectives
keep their operands' order, and `if` and `iff` are negated without being taken apart: the negation of
`(if a b)` is `(and a (not b))`, that of `(iff a b)` is `(iff a (not b))`.
-/

namespace PropSat.Formula

/-- A formula and its negation, both with `not` over variables only. -/
structure Readings where
  positive : Formula
  negative : Formula

def Readings.ofNode : Node Readings → Readings
  | .var name => ⟨.var name, .not (.var name)⟩
  | .not arg => ⟨arg.negative, arg.positive⟩
  | .binary .and l r => ⟨.and l.positive r.positive, .or l.negative r.negative⟩
  | .binary .or l r => ⟨.or l.positive r.positive, .and l.negative r.negative⟩
  | .binary .implies l r => ⟨.implies l.positive r.positive, .and l.positive r.negative⟩
  | .binary .iff l r => ⟨.iff l.positive r.positive, .iff l.positive r.negative⟩

def readings (f : Formula) : Readings := f.fold Readings.ofNode

def nnf (f : Formula) : Formula := f.readings.positive

@[simp] theorem readings_var (name : String) :
    (var name).readings = ⟨.var name, .not (.var name)⟩ := by
  simp [readings, Readings.ofNode]

@[simp] theorem readings_not (arg : Formula) :
    (not arg).readings = ⟨arg.readings.negative, arg.readings.positive⟩ := by
  simp [readings, Readings.ofNode]

@[simp] theorem readings_binary (op : Connective) (left right : Formula) :
    (binary op left right).readings =
      Readings.ofNode (.binary op left.readings right.readings) := by
  simp [readings]

end PropSat.Formula
