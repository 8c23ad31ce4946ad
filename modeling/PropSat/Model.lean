import Std.Data.ExtTreeMap

/-!
A model gives truth values to finitely many names. Two models with the same values are equal, and the
entries come in the order of the names, by code point.
-/

namespace PropSat

abbrev Model := Std.ExtTreeMap String Bool

namespace Model

/-- Of two entries with one name the later one counts. -/
def ofEntries (entries : List (String × Bool)) : Model := Std.ExtTreeMap.ofList entries

def entries (m : Model) : List (String × Bool) := m.toList

/-- Pairs names with values in order; what is left over on one side is dropped. -/
def ofNames (names : List String) (values : List Bool) : Model := ofEntries (names.zip values)

end Model

end PropSat
