import Std.Data.TreeSet
import PropSat.Clause.Literal

/-!
A clause is a disjunction of literals, each kept once, in ascending order of their codes.
-/

namespace PropSat

structure Clause where
  literals : List Literal
  ascending : literals.Pairwise (·.code < ·.code)
  deriving DecidableEq

namespace Clause

/-- Sorts the literals and drops repetitions. -/
def ofList (literals : List Literal) : Clause where
  literals := (Std.TreeSet.ofList literals).toList
  ascending := (Std.TreeSet.ordered_toList (t := Std.TreeSet.ofList literals)).imp
    fun less => Nat.compare_eq_lt.1 less

def size (c : Clause) : Nat := c.literals.length

def isEmpty (c : Clause) : Bool := c.literals.isEmpty

def text (c : Clause) : String :=
  "(" ++ String.intercalate " | " (c.literals.map Literal.text) ++ ")"

instance : ToString Clause := ⟨text⟩

instance : Membership Literal Clause := ⟨fun c l => l ∈ c.literals⟩

@[simp] theorem mem_ofList {literals : List Literal} {l : Literal} :
    l ∈ (ofList literals).literals ↔ l ∈ literals := by
  simp [ofList, Std.TreeSet.mem_toList, Std.TreeSet.mem_ofList]

end Clause

end PropSat
