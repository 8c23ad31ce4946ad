import PropSat.Search.Watches

/-!
An exhaustive search that can be interrupted. Variables are decided in order, false before true, and a
decision is given up as soon as some clause has no literal left that is not false. A session holds
where the search stands, and for each variable a mask of the values it has had since the variables before
it last changed: the lowest bit for false, the next one for true.
-/

namespace PropSat

namespace Search

/-- The bit of a value in the mask of the values that a variable has had. -/
@[inline]
def bit (value : Bool) : UInt8 := 1 <<< value.toUInt8

/-- The values whose bits a mask lacks, false before true. -/
@[inline]
def untried (mask : UInt8) : List Bool := [false, true].filter fun value => mask &&& bit value == 0

theorem untried_nodup (mask : UInt8) : (untried mask).Nodup :=
  List.Pairwise.filter _ (by decide)

theorem length_untried_le (mask : UInt8) : (untried mask).length ≤ 2 :=
  List.length_filter_le _ _

theorem or_bit_and_bit (mask : UInt8) (value other : Bool) :
    (mask ||| bit value) &&& bit other = 0 ↔ mask &&& bit other = 0 ∧ other ≠ value := by
  have apart : bit value &&& bit other = 0 ↔ other ≠ value := by
    cases value <;> cases other <;> decide
  have distributed : (mask ||| bit value) &&& bit other = mask &&& bit other ||| bit value &&& bit other := by
    apply UInt8.eq_of_toBitVec_eq
    simp only [UInt8.toBitVec_and, UInt8.toBitVec_or, BitVec.and_or_distrib_right]
  rw [distributed, UInt8.or_eq_zero_iff, apart]

/-- Setting a bit takes its value, and no other, from those not had yet. -/
theorem untried_or_bit (mask : UInt8) (value : Bool) :
    untried (mask ||| bit value) = (untried mask).erase value := by
  rw [(untried_nodup mask).erase_eq_filter, untried, untried, List.filter_filter]
  apply List.filter_congr
  intro other _
  rw [Bool.eq_iff_iff]
  simp [or_bit_and_bit, and_comm]

theorem untried_next {mask : UInt8} {value : Bool} {later : List Bool}
    (next : untried mask = value :: later) : untried (mask ||| bit value) = later := by
  rw [untried_or_bit, next, List.erase_cons_head]

end Search

open Search

/-- A search in progress. `depth` is the variable to be decided next, and `tried` has the mask of each
variable. -/
structure Session where
  clauses : Array Clause
  watches : Watches
  values : Values
  tried : Array UInt8
  depth : Nat
  exhausted : Bool

namespace Session

def variableCount (s : Session) : Nat := s.values.size

def clauseCount (s : Session) : Nat := s.clauses.size

/-- Lets a clause watch its first literal. A clause without literals ends the search before it begins. -/
def enter (vars : Nat) : Watches × Bool → Clause × Nat → Except Fault (Watches × Bool)
  | (watches, exhausted), (clause, i) =>
    if clause.literals.all (·.var < vars) then
      match clause.literals with
      | [] => .ok (watches, true)
      | l :: _ => do return (← watch watches i l, exhausted)
    else .error (.unknownVariable clause vars)

/-- A new search for the assignments of so many variables that make every clause true. -/
def start (vars : Nat) (clauses : Array Clause) : Except Fault Session := do
  let (watches, exhausted) ← clauses.toList.zipIdx.foldlM (enter vars)
    (Array.replicate (2 * vars) Queue.empty, false)
  return {
    clauses, watches, exhausted
    values := Array.replicate vars none
    tried := Array.replicate vars 0
    depth := 0 }

def assignment (s : Session) : List Bool := s.values.toList.map (· == some true)

end Session

end PropSat
