import PropSat.Search.Advance

/-!
The satisfying assignments of a session one after the other. An exhausted session takes no further
step, so it gives no assignment from then on.
-/

namespace PropSat

namespace Search.Step

/-- Whether a step answers the request for the next assignment. -/
@[inline]
def isAnswer : Step → Bool
  | .found | .finished => true
  | _ => false

end Search.Step

namespace Session

open Search

@[inline]
def isComplete (s : Session) : Bool := s.depth == s.values.size

section
variable {β : Type}

set_option linter.unusedVariables false in
/-- Takes steps up to and including the first at which `stop` holds, and gathers what `visit` makes of
the sessions that the steps start from. -/
@[specialize]
def run (stop : Step → Bool) (visit : β → Session → β) (s : Session) (gathered : β) :
    Except Fault (β × Session) :=
  if running : s.exhausted = false then
    let gathered := visit gathered s
    match stepped : s.advance with
    | .error fault => .error fault
    | .ok (step, s') => if stop step then .ok (gathered, s') else run stop visit s' gathered
  else .ok (gathered, s)
termination_by s.rank
decreasing_by exact rank_advance running stepped

end

def next (s : Session) : Except Fault (Option (List Bool) × Session) :=
  s.run Step.isAnswer (fun found s => if s.isComplete then some s.assignment else found) none

/-- The next assignments, at most `k`, behind those already found. -/
def takeAfter (s : Session) (found : Array (List Bool)) :
    Nat → Except Fault (Array (List Bool) × Session)
  | 0 => .ok (found, s)
  | k + 1 => do
    match ← s.next with
    | (none, s) => return (found, s)
    | (some assignment, s) => s.takeAfter (found.push assignment) k

def take (s : Session) (k : Nat) : Except Fault (Array (List Bool) × Session) :=
  s.takeAfter #[] k

def rest (s : Session) : Except Fault (Array (List Bool) × Session) :=
  s.run (fun _ => false) (fun found s => if s.isComplete then found.push s.assignment else found) #[]

end Session

end PropSat
