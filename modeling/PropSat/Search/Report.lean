import PropSat.Search.Enumerate

/-!
What a step of the search does in detail, told from the session before the step.
-/

namespace PropSat

namespace Search

/-- A clause that turns to another literal. -/
structure Move where
  clause : Nat
  target : Literal
  deriving DecidableEq

/-- The clauses of a line that turn, in order, and what is left of the line. -/
def moves (clauses : Array Clause) (values : Values) :
    List Nat → List Move → Except Fault (List Move × List Nat)
  | [], made => .ok (made.reverse, [])
  | i :: rest, made => do
    let clause ← fetch clauses i
    match ← dropFalse values clause.literals with
    | [] => return (made.reverse, i :: rest)
    | l :: _ => moves clauses values rest (⟨i, l⟩ :: made)

inductive Event where
  | emptyClause (i : Nat)
  | started (vars clauses : Nat)
  | tried (v : Nat) (value : Bool)
  | moved (i : Nat) (target origin : Literal)
  | violated (i : Nat) (clause : Clause)
  | backtracked (v : Nat)
  | exhausted
  deriving DecidableEq

namespace Event

def isDetail : Event → Bool
  | .emptyClause _ | .started _ _ | .exhausted => false
  | _ => true

def message : Event → String
  | .emptyClause i => s!"clause {i} is empty, nothing to enumerate"
  | .started vars clauses => s!"search over {vars} variables, {clauses} clauses"
  | .tried v value => s!"try {v} = {value}"
  | .moved i target origin => s!"clause {i} watches {target} instead of {origin}"
  | .violated i clause => s!"clause {i} {clause} is violated"
  | .backtracked v => s!"backtrack from {v}"
  | .exhausted => "search space exhausted"

end Event

end Search

namespace Session

open Search

/-- What the next step will do. -/
def report (s : Session) : Except Fault (List Event) :=
  if s.isComplete then .ok []
  else do
    match untried (← fetch s.tried s.depth) with
    | value :: _ =>
      let literal := Literal.falseWhen s.depth value
      let queue ← fetch s.watches literal.code
      let values ← store s.values s.depth (some value)
      let (moves, left) ← moves s.clauses values queue.toList []
      let turned := moves.map fun move => Event.moved move.clause move.target literal
      match left with
      | [] => return .tried s.depth value :: turned
      | i :: _ =>
        let clause ← fetch s.clauses i
        return .tried s.depth value :: turned ++ [.violated i clause]
    | [] => return if s.depth = 0 then [.exhausted] else [.backtracked s.depth]

/-- Puts what the next step will do behind what was done before. -/
def addReport (events : Array Event) (s : Session) : Array Event :=
  match s.report with
  | .ok reported => events ++ reported
  | .error _ => events

def nextEvents (s : Session) : Array Event :=
  match s.run Step.isAnswer addReport #[] with
  | .ok (events, _) => events
  | .error _ => #[]

def restEvents (s : Session) : Array Event :=
  match s.run (fun _ => false) addReport #[] with
  | .ok (events, _) => events
  | .error _ => #[]

/-- What is done until the next `k` assignments are found, behind what was done before. -/
def takeEvents (s : Session) (events : Array Event) : Nat → Array Event
  | 0 => events
  | k + 1 =>
    match s.next with
    | .ok (some _, s') => s'.takeEvents (events ++ s.nextEvents) k
    | _ => events ++ s.nextEvents

/-- What is done when a search begins. A clause that names an unknown variable ends the report. -/
def startEvents (vars : Nat) (clauses : Array Clause) : Array Event :=
  let known := clauses.toList.takeWhile fun clause => clause.literals.all (·.var < vars)
  let empty := known.zipIdx.filterMap fun (clause, i) =>
    if clause.isEmpty then some (Event.emptyClause i) else none
  let started := if known.length = clauses.size then [.started vars clauses.size] else []
  (empty ++ started).toArray

end Session

end PropSat
