import PropSat.Fault

/-!
Which clauses watch which literal. Each literal has a queue of clauses, first in, first out. When a
literal has become false the clauses at the front of its queue turn to another literal that is not
false, the first one in ascending order, and go to the back of that literal's queue; the first clause
that has none stays where it is, and so do all behind it.
-/

namespace PropSat.Search

/-- The value of each variable, where one is decided. -/
abbrev Values := Array (Option Bool)

@[inline]
def isFalse (values : Values) (l : Literal) : Except Fault Bool := do
  match ← fetch values l.var with
  | none => return false
  | some value => return value == l.isNegative

/-- Leaves out literals up to the first that is not false. -/
def dropFalse (values : Values) : List Literal → Except Fault (List Literal)
  | [] => .ok []
  | l :: rest => do
    if ← isFalse values l then dropFalse values rest else return l :: rest

/-- Clause numbers in a line: those in front in order, those behind them from the back. -/
structure Queue where
  front : List Nat
  back : List Nat

namespace Queue

def empty : Queue := ⟨[], []⟩

def toList (q : Queue) : List Nat := q.front ++ q.back.reverse

def push (q : Queue) (i : Nat) : Queue := ⟨q.front, i :: q.back⟩

@[simp] theorem toList_empty : empty.toList = [] := rfl

@[simp] theorem toList_push (q : Queue) (i : Nat) : (q.push i).toList = q.toList ++ [i] := by
  simp [toList, push]

end Queue

/-- The queue of each literal, by the literal's code. -/
abbrev Watches := Array Queue

@[inline]
def watch (watches : Watches) (i : Nat) (l : Literal) : Except Fault Watches :=
  adjust watches l.code (·.push i)

/-- Turns the clauses of a queue to other literals, up to the first that has none; gives what is left of
the queue. -/
def turn (clauses : Array Clause) (values : Values) :
    (front back : List Nat) → Watches → Except Fault (Queue × Watches)
  | i :: front, back, watches => do
    let clause ← fetch clauses i
    match ← dropFalse values clause.literals with
    | [] => return (⟨i :: front, back⟩, watches)
    | l :: _ => turn clauses values front back (← watch watches i l)
  | [], i :: back, watches => turn clauses values (i :: back).reverse [] watches
  | [], [], watches => .ok (Queue.empty, watches)
termination_by front back => (back.length, front.length)

/-- Turns the clauses away from a literal that has become false. The answer is whether all of them
could turn. -/
@[inline]
def unwatch (clauses : Array Clause) (values : Values) (watches : Watches) (literal : Literal) :
    Except Fault (Bool × Watches) := do
  let queue ← fetch watches literal.code
  let watches ← store watches literal.code Queue.empty
  let (left, watches) ← turn clauses values queue.front queue.back watches
  if left.front.isEmpty then return (true, watches)
  else return (false, ← store watches literal.code left)

end PropSat.Search
