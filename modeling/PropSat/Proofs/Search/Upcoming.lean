import Mathlib.Data.List.Basic
import PropSat.Proofs.Search.DepthFirst
import PropSat.Proofs.Search.Start

/-!
What a session has yet to do, told by the plain depth-first search: from where the session stands, the
values left to the current variable, then those left to each variable before it, latest first
(`upcoming`). Every step of the session does the first entry of this list and leaves the rest.
-/

namespace PropSat

namespace Search

/-- What is done with the values that the next variable has not had. -/
def branches (clauses : Array Clause) (vars : Nat) (decided : List Bool) (mask : UInt8) : List Entry :=
  (untried mask).flatMap (attempt clauses (explore clauses (vars - (decided.length + 1))) decided)

/-- What is done after the values of the decided variables, the latest first, have been settled. -/
def resume (clauses : Array Clause) (vars : Nat) : List Bool → List Entry
  | [] => []
  | value :: earlier =>
    branches clauses vars earlier.reverse (had value) ++
      leave earlier.length :: resume clauses vars earlier

def upcoming (clauses : Array Clause) (vars : Nat) (decided : List Bool) (mask : UInt8) : List Entry :=
  (if decided.length = vars then [.found decided]
  else branches clauses vars decided mask ++ [leave decided.length]) ++
    resume clauses vars decided.reverse

section
variable {clauses : Array Clause} {vars : Nat} {decided : List Bool}

theorem resume_concat {value : Bool} (small : decided.length < vars) :
    resume clauses vars (decided ++ [value]).reverse = upcoming clauses vars decided (had value) := by
  simp [resume, upcoming, Nat.ne_of_lt small]

/-- A variable that has had no value yet is where the plain search begins. -/
theorem upcoming_fresh (clauses : Array Clause) (bound : decided.length ≤ vars) :
    upcoming clauses vars decided 0 =
      explore clauses (vars - decided.length) decided ++ resume clauses vars decided.reverse := by
  unfold upcoming
  by_cases complete : decided.length = vars
  · rw [if_pos complete, complete, Nat.sub_self, explore]
  · have more : vars - decided.length = vars - (decided.length + 1) + 1 := by omega
    have both : untried 0 = [false, true] := by decide
    rw [if_neg complete, more, explore, branches, both, List.flatMap_cons, List.flatMap_singleton]

variable {mask : UInt8} {value : Bool} {later : List Bool}

theorem branches_next (inTurn : InTurn mask) (next : untried mask = value :: later) :
    branches clauses vars decided mask =
      attempt clauses (explore clauses (vars - (decided.length + 1))) decided value ++
        branches clauses vars decided (had value) := by
  rw [← inTurn.or_bit next, branches, branches, untried_next next, next, List.flatMap_cons]

theorem upcoming_violated (small : decided.length < vars) (inTurn : InTurn mask)
    (next : untried mask = value :: later) (violation : violated clauses (decided ++ [value])) :
    upcoming clauses vars decided mask =
      .tried decided.length value false :: upcoming clauses vars decided (had value) := by
  simp [upcoming, Nat.ne_of_lt small, branches_next inTurn next, attempt, violation]

theorem upcoming_kept (small : decided.length < vars) (inTurn : InTurn mask)
    (next : untried mask = value :: later) (safe : ¬violated clauses (decided ++ [value])) :
    upcoming clauses vars decided mask =
      .tried decided.length value true :: upcoming clauses vars (decided ++ [value]) 0 := by
  have bound : (decided ++ [value]).length ≤ vars := by
    rw [List.length_append, List.length_singleton]
    exact small
  have below := upcoming_fresh clauses bound
  rw [resume_concat small, List.length_append, List.length_singleton] at below
  rw [below]
  simp [upcoming, Nat.ne_of_lt small, branches_next inTurn next, attempt, safe]

theorem upcoming_spent (small : decided.length < vars) (spent : untried mask = []) :
    upcoming clauses vars decided mask =
      leave decided.length :: resume clauses vars decided.reverse := by
  simp [upcoming, Nat.ne_of_lt small, branches, spent]

end

end Search

open Search

namespace Session

/-- The first value that the current variable has not had. -/
def nextValue (s : Session) : Bool :=
  match (s.tried[s.depth]?).map untried with
  | some (value :: _) => value
  | _ => false

/-- What a step from this session does. -/
def entry (s : Session) : Step → Entry
  | .found => .found s.assignment
  | .descended => .tried s.depth s.nextValue true
  | .failed => .tried s.depth s.nextValue false
  | .backtracked => .backtracked s.depth
  | .finished => .finished

/-- The session has just these entries before it. -/
inductive Expects : Session → List Entry → Prop where
  | exhausted {s : Session} (exhausted : s.exhausted = true) : Expects s []
  | stands {s : Session} {clauses : Array Clause} {vars : Nat} {decided : List Bool} {mask : UInt8}
      (stands : Stands clauses vars decided mask s) : Expects s (upcoming clauses vars decided mask)

section
variable {s : Session} {clauses : Array Clause} {vars : Nat} {decided : List Bool} {mask : UInt8}

theorem Stands.assignment (stands : Stands clauses vars decided mask s) (complete : s.depth = vars) :
    s.assignment = decided := by
  rw [← stands.same_decided, Session.decided, complete, ← stands.size, List.take_of_length_le]
  simp [Session.assignment]

theorem Stands.nextValue (stands : Stands clauses vars decided mask s) (small : s.depth < vars)
    {value : Bool} {later : List Bool} (next : untried mask = value :: later) : s.nextValue = value := by
  simp [Session.nextValue, stands.same_mask small, next]

/-- A step does the first entry of those to come. It finds an assignment just when no variable is open,
and nothing comes after the end of the search. -/
theorem Stands.step (stands : Stands clauses vars decided mask s) :
    ∃ step s' later, s.advance = .ok (step, s') ∧ (step = .found ↔ s.depth = vars) ∧
      (step = .finished → later = []) ∧ upcoming clauses vars decided mask = s.entry step :: later ∧
      Expects s' later := by
  have length := stands.length
  by_cases complete : s.depth = vars
  -- every variable is decided, and the search goes back to the last, if there is one
  · have all : upcoming clauses vars decided mask =
        .found s.assignment :: resume clauses vars decided.reverse := by
      simp [upcoming, length, complete, stands.assignment complete]
    rcases List.eq_nil_or_concat decided with rfl | ⟨earlier, value, rfl⟩
    · have run := advance_complete (complete.trans stands.size.symm)
      exact ⟨_, _, _, run, by simp [complete], by simp, all, .exhausted (by simp [← length])⟩
    · rw [List.concat_eq_append] at *
      have small : earlier.length < vars := by simp at length; omega
      obtain ⟨s', run, after⟩ := stands.advance_found complete
      rw [resume_concat small] at all
      exact ⟨_, _, _, run, by simp [complete], by simp, all, .stands after⟩
  · have small : s.depth < vars := by
      have bound := stands.valid.depth_le
      have size := stands.size
      omega
    have more : decided.length < vars := length ▸ small
    cases next : untried mask with
    | cons value later =>
      -- the next value is tried; a violation leaves the variable with the values after it
      have inTurn := stands.inTurn small
      have named : s.nextValue = value := stands.nextValue small next
      obtain ⟨s', outcome⟩ := stands.advance_attempt small next
      by_cases violation : violated clauses (decided ++ [value])
      · rw [if_pos violation] at outcome
        refine ⟨_, s', _, outcome.1, by simp [complete], by simp, ?_, .stands outcome.2⟩
        rw [upcoming_violated more inTurn next violation, entry, named, length]
      · rw [if_neg violation] at outcome
        refine ⟨_, s', _, outcome.1, by simp [complete], by simp, ?_, .stands outcome.2⟩
        rw [upcoming_kept more inTurn next violation, entry, named, length]
    | nil =>
      -- no value is left here, nor anywhere once this is the first variable
      rcases List.eq_nil_or_concat decided with rfl | ⟨earlier, value, rfl⟩
      · have run := advance_finished (stands.size ▸ small) (stands.same_mask small) next length.symm
        exact ⟨_, _, _, run, by simp [complete], fun _ => rfl, upcoming_spent more next, .exhausted rfl⟩
      · rw [List.concat_eq_append] at *
        obtain ⟨s', run, after⟩ := stands.advance_back small next
        refine ⟨_, _, _, run, by simp [complete], by simp, ?_, .stands after⟩
        rw [upcoming_spent more next, resume_concat (by simp at more; omega), entry, ← length]
        simp [leave]

end

end Session

end PropSat
