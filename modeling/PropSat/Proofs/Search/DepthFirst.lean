import PropSat.Proofs.Assignment

/-!
Depth-first search without any bookkeeping, and the record of what it does. After each attempt it looks
at all clauses, and gives the value up exactly when one of them is violated. The assignments it finds
are the total ones that satisfy every clause, in lexicographic order (`founds_explore`).
-/

namespace PropSat.Search

/-- What happens in a search. An attempt is kept when no clause was violated by it. -/
inductive Entry where
  | tried (v : Nat) (value kept : Bool)
  | found (assignment : List Bool)
  | backtracked (v : Nat)
  | finished
  deriving DecidableEq

def Entry.found? : Entry → Option (List Bool)
  | .found assignment => some assignment
  | _ => none

def founds (entries : List Entry) : List (List Bool) := entries.filterMap Entry.found?

/-- Gives the next variable a value, and goes on below if that violates no clause. -/
def attempt (clauses : Array Clause) (below : List Bool → List Entry) (decided : List Bool)
    (value : Bool) : List Entry :=
  if violated clauses (decided ++ [value]) then [.tried decided.length value false]
  else .tried decided.length value true :: below (decided ++ [value])

/-- No value is left for a variable. The first variable ends the search. -/
def leave : Nat → Entry
  | 0 => .finished
  | v + 1 => .backtracked (v + 1)

/-- Tries both values for each of `k` more variables, false first. -/
def explore (clauses : Array Clause) : Nat → List Bool → List Entry
  | 0, decided => [.found decided]
  | k + 1, decided =>
    attempt clauses (explore clauses k) decided false ++
      attempt clauses (explore clauses k) decided true ++ [leave decided.length]

@[simp] theorem founds_append (first second : List Entry) :
    founds (first ++ second) = founds first ++ founds second :=
  List.filterMap_append

@[simp] theorem founds_leave (v : Nat) : founds [leave v] = [] := by
  cases v <;> rfl

theorem founds_attempt {clauses : Array Clause} {below : List Bool → List Entry} {k : Nat}
    {decided : List Bool} {value : Bool}
    (known : InRange (decided.length + (k + 1)) clauses)
    (deeper : violated clauses (decided ++ [value]) = false →
      founds (below (decided ++ [value])) =
        (completions k (decided ++ [value])).filter (satisfied clauses)) :
    founds (attempt clauses below decided value) =
      (completions k (decided ++ [value])).filter (satisfied clauses) := by
  unfold attempt
  split
  case isTrue violation =>
    -- a violated clause stays violated whatever the later variables are
    symm
    apply List.filter_eq_nil_iff.2
    intro total member
    obtain ⟨more, length, rfl⟩ := mem_completions.1 member
    have all : InRange (decided ++ [value] ++ more).length clauses := by
      have same : (decided ++ [value] ++ more).length = decided.length + (k + 1) := by
        simp only [List.length_append, List.length_singleton]
        omega
      rwa [same]
    rw [satisfied_eq_not_violated all, violated_append violation]
    decide
  case isFalse safe => exact deeper (by simpa using safe)

theorem founds_explore {clauses : Array Clause} {k : Nat} {decided : List Bool}
    (known : InRange (decided.length + k) clauses) (safe : violated clauses decided = false) :
    founds (explore clauses k decided) = (completions k decided).filter (satisfied clauses) := by
  induction k generalizing decided with
  | zero =>
    -- nothing is left open, so what is not violated is satisfied
    have holds : satisfied clauses decided = true := by rw [satisfied_eq_not_violated known, safe]; rfl
    simp [explore, completions, founds, Entry.found?, holds]
  | succ k ih =>
    have below : ∀ value, violated clauses (decided ++ [value]) = false →
        founds (explore clauses k (decided ++ [value])) =
          (completions k (decided ++ [value])).filter (satisfied clauses) := fun value safe =>
      ih (by simpa [Nat.add_assoc, Nat.add_comm 1] using known) safe
    rw [explore, founds_append, founds_append, founds_leave, List.append_nil,
      founds_attempt known (below false), founds_attempt known (below true), completions,
      List.filter_append]

theorem violated_congr {clauses others : Array Clause} (same : ∀ c, c ∈ others ↔ c ∈ clauses)
    (values : List Bool) : violated others values = violated clauses values := by
  rw [Bool.eq_iff_iff, violated_iff, violated_iff]
  exact exists_congr fun c => and_congr_left fun _ => same c

/-- Neither the order of the clauses nor how often each is given matters. -/
theorem explore_congr {clauses others : Array Clause} (same : ∀ c, c ∈ others ↔ c ∈ clauses)
    (k : Nat) (decided : List Bool) : explore others k decided = explore clauses k decided := by
  induction k generalizing decided with
  | zero => rfl
  | succ k ih => simp only [explore, attempt, violated_congr same, ih]

end PropSat.Search
