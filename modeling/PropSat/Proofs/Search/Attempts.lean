import Mathlib.Algebra.Group.Nat.Defs
import Mathlib.Data.List.Perm.Subperm
import Mathlib.Order.WellFounded
import PropSat.Proofs.Search.Reachable
import PropSat.Proofs.Search.Rounds

/-!
Which attempts a session makes. Each one leaves less to do for good, and what there is to do at an attempt
depends on nothing but the values decided before it and the value tried; so none is made twice, and there
are no more of them than edges in the tree of all assignments.
-/

namespace PropSat

open Search

namespace Search

/-- The values of the first variables, fewer than so many of them, and a value for the next. -/
def tries : Nat → List (List Bool × Bool)
  | 0 => []
  | k + 1 => tries k ++ (completions k []).flatMap fun decided => [(decided, false), (decided, true)]

theorem mem_tries {k : Nat} {decided : List Bool} {value : Bool} :
    (decided, value) ∈ tries k ↔ decided.length < k := by
  induction k with
  | zero => simp [tries]
  | succ k ih =>
    rw [tries, List.mem_append, ih, List.mem_flatMap, Nat.lt_succ_iff_lt_or_eq]
    apply or_congr_right
    constructor
    · rintro ⟨values, total, here⟩
      obtain ⟨rfl, -⟩ : decided = values ∧ (value = false ∨ value = true) := by simpa [← and_or_left] using here
      exact mem_completions_nil.1 total
    · intro length
      exact ⟨decided, mem_completions_nil.2 length, by cases value <;> simp⟩

theorem length_completions (k : Nat) (values : List Bool) : (completions k values).length = 2 ^ k := by
  induction k generalizing values with
  | zero => rfl
  | succ k ih =>
    rw [completions, List.length_append, ih, ih, Nat.pow_succ]
    omega

theorem length_tries (k : Nat) : (tries k).length + 2 = 2 ^ (k + 1) := by
  induction k with
  | zero => rfl
  | succ k ih =>
    have twice : ∀ all : List (List Bool), (all.flatMap fun decided =>
        [(decided, false), (decided, true)]).length = 2 * all.length := by
      intro all
      induction all with
      | nil => rfl
      | cons first rest ih =>
        rw [List.flatMap_cons, List.length_append, ih, List.length_cons, List.length_cons]
        simp
        omega
    rw [tries, List.length_append, twice, length_completions, Nat.pow_succ]
    omega

end Search

namespace Session

/-- The values decided before a step from here and the value that it tries for the next variable, if it
tries one. -/
def attempt? (t : Session) : Option (List Bool × Bool) :=
  match t.advance with
  | .ok (.descended, _) | .ok (.failed, _) => some (t.decided, t.nextValue)
  | _ => none

/-- The attempts made in answer to so many requests for the next assignment. -/
def attempts (s : Session) (k : Nat) : Except Fault (List (List Bool × Bool)) := do
  return (← s.heads k).filterMap attempt?

section
variable {s s' t u : Session} {step : Step} {clauses : Array Clause} {vars : Nat} {decided : List Bool}
  {mask : UInt8} {later : List Bool} {value : Bool} {a b : List Bool × Bool} {entries : List Entry}

/-- Wherever steps lead and another can be taken, the search stands somewhere among the same variables. -/
theorem Expects.stands_reached (expects : Expects s entries) (reached : Reached s t)
    (running : t.exhausted = false) : ∃ mask, Stands s.clauses s.values.size t.decided mask t := by
  obtain ⟨later, after⟩ := expects.reached reached
  obtain ⟨clauses, size⟩ := reached.keeps
  cases after with
  | exhausted exhausted =>
    rw [running] at exhausted
    cases exhausted
  | stands stands =>
    obtain ⟨valid, -, -, rfl, -, tried⟩ := stands
    exact ⟨_, valid, running, clauses, size, rfl, fun inside => tried (size ▸ inside)⟩

theorem Stands.before (stands : Stands clauses vars decided mask s) {v : Nat} (small : v < s.depth) :
    s.tried[v]? = (decided[v]?).map had := by
  obtain ⟨value, held, tried⟩ := stands.valid.before v small
  have known := stands.valid.getElem?_decided small
  rw [held, stands.same_decided, Option.some.injEq] at known
  rw [tried, ← known]
  rfl

/-- Steps do not go on forever. -/
theorem no_path (path : Nat → Session) (running : ∀ i, (path i).exhausted = false) :
    ¬∀ i, ∃ step, (path i).advance = .ok (step, path (i + 1)) := by
  intro stepped
  obtain ⟨i, stays⟩ := WellFounded.not_rel_apply_succ (r := Prod.Lex (· < ·) (· < ·)) fun i => (path i).rank
  obtain ⟨step, next⟩ := stepped i
  exact stays (rank_advance (running i) next)

/-- What there is to do depends on the values decided and on those left to the next variable. -/
theorem Stands.same_work {others : Array Clause} (first : Stands clauses vars decided mask s)
    (second : Stands others vars decided mask t) : s.rank.1 = t.rank.1 := by
  have depths : s.depth = t.depth := first.length.symm.trans second.length
  rw [rank, rank, depths, first.size, second.size]
  apply openWork_congr
  intro v small
  rcases Nat.lt_or_eq_of_le (show v ≤ t.depth by omega) with less | rfl
  · rw [first.before (depths ▸ less), second.before less]
  · have inside : t.depth < vars := by omega
    rw [second.same_mask inside, ← depths, first.same_mask (depths ▸ inside)]

/-- An attempt uses up a value for good. -/
theorem Stands.work_lt (stands : Stands clauses vars decided mask s) (small : s.depth < vars)
    (next : untried mask = value :: later) (stepped : s.advance = .ok (step, t)) :
    t.rank.1 < s.rank.1 := by
  have length := stands.length
  have now : min (s.depth + 1) vars = s.depth + 1 := by omega
  have uses : (untried (had value)).length + 1 = choices s.tried s.depth := by
    rw [← (stands.inTurn small).or_bit next, untried_next next, choices, stands.same_mask small]
    exact congrArg List.length next.symm
  obtain ⟨s', outcome⟩ := stands.advance_attempt small next
  by_cases violation : violated clauses (decided ++ [value])
  · rw [if_pos violation, stepped] at outcome
    obtain ⟨same, after⟩ := outcome
    cases same
    have depths : t.depth = s.depth := after.length.symm.trans length
    have others : ∀ v, v < s.depth → t.tried[v]? = s.tried[v]? := fun v less => by
      rw [after.before (depths ▸ less), stands.before less]
    have less : choices t.tried s.depth + 1 = choices s.tried s.depth := by
      rw [choices, ← depths, after.same_mask (depths ▸ small), depths, uses]
    rw [rank, rank, after.size, stands.size, depths, now]
    exact openWork_attempt others less
  · rw [if_neg violation, stepped] at outcome
    obtain ⟨same, after⟩ := outcome
    cases same
    have depths : t.depth = s.depth + 1 := by
      rw [← after.length, List.length_append, length, List.length_singleton]
    have others : ∀ v, v < s.depth → t.tried[v]? = s.tried[v]? := fun v less => by
      rw [after.before (by omega), stands.before less, List.getElem?_append_left (by omega)]
    have less : choices t.tried s.depth + 1 = choices s.tried s.depth := by
      rw [choices, ← length, after.last, length, uses]
    rw [rank, rank, after.size, stands.size, depths, now]
    exact openWork_descend small others less

theorem Stands.attempt (stands : Stands clauses vars decided mask s) (made : s.attempt? = some a) :
    s.depth < vars ∧ a.1 = decided ∧ ∃ later, untried mask = a.2 :: later := by
  have inside := stands.valid.depth_le
  rw [stands.size] at inside
  rcases Nat.lt_or_eq_of_le inside with small | complete
  · refine ⟨small, ?_⟩
    cases next : untried mask with
    | cons value later =>
      have named : s.nextValue = value := stands.nextValue small next
      obtain ⟨s', outcome⟩ := stands.advance_attempt small next
      have tried : s.attempt? = some (decided, value) := by
        rw [← stands.same_decided, ← named, attempt?]
        split at outcome <;> rw [outcome.1]
      rw [tried, Option.some.injEq] at made
      subst made
      exact ⟨rfl, later, rfl⟩
    | nil =>
      rcases List.eq_nil_or_concat decided with rfl | ⟨earlier, value, rfl⟩
      · have run := advance_finished (stands.size ▸ small) (stands.same_mask small) next stands.length.symm
        simp [attempt?, run] at made
      · rw [List.concat_eq_append] at *
        obtain ⟨s', run, -⟩ := stands.advance_back small next
        simp [attempt?, run] at made
  · have run := advance_complete (complete.trans stands.size.symm)
    simp [attempt?, run] at made

/-- Attempts of the same value after the same values are made with the same left to do. -/
theorem Stands.same_attempt {others : Array Clause} {decided' : List Bool} {mask' : UInt8}
    (first : Stands clauses vars decided mask s) (second : Stands others vars decided' mask' t)
    (made : s.attempt? = some a) (again : t.attempt? = some a) : s.rank.1 = t.rank.1 := by
  obtain ⟨small, rfl, later, next⟩ := first.attempt made
  obtain ⟨small', rfl, later', next'⟩ := second.attempt again
  obtain rfl : mask = mask' := by
    rw [(first.inTurn small).of_next next, (second.inTurn small').of_next next']
  exact first.same_work second

theorem Reached.rank_le (reached : Reached s t) : t.rank.1 ≤ s.rank.1 := by
  induction reached with
  | here => exact Nat.le_refl _
  | step _ running stepped ih =>
    rcases Prod.lex_def.1 (rank_advance running stepped) with less | ⟨same, -⟩
    · exact Nat.le_trans (Nat.le_of_lt less) ih
    · exact same ▸ ih

/-- Whatever is attempted later on is something else. -/
theorem Precedes.attempt_ne (expects : Expects s entries) (precedes : Precedes t u)
    (first : Reached s t ∧ t.exhausted = false) (second : Reached s u ∧ u.exhausted = false)
    (made : t.attempt? = some a) (again : u.attempt? = some b) : a ≠ b := by
  rintro rfl
  obtain ⟨_, stands⟩ := expects.stands_reached first.1 first.2
  obtain ⟨_, stands'⟩ := expects.stands_reached second.1 second.2
  obtain ⟨step, t', stepped, leads⟩ := precedes
  obtain ⟨small, -, _, next⟩ := stands.attempt made
  have used := stands.work_lt small next stepped
  have kept := leads.rank_le
  have same := stands.same_attempt stands' made again
  omega

theorem Expects.attempts (expects : Expects s entries) (k : Nat) :
    ∃ made, s.attempts k = .ok made ∧ made.Nodup ∧ ∀ a ∈ made, a.1.length < s.values.size := by
  obtain ⟨seen, _, run, passed⟩ := expects.passed k
  refine ⟨seen.filterMap attempt?, ?_, ?_, ?_⟩
  · simp [Session.attempts, run, bind, Except.bind, pure, Except.pure]
  · rw [List.Nodup, List.pairwise_filterMap]
    refine passed.ordered.imp_of_mem ?_
    intro t u earlier later precedes a made b again
    exact precedes.attempt_ne expects (passed.running t earlier) (passed.running u later) made again
  · intro a member
    obtain ⟨t, visited, made⟩ := List.mem_filterMap.1 member
    obtain ⟨reached, running⟩ := passed.running t visited
    obtain ⟨_, stands⟩ := expects.stands_reached reached running
    obtain ⟨small, decided, -⟩ := stands.attempt made
    rwa [decided, stands.length]

theorem Expects.rounds (expects : Expects s entries) (addressable : 2 * s.values.size ≤ UInt64.size)
    (reached : Reached s t) (running : t.exhausted = false) (small : t.depth < t.values.size) (value : Bool) :
    RoundsEnd t.clauses (t.values.set t.depth (some value)) t.watches (.falseWhen t.depth value) := by
  obtain ⟨_, stands⟩ := expects.stands_reached reached running
  have fits : Fits t.clauses (t.values.set t.depth (some value)) t.watches := by
    simpa only [Fits, Array.size_set] using stands.valid.fits
  have representable : 2 * t.depth < UInt64.size := by
    have size := stands.size
    omega
  refine roundsEnd fits (falsified_falseWhen small representable value) ?_ ?_
  · exact fits.falseWhen_lt (by rwa [Array.size_set]) value
  · intro i waiting
    exact stands.valid.watched.numbered waiting

end

section
variable {vars : Nat} {clauses : Array Clause}

/-- For clauses in range a session answers every request, and its steps do not go on forever; nor do, for
as many variables as a word can number, the turns of the clauses in an attempt. However many requests are
made, no value is tried twice after the same values of the variables before, so that there are fewer
attempts than nodes in the tree of all assignments. -/
theorem attempts_once (known : InRange vars clauses) :
    ∃ s, start vars clauses = .ok s ∧ (∀ k, ∃ found s', s.answers k = .ok (found, s')) ∧
      (∀ path : Nat → Session, path 0 = s → (∀ i, (path i).exhausted = false) →
        ¬∀ i, ∃ step, (path i).advance = .ok (step, path (i + 1))) ∧
      (2 * vars ≤ UInt64.size → ∀ t, Reached s t → t.exhausted = false →
        ∀ small : t.depth < t.values.size, ∀ value,
          RoundsEnd clauses (t.values.set t.depth (some value)) t.watches (.falseWhen t.depth value)) ∧
      ∀ k, ∃ made, s.attempts k = .ok made ∧ made.Nodup ∧ (∀ a ∈ made, a.1.length < vars) ∧
        made.length ≤ 2 ^ (vars + 1) - 2 := by
  obtain ⟨s, entries, run, expects, -⟩ := start_satisfied known
  obtain ⟨same, size⟩ : s.clauses = clauses ∧ s.values.size = vars := by
    obtain ⟨watches, exhausted, -, eq⟩ := start_eq known
    rw [run] at eq
    cases eq
    exact ⟨rfl, Array.size_replicate⟩
  refine ⟨s, run, fun k => ⟨_, expects.answers k⟩, fun path _ => no_path path, ?_, ?_⟩
  · intro addressable t reached running small value
    have rounds := expects.rounds (size ▸ addressable) reached running small value
    rwa [reached.keeps.1, same] at rounds
  · intro k
    obtain ⟨made, attempted, once, short⟩ := expects.attempts k
    rw [size] at short
    refine ⟨made, attempted, once, short, ?_⟩
    have among : made ⊆ tries vars := fun a member => mem_tries.2 (short a member)
    have bound := (List.subperm_of_subset once among).length_le
    have total := length_tries vars
    omega

/-- One clause that allows three of four assignments, and one that allows all. -/
theorem attempts_once_implied :
    InRange 2 #[.ofList [.positive 0, .negative 1], .ofList [.positive 1, .negative 1]] ∧
    ∃ s, start 2 #[.ofList [.positive 0, .negative 1], .ofList [.positive 1, .negative 1]] = .ok s ∧
      (∀ k, ∃ found s', s.answers k = .ok (found, s')) ∧
      (∀ path : Nat → Session, path 0 = s → (∀ i, (path i).exhausted = false) →
        ¬∀ i, ∃ step, (path i).advance = .ok (step, path (i + 1))) ∧
      (∀ t, Reached s t → t.exhausted = false → ∀ small : t.depth < t.values.size, ∀ value,
        RoundsEnd #[.ofList [.positive 0, .negative 1], .ofList [.positive 1, .negative 1]]
          (t.values.set t.depth (some value)) t.watches (.falseWhen t.depth value)) ∧
      ∀ k, ∃ made, s.attempts k = .ok made ∧ made.Nodup ∧ (∀ a ∈ made, a.1.length < 2) ∧
        made.length ≤ 6 := by
  have known : InRange 2 #[.ofList [.positive 0, .negative 1], .ofList [.positive 1, .negative 1]] := by
    simp [InRange, Literal.var_positive, Literal.var_negative, UInt64.size]
  obtain ⟨s, run, answered, ends, rounds, once⟩ := attempts_once known
  exact ⟨known, s, run, answered, ends, rounds (by decide), once⟩

end

end Session

end PropSat
