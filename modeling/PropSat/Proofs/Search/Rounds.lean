import Mathlib.Data.List.Chain
import Mathlib.Logic.Relation
import PropSat.Proofs.Search.Watching

/-!
Turning clauses away from a literal, one after the other on the queues as they stand, where a clause might
come back to the queue it was taken from. None does while the literal is false, so there are no more rounds
than clauses in the queue, and when none is left to make the queues hold what `unwatch` leaves in them.
-/

namespace PropSat.Search

/-- The clause in front of a literal's queue goes to the back of the queue of the first of its literals that
is not false, whichever that is. -/
inductive Round (clauses : Array Clause) (values : Values) (literal : Literal) : Watches → Watches → Prop where
  | turned {watches : Watches} {i : Nat} {rest : List Nat} {l : Literal} :
    line watches literal.code = i :: rest → target? clauses values i = some l →
      Round clauses values literal watches (hang (watches.setIfInBounds literal.code ⟨rest, []⟩) i l)

/-- Rounds come to an end, after at most as many as there are clauses in the queue, and their end is what
`unwatch` answers with. -/
structure RoundsEnd (clauses : Array Clause) (values : Values) (watches : Watches) (literal : Literal) :
    Prop where
  bounded : ∀ later, (watches :: later).IsChain (Round clauses values literal) →
    later.length ≤ (line watches literal.code).length
  outcome : ∃ last rebound watches', Relation.ReflTransGen (Round clauses values literal) watches last ∧
    (∀ next, ¬Round clauses values literal last next) ∧
    unwatch clauses values watches literal = .ok (rebound, watches') ∧
    (rebound = true ↔ line last literal.code = []) ∧ ∀ code, line last code = line watches' code

section
variable {clauses : Array Clause} {values : Values} {watches : Watches} {literal : Literal}

theorem line_inside {code i : Nat} (waiting : i ∈ line watches code) : code < watches.size := by
  by_contra beyond
  simp [line, Array.getElem?_eq_none (Nat.not_lt.1 beyond)] at waiting

/-- A round takes one clause out of the queue of a false literal and brings none into it. -/
theorem line_round (fits : Fits clauses values watches) (falsified : Falsified values literal) {i : Nat}
    {rest : List Nat} {l : Literal} (waiting : line watches literal.code = i :: rest)
    (target : target? clauses values i = some l) (code : Nat) :
    line (hang (watches.setIfInBounds literal.code ⟨rest, []⟩) i l) code =
      if code = literal.code then rest else if code = l.code then line watches code ++ [i]
      else line watches code := by
  obtain ⟨c, found, own, safe⟩ := target?_mem target
  have inside : literal.code < watches.size := line_inside (waiting ▸ List.mem_cons_self)
  have there : l.code < watches.size := fits.code_lt (Array.mem_of_getElem? found) own
  have apart : literal.code ≠ l.code := fun same => safe (Literal.ext same ▸ falsified)
  rw [Array.setIfInBounds, dif_pos inside, line_hang (by simpa using there), line_set inside]
  by_cases here : code = literal.code
  · subst here
    rw [if_neg apart, if_pos rfl, if_pos rfl]
    exact List.append_nil rest
  · simp only [if_neg here]

theorem Round.fits {watches' : Watches} (round : Round clauses values literal watches watches')
    (fits : Fits clauses values watches) : Fits clauses values watches' := by
  obtain ⟨waiting, target⟩ := round
  exact ⟨fits.1, by simpa using fits.2⟩

theorem Round.shortens {watches' : Watches} (round : Round clauses values literal watches watches')
    (fits : Fits clauses values watches) (falsified : Falsified values literal) :
    (line watches' literal.code).length + 1 = (line watches literal.code).length := by
  obtain ⟨waiting, target⟩ := round
  rw [line_round fits falsified waiting target, if_pos rfl, waiting, List.length_cons]

theorem length_rounds_le (fits : Fits clauses values watches) (falsified : Falsified values literal)
    {later : List Watches} (chain : (watches :: later).IsChain (Round clauses values literal)) :
    later.length ≤ (line watches literal.code).length := by
  induction later generalizing watches with
  | nil => exact Nat.zero_le _
  | cons next later ih =>
    obtain ⟨round, chain⟩ := List.isChain_cons_cons.1 chain
    have shorter := round.shortens fits falsified
    have rest := ih (round.fits fits) chain
    rw [List.length_cons]
    omega

/-- Rounds over the queues as they stand take from the queue of a false literal what turns away from it in front, and
bring it to the other queues in this order. -/
theorem rounds_line (fits : Fits clauses values watches) (falsified : Falsified values literal) {todo : List Nat}
    (waiting : line watches literal.code = todo) :
    ∃ last, Relation.ReflTransGen (Round clauses values literal) watches last ∧
      line last literal.code = todo.dropWhile (canTurn clauses values) ∧
      ∀ code, code ≠ literal.code → line last code = line watches code ++
        (todo.takeWhile (canTurn clauses values)).filter (turnsTo clauses values code) := by
  induction todo generalizing watches with
  | nil => exact ⟨watches, .refl, waiting, fun code _ => (List.append_nil _).symm⟩
  | cons i rest ih =>
    by_cases turns : canTurn clauses values i = true
    · obtain ⟨l, target⟩ := Option.isSome_iff_exists.1 turns
      have round : Round clauses values literal watches _ := .turned waiting target
      have moved := line_round fits falsified waiting target
      obtain ⟨last, rounds, left, others⟩ := ih (round.fits fits) ((moved literal.code).trans (if_pos rfl))
      rw [List.dropWhile_cons, if_pos turns, List.takeWhile_cons, if_pos turns]
      refine ⟨last, .head round rounds, left, ?_⟩
      intro code other
      rw [others code other, moved, if_neg other, List.filter_cons]
      by_cases here : code = l.code
      · simp [turnsTo, target, here]
      · simp [turnsTo, target, here, Ne.symm here]
    · rw [List.dropWhile_cons, if_neg turns, List.takeWhile_cons, if_neg turns]
      exact ⟨watches, .refl, waiting, fun code _ => (List.append_nil _).symm⟩

theorem roundsEnd (fits : Fits clauses values watches) (falsified : Falsified values literal)
    (inside : literal.code < watches.size)
    (numbered : ∀ i ∈ line watches literal.code, i < clauses.size) :
    RoundsEnd clauses values watches literal where
  bounded later := length_rounds_le fits falsified
  outcome := by
    obtain ⟨rebound, watches', run, answer, -, -, own, others⟩ := unwatch_line fits falsified inside numbered
    obtain ⟨last, rounds, stuck, brought⟩ := rounds_line fits falsified rfl
    refine ⟨last, rebound, watches', rounds, ?_, run, by rw [answer, stuck], ?_⟩
    · rintro next ⟨waiting, target⟩
      have left := target?_of_head? (by rw [← stuck, waiting, List.head?_cons])
      rw [left] at target
      cases target
    · intro code
      by_cases here : code = literal.code
      · rw [here, stuck, own]
      · rw [brought code here, others code here]

end

end PropSat.Search
