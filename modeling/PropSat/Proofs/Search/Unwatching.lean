import PropSat.Search.Report
import PropSat.Proofs.Search.Rounds

/-!
What turning the clauses away from a false literal does, all of it, whether it comes to its end or stops at
a violated clause: which clauses turn and to which literals, what each queue holds afterwards, and what is
answered (`unwatch_turned`). It is said in terms of what `isFalse` answers, and of the smallest literal that
is not false rather than the first one.
-/

namespace PropSat.Search

/-- A clause stands in a queue only where the queue is that of one of its own literals. -/
def OwnQueues (clauses : Array Clause) (watches : Watches) : Prop :=
  ∀ {i code}, i ∈ line watches code → ∃ c, clauses[i]? = some c ∧ ∃ l ∈ c.literals, l.code = code

/-- All literals of a clause are false. -/
def Violated (clauses : Array Clause) (values : Values) (i : Nat) : Prop :=
  ∃ c, clauses[i]? = some c ∧ ∀ l ∈ c.literals, isFalse values l = .ok true

/-- A clause turns to the smallest of its literals that are not false. -/
def Move.Smallest (clauses : Array Clause) (values : Values) (m : Move) : Prop :=
  ∃ c, clauses[m.clause]? = some c ∧ m.target ∈ c.literals ∧ isFalse values m.target = .ok false ∧
    ∀ l ∈ c.literals, isFalse values l = .ok false → m.target.code ≤ l.code

/-- The clauses that turn to the literal of this code, in the order in which they turn. -/
def arrivals (moved : List Move) (code : Nat) : List Nat :=
  (moved.filter fun m => m.target.code = code).map Move.clause

/-- The clauses in front of the first violated one have turned, and are what the log tells; that one and all behind it
are left. The answer is whether there is no violated one. -/
structure TurnedAway (clauses : Array Clause) (values : Values) (watches : Watches) (literal : Literal)
    (moved : List Move) (left : List Nat) (rebound : Bool) (watches' : Watches) : Prop where
  answer : rebound = true ↔ ∀ i ∈ line watches literal.code, ¬Violated clauses values i
  before : line watches literal.code = moved.map Move.clause ++ left
  targets : ∀ m ∈ moved, m.Smallest clauses values
  stuck : ∀ i ∈ left.head?, Violated clauses values i
  own : line watches' literal.code = left
  others : ∀ code, code ≠ literal.code → line watches' code = line watches code ++ arrivals moved code
  size : watches'.size = watches.size
  kept : (listed watches').Perm (listed watches)
  told : moves clauses values (line watches literal.code) [] = .ok (moved, left)

section
variable {clauses : Array Clause} {values : Values} {watches : Watches} {literal : Literal}

theorem isFalse_eq_true {l : Literal} : isFalse values l = .ok true ↔ Falsified values l := by
  by_cases known : l.var < values.size
  · simp [isFalse_eq known]
  · simp [isFalse, fetch, known, Falsified, bind, Except.bind]

theorem isFalse_eq_false {l : Literal} (known : l.var < values.size) :
    isFalse values l = .ok false ↔ ¬Falsified values l := by
  simp [isFalse_eq known]

theorem violated_of_stuck {i : Nat} (small : i < clauses.size) (stuck : target? clauses values i = none) :
    Violated clauses values i := by
  have found : clauses[i]? = some clauses[i] := Array.getElem?_eq_getElem small
  exact ⟨clauses[i], found, fun l own => isFalse_eq_true.2 (target?_eq_none found stuck l own)⟩

theorem canTurn_iff {i : Nat} (small : i < clauses.size) :
    canTurn clauses values i = true ↔ ¬Violated clauses values i := by
  cases target : target? clauses values i with
  | none =>
    have violated := violated_of_stuck small target
    simp [canTurn, target, violated]
  | some l =>
    obtain ⟨c, found, own, safe⟩ := target?_mem target
    have safe : ¬Violated clauses values i := by
      rintro ⟨c', found', violated⟩
      obtain rfl : c = c' := Option.some.inj (found.symm.trans found')
      exact safe (isFalse_eq_true.1 (violated l own))
    simp [canTurn, target, safe]

/-- The literals come in ascending order, so the first that is not false is the smallest. -/
theorem target?_le {i : Nat} {c : Clause} {l other : Literal} (found : clauses[i]? = some c)
    (target : target? clauses values i = some l) (own : other ∈ c.literals) (safe : ¬Falsified values other) :
    l.code ≤ other.code := by
  rw [target?, found, Option.bind_some] at target
  have split := List.takeWhile_append_dropWhile (p := fun l => decide (Falsified values l)) (l := c.literals)
  have ascending := c.ascending
  rw [← split] at own ascending
  rcases List.mem_append.1 own with skipped | kept
  · exact absurd (by simpa using List.mem_takeWhile_imp skipped) safe
  · obtain ⟨rest, first⟩ := List.head?_eq_some_iff.1 target
    rw [first] at kept ascending
    rcases List.mem_cons.1 kept with rfl | later
    · exact Nat.le_refl _
    · exact Nat.le_of_lt (List.rel_of_pairwise_cons (List.pairwise_append.1 ascending).2.1 later)

/-- The clauses of a line as far as they turn, each with the literal it turns to. -/
def turns (clauses : Array Clause) (values : Values) (is : List Nat) : List Move :=
  is.filterMap fun i => (target? clauses values i).map (Move.mk i)

theorem target?_of_mem_turns {is : List Nat} {m : Move} (member : m ∈ turns clauses values is) :
    target? clauses values m.clause = some m.target := by
  obtain ⟨i, -, made⟩ := List.mem_filterMap.1 member
  obtain ⟨l, target, rfl⟩ := Option.map_eq_some_iff.1 made
  exact target

theorem smallest_of_mem_turns (fits : Fits clauses values watches) {is : List Nat} {m : Move}
    (member : m ∈ turns clauses values is) : m.Smallest clauses values := by
  have target := target?_of_mem_turns member
  obtain ⟨c, found, own, safe⟩ := target?_mem target
  have known := fits.1 c (Array.mem_of_getElem? found)
  refine ⟨c, found, own, (isFalse_eq_false (known _ own)).2 safe, ?_⟩
  intro l inside notFalse
  exact target?_le found target inside ((isFalse_eq_false (known l inside)).1 notFalse)

theorem map_clause_turns {is : List Nat} (all : ∀ i ∈ is, canTurn clauses values i = true) :
    (turns clauses values is).map Move.clause = is := by
  induction is with
  | nil => rfl
  | cons i rest ih =>
    obtain ⟨first, later⟩ := List.forall_mem_cons.1 all
    obtain ⟨l, target⟩ := Option.isSome_iff_exists.1 first
    rw [turns, List.filterMap_cons, target, Option.map_some, List.map_cons]
    exact congrArg (i :: ·) (ih later)

theorem arrivals_turns (is : List Nat) (code : Nat) :
    arrivals (turns clauses values is) code = is.filter (turnsTo clauses values code) := by
  induction is with
  | nil => rfl
  | cons i rest ih =>
    rw [List.filter_cons, ← ih, turnsTo, turns, List.filterMap_cons]
    cases target : target? clauses values i with
    | none => rfl
    | some l => by_cases here : l.code = code <;> simp [arrivals, turns, here]

/-- The log tells of the clauses that turn, up to the first that cannot. -/
theorem moves_eq (known : InRange values.size clauses) {is : List Nat} (numbered : ∀ i ∈ is, i < clauses.size)
    (made : List Move) :
    moves clauses values is made =
      .ok (made.reverse ++ turns clauses values (is.takeWhile (canTurn clauses values)),
        is.dropWhile (canTurn clauses values)) := by
  induction is generalizing made with
  | nil => simp [moves, turns]
  | cons i rest ih =>
    obtain ⟨small, later⟩ := List.forall_mem_cons.1 numbered
    have own := known _ (Array.getElem_mem small)
    simp only [moves, fetch, dif_pos small, bind, Except.bind, dropFalse_eq own]
    cases remaining : clauses[i].literals.dropWhile fun l => Falsified values l with
    | nil =>
      have target : target? clauses values i = none := by rw [target?_eq small, remaining, List.head?_nil]
      simp [canTurn, target, turns, pure, Except.pure]
    | cons l others =>
      have target : target? clauses values i = some l := by rw [target?_eq small, remaining, List.head?_cons]
      simp [canTurn, target, turns, ih later]

/-- Every clause that stood in a queue still stands in one of its own. -/
theorem TurnedAway.ownQueues {moved : List Move} {left : List Nat} {rebound : Bool} {watches' : Watches}
    (away : TurnedAway clauses values watches literal moved left rebound watches')
    (placed : OwnQueues clauses watches) : OwnQueues clauses watches' := by
  intro i code waiting
  by_cases here : code = literal.code
  · subst here
    rw [away.own] at waiting
    exact placed (away.before ▸ List.mem_append_right _ waiting)
  · rw [away.others code here, List.mem_append] at waiting
    rcases waiting with before | arrived
    · exact placed before
    · obtain ⟨m, member, rfl⟩ := List.mem_map.1 arrived
      obtain ⟨among, reached⟩ := List.mem_filter.1 member
      obtain ⟨c, found, own, -, -⟩ := away.targets m among
      exact ⟨c, found, m.target, own, of_decide_eq_true reached⟩

/-- In any state in which clauses stand in queues of their own literals only, the clauses of a false literal turn away
from it as far as they can, one after the other, and that comes to an end. The queues are all that is given back;
whatever else a state holds stays as it is. -/
theorem unwatch_turned (fits : Fits clauses values watches) (placed : OwnQueues clauses watches)
    (falsified : isFalse values literal = .ok true) :
    RoundsEnd clauses values watches literal ∧
    ∃ rebound watches', unwatch clauses values watches literal = .ok (rebound, watches') ∧
      OwnQueues clauses watches' ∧
      ∃ moved left, TurnedAway clauses values watches literal moved left rebound watches' := by
  rw [isFalse_eq_true] at falsified
  have inside : literal.code < watches.size := by
    have known := (Array.getElem?_eq_some_iff.1 falsified).1
    have size := fits.2
    rw [Literal.var] at known
    omega
  have numbered : ∀ i ∈ line watches literal.code, i < clauses.size := by
    intro i waiting
    obtain ⟨c, found, -⟩ := placed waiting
    exact (Array.getElem?_eq_some_iff.1 found).1
  obtain ⟨rebound, watches', run, answer, size, kept, own, others⟩ := unwatch_line fits falsified inside numbered
  have away : TurnedAway clauses values watches literal
      (turns clauses values ((line watches literal.code).takeWhile (canTurn clauses values)))
      ((line watches literal.code).dropWhile (canTurn clauses values)) rebound watches' := {
    answer := by
      rw [answer, List.dropWhile_eq_nil_iff]
      exact forall₂_congr fun i waiting => canTurn_iff (numbered i waiting)
    before := by
      rw [map_clause_turns fun i member => List.mem_takeWhile_imp member, List.takeWhile_append_dropWhile]
    targets := fun m member => smallest_of_mem_turns fits member
    stuck := by
      intro i first
      have waiting := (List.dropWhile_sublist _).subset (List.mem_of_mem_head? first)
      exact violated_of_stuck (numbered i waiting) (target?_of_head? first)
    own := own
    others := fun code other => by rw [others code other, arrivals_turns]
    size := size
    kept := kept
    told := by rw [moves_eq fits.1 numbered, List.reverse_nil, List.nil_append] }
  exact ⟨roundsEnd fits falsified inside numbered, rebound, watches', run, away.ownQueues placed, _, _, away⟩

/-- Two clauses in one queue: the first turns to its other literal, the second has none. -/
theorem unwatch_turned_halfway :
    Fits #[.ofList [.positive 0, .positive 1], .ofList [.positive 0]] #[some false, none]
      #[⟨[0], [1]⟩, .empty, .empty, .empty] ∧
    OwnQueues #[.ofList [.positive 0, .positive 1], .ofList [.positive 0]] #[⟨[0], [1]⟩, .empty, .empty, .empty] ∧
    isFalse #[some false, none] (.positive 0) = .ok true ∧
    RoundsEnd #[.ofList [.positive 0, .positive 1], .ofList [.positive 0]] #[some false, none]
      #[⟨[0], [1]⟩, .empty, .empty, .empty] (.positive 0) ∧
    ∃ watches', unwatch #[.ofList [.positive 0, .positive 1], .ofList [.positive 0]] #[some false, none]
        #[⟨[0], [1]⟩, .empty, .empty, .empty] (.positive 0) = .ok (false, watches') ∧
      line watches' 0 = [1] ∧ line watches' 2 = [0] := by
  have fits : Fits #[.ofList [.positive 0, .positive 1], .ofList [.positive 0]] #[some false, none]
      #[⟨[0], [1]⟩, .empty, .empty, .empty] := by
    refine ⟨?_, rfl⟩
    simp [InRange, Literal.var_positive, UInt64.size]
  have placed : OwnQueues #[.ofList [.positive 0, .positive 1], .ofList [.positive 0]]
      #[⟨[0], [1]⟩, .empty, .empty, .empty] := by
    intro i code waiting
    have inside : code < 4 := line_inside waiting
    obtain rfl | rfl | rfl | rfl : code = 0 ∨ code = 1 ∨ code = 2 ∨ code = 3 := by omega
    · obtain rfl | rfl : i = 0 ∨ i = 1 := by simpa [line, Queue.toList] using waiting
      all_goals exact ⟨_, rfl, .positive 0, by simp, rfl⟩
    all_goals simp [line, Queue.toList, Queue.empty] at waiting
  have falsified : isFalse #[some false, none] (.positive 0) = .ok true := rfl
  obtain ⟨ends, rebound, watches', run, -, moved, left, away⟩ := unwatch_turned fits placed falsified
  have told : moves #[.ofList [.positive 0, .positive 1], .ofList [.positive 0]] #[some false, none] [0, 1] [] =
      .ok ([⟨0, .positive 1⟩], [1]) := by decide
  obtain ⟨rfl, rfl⟩ : moved = [⟨0, .positive 1⟩] ∧ left = [1] := by
    simpa using away.told.symm.trans told
  obtain rfl : rebound = false := by
    rw [← Bool.not_eq_true, away.answer]
    exact fun all => all 1 (by decide) (away.stuck 1 rfl)
  exact ⟨fits, placed, falsified, ends, watches', run, away.own, (away.others 2 (by decide)).trans (by decide)⟩

end

end PropSat.Search
