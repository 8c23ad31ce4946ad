import PropSat.Proofs.Search.Enumeration

/-!
Where the steps of a session lead. The invariant between steps, said of what a session stores: variables
before the current one are decided and those behind it open, with the values they have had to match, and
every clause stands once in the queue of one literal of its own that is not false. It holds of every
session reached from the start, so of each that a request takes a step from (`reached_consistent`).
-/

namespace PropSat

namespace Search

theorem count_line_le (watches : Watches) (i code : Nat) :
    (line watches code).count i ≤ (listed watches).count i := by
  unfold line
  split
  case h_1 queue found =>
    have member : queue ∈ watches.toList := Array.mem_toList_iff.2 (Array.mem_of_getElem? found)
    obtain ⟨before, after, split⟩ := List.append_of_mem member
    rw [listed, split, List.flatMap_append, List.flatMap_cons, List.count_append, List.count_append]
    omega
  case h_2 => exact Nat.zero_le _

/-- What is listed once stands in one line only, and there once. -/
theorem count_line {watches : Watches} {n i code : Nat} (once : (listed watches).Perm (List.range n))
    (waiting : i ∈ line watches code) (other : Nat) :
    (line watches other).count i = if other = code then 1 else 0 := by
  have listed_once : (listed watches).count i ≤ 1 := by
    rw [once.count_eq]
    exact List.nodup_iff_count.1 List.nodup_range i
  have here : 0 < (line watches code).count i := List.count_pos_iff.2 waiting
  by_cases same : other = code
  · have bound := count_line_le watches i code
    rw [if_pos same, same]
    omega
  · have inside : code < watches.size := by
      by_contra beyond
      simp [line, Array.getElem?_eq_none (Nat.not_lt.1 beyond)] at waiting
    -- with its line taken out the clause is not listed any more
    have without := (listed_set inside Queue.empty).count_eq i
    rw [Queue.toList_empty, List.nil_append, List.count_append] at without
    have elsewhere := count_line_le (watches.set code Queue.empty) i other
    rw [line_set inside, if_neg same] at elsewhere
    rw [if_neg same]
    omega

end Search

open Search

namespace Session

/-- The sessions that steps lead to; an exhausted session takes none. -/
inductive Reached (s : Session) : Session → Prop where
  | here : Reached s s
  | step {t t' : Session} {step : Step} :
    Reached s t → t.exhausted = false → t.advance = .ok (step, t') → Reached s t'

/-- The sessions that steps are taken from in answer to so many requests for the next assignment. -/
def heads (s : Session) : Nat → Except Fault (List Session)
  | 0 => .ok []
  | k + 1 => do
    let (seen, _) ← s.run Step.isAnswer (fun seen t => seen ++ [t]) []
    let (_, s') ← s.next
    return seen ++ (← s'.heads k)

/-- What a session stores fits together. Of the current variable only the mask is said, since it may hold
a value that the search has come back to. -/
structure Consistent (clauses : Array Clause) (vars : Nat) (s : Session) : Prop where
  depth_le : s.depth ≤ vars
  before : ∀ v < s.depth, ∃ value, s.values[v]? = some (some value) ∧
    s.tried[v]? = some (if value then 3 else 1)
  behind : ∀ v, s.depth < v → v < vars → s.values[v]? = some none ∧ s.tried[v]? = some 0
  masks : ∀ v < vars, ∃ mask, s.tried[v]? = some mask ∧ (mask = 0 ∨ mask = 1 ∨ mask = 3)
  watched : ∀ i c, clauses[i]? = some c → ∃ l ∈ c.literals, isFalse s.values l = .ok false ∧
    ∀ code, (line s.watches code).count i = if code = l.code then 1 else 0

section
variable {s s' t : Session} {step : Step} {entries : List Entry}

/-- A step changes neither the clauses nor the number of variables. -/
theorem advance_keeps (stepped : s.advance = .ok (step, s')) :
    s'.clauses = s.clauses ∧ s'.values.size = s.values.size := by
  obtain ⟨clauses, watches, values, tried, depth, exhausted⟩ := s
  dsimp only [advance] at stepped
  split at stepped
  case isTrue complete => split at stepped <;> cases stepped <;> exact ⟨rfl, rfl⟩
  case isFalse incomplete =>
    obtain ⟨current, -, stepped⟩ := bind_eq_ok.1 stepped
    split at stepped
    case h_1 value later next =>
      simp only [bind_eq_ok, store_eq_ok] at stepped
      obtain ⟨_, -, _, ⟨_, rfl⟩, ⟨rebound, _⟩, -, stepped⟩ := stepped
      cases rebound with
      | true =>
        cases stepped
        exact ⟨rfl, by simp⟩
      | false =>
        simp only [bind_eq_ok, store_eq_ok] at stepped
        obtain ⟨_, ⟨_, rfl⟩, stepped⟩ := stepped
        cases stepped
        exact ⟨rfl, by simp⟩
    case h_2 spent =>
      split at stepped
      case h_1 =>
        cases stepped
        exact ⟨rfl, rfl⟩
      case h_2 v =>
        simp only [bind_eq_ok, store_eq_ok] at stepped
        obtain ⟨_, -, _, ⟨_, rfl⟩, stepped⟩ := stepped
        cases stepped
        exact ⟨rfl, by simp⟩

theorem Reached.keeps (reached : Reached s t) :
    t.clauses = s.clauses ∧ t.values.size = s.values.size := by
  induction reached with
  | here => exact ⟨rfl, rfl⟩
  | step _ _ stepped ih =>
    obtain ⟨clauses, size⟩ := advance_keeps stepped
    exact ⟨clauses.trans ih.1, size.trans ih.2⟩

theorem Reached.trans (first : Reached s s') (second : Reached s' t) : Reached s t := by
  induction second with
  | here => exact first
  | step _ running stepped ih => exact .step ih running stepped

/-- Wherever steps lead there is again something to expect, or nothing and an end. -/
theorem Expects.reached (expects : Expects s entries) (reached : Reached s t) :
    ∃ later, Expects t later := by
  induction reached with
  | here => exact ⟨entries, expects⟩
  | step _ running stepped ih =>
    obtain ⟨later, expects⟩ := ih
    rcases expects.cases with ⟨exhausted, -⟩ | ⟨-, _, _, later', again, -, -, -, after⟩
    · rw [running] at exhausted
      cases exhausted
    · rw [stepped] at again
      cases again
      exact ⟨later', after⟩

theorem Expects.valid (expects : Expects s entries) (running : s.exhausted = false) : s.Valid := by
  cases expects with
  | exhausted exhausted =>
    rw [running] at exhausted
    cases exhausted
  | stands stands => exact stands.valid

/-- What each step of a run keeps holds at its end, and the end does not depend on what is gathered. -/
theorem Expects.run_keeps {β γ : Type} {visit : β → Session → β} {I : β → Session → Prop}
    (expects : Expects s entries) (stop : Step → Bool)
    (keeps : ∀ gathered t step t', t.exhausted = false → t.advance = .ok (step, t') →
      I gathered t → I (visit gathered t) t')
    {gathered : β} (initially : I gathered s) (other : γ → Session → γ) (aside : γ) :
    ∃ gathered' aside' s', s.run stop visit gathered = .ok (gathered', s') ∧
      s.run stop other aside = .ok (aside', s') ∧ I gathered' s' := by
  -- along the entries still to come: each step takes off the first
  induction entries generalizing s gathered aside with
  | nil =>
    rcases expects.cases with ⟨exhausted, -⟩ | ⟨-, _, _, later, -, -, -, all, -⟩
    · exact ⟨gathered, aside, s, run_exhausted exhausted _, run_exhausted exhausted _, initially⟩
    · cases all
  | cons entry later ih =>
    rcases expects.cases with ⟨-, none_left⟩ | ⟨running, step, s₁, later', stepped, -, -, all, after⟩
    · cases none_left
    · cases all
      have kept := keeps gathered s step s₁ running stepped initially
      rw [run_step running stepped, run_step running stepped]
      by_cases stops : stop step
      · rw [if_pos stops, if_pos stops]
        exact ⟨_, _, s₁, rfl, rfl, kept⟩
      · rw [if_neg stops, if_neg stops]
        exact ih after kept _

/-- The one step is taken, and others lead on to where the other step is taken. -/
def Precedes (t u : Session) : Prop := ∃ step t', t.advance = .ok (step, t') ∧ Reached t' u

/-- The sessions that steps have been taken from, in order, before this one was reached. -/
structure Passed (s : Session) (seen : List Session) (t : Session) : Prop where
  reached : Reached s t
  ordered : seen.Pairwise Precedes
  running : ∀ u ∈ seen, Reached s u ∧ u.exhausted = false
  before : ∀ u ∈ seen, Precedes u t

theorem Passed.extend {seen : List Session} (passed : Passed s seen t) (running : t.exhausted = false)
    {t' : Session} (stepped : t.advance = .ok (step, t')) : Passed s (seen ++ [t]) t' where
  reached := .step passed.reached running stepped
  ordered := by
    rw [List.pairwise_append]
    refine ⟨passed.ordered, List.pairwise_singleton _ _, ?_⟩
    simpa using passed.before
  running := by
    rw [List.forall_mem_append, List.forall_mem_singleton]
    exact ⟨passed.running, passed.reached, running⟩
  before := by
    rw [List.forall_mem_append, List.forall_mem_singleton]
    refine ⟨?_, step, t', stepped, .here⟩
    intro u member
    obtain ⟨step', u', left, leads⟩ := passed.before u member
    exact ⟨step', u', left, .step leads running stepped⟩

theorem Passed.append {seen others : List Session} (passed : Passed s seen s') (more : Passed s' others t) :
    Passed s (seen ++ others) t where
  reached := passed.reached.trans more.reached
  ordered := by
    rw [List.pairwise_append]
    refine ⟨passed.ordered, more.ordered, ?_⟩
    intro u member v later
    obtain ⟨step, u', left, leads⟩ := passed.before u member
    exact ⟨step, u', left, leads.trans (more.running v later).1⟩
  running := by
    rw [List.forall_mem_append]
    refine ⟨passed.running, ?_⟩
    intro v later
    exact ⟨passed.reached.trans (more.running v later).1, (more.running v later).2⟩
  before := by
    rw [List.forall_mem_append]
    refine ⟨?_, more.before⟩
    intro u member
    obtain ⟨step, u', left, leads⟩ := passed.before u member
    exact ⟨step, u', left, leads.trans more.reached⟩

/-- Requests take steps one after the other, each from where the one before has led. -/
theorem Expects.passed (expects : Expects s entries) (k : Nat) :
    ∃ seen t, s.heads k = .ok seen ∧ Passed s seen t := by
  induction k generalizing s entries with
  | zero => exact ⟨[], s, rfl, .here, .nil, List.forall_mem_nil _, List.forall_mem_nil _⟩
  | succ k ih =>
    obtain ⟨s', next, after⟩ := expects.next
    have initially : Passed s [] s := ⟨.here, .nil, List.forall_mem_nil _, List.forall_mem_nil _⟩
    obtain ⟨seen, answer, s₁, run, again, now⟩ : ∃ seen answer s₁,
        s.run Step.isAnswer (fun seen t => seen ++ [t]) [] = .ok (seen, s₁) ∧
          s.next = .ok (answer, s₁) ∧ Passed s seen s₁ :=
      expects.run_keeps (I := Passed s) Step.isAnswer
        (fun _ _ _ _ running stepped passed => passed.extend running stepped) initially _ none
    obtain ⟨-, rfl⟩ : answer = (founds entries).head? ∧ s₁ = s' := by
      have same := again.symm.trans next
      simpa using same
    obtain ⟨others, t, rest, then_⟩ := ih after
    refine ⟨seen ++ others, t, ?_, now.append then_⟩
    simp [Session.heads, run, next, rest, bind, Except.bind, pure, Except.pure]

/-- Requests take steps only from sessions that steps have led to. -/
theorem Expects.heads (expects : Expects s entries) (k : Nat) :
    ∃ seen, s.heads k = .ok seen ∧ ∀ t ∈ seen, Reached s t ∧ t.exhausted = false := by
  obtain ⟨seen, t, run, passed⟩ := expects.passed k
  exact ⟨seen, run, passed.running⟩

end

section
variable {s : Session} {vars : Nat} {clauses : Array Clause}

theorem Valid.consistent (valid : s.Valid) : Consistent s.clauses s.values.size s where
  depth_le := valid.depth_le
  before := valid.before
  behind := valid.behind
  masks v inside := by
    have inTried : v < s.tried.size := valid.tried_size ▸ inside
    exact ⟨s.tried[v], Array.getElem?_eq_getElem inTried, valid.inTurn _ (Array.getElem_mem inTried)⟩
  watched i c found := by
    have small : i < s.clauses.size := (Array.getElem?_eq_some_iff.1 found).1
    obtain ⟨code, waiting⟩ := mem_listed.1 (valid.watched.once.mem_iff.2 (List.mem_range.2 small))
    obtain ⟨c', found', l, own, rfl, safe⟩ := valid.watched.own waiting
    obtain rfl : c' = c := Option.some.inj (found'.symm.trans found)
    have known : l.var < s.values.size := valid.fits.1 c' (Array.mem_of_getElem? found) l own
    exact ⟨l, own, by rw [isFalse_eq known, decide_eq_false safe], count_line valid.watched.once waiting⟩

/-- For clauses in range that all say something, a session is consistent wherever steps have led to and it
takes another one, so at each step that a request takes. -/
theorem reached_consistent (known : InRange vars clauses) (nonempty : ∀ c ∈ clauses, c.literals ≠ []) :
    ∃ s, start vars clauses = .ok s ∧
      (∀ t, Reached s t → t.exhausted = false → Consistent clauses vars t) ∧
      ∀ k, ∃ seen, s.heads k = .ok seen ∧ ∀ t ∈ seen, Reached s t ∧ t.exhausted = false := by
  obtain ⟨s, run, stands⟩ := start_stands known nonempty
  have expects : Expects s (upcoming clauses vars [] 0) := .stands stands
  refine ⟨s, run, ?_, expects.heads⟩
  intro t reached running
  obtain ⟨later, after⟩ := expects.reached reached
  have consistent := (after.valid running).consistent
  rwa [reached.keeps.1, reached.keeps.2, stands.same_clauses, stands.size] at consistent

/-- Two clauses that share their first literal. -/
theorem reached_consistent_shared :
    InRange 2 #[.ofList [.positive 0, .negative 1], .ofList [.positive 0, .positive 1]] ∧
    (∀ c ∈ #[Clause.ofList [.positive 0, .negative 1], .ofList [.positive 0, .positive 1]],
      c.literals ≠ []) ∧
    ∃ s, start 2 #[.ofList [.positive 0, .negative 1], .ofList [.positive 0, .positive 1]] = .ok s ∧
      (∀ t, Reached s t → t.exhausted = false → Consistent
        #[.ofList [.positive 0, .negative 1], .ofList [.positive 0, .positive 1]] 2 t) ∧
      ∀ k, ∃ seen, s.heads k = .ok seen ∧ ∀ t ∈ seen, Reached s t ∧ t.exhausted = false := by
  have known : InRange 2 #[.ofList [.positive 0, .negative 1], .ofList [.positive 0, .positive 1]] := by
    simp [InRange, Literal.var_positive, Literal.var_negative, UInt64.size]
  have nonempty : ∀ c ∈ #[Clause.ofList [.positive 0, .negative 1], .ofList [.positive 0, .positive 1]],
      c.literals ≠ [] := by
    intro c member empty
    have first : Literal.positive 0 ∈ c.literals := by
      obtain rfl | rfl : c = _ ∨ c = _ := by simpa using member
      all_goals simp
    simp [empty] at first
  exact ⟨known, nonempty, reached_consistent known nonempty⟩

end

end Session

end PropSat
