import PropSat.Proofs.Search.Watching
import PropSat.Search.Advance

/-!
The invariant of a session between two steps. Variables before the current one are decided, and have
had false, or both values, by the value they hold; variables behind it are open and have had none. The
current variable may hold the value it had before the search came back to it, and may have had any
number of values, but false before true. Of each kind of step it is said what it does to a session and
that the invariant still holds.
-/

namespace PropSat

open Search

namespace Search

/-- The mask of a variable that holds a value. -/
def had (value : Bool) : UInt8 := if value then 3 else 1

/-- The masks of variables that have false before true. -/
def InTurn (mask : UInt8) : Prop := mask = 0 ∨ mask = 1 ∨ mask = 3

theorem InTurn.zero : InTurn 0 := .inl rfl

theorem InTurn.had (value : Bool) : InTurn (had value) := by
  cases value
  · exact .inr (.inl rfl)
  · exact .inr (.inr rfl)

section
variable {mask : UInt8} {value : Bool} {later : List Bool}

/-- What is tried next tells what has been tried. -/
theorem InTurn.of_next (inTurn : InTurn mask) (next : untried mask = value :: later) :
    mask = if value then 1 else 0 := by
  rcases inTurn with rfl | rfl | rfl <;> cases next <;> rfl

/-- With false before true, what is tried last is what the variable holds. -/
theorem InTurn.or_bit (inTurn : InTurn mask) (next : untried mask = value :: later) :
    mask ||| bit value = Search.had value := by
  rw [inTurn.of_next next]
  cases value <;> rfl

end

/-- The first variables have the values of the list, the others none. -/
def Holds (values : Values) (decided : List Bool) : Prop :=
  ∀ v < values.size, values[v]? = some decided[v]?

theorem Holds.conflict_iff {clauses : Array Clause} {values : Values} {decided : List Bool}
    (holds : Holds values decided) (known : InRange values.size clauses) :
    Conflict clauses values ↔ violated clauses decided = true := by
  rw [violated_iff]
  apply exists_congr
  intro c
  apply and_congr_right
  intro member
  apply forall₂_congr
  intro l own
  rw [Falsified, holds _ (known c member l own), Option.some.injEq]

end Search

namespace Session

/-- What holds of a session before each of its steps. -/
structure Valid (s : Session) : Prop where
  fits : Fits s.clauses s.values s.watches
  tried_size : s.tried.size = s.values.size
  depth_le : s.depth ≤ s.values.size
  before : ∀ v < s.depth, ∃ value,
    s.values[v]? = some (some value) ∧ s.tried[v]? = some (had value)
  behind : ∀ v, s.depth < v → v < s.values.size → s.values[v]? = some none ∧ s.tried[v]? = some 0
  inTurn : ∀ mask ∈ s.tried, InTurn mask
  watched : Watched s.clauses s.values s.watches

def decided (s : Session) : List Bool := s.assignment.take s.depth

section
variable {s : Session}

theorem Valid.length_decided (valid : s.Valid) : s.decided.length = s.depth := by
  have bound := valid.depth_le
  simp only [decided, assignment, List.length_take, List.length_map, Array.length_toList]
  omega

theorem Valid.getElem?_decided (valid : s.Valid) {v : Nat} (small : v < s.depth) :
    s.values[v]? = some s.decided[v]? := by
  obtain ⟨value, found, -⟩ := valid.before v small
  simp [decided, assignment, small, found]

/-- With the current variable set the values are those decided and one more. -/
theorem Valid.holds_set (valid : s.Valid) (small : s.depth < s.values.size) (value : Bool) :
    Holds (s.values.set s.depth (some value)) (s.decided ++ [value]) := by
  intro v inside
  rw [Array.size_set] at inside
  have length := valid.length_decided
  rcases Nat.lt_trichotomy v s.depth with less | rfl | greater
  · rw [Array.getElem?_set_ne small (by omega), valid.getElem?_decided less,
      List.getElem?_append_left (by omega)]
  · rw [Array.getElem?_set_self small, List.getElem?_append_right (by omega), length, Nat.sub_self]
    rfl
  · rw [Array.getElem?_set_ne small (by omega), (valid.behind v greater inside).1,
      List.getElem?_append_right (by omega), List.getElem?_eq_none]
    simp only [List.length_singleton]
    omega

theorem Valid.decided_eq (valid : s.Valid) {values : List Bool} (length : values.length = s.depth)
    (same : ∀ v < s.depth, s.values[v]? = some values[v]?) : s.decided = values := by
  apply List.ext_getElem?
  intro v
  by_cases small : v < s.depth
  · rw [← Option.some.injEq, ← valid.getElem?_decided small, same v small]
  · have own := valid.length_decided
    rw [List.getElem?_eq_none (by omega), List.getElem?_eq_none (by omega)]

/-- Changing one variable and the depth. All other variables have to stay on their side of the current
one, and the changed one must look like the others on its new side. -/
theorem Valid.set (valid : s.Valid) {v : Nat} (small : v < s.values.size)
    (inTried : v < s.tried.size) (value : Option Bool) {mask : UInt8} (inTurn : InTurn mask) (depth : Nat)
    {watches : Watches} (depth_le : depth ≤ s.values.size)
    (others : ∀ w, w ≠ v → (w < depth → w < s.depth) ∧ (depth < w → s.depth < w))
    (earlier : v < depth → ∃ b, value = some b ∧ mask = had b)
    (later : depth < v → value = none ∧ mask = 0)
    (size : watches.size = s.watches.size)
    (watched : Watched s.clauses (s.values.set v value) watches) :
    Valid { s with
      watches, depth, values := s.values.set v value, tried := s.tried.set v mask } where
  fits := by
    have fits := valid.fits
    simpa only [Fits, Array.size_set, size] using fits
  tried_size := by simpa only [Array.size_set] using valid.tried_size
  depth_le := by simpa only [Array.size_set] using depth_le
  before w less := by
    dsimp only at less ⊢
    by_cases same : w = v
    · subst same
      obtain ⟨b, rfl, rfl⟩ := earlier less
      exact ⟨b, Array.getElem?_set_self small, Array.getElem?_set_self inTried⟩
    · rw [Array.getElem?_set_ne small (Ne.symm same), Array.getElem?_set_ne inTried (Ne.symm same)]
      exact valid.before w ((others w same).1 less)
  behind w less inside := by
    dsimp only at less inside ⊢
    rw [Array.size_set] at inside
    by_cases same : w = v
    · subst same
      obtain ⟨rfl, rfl⟩ := later less
      exact ⟨Array.getElem?_set_self small, Array.getElem?_set_self inTried⟩
    · rw [Array.getElem?_set_ne small (Ne.symm same), Array.getElem?_set_ne inTried (Ne.symm same)]
      exact valid.behind w ((others w same).2 less) inside
  inTurn m member := by
    dsimp only at member
    rcases Array.mem_or_eq_of_mem_set member with old | rfl
    · exact valid.inTurn m old
    · exact inTurn
  watched := watched

/-! The steps as equations, each with what decides for it. -/

theorem advance_complete (complete : s.depth = s.values.size) :
    s.advance = .ok (.found,
      { s with depth := s.depth - 1, exhausted := s.exhausted || s.depth == 0 }) := by
  obtain ⟨clauses, watches, values, tried, depth, exhausted⟩ := s
  dsimp only at complete
  cases depth <;> simp [advance, ← complete]

theorem advance_kept (small : s.depth < s.values.size) (inTried : s.depth < s.tried.size)
    {mask : UInt8} {value : Bool} {later : List Bool} {watches : Watches}
    (read : s.tried[s.depth]? = some mask) (next : untried mask = value :: later)
    (run : unwatch s.clauses (s.values.set s.depth (some value)) s.watches (.falseWhen s.depth value) =
      .ok (true, watches)) :
    s.advance = .ok (.descended, { s with
      watches, depth := s.depth + 1, values := s.values.set s.depth (some value)
      tried := s.tried.set s.depth (mask ||| bit value) }) := by
  obtain ⟨clauses, watches, values, tried, depth, exhausted⟩ := s
  dsimp only at small inTried read run ⊢
  simp [advance, Nat.ne_of_lt small, fetch_eq_ok.2 read, next, store, inTried, small, run, bind,
    Except.bind, pure, Except.pure]

theorem advance_refused (small : s.depth < s.values.size) (inTried : s.depth < s.tried.size)
    {mask : UInt8} {value : Bool} {later : List Bool} {watches : Watches}
    (read : s.tried[s.depth]? = some mask) (next : untried mask = value :: later)
    (run : unwatch s.clauses (s.values.set s.depth (some value)) s.watches (.falseWhen s.depth value) =
      .ok (false, watches)) :
    s.advance = .ok (.failed, { s with
      watches, values := s.values.set s.depth none, tried := s.tried.set s.depth (mask ||| bit value) }) := by
  obtain ⟨clauses, watches, values, tried, depth, exhausted⟩ := s
  dsimp only at small inTried read run ⊢
  simp [advance, Nat.ne_of_lt small, fetch_eq_ok.2 read, next, store, inTried, small, run, bind,
    Except.bind, pure, Except.pure]

theorem advance_finished (small : s.depth < s.values.size) {mask : UInt8}
    (read : s.tried[s.depth]? = some mask) (spent : untried mask = []) (first : s.depth = 0) :
    s.advance = .ok (.finished, { s with exhausted := true }) := by
  obtain ⟨clauses, watches, values, tried, depth, exhausted⟩ := s
  dsimp only at small read first
  subst first
  simp [advance, Nat.ne_of_lt small, fetch_eq_ok.2 read, spent, bind, Except.bind, pure, Except.pure]

theorem advance_back {v : Nat} (here : s.depth = v + 1) (small : v + 1 < s.values.size)
    (inTried : v + 1 < s.tried.size) {mask : UInt8} (read : s.tried[v + 1]? = some mask)
    (spent : untried mask = []) :
    s.advance = .ok (.backtracked, { s with
      depth := v, values := s.values.set (v + 1) none, tried := s.tried.set (v + 1) 0 }) := by
  obtain ⟨clauses, watches, values, tried, depth, exhausted⟩ := s
  dsimp only at here small inTried read ⊢
  subst here
  simp [advance, Nat.ne_of_lt small, fetch_eq_ok.2 read, spent, store, inTried, small, bind,
    Except.bind, pure, Except.pure]

end

/-- Where a running session stands: it has decided the first variables, and the next one has this
mask. -/
structure Stands (clauses : Array Clause) (vars : Nat) (decided : List Bool) (mask : UInt8)
    (s : Session) : Prop where
  valid : s.Valid
  running : s.exhausted = false
  same_clauses : s.clauses = clauses
  size : s.values.size = vars
  same_decided : s.decided = decided
  same_mask : s.depth < vars → s.tried[s.depth]? = some mask

section
variable {s : Session} {clauses : Array Clause} {vars : Nat} {decided : List Bool} {mask : UInt8}

theorem Stands.length (stands : Stands clauses vars decided mask s) : decided.length = s.depth := by
  rw [← stands.same_decided, stands.valid.length_decided]

theorem Stands.inTurn (stands : Stands clauses vars decided mask s) (small : s.depth < vars) : InTurn mask :=
  stands.valid.inTurn mask (Array.mem_of_getElem? (stands.same_mask small))

theorem Stands.last {value : Bool} (stands : Stands clauses vars (decided ++ [value]) mask s) :
    s.tried[decided.length]? = some (had value) := by
  have length := stands.length
  rw [List.length_append, List.length_singleton] at length
  obtain ⟨own, found, tried⟩ := stands.valid.before decided.length (by omega)
  have known := stands.valid.getElem?_decided (v := decided.length) (by omega)
  rw [found, stands.same_decided, List.getElem?_concat_length] at known
  rw [tried, Option.some.inj (Option.some.inj known)]

theorem Stands.decided_concat {value : Bool} (stands : Stands clauses vars (decided ++ [value]) mask s)
    {v : Nat} (small : v < decided.length) : s.values[v]? = some decided[v]? := by
  have length := stands.length
  rw [List.length_append, List.length_singleton] at length
  rw [stands.valid.getElem?_decided (by omega), stands.same_decided, List.getElem?_append_left small]

/-- A found assignment leaves its last variable where it was, and the search goes on from there. -/
theorem Stands.advance_found {value : Bool} (stands : Stands clauses vars (decided ++ [value]) mask s)
    (complete : s.depth = vars) :
    ∃ s', s.advance = .ok (.found, s') ∧ Stands clauses vars decided (had value) s' := by
  have length := stands.length
  have last := stands.last
  have same := fun v small => stands.decided_concat (v := v) small
  rw [List.length_append, List.length_singleton] at length
  obtain ⟨valid, running, rfl, rfl, -, -⟩ := stands
  have back : s.depth - 1 = decided.length := by omega
  have open_ : (s.exhausted || s.depth == 0) = false := by rw [running, ← length]; rfl
  have run := advance_complete complete
  rw [back, open_] at run
  have stepped : Valid { s with depth := decided.length, exhausted := false } := {
    fits := valid.fits
    tried_size := valid.tried_size
    depth_le := by dsimp only; omega
    before := fun v small => valid.before v (by dsimp only at small; omega)
    behind := fun v less inside => by dsimp only at less inside; omega
    inTurn := valid.inTurn
    watched := valid.watched }
  exact ⟨_, run, stepped, rfl, rfl, rfl, stepped.decided_eq rfl same, fun _ => last⟩

theorem Stands.advance_attempt (stands : Stands clauses vars decided mask s) (small : s.depth < vars)
    {value : Bool} {later : List Bool} (next : untried mask = value :: later) :
    ∃ s', if violated clauses (decided ++ [value]) then
        s.advance = .ok (.failed, s') ∧ Stands clauses vars decided (had value) s'
      else
        s.advance = .ok (.descended, s') ∧ Stands clauses vars (decided ++ [value]) 0 s' := by
  have read := stands.same_mask small
  have tried : mask ||| bit value = had value := (stands.inTurn small).or_bit next
  have inTurn : InTurn (mask ||| bit value) := tried ▸ InTurn.had value
  have length := stands.length
  obtain ⟨valid, running, rfl, rfl, rfl, -⟩ := stands
  have inTried : s.depth < s.tried.size := valid.tried_size ▸ small
  have holds := valid.holds_set small value
  have conflict := holds.conflict_iff (by simpa only [Array.size_set] using valid.fits.1)
  obtain ⟨rebound, watches, run, size, after⟩ := unwatch_watched valid.fits valid.watched small value
  cases rebound with
  | true =>
    -- the value stays, and the next variable has had no value yet
    obtain ⟨safe, watched⟩ := after
    rw [conflict] at safe
    have kept := valid.set small inTried (some value) inTurn (s.depth + 1) small
      (fun w other => by omega) (fun _ => ⟨value, rfl, tried⟩) (by omega) size watched
    simp only [if_neg safe]
    refine ⟨_, advance_kept small inTried read next run, kept, running, rfl, Array.size_set small, ?_, ?_⟩
    · apply kept.decided_eq (by simp [length])
      intro v less
      apply holds v
      rw [Array.size_set]
      exact Nat.lt_of_lt_of_le less small
    · intro inside
      rw [Array.getElem?_set_ne inTried (by dsimp only; omega)]
      exact (valid.behind (s.depth + 1) (Nat.lt_succ_self _) inside).2
  | false =>
    -- the value is taken back, and counts as tried
    obtain ⟨violation, watched⟩ := after
    rw [conflict] at violation
    have refused := valid.set small inTried none inTurn s.depth valid.depth_le
      (fun w _ => ⟨id, id⟩) (by omega) (by omega) size watched
    simp only [if_pos violation]
    refine ⟨_, advance_refused small inTried read next run, refused, running, rfl, Array.size_set small, ?_, ?_⟩
    · apply refused.decided_eq length
      intro v less
      rw [Array.getElem?_set_ne small (Nat.ne_of_gt less)]
      exact valid.getElem?_decided less
    · intro _
      rw [Array.getElem?_set_self inTried, tried]

theorem Stands.advance_back {value : Bool} (stands : Stands clauses vars (decided ++ [value]) mask s)
    (small : s.depth < vars) (spent : untried mask = []) :
    ∃ s', s.advance = .ok (.backtracked, s') ∧ Stands clauses vars decided (had value) s' := by
  have length := stands.length
  have last := stands.last
  have same := fun v small => stands.decided_concat (v := v) small
  have read := stands.same_mask small
  rw [List.length_append, List.length_singleton] at length
  obtain ⟨valid, running, rfl, rfl, -, -⟩ := stands
  rw [← length] at small read
  have inTried : decided.length + 1 < s.tried.size := valid.tried_size ▸ small
  have back := valid.set small inTried none .zero decided.length
    (by omega) (fun w other => by omega) (by omega) (fun _ => ⟨rfl, rfl⟩) rfl (valid.watched.undecide small)
  refine ⟨_, Session.advance_back length.symm small inTried read spent, back, running, rfl,
    Array.size_set small, ?_, ?_⟩
  · apply back.decided_eq rfl
    intro v less
    rw [Array.getElem?_set_ne small (by dsimp only at less; omega)]
    exact same v less
  · intro _
    rw [Array.getElem?_set_ne inTried (by dsimp only; omega)]
    exact last

end

end Session

end PropSat
