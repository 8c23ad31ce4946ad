import PropSat.Search.Session

/-!
One step of a session, and why steps cannot go on forever. Read the numbers of values still to be tried
for the variables up to the current one as the digits of a number, the first variable most
significant: trying a value makes the number smaller, and going back leaves it and makes the depth
smaller (`rank_advance`).
-/

namespace PropSat

namespace Search

inductive Step where
  | found
  | descended
  | failed
  | backtracked
  | finished
  deriving DecidableEq

end Search

namespace Session

open Search

/-- One step. With all variables decided the assignment is found, and the search steps back so that the
next step tries the last variable's other value. Otherwise the current variable gets the next value it
has not had, and either every clause can still be watched or the variable is undecided again. With no
value left the search goes back one variable, or ends. -/
@[inline]
def advance : Session → Except Fault (Step × Session)
  | ⟨clauses, watches, values, tried, depth, exhausted⟩ =>
    if depth = values.size then
      match depth with
      | 0 => .ok (.found, ⟨clauses, watches, values, tried, 0, true⟩)
      | v + 1 => .ok (.found, ⟨clauses, watches, values, tried, v, exhausted⟩)
    else do
      let mask ← fetch tried depth
      match untried mask with
      | value :: _ =>
        let tried ← store tried depth (mask ||| bit value)
        let values ← store values depth (some value)
        match ← unwatch clauses values watches (.falseWhen depth value) with
        | (true, watches) =>
          return (.descended, ⟨clauses, watches, values, tried, depth + 1, exhausted⟩)
        | (false, watches) =>
          let values ← store values depth none
          return (.failed, ⟨clauses, watches, values, tried, depth, exhausted⟩)
      | [] =>
        match depth with
        | 0 => return (.finished, ⟨clauses, watches, values, tried, 0, true⟩)
        | v + 1 =>
          let tried ← store tried (v + 1) 0
          let values ← store values (v + 1) none
          return (.backtracked, ⟨clauses, watches, values, tried, v, exhausted⟩)

/-- How many values of a variable are still to be tried. -/
def choices (tried : Array UInt8) (v : Nat) : Nat :=
  match tried[v]? with
  | some mask => (untried mask).length
  | none => 0

/-- What a digit counts with `k` digits behind it. -/
def place : Nat → Nat
  | 0 => 1
  | k + 1 => 3 * place k

theorem place_pos (k : Nat) : 0 < place k := by
  induction k with
  | zero => decide
  | succ k ih => rw [place]; omega

/-- The first `k` digits of the number of values still to be tried. -/
def openWork (tried : Array UInt8) (vars : Nat) : Nat → Nat
  | 0 => 0
  | k + 1 => openWork tried vars k + choices tried k * place (vars - k)

/-- What a session still has before it; each step makes it smaller. -/
def rank (s : Session) : Nat × Nat :=
  (openWork s.tried s.values.size (min (s.depth + 1) s.values.size),
    s.depth + if s.exhausted then 0 else 1)

theorem choices_le (tried : Array UInt8) (v : Nat) : choices tried v ≤ 2 := by
  unfold choices
  split
  · exact length_untried_le _
  · omega

theorem openWork_congr {before after : Array UInt8} {vars k : Nat}
    (same : ∀ v < k, after[v]? = before[v]?) :
    openWork after vars k = openWork before vars k := by
  induction k with
  | zero => rfl
  | succ k ih =>
    rw [openWork, openWork, ih fun v small => same v (by omega), choices, choices,
      same k (by omega)]

/-- Using up a value of the current variable outweighs a fresh variable behind it. -/
theorem openWork_descend {before after : Array UInt8} {n v : Nat} (small : v < n)
    (others : ∀ w, w < v → after[w]? = before[w]?)
    (less : choices after v + 1 = choices before v) :
    openWork after n (min (v + 2) n) < openWork before n (v + 1) := by
  have digits : openWork after n v = openWork before n v := openWork_congr others
  rw [openWork, ← less, Nat.add_mul, Nat.one_mul]
  by_cases last : v + 2 ≤ n
  · rw [Nat.min_eq_left last, openWork, openWork, digits]
    have next := Nat.mul_le_mul_right (place (n - (v + 1))) (choices_le after (v + 1))
    have behind : n - v = n - (v + 1) + 1 := by omega
    have current : place (n - v) = 3 * place (n - (v + 1)) := by rw [behind, place]
    have pos := place_pos (n - (v + 1))
    omega
  · have only : min (v + 2) n = v + 1 := by omega
    have pos := place_pos (n - v)
    rw [only, openWork, digits]
    omega

theorem openWork_attempt {before after : Array UInt8} {n v : Nat}
    (others : ∀ w, w < v → after[w]? = before[w]?)
    (less : choices after v + 1 = choices before v) :
    openWork after n (v + 1) < openWork before n (v + 1) := by
  have pos := place_pos (n - v)
  rw [openWork, openWork, openWork_congr others, ← less, Nat.add_mul]
  omega

theorem lex_of_le {a a' b b' : Nat} (ha : a' ≤ a) (hb : b' < b) :
    Prod.Lex (· < ·) (· < ·) (a', b') (a, b) := by
  rcases Nat.lt_or_eq_of_le ha with less | rfl
  · exact Prod.Lex.left _ _ less
  · exact Prod.Lex.right _ hb

/-- Every step of a session that is not exhausted leaves less to do. -/
theorem rank_advance {s s' : Session} {step : Step} (running : s.exhausted = false)
    (stepped : s.advance = .ok (step, s')) :
    Prod.Lex (· < ·) (· < ·) s'.rank s.rank := by
  obtain ⟨clauses, watches, values, tried, depth, exhausted⟩ := s
  cases running
  dsimp only [advance] at stepped
  split at stepped
  case isTrue complete =>
    split at stepped <;> cases stepped
    case h_1 => exact Prod.Lex.right _ (by simp)
    case h_2 v =>
      have same : min (v + 1) values.size = min (v + 1 + 1) values.size := by omega
      simp only [rank, same]
      exact Prod.Lex.right _ (by simp)
  case isFalse incomplete =>
    obtain ⟨mask, read, stepped⟩ := bind_eq_ok.1 stepped
    have read := fetch_eq_ok.1 read
    split at stepped
    case h_1 value later next =>
      simp only [bind_eq_ok, store_eq_ok] at stepped
      obtain ⟨tried', ⟨inTried, rfl⟩, values', ⟨inValues, rfl⟩, ⟨rebound, watches'⟩, -, stepped⟩ :=
        stepped
      have others : ∀ w, w < depth → (tried.set depth (mask ||| bit value))[w]? = tried[w]? :=
        fun w small => Array.getElem?_set_ne inTried (by omega)
      have less : choices (tried.set depth (mask ||| bit value)) depth + 1 = choices tried depth := by
        simp only [choices, read, Array.getElem?_set_self, untried_next next, next, List.length_cons]
      have now : min (depth + 1) values.size = depth + 1 := by omega
      cases rebound with
      | true =>
        cases stepped
        simp only [rank, Array.size_set, now]
        exact Prod.Lex.left _ _ (openWork_descend inValues others less)
      | false =>
        simp only [bind_eq_ok, store_eq_ok] at stepped
        obtain ⟨values', ⟨_, rfl⟩, stepped⟩ := stepped
        cases stepped
        simp only [rank, Array.size_set, now]
        exact Prod.Lex.left _ _ (openWork_attempt others less)
    case h_2 spent =>
      cases depth with
      | zero =>
        cases stepped
        exact Prod.Lex.right _ (by simp)
      | succ v =>
        simp only [bind_eq_ok, store_eq_ok] at stepped
        obtain ⟨tried', ⟨_, rfl⟩, values', ⟨inValues, rfl⟩, stepped⟩ := stepped
        cases stepped
        have now : min (v + 1 + 1) values.size = v + 1 + 1 := by omega
        have previous : min (v + 1) values.size = v + 1 := by omega
        simp only [rank, Array.size_set, now, previous]
        refine lex_of_le ?_ (by simp)
        rw [openWork_congr fun w small => Array.getElem?_set_ne _ (by omega)]
        exact Nat.le_add_right _ _

end Session

end PropSat
