import PropSat.Proofs.Search.Turning

/-!
What it means that every clause is watched, and that a decision keeps it so. Each clause stands in one
queue, that of one of its own literals, and that literal is not false (`Watched`). From this `unwatch`
answers whether any clause at all is violated, though it looks at the clauses of one queue only.
-/

namespace PropSat.Search

def Conflict (clauses : Array Clause) (values : Values) : Prop :=
  ∃ c ∈ clauses, ∀ l ∈ c.literals, Falsified values l

/-- Every clause stands once in one queue, and watches a literal of its own that is not false. -/
structure Watched (clauses : Array Clause) (values : Values) (watches : Watches) : Prop where
  once : (listed watches).Perm (List.range clauses.size)
  own : ∀ {i code}, i ∈ line watches code →
    ∃ c, clauses[i]? = some c ∧ ∃ l ∈ c.literals, l.code = code ∧ ¬Falsified values l

theorem falsified_falseWhen {values : Values} {v : Nat} (small : v < values.size)
    (representable : 2 * v < UInt64.size) (value : Bool) :
    Falsified (values.set v (some value)) (.falseWhen v value) := by
  cases value with
  | false => simp [Falsified, Literal.falseWhen, Literal.var_positive representable]
  | true => simp [Falsified, Literal.falseWhen, Literal.var_negative representable]

/-- A decision falsifies one literal and no other. -/
theorem falsified_set {values : Values} {v : Nat} {small : v < values.size} {value : Bool} {l : Literal}
    (falsified : Falsified (values.set v (some value)) l) :
    l = .falseWhen v value ∨ Falsified (values.set v none) l := by
  unfold Falsified at *
  by_cases same : v = l.var
  · subst same
    rw [Array.getElem?_set_self small] at falsified
    cases falsified
    exact .inl (Literal.falseWhen_var l).symm
  · rw [Array.getElem?_set_ne small same] at falsified ⊢
    exact .inr falsified

/-- Whatever is false without a decision is false with it, and was false with the one before. -/
theorem Falsified.of_undecided {values : Values} {v : Nat} {small : v < values.size} {l : Literal}
    (falsified : Falsified (values.set v none) l) (value : Option Bool) :
    Falsified (values.set v value) l := by
  unfold Falsified at *
  by_cases same : v = l.var
  · subst same
    rw [Array.getElem?_set_self small] at falsified
    cases falsified
  · rwa [Array.getElem?_set_ne small same] at falsified ⊢

theorem falsified_of_undecided {values : Values} {v : Nat} {small : v < values.size} {l : Literal}
    (falsified : Falsified (values.set v none) l) : Falsified values l := by
  have still := falsified.of_undecided values[v]
  rwa [Array.set_getElem_self] at still

section
variable {clauses : Array Clause} {values : Values} {watches : Watches}

theorem Watched.numbered (watched : Watched clauses values watches) {i code : Nat}
    (waiting : i ∈ line watches code) : i < clauses.size :=
  List.mem_range.1 (watched.once.mem_iff.1 (mem_listed.2 ⟨code, waiting⟩))

theorem Watched.imp (watched : Watched clauses values watches) {fewer : Values}
    (less : ∀ l, Falsified fewer l → Falsified values l) : Watched clauses fewer watches where
  once := watched.once
  own waiting := by
    obtain ⟨c, found, l, own, code, safe⟩ := watched.own waiting
    exact ⟨c, found, l, own, code, fun falsified => safe (less l falsified)⟩

theorem Watched.undecide (watched : Watched clauses values watches) {v : Nat} (small : v < values.size) :
    Watched clauses (values.set v none) watches :=
  watched.imp fun _ => falsified_of_undecided

theorem Watched.not_conflict (watched : Watched clauses values watches) : ¬Conflict clauses values := by
  rintro ⟨c, member, falsified⟩
  obtain ⟨i, small, rfl⟩ := Array.mem_iff_getElem.1 member
  obtain ⟨code, waiting⟩ := mem_listed.1 (watched.once.mem_iff.2 (List.mem_range.2 small))
  obtain ⟨c, found, l, own, -, safe⟩ := watched.own waiting
  rw [Array.getElem?_eq_getElem small, Option.some.injEq] at found
  subst found
  exact safe (falsified l own)

/-- A line that has turned completely leaves every clause watched under the new decision. -/
theorem Watched.settle {v : Nat} {small : v < values.size} {value : Bool}
    (watched : Watched clauses (values.set v none) watches)
    (fits : Fits clauses (values.set v (some value)) watches)
    (turned : (line watches (Literal.falseWhen v value).code).dropWhile
      (canTurn clauses (values.set v (some value))) = []) :
    Watched clauses (values.set v (some value))
      (settled clauses (values.set v (some value)) watches (Literal.falseWhen v value).code) := by
  have inside := fits.falseWhen_lt (by rwa [Array.size_set]) value
  have all := listed_settled fits inside
  rw [turned, List.append_nil] at all
  refine ⟨all.trans watched.once, ?_⟩
  intro i other waiting
  rcases mem_line_settled fits inside waiting with ⟨elsewhere, before⟩ | ⟨l, target, code⟩
  · obtain ⟨c, found, l, own, code, safe⟩ := watched.own before
    have still : ¬Falsified (values.set v (some value)) l := by
      intro falsified
      rcases falsified_set falsified with same | earlier
      · exact elsewhere (by rw [← code, same])
      · exact safe earlier
    exact ⟨c, found, l, own, code, still⟩
  · obtain ⟨c, found, own, safe⟩ := target?_mem target
    exact ⟨c, found, l, own, code, safe⟩

/-- A line that is stuck shows a violated clause; with the rest of it put back every clause is watched
as before the decision. -/
theorem Watched.restore {v : Nat} {small : v < values.size} {value : Bool} {left : Queue}
    (watched : Watched clauses (values.set v none) watches)
    (fits : Fits clauses (values.set v (some value)) watches)
    (rest : left.toList = (line watches (Literal.falseWhen v value).code).dropWhile
      (canTurn clauses (values.set v (some value))))
    (stuck : left.toList ≠ []) :
    Conflict clauses (values.set v (some value)) ∧
      Watched clauses (values.set v none)
        ((settled clauses (values.set v (some value)) watches (Literal.falseWhen v value).code).setIfInBounds
          (Literal.falseWhen v value).code left) := by
  have inside := fits.falseWhen_lt (by rwa [Array.size_set]) value
  generalize (Literal.falseWhen v value).code = code at *
  generalize decided : values.set v (some value) = now at *
  have kept : ∀ i ∈ left.toList, i ∈ line watches code := fun i member =>
    (List.dropWhile_sublist _).subset (rest ▸ member)
  -- the clause in front is violated, and the literal of this queue is one of its own
  obtain ⟨i, front⟩ := Option.isSome_iff_exists.1 (List.isSome_head?.2 stuck)
  have blocked : target? clauses now i = none := target?_of_head? (rest ▸ front)
  obtain ⟨c, found, watchedLiteral, own, here, -⟩ := watched.own (kept i (List.mem_of_mem_head? front))
  have violated := target?_eq_none found blocked
  have emptied : line (settled clauses now watches code) code = [] := by
    subst here
    exact line_settled_self fits inside (violated _ own)
  refine ⟨⟨c, Array.mem_of_getElem? found, violated⟩, ?_⟩
  constructor
  · exact (listed_put_back fits inside emptied rest).trans watched.once
  · intro j other waiting
    rw [Array.setIfInBounds, dif_pos (by rwa [size_settled]), line_set (by rwa [size_settled])] at waiting
    split at waiting
    case isTrue same => exact watched.own (same ▸ kept j waiting)
    case isFalse =>
      rcases mem_line_settled fits inside waiting with ⟨-, before⟩ | ⟨l, target, code⟩
      · exact watched.own before
      · obtain ⟨c, found, own, safe⟩ := target?_mem target
        have still : ¬Falsified (values.set v none) l := by
          intro falsified
          rw [← decided] at safe
          exact safe (falsified.of_undecided (some value))
        exact ⟨c, found, l, own, code, still⟩

/-- After a decision the clauses that watch its false literal tell whether any clause is violated. -/
theorem unwatch_watched (fits : Fits clauses values watches) (watched : Watched clauses values watches)
    {v : Nat} (small : v < values.size) (value : Bool) :
    ∃ rebound watches', unwatch clauses (values.set v (some value)) watches (.falseWhen v value) =
        .ok (rebound, watches') ∧ watches'.size = watches.size ∧
      (if rebound then
        ¬Conflict clauses (values.set v (some value)) ∧
          Watched clauses (values.set v (some value)) watches'
      else
        Conflict clauses (values.set v (some value)) ∧ Watched clauses (values.set v none) watches') := by
  have now : Fits clauses (values.set v (some value)) watches := by simpa only [Fits, Array.size_set] using fits
  have blank := watched.undecide small
  have inside := fits.falseWhen_lt small value
  obtain ⟨left, rest, run⟩ := unwatch_eq now inside fun i waiting => watched.numbered waiting
  by_cases done : left.toList = []
  · have after := blank.settle now (rest ▸ done)
    rw [if_pos done] at run
    exact ⟨true, _, run, by simp, after.not_conflict, after⟩
  · rw [if_neg done] at run
    exact ⟨false, _, run, by simp, blank.restore now rest done⟩

end

end PropSat.Search
