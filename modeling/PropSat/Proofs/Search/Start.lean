import Mathlib.Data.List.Induction
import PropSat.Proofs.Search.Invariant

/-!
The beginning of a session. Clauses in range are entered one by one, each hung on its first literal; a
clause without literals leaves nothing to search for.
-/

namespace PropSat.Session

open Search

section
variable {vars : Nat}

theorem enter_nil (watches : Watches) (exhausted : Bool) {c : Clause} (empty : c.literals = []) (i : Nat) :
    enter vars (watches, exhausted) (c, i) = .ok (watches, true) := by
  simp [enter, empty]

theorem enter_cons {watches : Watches} (size : watches.size = 2 * vars) (exhausted : Bool) {c : Clause}
    {l : Literal} {others : List Literal} (literals : c.literals = l :: others)
    (known : ∀ l ∈ c.literals, l.var < vars) (i : Nat) :
    enter vars (watches, exhausted) (c, i) = .ok (hang watches i l, exhausted) := by
  have first : l.var < vars := known l (literals ▸ List.mem_cons_self)
  have inside : l.code < watches.size := by rw [Literal.var] at first; omega
  have all : c.literals.all (·.var < vars) = true := by simpa using known
  rw [literals] at all
  simp only [enter, literals, if_pos all, watch_eq inside, bind, Except.bind, pure, Except.pure]

/-- How far the clauses of a list have been entered. -/
structure Entered (vars : Nat) (clauses : List Clause) (watches : Watches) (exhausted : Bool) : Prop where
  size : watches.size = 2 * vars
  empty : exhausted = true ↔ ∃ c ∈ clauses, c.literals = []
  once : exhausted = false → (listed watches).Perm (List.range clauses.length)
  own : ∀ {i code}, i ∈ line watches code →
    ∃ c, clauses[i]? = some c ∧ ∃ l ∈ c.literals, l.code = code

theorem entered_nil : Entered vars [] (Array.replicate (2 * vars) Queue.empty) false where
  size := Array.size_replicate
  empty := by simp
  once _ := by simp [listed]
  own waiting := by
    have nowhere := mem_listed.2 ⟨_, waiting⟩
    simp [listed] at nowhere

theorem Entered.enter {clauses : List Clause} {watches : Watches} {exhausted : Bool}
    (entered : Entered vars clauses watches exhausted) {c : Clause}
    (known : ∀ l ∈ c.literals, l.var < vars) :
    ∃ watches' exhausted', enter vars (watches, exhausted) (c, clauses.length) =
        .ok (watches', exhausted') ∧ Entered vars (clauses ++ [c]) watches' exhausted' := by
  have earlier : ∀ {i code}, i ∈ line watches code →
      ∃ c', (clauses ++ [c])[i]? = some c' ∧ ∃ l ∈ c'.literals, l.code = code := fun waiting => by
    obtain ⟨c', found, own⟩ := entered.own waiting
    exact ⟨c', by rw [List.getElem?_append_left (List.getElem?_eq_some_iff.1 found).1, found], own⟩
  cases literals : c.literals with
  | nil =>
    exact ⟨_, _, enter_nil watches exhausted literals _, entered.size, by simp [literals], by simp, earlier⟩
  | cons l others =>
    have first : l.var < vars := known l (literals ▸ List.mem_cons_self)
    have size := entered.size
    have inside : l.code < watches.size := by rw [Literal.var] at first; omega
    refine ⟨_, _, enter_cons size exhausted literals known _, ?_⟩
    constructor
    case size => rw [size_hang, size]
    case empty =>
      rw [entered.empty]
      simp [literals, or_and_right, exists_or]
    case once =>
      intro running
      have hung := (listed_hang inside clauses.length).trans ((entered.once running).cons _)
      rw [List.length_append, List.length_singleton, List.range_succ]
      exact hung.trans (List.perm_append_singleton _ _).symm
    case own =>
      intro i code waiting
      rw [line_hang inside] at waiting
      split at waiting
      case isFalse => exact earlier waiting
      case isTrue same =>
        rcases List.mem_append.1 waiting with before | new
        · exact earlier before
        · rw [List.mem_singleton.1 new]
          exact ⟨c, List.getElem?_concat_length, l, literals ▸ List.mem_cons_self, same.symm⟩

theorem enter_all {clauses : List Clause} (known : ∀ c ∈ clauses, ∀ l ∈ c.literals, l.var < vars) :
    ∃ watches exhausted, clauses.zipIdx.foldlM (enter vars)
        (Array.replicate (2 * vars) Queue.empty, false) = .ok (watches, exhausted) ∧
      Entered vars clauses watches exhausted := by
  induction clauses using List.reverseRecOn with
  | nil => exact ⟨_, _, rfl, entered_nil⟩
  | append_singleton clauses c ih =>
    obtain ⟨watches, exhausted, run, entered⟩ := ih fun c member => known c (List.mem_append_left _ member)
    obtain ⟨watches', exhausted', last, entered'⟩ := entered.enter (known c (by simp))
    refine ⟨watches', exhausted', ?_, entered'⟩
    simp [List.zipIdx_append, List.foldlM_append, run, last, bind, Except.bind, pure, Except.pure]

end

section
variable {vars : Nat} {clauses : Array Clause}

/-- Clauses in range always begin a session; it is exhausted at once when a clause is empty. -/
theorem start_eq (known : InRange vars clauses) :
    ∃ watches exhausted, Entered vars clauses.toList watches exhausted ∧
      start vars clauses = .ok {
        clauses, watches, exhausted
        values := Array.replicate vars none
        tried := Array.replicate vars 0
        depth := 0 } := by
  have listed : ∀ c ∈ clauses.toList, ∀ l ∈ c.literals, l.var < vars := by
    intro c member
    exact known c (Array.mem_toList_iff.1 member)
  obtain ⟨watches, exhausted, run, entered⟩ := enter_all listed
  exact ⟨watches, exhausted, entered, by simp [start, run, bind, Except.bind, pure, Except.pure]⟩

theorem start_empty (known : InRange vars clauses) (empty : ∃ c ∈ clauses, c.literals = []) :
    ∃ s, start vars clauses = .ok s ∧ s.exhausted = true := by
  obtain ⟨watches, exhausted, entered, run⟩ := start_eq known
  exact ⟨_, run, entered.empty.2 (by simpa using empty)⟩

theorem start_stands (known : InRange vars clauses) (nonempty : ∀ c ∈ clauses, c.literals ≠ []) :
    ∃ s, start vars clauses = .ok s ∧ Stands clauses vars [] 0 s := by
  obtain ⟨watches, exhausted, entered, run⟩ := start_eq known
  have running : exhausted = false := by
    rw [Bool.eq_false_iff, ne_eq, entered.empty]
    rintro ⟨c, member, empty⟩
    exact nonempty c (Array.mem_toList_iff.1 member) empty
  have watched : Watched clauses (Array.replicate vars none) watches := by
    constructor
    case once => simpa using entered.once running
    case own =>
      intro i code waiting
      obtain ⟨c, found, l, own, same⟩ := entered.own waiting
      have undecided : ¬Falsified (Array.replicate vars none) l := by
        intro falsified
        simp [Falsified, Array.getElem?_replicate] at falsified
      exact ⟨c, by simpa using found, l, own, same, undecided⟩
  have valid : Valid {
      clauses, watches, exhausted
      values := Array.replicate vars none
      tried := Array.replicate vars 0
      depth := 0 } := by
    constructor
    case fits => exact ⟨by simpa using known, by simpa using entered.size⟩
    case tried_size => simp
    case depth_le => simp
    case before => simp
    case behind =>
      intro v _ inside
      simpa [Array.getElem?_replicate] using inside
    case inTurn =>
      intro mask member
      rw [(Array.mem_replicate.1 member).2]
      exact .zero
    case watched => exact watched
  exact ⟨_, run, valid, running, rfl, Array.size_replicate, rfl, fun inside => by
    rw [Array.getElem?_replicate, if_pos inside]⟩

end

end PropSat.Session
